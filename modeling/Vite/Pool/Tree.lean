import Vite.Pool.Branch

/-!
# The fork tree of the block pool (ledger/pool/tree/branch.go, tree_impl.go, checker.go)

A `tree` holds the pool's branches by id. Each `branch` is a `branchBase` that hangs from a
`root` (the chain on disk, or another branch) and lists the branches that hang from it. The
main branch hangs from the disk, its tail at the disk's head. Reading a knot at a height walks
from a branch up its roots (`getKnotAndBranch`); forking, adding heads, switching the main
branch, pruning and removing branches move knots between bases and rewire roots and children.

The model keeps the Go code's order of effects: a call that panics is `none`, and a call that
returns an error returns it together with every change made before it. The loops over a
branch's roots (`getKnotAndBranch`, `exchangeAllRoot`, the recursion of `prune`, `checkTreeRing`)
run on fuel; running out is `none`, as a loop or a recursion that does not end. Go maps iterated
in no fixed order (`branchList`, `children`) are lists: the children in the order they were
added, the branch list in an order the caller passes. The time a branch was last touched is a
predicate `stale`, the twenty minutes of `isGarbage`.
-/

namespace Vite.Pool

/-- What a branch hangs from, as `Branch.Type()` tells them apart: the chain on disk, or a branch
of the tree by id. -/
inductive Ref where
  | disk
  | br (id : ℕ)
  deriving DecidableEq, Repr

/-- `branch`: a base, what it hangs from, and the ids of the branches hanging from it. -/
structure branch (H : Type) where
  base : branchBase H
  root : Ref
  children : List ℕ

/-- The chain on disk as the tree reads it (`branchChain`): its blocks by height, and its head. -/
structure Disk (H : Type) where
  getBlock : ℕ → Option (Knot H)
  head : ℕ × H

/-- `tree`: the branches by id, the registered ones, the main branch, the last id handed out and
the hash index. Ids past `idIdx` have not been handed out; nothing refers to them. -/
structure tree (H : Type) where
  branches : ℕ → branch H
  branchList : List ℕ
  main : ℕ
  idIdx : ℕ
  hashes : List H

namespace tree

variable {H : Type}

def get (t : tree H) (id : ℕ) : branch H := t.branches id

def set (t : tree H) (id : ℕ) (b : branch H) : tree H := { t with branches := Function.update t.branches id b }

def setBase (t : tree H) (id : ℕ) (b : branchBase H) : tree H := t.set id { t.get id with base := b }

def setRoot (t : tree H) (id : ℕ) (r : Ref) : tree H := t.set id { t.get id with root := r }

/-- `addChild`: `children[b.ID()] = b`. -/
def addChild (t : tree H) (self child : ℕ) : tree H :=
  t.set self { t.get self with children := (t.get self).children.insert child }

/-- `removeChild`: `delete(children, b.ID())`. -/
def removeChild (t : tree H) (self child : ℕ) : tree H :=
  t.set self { t.get self with children := (t.get self).children.erase child }

def addBranch (t : tree H) (id : ℕ) : tree H := { t with branchList := t.branchList.insert id }

/-- `delete(self.branchList, id)`. -/
def deleteBranch (t : tree H) (id : ℕ) : tree H := { t with branchList := t.branchList.erase id }

/-- `isLeafBranch`. -/
def isLeafBranch (b : branch H) : Bool := b.children.isEmpty

/-- `HeadHH` of what a branch hangs from. -/
def HeadHH (t : tree H) (d : Disk H) : Ref → ℕ × H
  | .disk => d.head
  | .br id => ((t.get id).base.headHeight, (t.get id).base.headHash)

/-- The loop of `getKnotAndBranch` up the roots: the first of them that holds a knot at `height`,
stopping at the disk and at a branch seen before (`refers`). -/
def walk (t : tree H) (d : Disk H) (height : ℕ) : ℕ → List ℕ → Ref → Option (Knot H × Ref)
  | 0, _, _ => none
  | _ + 1, _, .disk => (d.getBlock height).map (·, .disk)
  | n + 1, refers, .br id =>
    match (t.get id).base.getHeightBlock height with
    | some k => some (k, .br id)
    | none => if id ∈ refers then none else t.walk d height n (id :: refers) (t.get id).root

/-- `getKnotAndBranch`: nothing above the head; the branch's own knot; else the walk up its roots.
Every id is seen at most once, so `idIdx + 2` rounds are enough. -/
def getKnotAndBranch (t : tree H) (d : Disk H) (self height : ℕ) : Option (Knot H × Ref) :=
  if height > (t.get self).base.headHeight then none
  else
    match (t.get self).base.getHeightBlock height with
    | some k => some (k, .br self)
    | none => t.walk d height (t.idIdx + 2) [] (t.get self).root

/-- `getKnot`: the branch's own knot, or with `flag` the one `getKnotAndBranch` finds. -/
def getKnot (t : tree H) (d : Disk H) (self height : ℕ) (flag : Bool) : Option (Knot H) :=
  match (t.get self).base.getHeightBlock height with
  | some k => some k
  | none => if flag then (t.getKnotAndBranch d self height).map Prod.fst else none

/-- `Branch.GetKnot`: the disk ignores `flag`. -/
def GetKnot (t : tree H) (d : Disk H) : Ref → ℕ → Bool → Option (Knot H)
  | .disk, h, _ => d.getBlock h
  | .br id, h, flag => t.getKnot d id h flag

/-- `Branch.GetKnotAndBranch`. The disk answers `(GetKnot, disk)` also when there is no block; no
caller reads the branch then, and that answer is `none` here. -/
def GetKnotAndBranch (t : tree H) (d : Disk H) : Ref → ℕ → Option (Knot H × Ref)
  | .disk, h => (d.getBlock h).map (·, .disk)
  | .br id, h => t.getKnotAndBranch d id h

/-- `localContains`: a knot of that hash stored strictly above the tail. -/
def localContains (b : branchBase H) (height : ℕ) [DecidableEq H] (hash : H) : Bool :=
  if height > b.tailHeight ∧ height ≤ b.headHeight then
    match b.getHeightBlock height with
    | some k => k.Hash = hash
    | none => false
  else false

variable [DecidableEq H]

/-- `contains`: locally, or with `flag` through the root's `GetKnot`. -/
def contains (t : tree H) (d : Disk H) (self height : ℕ) (hash : H) (flag : Bool) : Bool :=
  if localContains (t.get self).base height hash then true
  else if !flag then false
  else
    match t.GetKnot d (t.get self).root height flag with
    | none => false
    | some k => k.Hash = hash

/-- `Branch.ContainsKnot`: the disk's panics ("implement me"). -/
def ContainsKnot (t : tree H) (d : Disk H) : Ref → ℕ → H → Bool → Option Bool
  | .disk, _, _, _ => none
  | .br id, h, hash, flag => some (t.contains d id h hash flag)

/-- `Linked`: the branch's tail is the head of `root`. -/
def Linked (t : tree H) (d : Disk H) (self : ℕ) (root : Ref) : Bool :=
  (t.get self).base.tailHeight = (t.HeadHH d root).1 ∧ (t.get self).base.tailHash = (t.HeadHH d root).2

/-- `tailEquals`. -/
def tailEquals (b1 b2 : branchBase H) : Bool := b1.tailHeight = b2.tailHeight ∧ b1.tailHash = b2.tailHash

def knotRemove (t : tree H) (k : Knot H) : tree H := { t with hashes := t.hashes.erase k.Hash }

/-- `hashes.Store(k.Hash(), true)`. -/
def storeHash (t : tree H) (k : Knot H) : tree H := { t with hashes := t.hashes.insert k.Hash }

/-- `Exists`. -/
def Exists (t : tree H) (hash : H) : Bool := hash ∈ t.hashes

/-! ## Roots and children -/

/-- `if r.Type() == Normal { r.(*branch).removeChild(child) }`. -/
def removeChildOf (t : tree H) (r : Ref) (child : ℕ) : tree H :=
  match r with
  | .br o => t.removeChild o child
  | .disk => t

/-- `if r.Type() == Normal { r.(*branch).addChild(child) }`. -/
def addChildOf (t : tree H) (r : Ref) (child : ℕ) : tree H :=
  match r with
  | .br n => t.addChild n child
  | .disk => t

/-- `updateRootSimple`: `self` leaves `old`'s children and hangs from `new`. -/
def updateRootSimple (t : tree H) (self : ℕ) (old new : Ref) : tree H :=
  ((t.removeChildOf old self).setRoot self new).addChildOf new self

/-- The first of `targets` whose `ContainsKnot(height, hash, true)` holds; none is a panic. -/
def firstHolder (t : tree H) (d : Disk H) (height : ℕ) (hash : H) : List Ref → Option Ref
  | [] => none
  | r :: rs => do
    let c ← t.ContainsKnot d r height hash true
    if c then some r else t.firstHolder d height hash rs

/-- The loop over a snapshot of `self`'s children shared by `updateRoot` and
`updateChildrenForRemoveTail`: a child whose tail `self` still holds stays, any other moves to the
first of `targets` that holds its tail. -/
def moveChildren (d : Disk H) (self : ℕ) (targets : List Ref) : List ℕ → tree H → Option (tree H)
  | [], t => some t
  | v :: vs, t =>
    let tailH := (t.get v).base.tailHeight
    let tailHash := (t.get v).base.tailHash
    if t.contains d self tailH tailHash false then moveChildren d self targets vs t
    else do
      let r ← t.firstHolder d tailH tailHash targets
      moveChildren d self targets vs (t.updateRootSimple v (.br self) r)

/-- `updateRoot`: `self` hangs from `new`, and its children move to `new`, else to `old`. -/
def updateRoot (t : tree H) (d : Disk H) (self : ℕ) (old new : Ref) : Option (tree H) :=
  let t := (t.setRoot self new).addChildOf new self
  moveChildren d self [new, old] (t.get self).children t

/-- `updateChildrenForRemoveTail`: after the tail moved up, children below it move to `root`. -/
def updateChildrenForRemoveTail (t : tree H) (d : Disk H) (self : ℕ) (root : Ref) : Option (tree H) :=
  match root with
  | .disk => some t
  | .br _ => moveChildren d self [root] (t.get self).children t

/-! ## Moving knots -/

/-- The first loop of `exchangeRoot`: for `i` from `self`'s tail down to just above `root`'s
tail, `root`'s knot at `i`, if any, goes under `self`'s tail. -/
def addTailsFrom (root self : ℕ) : ℕ → ℕ → tree H → Option (tree H)
  | 0, _, t => some t
  | n + 1, i, t =>
    match (t.get root).base.getHeightBlock i with
    | none => addTailsFrom root self n (i - 1) t
    | some w => do
      let b ← (t.get self).base.addTail w
      addTailsFrom root self n (i - 1) (t.setBase self b)

/-- `exchangeRoot`: `self` takes `root`'s place: it takes `root`'s knots from its own tail down
to `root`'s tail, hangs from `root`'s root, and `root` hangs from it. `root` leaves its root's
children first, also when the exchange then fails. The source's second loop, meant to take the
knots off `root`, runs from `rootTailHeight + 1` to `rootTailHeight`, that is never. -/
def exchangeRoot (t : tree H) (d : Disk H) (self root : ℕ) : Option (Except String Unit × tree H) :=
  if Ref.br root ≠ (t.get self).root then some (.error "root not match", t)
  else
    let rr := (t.get root).root
    let t := t.removeChildOf rr root
    if tailEquals (t.get root).base (t.get self).base then do
      let t ← (t.updateRootSimple self (.br root) rr).updateRoot d root rr (.br self)
      pure (.ok (), t)
    else
      let selfTailHeight := (t.get self).base.tailHeight
      let rootTailHeight := (t.get root).base.tailHeight
      let rootHeadHeight := (t.get root).base.headHeight
      if rootTailHeight ≤ selfTailHeight ∧ rootHeadHeight ≥ selfTailHeight then do
        let t ← t.addTailsFrom root self (selfTailHeight - rootTailHeight) selfTailHeight
        let t ← (t.updateRootSimple self (.br root) rr).updateRoot d root rr (.br self)
        pure (.ok (), t)
      else some (.error "err for exchangeRoot", t)

/-- `exchangeAllRoot`: exchange with the root until `self` hangs from the disk. -/
def exchangeAllRoot (d : Disk H) (self : ℕ) : ℕ → tree H → Option (Except String Unit × tree H)
  | 0, _ => none
  | n + 1, t =>
    match (t.get self).root with
    | .disk => some (.ok (), t)
    | .br r => do
      let (res, t) ← t.exchangeRoot d self r
      match res with
      | .error e => some (.error e, t)
      | .ok () => exchangeAllRoot d self n t

/-- The loop of `destroy`: from the head down, each knot comes off the head and out of the index;
a missing knot is a nil dereference in `removeHead`. -/
def destroyLoop (self : ℕ) : ℕ → ℕ → tree H → Option (tree H)
  | 0, _, t => some t
  | n + 1, i, t =>
    match (t.get self).base.getHeightBlock i with
    | none => none
    | some k => do
      let b ← (t.get self).base.removeHead k
      destroyLoop self n (i - 1) ((t.setBase self b).knotRemove k)

/-- `destroy`: empty the branch, then panic unless both sizes are zero. -/
def destroy (t : tree H) (self : ℕ) : Option (tree H) := do
  let b := (t.get self).base
  let t ← t.destroyLoop self (b.headHeight - b.tailHeight) b.headHeight
  if (t.get self).base.size ≠ 0 then none
  else if (t.get self).base.storeSize ≠ 0 then none
  else some t

/-- `removeBranch`: a leaf leaves its root's children and the branch list and is destroyed; an
empty branch with children leaves them too, its children are listed under its root (their own
root still names it), and the call fails anyway. -/
def removeBranch (t : tree H) (b : ℕ) : Option (Except String Unit × tree H) :=
  if b = t.main then some (.error "not support for main", t)
  else
    match (t.get b).root with
    | .disk => some (.error "can't be removed[refer disk].", t)
    | .br root =>
      if isLeafBranch (t.get b) then do
        let t ← ((t.removeChild root b).deleteBranch b).destroy b
        pure (.ok (), t)
      else if (t.get b).base.size = 0 then
        let t' := (t.removeChild root b).deleteBranch b
        some (.error "not support", (t.get b).children.foldl (fun t v => t.addChild root v) t')
      else some (.error "not support", t)

/-- The loop of `prune`: from just above the tail, each knot of `self` whose hash the root also
has at that height comes off `self`'s tail, and out of the index when the disk had it. -/
def pruneLoop (d : Disk H) (self : ℕ) : ℕ → ℕ → Bool → tree H → Option (tree H × Bool)
  | 0, _, removed, t => some (t, removed)
  | n + 1, i, removed, t =>
    match t.GetKnotAndBranch d (t.get self).root i with
    | none => some (t, removed)
    | some (block, b) =>
      match (t.get self).base.getHeightBlock i with
      | none => none
      | some selfB =>
        if block.Hash = selfB.Hash then do
          let base ← (t.get self).base.removeTail block
          let t := t.setBase self base
          let t := if b = .disk then t.knotRemove block else t
          pruneLoop d self n (i + 1) true t
        else some (t, removed)

/-- What `prune` does once the root is pruned: drop what `self` shares with its root from its tail;
if anything went, children below the new tail move to the root, and an empty branch other than the
main one is removed (its error is only logged). -/
def pruneSelf (t : tree H) (d : Disk H) (self : ℕ) : Option (tree H) := do
  let b := (t.get self).base
  let (t, removed) ← t.pruneLoop d self (b.headHeight - b.tailHeight) (b.tailHeight + 1) false
  if removed then do
    let t ← t.updateChildrenForRemoveTail d self (t.get self).root
    if self ≠ t.main ∧ (t.get self).base.size = 0 then (t.removeBranch self).map Prod.snd
    else some t
  else some t

/-- `prune`: prune the root first, if it is a branch, then `self`. -/
def prune (d : Disk H) : ℕ → ℕ → tree H → Option (tree H)
  | 0, _, _ => none
  | n + 1, self, t =>
    (match (t.get self).root with
      | .br r => prune d n r t
      | .disk => some t).bind fun t => t.pruneSelf d self

/-! ## The tree's operations -/

/-- `Init`: one empty branch at the disk's head, the main one. The slots of ids not handed out
start as copies of it. -/
def Init (d : Disk H) : tree H :=
  let b : branch H := ⟨newBranchBase d.head.1 d.head.2 d.head.1 d.head.2, .disk, []⟩
  { branches := fun _ => b, branchList := [1], main := 1, idIdx := 1, hashes := [] }

/-- `ForkBranch`: a new empty branch at the knot `b` sees at `height`, hanging from `b`. The hash
argument is not read. -/
def ForkBranch (t : tree H) (d : Disk H) (b : Ref) (height : ℕ) (_hash : H) : Option (ℕ × tree H) :=
  match b with
  | .disk => none
  | .br root =>
    match t.getKnot d root height true with
    | none => none
    | some knot =>
      let id := t.idIdx + 1
      let t : tree H := { t with idIdx := id }
      let t := t.set id ⟨newBranchBase knot.Height knot.Hash knot.Height knot.Hash, .br root, []⟩
      some (id, (t.addChild root id).addBranch id)

/-- `AddHead`. -/
def AddHead (t : tree H) (b : Ref) (k : Knot H) : Option (Except String Unit × tree H) :=
  match b with
  | .disk => some (.error "can't add head to chain.", t)
  | .br id => do
    let base ← (t.get id).base.addHead k
    pure (.ok (), (t.setBase id base).storeHash k)

/-- `RemoveTail`. -/
def RemoveTail (t : tree H) (b : Ref) (k : Knot H) : Option (Except String Unit × tree H) :=
  match b with
  | .disk => some (.error "can't remove tail from chain.", t)
  | .br id => do
    let base ← (t.get id).base.removeTail k
    pure (.ok (), (t.setBase id base).knotRemove k)

/-- `AddTail`, whose error text is `RemoveTail`'s. -/
def AddTail (t : tree H) (b : Ref) (k : Knot H) : Option (Except String Unit × tree H) :=
  match b with
  | .disk => some (.error "can't remove tail from chain.", t)
  | .br id => do
    let base ← (t.get id).base.addTail k
    pure (.ok (), (t.setBase id base).storeHash k)

/-- `RootHeadAdd`: the disk took `k` on its head, whose parent is the main branch's tail. If the
main branch is empty it takes `k` and lets it go at once; if it holds `k` it lets it go; else a
new empty branch at the main branch's tail takes and lets go of `k`, hangs from the disk and
becomes the main branch, the old one hanging from it. -/
def RootHeadAdd (t : tree H) (d : Disk H) (k : Knot H) : Option (Except String Unit × tree H) :=
  let m := t.main
  if k.PrevHash ≠ (t.get m).base.tailHash then none
  else if (t.get m).base.MatchHead k.PrevHash then do
    let b ← (t.get m).base.addHead k
    let t := t.setBase m b
    let b ← (t.get m).base.removeTail k
    pure (.ok (), t.setBase m b)
  else if t.contains d m k.Height k.Hash false then t.RemoveTail (.br m) k
  else do
    let (n, t) ← t.ForkBranch d (.br m) (k.Height - 1) k.PrevHash
    let b ← (t.get n).base.addHead k
    let t := t.setBase n b
    let b ← (t.get n).base.removeTail k
    let t := (t.setBase n b).updateRootSimple n (.br m) .disk
    let t ← t.updateRoot d m (t.get m).root (.br n)
    pure (.ok (), { t with main := n })

/-- `SwitchMainTo`: prune the target, exchange it down to the disk, and make it the main branch if
its tail is the disk's head (else panic). -/
def SwitchMainTo (t : tree H) (d : Disk H) (fuel : ℕ) (b : Ref) : Option (Except String Unit × tree H) :=
  match b with
  | .disk => some (.error "type error.", t)
  | .br target =>
    if target = t.main then some (.ok (), t)
    else do
      let t ← t.prune d fuel target
      let (res, t) ← t.exchangeAllRoot d target fuel
      match res with
      | .error e => some (.error e, t)
      | .ok () => if t.Linked d target .disk then some (.ok (), { t with main := target }) else none

/-- `findEmptyForHead`, over the branch list in `order`. -/
def findEmptyForHead (t : tree H) (order : List ℕ) (headHeight : ℕ) (headHash : H) : Option ℕ :=
  order.find? fun c => (t.get c).base.size = 0 ∧ (t.get c).base.headHash = headHash ∧
    (t.get c).base.headHeight = headHeight

/-- `SwitchMainToEmpty`: switch to an empty branch at the disk's head, forking one if none. -/
def SwitchMainToEmpty (t : tree H) (d : Disk H) (fuel : ℕ) (order : List ℕ) :
    Option (Except String Unit × tree H) :=
  if (t.get t.main).base.size = 0 then some (.ok (), t)
  else
    match t.findEmptyForHead order d.head.1 d.head.2 with
    | some c => t.SwitchMainTo d fuel (.br c)
    | none => do
      let (c, t) ← t.ForkBranch d (.br t.main) d.head.1 d.head.2
      t.SwitchMainTo d fuel (.br c)

/-- `checkTreeRing`: a depth-first walk of the children from `b`, failing on an id seen twice. -/
def checkTreeRing (t : tree H) : ℕ → List ℕ → ℕ → Option (List ℕ)
  | 0, _, _ => none
  | n + 1, bm, b =>
    (t.get b).children.foldlM (fun bm v => if v ∈ bm then none else t.checkTreeRing n (v :: bm) v) bm

/-- `CheckTreeRing`, from the main branch. -/
def CheckTreeRing (t : tree H) : Bool := (t.checkTreeRing (t.idIdx + 2) [] t.main).isSome

/-- `isGarbage`: a leaf that is stale or empty. -/
def isGarbage (t : tree H) (stale : ℕ → Bool) (id : ℕ) : Bool :=
  if !isLeafBranch (t.get id) then false
  else if stale id then true
  else (t.get id).base.size = 0

/-- The first loop of `PruneTree`: prune every registered branch but the main one. -/
def pruneAll (d : Disk H) (fuel : ℕ) : List ℕ → tree H → Option (tree H)
  | [], t => some t
  | id :: ids, t =>
    if id ∉ t.branchList ∨ id = t.main then pruneAll d fuel ids t
    else do
      let t ← t.prune d fuel id
      pruneAll d fuel ids t

/-- The second loop of `PruneTree`: remove every registered garbage branch but the main one, and
list those removed without error. -/
def removeGarbage (stale : ℕ → Bool) : List ℕ → tree H → Option (List ℕ × tree H)
  | [], t => some ([], t)
  | id :: ids, t =>
    if id ∉ t.branchList ∨ id = t.main ∨ !t.isGarbage stale id then removeGarbage stale ids t
    else do
      let (res, t) ← t.removeBranch id
      let (rs, t) ← removeGarbage stale ids t
      match res with
      | .ok () => pure (id :: rs, t)
      | .error _ => pure (rs, t)

/-- `PruneTree`: panic on a ring, then the two loops, each over the branch list in its own order. -/
def PruneTree (t : tree H) (d : Disk H) (fuel : ℕ) (stale : ℕ → Bool) (order₁ order₂ : List ℕ) :
    Option (List ℕ × tree H) :=
  if !t.CheckTreeRing then none
  else do
    let t ← t.pruneAll d fuel order₁
    t.removeGarbage stale order₂

end tree

end Vite.Pool

namespace Vite.Pool

variable {H : Type}

/-- The disk as the pool finds it: its blocks are knots at their heights, none above its head, and
its head hash stands at the head height. -/
structure Disk.WF (U : KnotSpace H) (d : Disk H) : Prop where
  block : ∀ h k, d.getBlock h = some k → U.mem k ∧ k.Height = h
  above_head : ∀ h, d.head.1 < h → d.getBlock h = none
  head_height : U.heightOf d.head.2 = d.head.1

namespace tree

/-! ## The heap -/

@[simp] theorem get_set (t : tree H) (id id' : ℕ) (b : branch H) :
    (t.set id b).get id' = if id' = id then b else t.get id' := by
  simp only [get, set, Function.update_apply]

@[simp] theorem main_set (t : tree H) (id : ℕ) (b : branch H) : (t.set id b).main = t.main := rfl

@[simp] theorem idIdx_set (t : tree H) (id : ℕ) (b : branch H) : (t.set id b).idIdx = t.idIdx := rfl

@[simp] theorem branchList_set (t : tree H) (id : ℕ) (b : branch H) : (t.set id b).branchList = t.branchList := rfl

theorem base_setBase (t : tree H) (id id' : ℕ) (b : branchBase H) :
    ((t.setBase id b).get id').base = if id' = id then b else (t.get id').base := by
  unfold setBase
  rw [get_set]
  split_ifs <;> rfl

theorem base_setRoot (t : tree H) (id id' : ℕ) (r : Ref) : ((t.setRoot id r).get id').base = (t.get id').base := by
  unfold setRoot
  rw [get_set]
  split_ifs with h
  · rw [h]
  · rfl

theorem base_addChild (t : tree H) (self child id : ℕ) : ((t.addChild self child).get id).base = (t.get id).base := by
  unfold addChild
  rw [get_set]
  split_ifs with h
  · rw [h]
  · rfl

theorem base_removeChild (t : tree H) (self child id : ℕ) :
    ((t.removeChild self child).get id).base = (t.get id).base := by
  unfold removeChild
  rw [get_set]
  split_ifs with h
  · rw [h]
  · rfl

@[simp] theorem get_addBranch (t : tree H) (id : ℕ) : (t.addBranch id).get = t.get := rfl

@[simp] theorem get_deleteBranch (t : tree H) (id : ℕ) : (t.deleteBranch id).get = t.get := rfl

theorem base_removeChildOf (t : tree H) (r : Ref) (child id : ℕ) :
    ((t.removeChildOf r child).get id).base = (t.get id).base := by
  cases r with
  | br o => exact base_removeChild t o child id
  | disk => rfl

theorem base_addChildOf (t : tree H) (r : Ref) (child id : ℕ) :
    ((t.addChildOf r child).get id).base = (t.get id).base := by
  cases r with
  | br n => exact base_addChild t n child id
  | disk => rfl

theorem base_updateRootSimple (t : tree H) (self : ℕ) (old new : Ref) (id : ℕ) :
    ((t.updateRootSimple self old new).get id).base = (t.get id).base := by
  rw [updateRootSimple, base_addChildOf, base_setRoot, base_removeChildOf]

/-! ## Every base a chain

Every knot the tree hands to a base comes from the pool, from the disk or from another base, so
every base stays a chain of the pool's knots: reads return such knots at the height asked for,
and every operation keeps the bases chains. -/

/-- Every base of the tree, handed out or not, is a chain of knots of `U`. -/
def AllWF (U : KnotSpace H) (t : tree H) : Prop := ∀ id, branchBase.WF U (t.get id).base

variable {U : KnotSpace H} {d : Disk H} {t t' : tree H}

theorem AllWF.setBase (hA : AllWF U t) {id : ℕ} {b : branchBase H} (hb : branchBase.WF U b) :
    AllWF U (t.setBase id b) := by
  intro id'
  rw [base_setBase]
  split_ifs
  · exact hb
  · exact hA id'

theorem AllWF.of_base_eq (hA : AllWF U t) (h : ∀ id, (t'.get id).base = (t.get id).base) : AllWF U t' := by
  intro id
  rw [h id]
  exact hA id

theorem AllWF.set (hA : AllWF U t) {id : ℕ} {b : branch H} (hb : branchBase.WF U b.base) : AllWF U (t.set id b) := by
  intro id'
  rw [get_set]
  split_ifs
  · exact hb
  · exact hA id'

theorem foldl_addChild_base (root : ℕ) (l : List ℕ) (t : tree H) (id : ℕ) :
    ((l.foldl (fun t v => t.addChild root v) t).get id).base = (t.get id).base := by
  induction l generalizing t with
  | nil => rfl
  | cons v l ih => rw [List.foldl_cons, ih, base_addChild]

/-- What the walk up the roots finds is a knot of `U` at the height asked for. -/
theorem walk_mem (hA : AllWF U t) (hd : d.WF U) {height : ℕ} :
    ∀ {n : ℕ} {refers : List ℕ} {r r' : Ref} {k : Knot H}, t.walk d height n refers r = some (k, r') →
      U.mem k ∧ k.Height = height
  | 0, _, _, _, _, h => by cases h
  | n + 1, refers, .disk, r', k, h => by
    obtain ⟨k', hk', hkk⟩ := Option.map_eq_some_iff.mp h
    cases hkk
    exact hd.block _ _ hk'
  | n + 1, refers, .br id, r', k, h => by
    cases hg : (t.get id).base.getHeightBlock height with
    | some k' =>
      simp only [walk, hg, Option.some.injEq, Prod.mk.injEq] at h
      obtain ⟨rfl, -⟩ := h
      exact (hA id).stored_mem _ _ hg
    | none =>
      simp only [walk, hg] at h
      split_ifs at h
      exact walk_mem hA hd h

theorem getKnotAndBranch_mem (hA : AllWF U t) (hd : d.WF U) {self height : ℕ} {k : Knot H} {r : Ref}
    (h : t.getKnotAndBranch d self height = some (k, r)) : U.mem k ∧ k.Height = height := by
  unfold getKnotAndBranch at h
  split_ifs at h
  cases hg : (t.get self).base.getHeightBlock height with
  | some k' =>
    simp only [hg, Option.some.injEq, Prod.mk.injEq] at h
    obtain ⟨rfl, -⟩ := h
    exact (hA self).stored_mem _ _ hg
  | none =>
    simp only [hg] at h
    exact walk_mem hA hd h

theorem getKnot_mem (hA : AllWF U t) (hd : d.WF U) {self height : ℕ} {flag : Bool} {k : Knot H}
    (h : t.getKnot d self height flag = some k) : U.mem k ∧ k.Height = height := by
  unfold getKnot at h
  cases hg : (t.get self).base.getHeightBlock height with
  | some k' =>
    simp only [hg, Option.some.injEq] at h
    subst h
    exact (hA self).stored_mem _ _ hg
  | none =>
    cases flag
    · simp [hg] at h
    · simp only [hg, if_true] at h
      obtain ⟨⟨k', r⟩, hkr, rfl⟩ := Option.map_eq_some_iff.mp h
      exact getKnotAndBranch_mem hA hd hkr

theorem GetKnot_mem (hA : AllWF U t) (hd : d.WF U) {r : Ref} {height : ℕ} {flag : Bool} {k : Knot H}
    (h : t.GetKnot d r height flag = some k) : U.mem k ∧ k.Height = height := by
  cases r with
  | disk => exact hd.block _ _ h
  | br id => exact getKnot_mem hA hd h

theorem GetKnotAndBranch_mem (hA : AllWF U t) (hd : d.WF U) {r r' : Ref} {height : ℕ} {k : Knot H}
    (h : t.GetKnotAndBranch d r height = some (k, r')) : U.mem k ∧ k.Height = height := by
  cases r with
  | disk =>
    obtain ⟨k', hk', hkk⟩ := Option.map_eq_some_iff.mp h
    cases hkk
    exact hd.block _ _ hk'
  | br id => exact getKnotAndBranch_mem hA hd h

theorem AllWF.ForkBranch (hA : AllWF U t) (hd : d.WF U) {b : Ref} {height n : ℕ} {hash : H}
    (h : t.ForkBranch d b height hash = some (n, t')) : AllWF U t' := by
  cases b with
  | disk => cases h
  | br root =>
    unfold tree.ForkBranch at h
    dsimp only at h
    cases hk : t.getKnot d root height true with
    | none =>
      rw [hk] at h
      cases h
    | some knot =>
      rw [hk] at h
      obtain ⟨-, rfl⟩ := Prod.mk.inj (Option.some.inj h)
      have hkU := (getKnot_mem hA hd hk).1
      have hA₁ : AllWF U ({ t with idIdx := t.idIdx + 1 } : tree H) := hA
      exact (hA₁.set (branchBase.WF.new (U.height_hash knot hkU))).of_base_eq (base_addChild _ _ _)

variable [DecidableEq H]

@[simp] theorem get_knotRemove (t : tree H) (k : Knot H) : (t.knotRemove k).get = t.get := rfl

@[simp] theorem get_storeHash (t : tree H) (k : Knot H) : (t.storeHash k).get = t.get := rfl

theorem base_knotRemove (t : tree H) (k : Knot H) (id : ℕ) : ((t.knotRemove k).get id).base = (t.get id).base := rfl

/-! ### Loop rules

Each loop of the tree keeps a property of the tree that every round keeps; the hypotheses of a
round are what the code checked before it wrote. The invariants below (every base a chain, the
shape, the ids handed out, the bases a call may touch, the main branch on the disk) all go through
these rules. -/

section Rules

variable (P : tree H → Prop)

theorem moveChildren_rule {self : ℕ} {targets : List Ref}
    (hstep : ∀ t v r, P t → t.firstHolder d (t.get v).base.tailHeight (t.get v).base.tailHash targets = some r →
      P (t.updateRootSimple v (.br self) r)) :
    ∀ {vs : List ℕ} {t t' : tree H}, P t → moveChildren d self targets vs t = some t' → P t'
  | [], t, t', hP, h => by
    cases h
    exact hP
  | v :: vs, t, t', hP, h => by
    unfold moveChildren at h
    dsimp only at h
    split_ifs at h with hc
    · exact moveChildren_rule hstep hP h
    · obtain ⟨r, hr, h⟩ := Option.bind_eq_some_iff.mp h
      exact moveChildren_rule hstep (hstep t v r hP hr) h

theorem addTailsFrom_rule {root self : ℕ}
    (hstep : ∀ t i w b, P t → (t.get root).base.getHeightBlock i = some w → (t.get self).base.addTail w = some b →
      P (t.setBase self b)) :
    ∀ {n i : ℕ} {t t' : tree H}, P t → t.addTailsFrom root self n i = some t' → P t'
  | 0, _, t, t', hP, h => by
    cases h
    exact hP
  | n + 1, i, t, t', hP, h => by
    unfold tree.addTailsFrom at h
    cases hw : (t.get root).base.getHeightBlock i with
    | none =>
      rw [hw] at h
      exact addTailsFrom_rule hstep hP h
    | some w =>
      rw [hw] at h
      obtain ⟨b, hb, h⟩ := Option.bind_eq_some_iff.mp h
      exact addTailsFrom_rule hstep (hstep t i w b hP hw hb) h

theorem exchangeAllRoot_rule {self : ℕ}
    (hstep : ∀ t r res t', P t → (t.get self).root = .br r → t.exchangeRoot d self r = some (res, t') → P t') :
    ∀ {n : ℕ} {t t' : tree H} {res : Except String Unit}, P t → t.exchangeAllRoot d self n = some (res, t') → P t'
  | 0, t, t', res, hP, h => by cases h
  | n + 1, t, t', res, hP, h => by
    unfold tree.exchangeAllRoot at h
    split at h
    · cases h
      exact hP
    · rename_i r hr
      obtain ⟨⟨res₁, t₁⟩, h₁, h⟩ := Option.bind_eq_some_iff.mp h
      have hP₁ := hstep t r res₁ t₁ hP hr h₁
      dsimp only at h
      cases res₁ with
      | error e =>
        cases h
        exact hP₁
      | ok u => exact exchangeAllRoot_rule hstep hP₁ h

theorem destroyLoop_rule {self : ℕ}
    (hstep : ∀ t i k b, P t → (t.get self).base.getHeightBlock i = some k → (t.get self).base.removeHead k = some b →
      P ((t.setBase self b).knotRemove k)) :
    ∀ {n i : ℕ} {t t' : tree H}, P t → t.destroyLoop self n i = some t' → P t'
  | 0, _, t, t', hP, h => by
    cases h
    exact hP
  | n + 1, i, t, t', hP, h => by
    unfold tree.destroyLoop at h
    cases hk : (t.get self).base.getHeightBlock i with
    | none =>
      rw [hk] at h
      cases h
    | some k =>
      rw [hk] at h
      obtain ⟨b, hb, h⟩ := Option.bind_eq_some_iff.mp h
      exact destroyLoop_rule hstep (hstep t i k b hP hk hb) h

theorem pruneLoop_rule {self : ℕ}
    (hstep : ∀ t i block b selfB base, P t → t.GetKnotAndBranch d (t.get self).root i = some (block, b) →
      (t.get self).base.getHeightBlock i = some selfB → block.Hash = selfB.Hash →
      (t.get self).base.removeTail block = some base →
      P (if b = .disk then (t.setBase self base).knotRemove block else t.setBase self base)) :
    ∀ {n i : ℕ} {removed removed' : Bool} {t t' : tree H}, P t →
      t.pruneLoop d self n i removed = some (t', removed') → P t'
  | 0, _, _, _, t, t', hP, h => by
    cases h
    exact hP
  | n + 1, i, removed, removed', t, t', hP, h => by
    unfold tree.pruneLoop at h
    cases hg : t.GetKnotAndBranch d (t.get self).root i with
    | none =>
      rw [hg] at h
      cases h
      exact hP
    | some p =>
      obtain ⟨block, b⟩ := p
      rw [hg] at h
      cases hs : (t.get self).base.getHeightBlock i with
      | none =>
        simp only [hs] at h
        cases h
      | some selfB =>
        simp only [hs] at h
        by_cases heq : block.Hash = selfB.Hash
        · rw [if_pos heq] at h
          obtain ⟨base, hbase, h⟩ := Option.bind_eq_some_iff.mp h
          exact pruneLoop_rule hstep (hstep t i block b selfB base hP hg hs heq hbase) h
        · rw [if_neg heq] at h
          cases h
          exact hP

theorem pruneAll_rule {fuel : ℕ}
    (hstep : ∀ t id t', P t → id ∈ t.branchList → id ≠ t.main → t.prune d fuel id = some t' → P t') :
    ∀ {ids : List ℕ} {t t' : tree H}, P t → t.pruneAll d fuel ids = some t' → P t'
  | [], t, t', hP, h => by
    cases h
    exact hP
  | id :: ids, t, t', hP, h => by
    unfold tree.pruneAll at h
    split_ifs at h with hskip
    · exact pruneAll_rule hstep hP h
    · obtain ⟨t₁, h₁, h⟩ := Option.bind_eq_some_iff.mp h
      obtain ⟨hid, hm⟩ := not_or.mp hskip
      exact pruneAll_rule hstep (hstep t id t₁ hP (not_not.mp hid) hm h₁) h

theorem removeGarbage_rule {stale : ℕ → Bool}
    (hstep : ∀ t id res t', P t → id ∈ t.branchList → id ≠ t.main → t.isGarbage stale id = true →
      t.removeBranch id = some (res, t') → P t') :
    ∀ {ids rs : List ℕ} {t t' : tree H}, P t → t.removeGarbage stale ids = some (rs, t') → P t'
  | [], rs, t, t', hP, h => by
    cases h
    exact hP
  | id :: ids, rs, t, t', hP, h => by
    unfold tree.removeGarbage at h
    split_ifs at h with hskip
    · exact removeGarbage_rule hstep hP h
    · obtain ⟨⟨res, t₁⟩, h₁, h⟩ := Option.bind_eq_some_iff.mp h
      obtain ⟨⟨rs₂, t₂⟩, h₂, h⟩ := Option.bind_eq_some_iff.mp h
      obtain ⟨hid, hrest⟩ := not_or.mp hskip
      obtain ⟨hm, hg⟩ := not_or.mp hrest
      have hP₂ := removeGarbage_rule hstep (hstep t id res t₁ hP (not_not.mp hid) hm (by simpa using hg) h₁) h₂
      cases res with
      | error e =>
        cases h
        exact hP₂
      | ok u =>
        cases h
        exact hP₂

end Rules

/-! ### Rewiring roots and children leaves every base as it is -/

theorem moveChildren_base {self : ℕ} {targets : List Ref} :
    ∀ {vs : List ℕ} {t t' : tree H}, moveChildren d self targets vs t = some t' →
      ∀ id, (t'.get id).base = (t.get id).base := by
  intro vs t t' h
  apply moveChildren_rule (fun t₁ => ∀ id, (t₁.get id).base = (t.get id).base) _ (fun _ => rfl) h
  intro t₁ v r h₁ _ id
  rw [base_updateRootSimple, h₁ id]

theorem updateRoot_base {self : ℕ} {old new : Ref} (h : t.updateRoot d self old new = some t') (id : ℕ) :
    (t'.get id).base = (t.get id).base := by
  rw [moveChildren_base h id, base_addChildOf, base_setRoot]

theorem updateChildrenForRemoveTail_base {self : ℕ} {root : Ref}
    (h : t.updateChildrenForRemoveTail d self root = some t') (id : ℕ) : (t'.get id).base = (t.get id).base := by
  cases root with
  | disk =>
    cases h
    rfl
  | br r => exact moveChildren_base h id

/-! ### Moving knots keeps every base a chain -/

theorem AllWF.addTailsFrom (hA : AllWF U t) {root self n : ℕ} :
    ∀ {i : ℕ} {t' : tree H}, t.addTailsFrom root self n i = some t' → AllWF U t' := by
  intro i t' h
  apply addTailsFrom_rule (AllWF U) _ hA h
  intro t₁ _ w b hA₁ hw hb
  exact hA₁.setBase ((hA₁ self).addTail ((hA₁ root).stored_mem _ _ hw).1 hb)

theorem AllWF.exchangeRoot (hA : AllWF U t) {self root : ℕ} {res : Except String Unit}
    (h : t.exchangeRoot d self root = some (res, t')) : AllWF U t' := by
  unfold tree.exchangeRoot at h
  dsimp only at h
  have hA₁ : AllWF U (t.removeChildOf (t.get root).root root) :=
    hA.of_base_eq (base_removeChildOf _ _ _)
  split_ifs at h with hne htail hrange
  · cases h
    exact hA
  · obtain ⟨t₂, h₂, h⟩ := Option.bind_eq_some_iff.mp h
    cases h
    exact hA₁.of_base_eq fun id => by rw [updateRoot_base h₂, base_updateRootSimple]
  · obtain ⟨t₂, h₂, h⟩ := Option.bind_eq_some_iff.mp h
    obtain ⟨t₃, h₃, h⟩ := Option.bind_eq_some_iff.mp h
    cases h
    exact (hA₁.addTailsFrom h₂).of_base_eq fun id => by rw [updateRoot_base h₃, base_updateRootSimple]
  · cases h
    exact hA₁

theorem AllWF.exchangeAllRoot (hA : AllWF U t) {self n : ℕ} :
    ∀ {res : Except String Unit} {t' : tree H}, t.exchangeAllRoot d self n = some (res, t') → AllWF U t' := by
  intro res t' h
  exact exchangeAllRoot_rule (AllWF U) (fun _ _ _ _ hA₁ _ h₁ => hA₁.exchangeRoot h₁) hA h

theorem AllWF.destroyLoop (hA : AllWF U t) {self n : ℕ} :
    ∀ {i : ℕ} {t' : tree H}, t.destroyLoop self n i = some t' → AllWF U t' := by
  intro i t' h
  apply destroyLoop_rule (AllWF U) _ hA h
  intro t₁ _ k b hA₁ hk hb
  have hkU := ((hA₁ self).stored_mem _ _ hk).1
  exact (hA₁.setBase ((hA₁ self).removeHead hkU hb)).of_base_eq (base_knotRemove _ _)

theorem AllWF.destroy (hA : AllWF U t) {self : ℕ} (h : t.destroy self = some t') : AllWF U t' := by
  unfold tree.destroy at h
  obtain ⟨t₁, h₁, h⟩ := Option.bind_eq_some_iff.mp h
  split_ifs at h
  cases h
  exact hA.destroyLoop h₁

theorem AllWF.removeBranch (hA : AllWF U t) {b : ℕ} {res : Except String Unit}
    (h : t.removeBranch b = some (res, t')) : AllWF U t' := by
  unfold tree.removeBranch at h
  by_cases hm : b = t.main
  · rw [if_pos hm] at h
    cases h
    exact hA
  rw [if_neg hm] at h
  cases hr : (t.get b).root with
  | disk =>
    rw [hr] at h
    cases h
    exact hA
  | br root =>
    rw [hr] at h
    dsimp only at h
    have hA₁ : AllWF U ((t.removeChild root b).deleteBranch b) := hA.of_base_eq (base_removeChild _ _ _)
    by_cases hleaf : isLeafBranch (t.get b) = true
    · rw [if_pos hleaf] at h
      obtain ⟨t₁, h₁, h⟩ := Option.bind_eq_some_iff.mp h
      cases h
      exact hA₁.destroy h₁
    rw [if_neg hleaf] at h
    split_ifs at h with hsize
    · cases h
      exact hA₁.of_base_eq (foldl_addChild_base _ _ _)
    · cases h
      exact hA

theorem AllWF.pruneLoop (hA : AllWF U t) (hd : d.WF U) {self n : ℕ} :
    ∀ {i : ℕ} {removed removed' : Bool} {t' : tree H},
      t.pruneLoop d self n i removed = some (t', removed') → AllWF U t' := by
  intro i removed removed' t' h
  apply pruneLoop_rule (AllWF U) _ hA h
  intro t₁ _ block b selfB base hA₁ hg hs heq hbase
  -- the root's knot is the one stored here: same height, same hash
  obtain ⟨hbU, hbH⟩ := GetKnotAndBranch_mem hA₁ hd hg
  have hA₂ : AllWF U (t₁.setBase self base) :=
    hA₁.setBase ((hA₁ self).removeTail hbU ⟨selfB, by rw [hbH]; exact hs, heq.symm⟩ hbase)
  split
  · exact hA₂.of_base_eq (base_knotRemove _ _)
  · exact hA₂

theorem AllWF.pruneSelf (hA : AllWF U t) (hd : d.WF U) {self : ℕ} (h : t.pruneSelf d self = some t') :
    AllWF U t' := by
  unfold tree.pruneSelf at h
  obtain ⟨⟨t₂, removed⟩, h₂, h⟩ := Option.bind_eq_some_iff.mp h
  have hA₂ := hA.pruneLoop hd h₂
  dsimp only at h
  split_ifs at h with hr
  · obtain ⟨t₃, h₃, h⟩ := Option.bind_eq_some_iff.mp h
    have hA₃ := hA₂.of_base_eq (updateChildrenForRemoveTail_base h₃)
    split_ifs at h with hm
    · obtain ⟨⟨res, t₄⟩, h₄, rfl⟩ := Option.map_eq_some_iff.mp h
      exact hA₃.removeBranch h₄
    · cases h
      exact hA₃
  · cases h
    exact hA₂

theorem AllWF.prune (hd : d.WF U) {n : ℕ} :
    ∀ {self : ℕ} {t t' : tree H}, AllWF U t → t.prune d n self = some t' → AllWF U t' := by
  induction n with
  | zero =>
    intro self t t' hA h
    cases h
  | succ n ih =>
    intro self t t' hA h
    unfold tree.prune at h
    obtain ⟨t₁, h₁, h⟩ := Option.bind_eq_some_iff.mp h
    -- the root is pruned first
    have hA₁ : AllWF U t₁ := by
      split at h₁
      · exact ih hA h₁
      · cases h₁
        exact hA
    exact hA₁.pruneSelf hd h

theorem AllWF.AddHead (hA : AllWF U t) {b : Ref} {k : Knot H} {res : Except String Unit} (hk : U.mem k)
    (h : t.AddHead b k = some (res, t')) : AllWF U t' := by
  cases b with
  | disk =>
    obtain ⟨-, rfl⟩ := Prod.mk.inj (Option.some.inj h)
    exact hA
  | br id =>
    obtain ⟨base, hb, h⟩ := Option.bind_eq_some_iff.mp h
    cases h
    exact hA.setBase ((hA id).addHead hk hb)

theorem AllWF.AddTail (hA : AllWF U t) {b : Ref} {k : Knot H} {res : Except String Unit} (hk : U.mem k)
    (h : t.AddTail b k = some (res, t')) : AllWF U t' := by
  cases b with
  | disk =>
    obtain ⟨-, rfl⟩ := Prod.mk.inj (Option.some.inj h)
    exact hA
  | br id =>
    obtain ⟨base, hb, h⟩ := Option.bind_eq_some_iff.mp h
    cases h
    exact hA.setBase ((hA id).addTail hk hb)

/-- `RemoveTail` keeps the chain when the knot it is handed is the one stored above the tail. -/
theorem AllWF.RemoveTail (hA : AllWF U t) {id : ℕ} {k : Knot H} {res : Except String Unit} (hk : U.mem k)
    (hs : ∃ s, (t.get id).base.getHeightBlock k.Height = some s ∧ s.Hash = k.Hash)
    (h : t.RemoveTail (.br id) k = some (res, t')) : AllWF U t' := by
  obtain ⟨base, hb, h⟩ := Option.bind_eq_some_iff.mp h
  cases h
  exact hA.setBase ((hA id).removeTail hk hs hb)

theorem localContains_eq_true {b : branchBase H} {height : ℕ} {hash : H} (h : localContains b height hash = true) :
    ∃ s, b.getHeightBlock height = some s ∧ s.Hash = hash := by
  unfold localContains at h
  split_ifs at h
  split at h
  · exact ⟨_, ‹_›, of_decide_eq_true h⟩
  · cases h

theorem localContains_of_contains {self height : ℕ} {hash : H} (h : t.contains d self height hash false = true) :
    localContains (t.get self).base height hash = true := by
  unfold contains at h
  by_cases hl : localContains (t.get self).base height hash = true
  · exact hl
  · simp [hl] at h

/-- The main branch's knot just added is stored: `RootHeadAdd` lets go of the knot it just took. -/
theorem AllWF.addHead_removeTail (hA : AllWF U t) {id : ℕ} {k : Knot H} {b b' : branchBase H} (hk : U.mem k)
    (hb : (t.get id).base.addHead k = some b) (hb' : ((t.setBase id b).get id).base.removeTail k = some b') :
    AllWF U ((t.setBase id b).setBase id b') := by
  have hA₁ : AllWF U (t.setBase id b) := hA.setBase ((hA id).addHead hk hb)
  have hs : ((t.setBase id b).get id).base.getHeightBlock k.Height = some k := by
    rw [base_setBase, if_pos rfl]
    exact branchBase.getHeightBlock_addHead hb
  exact hA₁.setBase ((hA₁ id).removeTail hk ⟨k, hs, rfl⟩ hb')

theorem AllWF.RootHeadAdd (hA : AllWF U t) (hd : d.WF U) {k : Knot H} {res : Except String Unit} (hk : U.mem k)
    (h : t.RootHeadAdd d k = some (res, t')) : AllWF U t' := by
  unfold tree.RootHeadAdd at h
  dsimp only at h
  split_ifs at h with hprev hmatch hcont
  · -- the main branch is empty: it takes `k` and lets it go
    obtain ⟨b, hb, h⟩ := Option.bind_eq_some_iff.mp h
    obtain ⟨b', hb', h⟩ := Option.bind_eq_some_iff.mp h
    cases h
    exact hA.addHead_removeTail hk hb hb'
  · -- the main branch holds `k` just above its tail
    exact hA.RemoveTail hk (localContains_eq_true (localContains_of_contains hcont)) h
  · -- a new branch takes `k`, lets it go, and becomes the main branch
    obtain ⟨⟨n, t₁⟩, h₁, h⟩ := Option.bind_eq_some_iff.mp h
    have hA₁ := hA.ForkBranch hd h₁
    obtain ⟨b, hb, h⟩ := Option.bind_eq_some_iff.mp h
    obtain ⟨b', hb', h⟩ := Option.bind_eq_some_iff.mp h
    have hA₂ := hA₁.addHead_removeTail hk hb hb'
    obtain ⟨t₃, h₃, h⟩ := Option.bind_eq_some_iff.mp h
    cases h
    exact hA₂.of_base_eq fun id => by rw [show (({ t₃ with main := n } : tree H).get id) = t₃.get id from rfl,
      updateRoot_base h₃, base_updateRootSimple]

theorem AllWF.SwitchMainTo (hA : AllWF U t) (hd : d.WF U) {fuel : ℕ} {b : Ref} {res : Except String Unit}
    (h : t.SwitchMainTo d fuel b = some (res, t')) : AllWF U t' := by
  cases b with
  | disk =>
    obtain ⟨-, rfl⟩ := Prod.mk.inj (Option.some.inj h)
    exact hA
  | br target =>
    unfold tree.SwitchMainTo at h
    dsimp only at h
    split_ifs at h with hm
    · obtain ⟨-, rfl⟩ := Prod.mk.inj (Option.some.inj h)
      exact hA
    obtain ⟨t₁, h₁, h⟩ := Option.bind_eq_some_iff.mp h
    obtain ⟨⟨res₂, t₂⟩, h₂, h⟩ := Option.bind_eq_some_iff.mp h
    have hA₂ := (AllWF.prune hd hA h₁).exchangeAllRoot h₂
    dsimp only at h
    cases res₂ with
    | error e =>
      obtain ⟨-, rfl⟩ := Prod.mk.inj (Option.some.inj h)
      exact hA₂
    | ok u =>
      dsimp only at h
      split_ifs at h
      obtain ⟨-, rfl⟩ := Prod.mk.inj (Option.some.inj h)
      exact hA₂

theorem AllWF.SwitchMainToEmpty (hA : AllWF U t) (hd : d.WF U) {fuel : ℕ} {order : List ℕ}
    {res : Except String Unit} (h : t.SwitchMainToEmpty d fuel order = some (res, t')) : AllWF U t' := by
  unfold tree.SwitchMainToEmpty at h
  split_ifs at h
  · obtain ⟨-, rfl⟩ := Prod.mk.inj (Option.some.inj h)
    exact hA
  split at h
  · exact hA.SwitchMainTo hd h
  · obtain ⟨⟨c, t₁⟩, h₁, h⟩ := Option.bind_eq_some_iff.mp h
    exact (hA.ForkBranch hd h₁).SwitchMainTo hd h

theorem AllWF.pruneAll (hd : d.WF U) {fuel : ℕ} :
    ∀ {ids : List ℕ} {t t' : tree H}, AllWF U t → t.pruneAll d fuel ids = some t' → AllWF U t' := by
  intro ids t t' hA h
  exact pruneAll_rule (AllWF U) (fun _ _ _ hA₁ _ _ h₁ => AllWF.prune hd hA₁ h₁) hA h

theorem AllWF.removeGarbage {stale : ℕ → Bool} :
    ∀ {ids : List ℕ} {t t' : tree H} {rs : List ℕ}, AllWF U t → t.removeGarbage stale ids = some (rs, t') →
      AllWF U t' := by
  intro ids t t' rs hA h
  exact removeGarbage_rule (AllWF U) (fun _ _ _ _ hA₁ _ _ _ h₁ => hA₁.removeBranch h₁) hA h

theorem AllWF.PruneTree (hA : AllWF U t) (hd : d.WF U) {fuel : ℕ} {stale : ℕ → Bool} {order₁ order₂ rs : List ℕ}
    (h : t.PruneTree d fuel stale order₁ order₂ = some (rs, t')) : AllWF U t' := by
  unfold tree.PruneTree at h
  split_ifs at h
  obtain ⟨t₁, h₁, h⟩ := Option.bind_eq_some_iff.mp h
  exact (AllWF.pruneAll hd hA h₁).removeGarbage h

end tree

end Vite.Pool
