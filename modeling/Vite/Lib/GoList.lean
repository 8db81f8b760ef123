import Mathlib.Data.List.Basic

/-!
# Go's `container/list`, by element handles

A doubly linked list whose elements outlive their membership: a program may keep an `*Element`
after the element has left the list and still call `Next`, `Prev` or read `Value` on it. The
elements are kept in an allocation table indexed by handle, and the list is the handles it holds
from front to back. An element in the list has the links its neighbours give it. An element
out of the list has the links it was left with: `Remove` clears them, while `Init` empties the
list without touching its elements, which keep their old neighbours and still count as members
for `Next` and `Prev`.
-/

namespace GoList

/-- An element: its value, and the links it keeps once it is out of the list. -/
structure Element (α : Type*) where
  Value : α
  next : Option ℕ
  prev : Option ℕ
  deriving DecidableEq, Repr

/-- A list: every element allocated so far, by handle, and the handles in the list from front to
back. -/
structure LinkedList (α : Type*) where
  elems : List (Element α)
  order : List ℕ
  deriving DecidableEq, Repr

variable {α : Type*}

/-- `list.New`. -/
def New : LinkedList α := ⟨[], []⟩

/-- The handle after `e` in `order`, if any. -/
def after (e : ℕ) : List ℕ → Option ℕ
  | [] => none
  | a :: rest => if a = e then rest.head? else after e rest

/-- The handle before `e` in `order`, if any. -/
def before (e : ℕ) (order : List ℕ) : Option ℕ := after e order.reverse

namespace LinkedList

def Len (l : LinkedList α) : ℕ := l.order.length

def Front (l : LinkedList α) : Option ℕ := l.order.head?

def Back (l : LinkedList α) : Option ℕ := l.order.getLast?

/-- `e.Value`. -/
def Value (l : LinkedList α) (e : ℕ) : Option α := l.elems[e]?.map (·.Value)

/-- `e.Value = v`. -/
def SetValue (l : LinkedList α) (e : ℕ) (v : α) : LinkedList α :=
  { l with elems := l.elems.modify e fun x => { x with Value := v } }

/-- `e.Next()`: the successor of a member; the link left behind for an element out of the
list. -/
def Next (l : LinkedList α) (e : ℕ) : Option ℕ :=
  if e ∈ l.order then after e l.order else l.elems[e]?.bind (·.next)

/-- `e.Prev()`. -/
def Prev (l : LinkedList α) (e : ℕ) : Option ℕ :=
  if e ∈ l.order then before e l.order else l.elems[e]?.bind (·.prev)

/-- `l.PushBack(v)`, with the new element's handle. -/
def PushBack (l : LinkedList α) (v : α) : LinkedList α × ℕ :=
  (⟨l.elems ++ [⟨v, none, none⟩], l.order ++ [l.elems.length]⟩, l.elems.length)

/-- `l.PushFront(v)`, with the new element's handle. -/
def PushFront (l : LinkedList α) (v : α) : LinkedList α × ℕ :=
  (⟨l.elems ++ [⟨v, none, none⟩], l.elems.length :: l.order⟩, l.elems.length)

/-- `l.Remove(e)` of an element of the list: it leaves the list with its links cleared. -/
def Remove (l : LinkedList α) (e : ℕ) : LinkedList α :=
  if e ∈ l.order then
    ⟨l.elems.modify e fun x => { x with next := none, prev := none }, l.order.erase e⟩
  else l

/-- `l.Init()`: the list is emptied; its elements keep their neighbours as links. -/
def Init (l : LinkedList α) : LinkedList α :=
  ⟨l.elems.mapIdx fun i x =>
      if i ∈ l.order then { x with next := after i l.order, prev := before i l.order } else x,
    []⟩

/-- The elements a loop `for p := e; p != nil; p = p.Next()` visits, within `fuel` steps. -/
def walk (l : LinkedList α) : ℕ → Option ℕ → List ℕ
  | 0, _ => []
  | _ + 1, none => []
  | fuel + 1, some e => e :: l.walk fuel (l.Next e)

/-- The handles are distinct and allocated. -/
structure WellFormed (l : LinkedList α) : Prop where
  nodup : l.order.Nodup
  lt : ∀ e ∈ l.order, e < l.elems.length

@[simp] theorem length_elems_Remove (l : LinkedList α) (e : ℕ) :
    (l.Remove e).elems.length = l.elems.length := by
  unfold Remove
  split_ifs <;> simp

@[simp] theorem length_elems_Init (l : LinkedList α) : l.Init.elems.length = l.elems.length := by
  simp [Init]

@[simp] theorem length_elems_SetValue (l : LinkedList α) (e : ℕ) (v : α) :
    (l.SetValue e v).elems.length = l.elems.length := by
  simp [SetValue]

@[simp] theorem PushBack_elems_length (l : LinkedList α) (v : α) :
    (l.PushBack v).1.elems.length = l.elems.length + 1 := by
  simp [PushBack]

@[simp] theorem PushFront_elems_length (l : LinkedList α) (v : α) :
    (l.PushFront v).1.elems.length = l.elems.length + 1 := by
  simp [PushFront]

@[simp] theorem PushBack_order (l : LinkedList α) (v : α) :
    (l.PushBack v).1.order = l.order ++ [l.elems.length] := rfl

@[simp] theorem Len_PushBack (l : LinkedList α) (v : α) : (l.PushBack v).1.Len = l.Len + 1 := by
  simp [Len]

theorem Back_eq_none {l : LinkedList α} : l.Back = none ↔ l.Len = 0 := by
  simp [Back, Len]

end LinkedList

end GoList
