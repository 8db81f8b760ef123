import Vite.Dex.Trade

/-!
# Walking the book (`recursiveTakeOrder`)

`takeMaker_outcome` says once what one visit can do: skip a timed-out maker (cancelling it),
cancel a post-only taker that would trade, trade, or stop at a maker whose price does not cross.
`recursiveTakeOrder_eq_some` says once how the walk goes on from a visit. Every property of the
walk is then an induction over the rest of the book with these two lemmas as its step.

`recursiveTakeOrder_walk` is what the walk does to the book: the makers it modifies are a prefix
of the book, it trades with those of them that did not time out, each at the maker's own price
and only where the maker crosses, and it stops before the end of the book only when the taker is
done or the next maker does not cross. A trade cap bounds the txs (`recursiveTakeOrder_txs_le`),
and the walk keeps `OrderInv` on every order it touches (`recursiveTakeOrder_inv`).
-/

namespace Vite.Dex

/-- A maker that has not timed out is left as it is. -/
theorem filterTimeout_snd {tradeTimestamp : ℤ} {fork : Bool} {maker : Order}
    (h : (filterTimeout tradeTimestamp fork maker).1 = false) :
    (filterTimeout tradeTimestamp fork maker).2 = maker := by
  unfold filterTimeout at h ⊢
  split_ifs at h ⊢ <;> rfl

/-- An order whose status or cancel reason changes keeps `OrderInv`. -/
theorem OrderInv.withStatus {o : Order} (h : OrderInv o) (s : OrderStatus) (r : CancelReason) :
    OrderInv { o with Status := s, CancelReason := r } :=
  ⟨h.executedQuantity_le, h.executedAmount_le, h.executedFee_le⟩

/-- A timed-out maker is only cancelled: its terms stay. -/
theorem filterTimeout_terms (tradeTimestamp : ℤ) (fork : Bool) (maker : Order) :
    (filterTimeout tradeTimestamp fork maker).2.terms = maker.terms := by
  unfold filterTimeout
  split_ifs <;> rfl

theorem filterTimeout_inv (tradeTimestamp : ℤ) (fork : Bool) {maker : Order} (h : OrderInv maker) :
    OrderInv (filterTimeout tradeTimestamp fork maker).2 := by
  unfold filterTimeout
  split_ifs
  · exact h
  · exact h.withStatus _ _
  · exact h

/-- The taker after a trade, cancelled if it is still partly executed at the trade cap. -/
def capTaker (taker : Order) (txCount : ℕ) : Order :=
  if taker.Status = .PartialExecuted ∧ maxTxsCountPerTaker ≤ txCount then
    { taker with Status := .Cancelled, CancelReason := .partialExecutedCancelledByMarket }
  else taker

theorem capTaker_terms (taker : Order) (txCount : ℕ) : (capTaker taker txCount).terms = taker.terms := by
  unfold capTaker
  split_ifs <;> rfl

theorem capTaker_inv {taker : Order} (h : OrderInv taker) (txCount : ℕ) :
    OrderInv (capTaker taker txCount) := by
  unfold capTaker
  split_ifs
  · exact h.withStatus _ _
  · exact h

/-- At the cap, a taker that a trade left fully or partly executed is finished. -/
theorem capTaker_finished {taker : Order} {txCount : ℕ}
    (hs : taker.Status = .FullyExecuted ∨ taker.Status = .PartialExecuted)
    (hcap : maxTxsCountPerTaker ≤ txCount) :
    (capTaker taker txCount).Status = .FullyExecuted ∨ (capTaker taker txCount).Status = .Cancelled := by
  unfold capTaker
  rcases hs with hs | hs
  · rw [if_neg (by simp [hs])]
    exact .inl hs
  · rw [if_pos ⟨hs, hcap⟩]
    exact .inr rfl

/-- What one visit of `recursiveTakeOrder` can do. -/
inductive TakeMakerOutcome (env : MatchEnv) (marketInfo : MarketInfo) (tradeTimestamp : ℤ)
    (taker maker : Order) (modifiedMakers : List Order) (txs : List OrderTx) :
    Bool × Order × List Order × List OrderTx → Prop
  | timedOut : (filterTimeout tradeTimestamp env.enrichOrderFork maker).1 = true →
      TakeMakerOutcome env marketInfo tradeTimestamp taker maker modifiedMakers txs
        (false, taker, modifiedMakers ++ [(filterTimeout tradeTimestamp env.enrichOrderFork maker).2], txs)
  | postOnly : (filterTimeout tradeTimestamp env.enrichOrderFork maker).1 = false →
      (matchPrice taker maker).1 = true → taker.OrderType = .PostOnly →
      TakeMakerOutcome env marketInfo tradeTimestamp taker maker modifiedMakers txs
        (true, { taker with Status := .Cancelled, CancelReason := .cancelledByPostOnlyMatched },
          modifiedMakers, txs)
  | trade (tx : OrderTx) (taker' maker' : Order) :
      (filterTimeout tradeTimestamp env.enrichOrderFork maker).1 = false →
      (matchPrice taker maker).1 = true → taker.OrderType ≠ .PostOnly →
      calculateOrderAndTx taker maker marketInfo env.dexFeeFork = some (tx, taker', maker') →
      TakeMakerOutcome env marketInfo tradeTimestamp taker maker modifiedMakers txs
        (false, capTaker taker' (txs ++ [tx]).length, modifiedMakers ++ [maker'], txs ++ [tx])
  | noMatch : (filterTimeout tradeTimestamp env.enrichOrderFork maker).1 = false →
      (matchPrice taker maker).1 = false →
      TakeMakerOutcome env marketInfo tradeTimestamp taker maker modifiedMakers txs
        (true, taker, modifiedMakers, txs)

theorem takeMaker_outcome {env : MatchEnv} {marketInfo : MarketInfo} {tradeTimestamp : ℤ}
    {taker maker : Order} {modifiedMakers : List Order} {txs : List OrderTx}
    {r : Bool × Order × List Order × List OrderTx}
    (h : takeMaker env marketInfo tradeTimestamp taker maker modifiedMakers txs = some r) :
    TakeMakerOutcome env marketInfo tradeTimestamp taker maker modifiedMakers txs r := by
  unfold takeMaker at h
  -- the visit reads the maker as `filterTimeout` leaves it
  cases hto : (filterTimeout tradeTimestamp env.enrichOrderFork maker).1 with
  | true =>
    simp only [hto, if_true, Option.some.injEq] at h
    subst h
    exact .timedOut hto
  | false =>
    have hm := filterTimeout_snd hto
    simp only [hto, hm, Bool.false_eq_true, if_false] at h
    split_ifs at h with hmatch hpost
    · cases h
      exact .postOnly hto hmatch hpost
    · obtain ⟨⟨tx, taker', maker'⟩, htx, h⟩ := Option.bind_eq_some_iff.mp h
      cases h
      exact .trade tx taker' maker' hto hmatch hpost htx
    · cases h
      exact .noMatch hto (by simpa using hmatch)

/-- `recursiveTakeOrder` is a visit followed by the test whether to go on. -/
theorem recursiveTakeOrder_unfold (env : MatchEnv) (marketInfo : MarketInfo) (tradeTimestamp : ℤ)
    (taker maker : Order) (rest modifiedMakers : List Order) (txs : List OrderTx) :
    recursiveTakeOrder env marketInfo tradeTimestamp taker maker rest modifiedMakers txs =
      (takeMaker env marketInfo tradeTimestamp taker maker modifiedMakers txs).bind fun s =>
        if s.1 = true ∨ s.2.1.Status = .FullyExecuted ∨ s.2.1.Status = .Cancelled then some s.2
        else match rest with
          | [] => some s.2
          | next :: rest => recursiveTakeOrder env marketInfo tradeTimestamp s.2.1 next rest s.2.2.1 s.2.2.2 := by
  cases rest <;> rfl

/-- How the walk goes on from a visit: it returns what the visit left when the visit stops, the
taker is finished or the book has no more makers, and else visits the next maker. -/
theorem recursiveTakeOrder_eq_some {env : MatchEnv} {marketInfo : MarketInfo} {tradeTimestamp : ℤ}
    {taker maker : Order} {rest modifiedMakers : List Order} {txs : List OrderTx}
    {r : Order × List Order × List OrderTx}
    (h : recursiveTakeOrder env marketInfo tradeTimestamp taker maker rest modifiedMakers txs = some r) :
    ∃ stop taker₁ makers₁ txs₁,
      takeMaker env marketInfo tradeTimestamp taker maker modifiedMakers txs =
        some (stop, taker₁, makers₁, txs₁) ∧
      ((stop = true ∨ taker₁.Status = .FullyExecuted ∨ taker₁.Status = .Cancelled ∨ rest = []) ∧
          r = (taker₁, makers₁, txs₁) ∨
        stop = false ∧ ¬(taker₁.Status = .FullyExecuted ∨ taker₁.Status = .Cancelled) ∧
          ∃ next rest', rest = next :: rest' ∧
            recursiveTakeOrder env marketInfo tradeTimestamp taker₁ next rest' makers₁ txs₁ = some r) := by
  rw [recursiveTakeOrder_unfold] at h
  obtain ⟨⟨stop, taker₁, makers₁, txs₁⟩, hstep, h⟩ := Option.bind_eq_some_iff.mp h
  refine ⟨stop, taker₁, makers₁, txs₁, hstep, ?_⟩
  simp only at h
  split_ifs at h with hdone
  · cases h
    exact .inl ⟨by tauto, rfl⟩
  · cases rest with
    | nil =>
      cases h
      exact .inl ⟨by tauto, rfl⟩
    | cons next rest' =>
      simp only [not_or, Bool.not_eq_true] at hdone
      exact .inr ⟨hdone.1, by tauto, next, rest', rfl, h⟩

/-- Induction over the walk: a property of the taker, the modified makers and the txs that every
visit of a maker of the book keeps holds of what the walk returns. -/
theorem recursiveTakeOrder_induction {env : MatchEnv} {marketInfo : MarketInfo} {tradeTimestamp : ℤ}
    (P : Order → List Order → List OrderTx → Prop)
    {taker maker taker' : Order} {rest modifiedMakers makers' : List Order} {txs txs' : List OrderTx}
    (h : recursiveTakeOrder env marketInfo tradeTimestamp taker maker rest modifiedMakers txs =
      some (taker', makers', txs'))
    (hstep : ∀ t m t₁ ms ms₁ ts ts₁ stop, m ∈ maker :: rest →
      takeMaker env marketInfo tradeTimestamp t m ms ts = some (stop, t₁, ms₁, ts₁) →
      P t ms ts → P t₁ ms₁ ts₁)
    (hP : P taker modifiedMakers txs) : P taker' makers' txs' := by
  induction rest generalizing taker maker modifiedMakers txs with
  | nil =>
    obtain ⟨stop, taker₁, makers₁, txs₁, hvisit, ⟨-, hr⟩ | ⟨-, -, next, rest', hnil, -⟩⟩ :=
      recursiveTakeOrder_eq_some h
    · cases hr
      exact hstep _ _ _ _ _ _ _ _ List.mem_cons_self hvisit hP
    · cases hnil
  | cons next rest ih =>
    obtain ⟨stop, taker₁, makers₁, txs₁, hvisit, ⟨-, hr⟩ | ⟨-, -, next', rest', hcons, hrec⟩⟩ :=
      recursiveTakeOrder_eq_some h
    · cases hr
      exact hstep _ _ _ _ _ _ _ _ List.mem_cons_self hvisit hP
    · cases hcons
      refine ih hrec (fun t m t₁ ms ms₁ ts ts₁ stop hm => ?_)
        (hstep _ _ _ _ _ _ _ _ List.mem_cons_self hvisit hP)
      exact hstep t m t₁ ms ms₁ ts ts₁ stop (List.mem_cons_of_mem _ hm)

/-! ## The walk over the book -/

/-- What a walk from `taker` over `book` did when it returns `taker'` and adds `makers` and
`txs`: the modified makers are a prefix of the book, the traded ones those of it that did not time
out, each trade at a crossing maker's price, and the walk stopped early only for a finished taker
or a maker that does not cross. -/
structure WalkResult (tradeTimestamp : ℤ) (fork : Bool) (taker : Order) (book : List Order)
    (taker' : Order) (makers : List Order) (txs : List OrderTx) : Prop where
  terms_eq : taker'.terms = taker.terms
  makers_prefix : makers.map Order.Id = (book.take makers.length).map Order.Id
  txs_makers : txs.map OrderTx.MakerId =
    ((book.take makers.length).filter fun m => !(filterTimeout tradeTimestamp fork m).1).map Order.Id
  txs_cross : ∀ tx ∈ txs, ∃ m ∈ book, tx.MakerId = m.Id ∧ tx.Price = m.Price ∧ (matchPrice taker m).1 = true
  stop : ∀ m, book[makers.length]? = some m →
    taker'.Status = .FullyExecuted ∨ taker'.Status = .Cancelled ∨
      (filterTimeout tradeTimestamp fork m).1 = false ∧ (matchPrice taker m).1 = false

/-- A visit that returns: its outcome is a walk over the book of its own. -/
theorem walkResult_of_last {env : MatchEnv} {marketInfo : MarketInfo} {tradeTimestamp : ℤ}
    {taker maker taker₁ : Order} {rest modifiedMakers makers₁ : List Order} {txs txs₁ : List OrderTx}
    {stop : Bool}
    (hstep : takeMaker env marketInfo tradeTimestamp taker maker modifiedMakers txs =
      some (stop, taker₁, makers₁, txs₁))
    (hend : stop = true ∨ taker₁.Status = .FullyExecuted ∨ taker₁.Status = .Cancelled ∨ rest = []) :
    ∃ makers newTxs, makers₁ = modifiedMakers ++ makers ∧ txs₁ = txs ++ newTxs ∧
      WalkResult tradeTimestamp env.enrichOrderFork taker (maker :: rest) taker₁ makers newTxs := by
  cases takeMaker_outcome hstep with
  | timedOut hto =>
    have hid : (filterTimeout tradeTimestamp env.enrichOrderFork maker).2.Id = maker.Id :=
      congrArg OrderTerms.Id (filterTimeout_terms tradeTimestamp env.enrichOrderFork maker)
    refine ⟨[_], [], rfl, by simp, ⟨rfl, by simp [hid], by simp [hto], by simp, ?_⟩⟩
    · intro m hm
      rcases hend with h | h | h | rfl
      · cases h
      · exact .inl h
      · exact .inr (.inl h)
      · simp at hm
  | postOnly hto hmatch hpost =>
    refine ⟨[], [], by simp, by simp, ⟨rfl, by simp, by simp, by simp, ?_⟩⟩
    intro m _
    exact .inr (.inl rfl)
  | trade tx taker' maker' hto hmatch hpost htx =>
    obtain ⟨-, -, -, -, -, -, -, -, -, -, -, -, -, -, hmid, hprice, -, -, -, -⟩ :=
      calculateOrderAndTx_eq_some htx
    have hid : maker'.Id = maker.Id := congrArg OrderTerms.Id (calculateOrderAndTx_fill htx).2.terms_eq
    refine ⟨[maker'], [tx], rfl, rfl, ⟨?_, ?_, ?_, ?_, ?_⟩⟩
    · rw [capTaker_terms]
      exact (calculateOrderAndTx_fill htx).1.terms_eq
    · simp [hid]
    · simp [hto, hmid]
    · intro x hx
      simp only [List.mem_singleton] at hx
      subst hx
      exact ⟨maker, by simp, hmid, hprice, hmatch⟩
    · intro m hm
      rcases hend with h | h | h | rfl
      · cases h
      · exact .inl h
      · exact .inr (.inl h)
      · simp at hm
  | noMatch hto hmatch =>
    refine ⟨[], [], by simp, by simp, ⟨rfl, by simp, by simp, by simp, ?_⟩⟩
    intro m hm
    simp only [List.length_nil, List.getElem?_cons_zero, Option.some.injEq] at hm
    subst hm
    exact .inr (.inr ⟨hto, hmatch⟩)

/-- A visit that goes on: the walk from the next maker, behind this visit, is a walk over the
whole book. -/
theorem walkResult_of_continue {env : MatchEnv} {marketInfo : MarketInfo} {tradeTimestamp : ℤ}
    {taker maker taker₁ next taker' : Order} {rest modifiedMakers makers₁ makers : List Order}
    {txs txs₁ newTxs : List OrderTx}
    (hstep : takeMaker env marketInfo tradeTimestamp taker maker modifiedMakers txs =
      some (false, taker₁, makers₁, txs₁))
    (hwalk : WalkResult tradeTimestamp env.enrichOrderFork taker₁ (next :: rest) taker' makers newTxs) :
    ∃ made madeTxs, makers₁ = modifiedMakers ++ made ∧ txs₁ = txs ++ madeTxs ∧
      WalkResult tradeTimestamp env.enrichOrderFork taker (maker :: next :: rest) taker'
        (made ++ makers) (madeTxs ++ newTxs) := by
  -- both visits that go on modify exactly this maker
  have hcross : ∀ m, (matchPrice taker₁ m) = matchPrice taker m := fun m =>
    matchPrice_congr (by
      cases takeMaker_outcome hstep with
      | timedOut => rfl
      | trade tx t' m' _ _ _ htx =>
        rw [capTaker_terms]
        exact (calculateOrderAndTx_fill htx).1.terms_eq) m
  cases takeMaker_outcome hstep with
  | timedOut hto =>
    have hid : (filterTimeout tradeTimestamp env.enrichOrderFork maker).2.Id = maker.Id :=
      congrArg OrderTerms.Id (filterTimeout_terms tradeTimestamp env.enrichOrderFork maker)
    refine ⟨[_], [], rfl, by simp, ⟨hwalk.terms_eq, ?_, ?_, ?_, ?_⟩⟩
    · simp [hid, hwalk.makers_prefix]
    · simp [hto, hwalk.txs_makers]
    · intro tx htx
      obtain ⟨m, hm, h⟩ := hwalk.txs_cross tx htx
      exact ⟨m, List.mem_cons_of_mem _ hm, by rwa [hcross] at h⟩
    · intro m hm
      have hstop := hwalk.stop m (by simpa using hm)
      rwa [hcross] at hstop
  | trade tx taker₂ maker' hto hmatch hpost htx =>
    obtain ⟨-, -, -, -, -, -, -, -, -, -, -, -, -, -, hmid, hprice, -, -, -, -⟩ :=
      calculateOrderAndTx_eq_some htx
    have hid : maker'.Id = maker.Id := congrArg OrderTerms.Id (calculateOrderAndTx_fill htx).2.terms_eq
    have hterms : taker'.terms = taker.terms := by
      rw [hwalk.terms_eq, capTaker_terms]
      exact (calculateOrderAndTx_fill htx).1.terms_eq
    refine ⟨[maker'], [tx], rfl, rfl, ⟨hterms, ?_, ?_, ?_, ?_⟩⟩
    · simp [hid, hwalk.makers_prefix]
    · simp [hto, hmid, hwalk.txs_makers]
    · intro x hx
      rcases List.mem_cons.mp hx with rfl | hx
      · exact ⟨maker, by simp, hmid, hprice, hmatch⟩
      · obtain ⟨m, hm, h⟩ := hwalk.txs_cross x hx
        exact ⟨m, List.mem_cons_of_mem _ hm, by rwa [hcross] at h⟩
    · intro m hm
      have hstop := hwalk.stop m (by simpa using hm)
      rwa [hcross] at hstop

/-- The walk over the book, with whatever the accumulators held before. -/
theorem recursiveTakeOrder_walk {env : MatchEnv} {marketInfo : MarketInfo} {tradeTimestamp : ℤ}
    {taker maker taker' : Order} {rest modifiedMakers makers' : List Order} {txs txs' : List OrderTx}
    (h : recursiveTakeOrder env marketInfo tradeTimestamp taker maker rest modifiedMakers txs =
      some (taker', makers', txs')) :
    ∃ makers newTxs, makers' = modifiedMakers ++ makers ∧ txs' = txs ++ newTxs ∧
      WalkResult tradeTimestamp env.enrichOrderFork taker (maker :: rest) taker' makers newTxs := by
  -- induction on the makers after this one; the visit is the step
  induction rest generalizing taker maker modifiedMakers txs with
  | nil =>
    obtain ⟨stop, taker₁, makers₁, txs₁, hstep, ⟨-, hr⟩ | ⟨-, -, next, rest', hnil, -⟩⟩ :=
      recursiveTakeOrder_eq_some h
    · cases hr
      exact walkResult_of_last hstep (.inr (.inr (.inr rfl)))
    · cases hnil
  | cons next rest ih =>
    obtain ⟨stop, taker₁, makers₁, txs₁, hstep, ⟨hend, hr⟩ | ⟨rfl, -, next', rest', hcons, hrec⟩⟩ :=
      recursiveTakeOrder_eq_some h
    · cases hr
      exact walkResult_of_last hstep hend
    · cases hcons
      obtain ⟨makers, newTxs, rfl, rfl, hwalk⟩ := ih hrec
      obtain ⟨made, madeTxs, rfl, rfl, hwalk'⟩ := walkResult_of_continue hstep hwalk
      exact ⟨made ++ makers, madeTxs ++ newTxs, by simp, by simp, hwalk'⟩


/-! ## What the walk keeps -/

/-- A visit changes the taker's execution state only. -/
theorem takeMaker_terms {env : MatchEnv} {marketInfo : MarketInfo} {tradeTimestamp : ℤ}
    {taker maker taker₁ : Order} {modifiedMakers makers₁ : List Order} {txs txs₁ : List OrderTx}
    {stop : Bool}
    (hstep : takeMaker env marketInfo tradeTimestamp taker maker modifiedMakers txs =
      some (stop, taker₁, makers₁, txs₁)) :
    taker₁.terms = taker.terms := by
  cases takeMaker_outcome hstep with
  | trade tx taker' maker' _ _ _ htx =>
    rw [capTaker_terms]
    exact (calculateOrderAndTx_fill htx).1.terms_eq
  | _ => rfl

/-- A visit adds at most one tx, and one that reaches the cap finishes the taker. -/
theorem takeMaker_txs_length {env : MatchEnv} {marketInfo : MarketInfo} {tradeTimestamp : ℤ}
    {taker maker taker₁ : Order} {modifiedMakers makers₁ : List Order} {txs txs₁ : List OrderTx}
    {stop : Bool}
    (hstep : takeMaker env marketInfo tradeTimestamp taker maker modifiedMakers txs =
      some (stop, taker₁, makers₁, txs₁))
    (hlen : txs.length < maxTxsCountPerTaker) :
    txs₁.length ≤ maxTxsCountPerTaker ∧
      (¬(taker₁.Status = .FullyExecuted ∨ taker₁.Status = .Cancelled) →
        txs₁.length < maxTxsCountPerTaker) := by
  cases takeMaker_outcome hstep with
  | trade tx taker' maker' _ _ _ htx =>
    refine ⟨by simpa using hlen, fun hnot => ?_⟩
    by_contra hcap
    exact hnot (capTaker_finished (calculateOrderAndTx_fill htx).1.status (by omega))
  | _ => exact ⟨hlen.le, fun _ => hlen⟩

/-- The walk makes at most `maxTxsCountPerTaker` trades. -/
theorem recursiveTakeOrder_txs_le {env : MatchEnv} {marketInfo : MarketInfo} {tradeTimestamp : ℤ}
    {taker maker taker' : Order} {rest modifiedMakers makers' : List Order} {txs txs' : List OrderTx}
    (h : recursiveTakeOrder env marketInfo tradeTimestamp taker maker rest modifiedMakers txs =
      some (taker', makers', txs'))
    (hlen : txs.length < maxTxsCountPerTaker) : txs'.length ≤ maxTxsCountPerTaker := by
  induction rest generalizing taker maker modifiedMakers txs with
  | nil =>
    obtain ⟨stop, taker₁, makers₁, txs₁, hstep, ⟨-, hr⟩ | ⟨-, -, next, rest', hnil, -⟩⟩ :=
      recursiveTakeOrder_eq_some h
    · cases hr
      exact (takeMaker_txs_length hstep hlen).1
    · cases hnil
  | cons next rest ih =>
    obtain ⟨stop, taker₁, makers₁, txs₁, hstep, ⟨-, hr⟩ | ⟨-, hnot, next', rest', hcons, hrec⟩⟩ :=
      recursiveTakeOrder_eq_some h
    · cases hr
      exact (takeMaker_txs_length hstep hlen).1
    · cases hcons
      exact ih hrec ((takeMaker_txs_length hstep hlen).2 hnot)

/-- What the walk keeps on everything it touches: `OrderInv` on the taker and the modified
makers, and every trade's seller fees within its amount. -/
structure WalkInv (taker : Order) (makers : List Order) (txs : List OrderTx) : Prop where
  taker_inv : OrderInv taker
  makers_inv : ∀ m ∈ makers, OrderInv m
  sellerFee_le : ∀ tx ∈ txs, tx.sellerFee ≤ tx.Amount

theorem takeMaker_inv {env : MatchEnv} {marketInfo : MarketInfo} {tradeTimestamp : ℤ}
    {taker maker taker₁ : Order} {modifiedMakers makers₁ : List Order} {txs txs₁ : List OrderTx}
    {stop : Bool}
    (hstep : takeMaker env marketInfo tradeTimestamp taker maker modifiedMakers txs =
      some (stop, taker₁, makers₁, txs₁))
    (hrates : FeeRatesBounded taker) (hmaker : OrderInv maker) (hmrates : FeeRatesBounded maker)
    (hinv : WalkInv taker modifiedMakers txs) : WalkInv taker₁ makers₁ txs₁ := by
  obtain ⟨ht, hms, htxs⟩ := hinv
  cases takeMaker_outcome hstep with
  | timedOut =>
    refine ⟨ht, ?_, htxs⟩
    simpa [or_imp, forall_and] using ⟨hms, filterTimeout_inv _ _ hmaker⟩
  | postOnly => exact ⟨ht.withStatus _ _, hms, htxs⟩
  | trade tx taker' maker' _ _ _ htx =>
    have hfill := calculateOrderAndTx_fill htx
    refine ⟨capTaker_inv (hfill.1.inv ht) _, ?_, ?_⟩
    · simpa [or_imp, forall_and] using ⟨hms, hfill.2.inv hmaker⟩
    · simpa [or_imp, forall_and] using ⟨htxs, calculateOrderAndTx_sellerFee_le htx hrates hmrates⟩
  | noMatch => exact ⟨ht, hms, htxs⟩

/-- Over a book of orders that satisfy `OrderInv` and have bounded fee rates, the walk keeps
`WalkInv`. -/
theorem recursiveTakeOrder_inv {env : MatchEnv} {marketInfo : MarketInfo} {tradeTimestamp : ℤ}
    {taker maker taker' : Order} {rest modifiedMakers makers' : List Order} {txs txs' : List OrderTx}
    (h : recursiveTakeOrder env marketInfo tradeTimestamp taker maker rest modifiedMakers txs =
      some (taker', makers', txs'))
    (hbook : ∀ m ∈ maker :: rest, OrderInv m ∧ FeeRatesBounded m) (hrates : FeeRatesBounded taker)
    (hinv : WalkInv taker modifiedMakers txs) : WalkInv taker' makers' txs' := by
  -- the taker's rates travel with the invariant: a visit keeps the taker's terms
  have hrun := recursiveTakeOrder_induction (fun t ms ts => WalkInv t ms ts ∧ FeeRatesBounded t) h
    (fun _ m _ _ _ _ _ _ hm hvisit hP =>
      ⟨takeMaker_inv hvisit hP.2 (hbook m hm).1 (hbook m hm).2 hP.1,
        hP.2.of_terms (takeMaker_terms hvisit)⟩)
    ⟨hinv, hrates⟩
  exact hrun.1

/-- A taker that is not cancelled for a reason that undoes its trades. -/
def NotUndone (t : Order) : Prop := t.Status = .Cancelled → undoesTrades t = false

/-- A visit cancels the taker only as post-only matched or at the trade cap. -/
theorem takeMaker_notUndone {env : MatchEnv} {marketInfo : MarketInfo} {tradeTimestamp : ℤ}
    {taker maker taker₁ : Order} {modifiedMakers makers₁ : List Order} {txs txs₁ : List OrderTx}
    {stop : Bool}
    (hstep : takeMaker env marketInfo tradeTimestamp taker maker modifiedMakers txs =
      some (stop, taker₁, makers₁, txs₁))
    (h : NotUndone taker) : NotUndone taker₁ := by
  cases takeMaker_outcome hstep with
  | postOnly => exact fun _ => by simp [undoesTrades]
  | trade tx taker' maker' _ _ _ htx =>
    unfold capTaker
    split_ifs
    · exact fun _ => by simp [undoesTrades]
    -- a trade leaves the taker fully or partly executed
    · intro hc
      rcases (calculateOrderAndTx_fill htx).1.status with hs | hs <;> simp [hs] at hc
  | _ => exact h

theorem recursiveTakeOrder_notUndone {env : MatchEnv} {marketInfo : MarketInfo} {tradeTimestamp : ℤ}
    {taker maker taker' : Order} {rest modifiedMakers makers' : List Order} {txs txs' : List OrderTx}
    (h : recursiveTakeOrder env marketInfo tradeTimestamp taker maker rest modifiedMakers txs =
      some (taker', makers', txs'))
    (hnot : NotUndone taker) : NotUndone taker' :=
  recursiveTakeOrder_induction (fun t _ _ => NotUndone t) h
    (fun _ _ _ _ _ _ _ _ _ hvisit hP => takeMaker_notUndone hvisit hP) hnot

/-- A visit goes through when both orders have well-formed prices and bounded fee rates. -/
theorem takeMaker_isSome (env : MatchEnv) (marketInfo : MarketInfo) (tradeTimestamp : ℤ)
    {taker maker : Order} (modifiedMakers : List Order) (txs : List OrderTx)
    (hrates : FeeRatesBounded taker) (hprice : taker.OrderType ≠ .Market → WellFormedPrice taker.Price)
    (hmrates : FeeRatesBounded maker) (hmprice : WellFormedPrice maker.Price) :
    ∃ r, takeMaker env marketInfo tradeTimestamp taker maker modifiedMakers txs = some r := by
  obtain ⟨⟨tx, taker', maker'⟩, htx⟩ :=
    calculateOrderAndTx_isSome marketInfo env.dexFeeFork hrates hmrates hprice hmprice
  unfold takeMaker
  cases hto : (filterTimeout tradeTimestamp env.enrichOrderFork maker).1 with
  | true =>
    simp only [hto, if_true]
    exact ⟨_, rfl⟩
  | false =>
    simp only [hto, filterTimeout_snd hto, Bool.false_eq_true, if_false]
    split_ifs
    · exact ⟨_, rfl⟩
    · simp only [htx, Option.bind_eq_bind, Option.bind_some]
      exact ⟨_, rfl⟩
    · exact ⟨_, rfl⟩

/-- The walk goes through over a book of orders with well-formed prices and bounded fee rates. -/
theorem recursiveTakeOrder_isSome (env : MatchEnv) (marketInfo : MarketInfo) (tradeTimestamp : ℤ)
    {taker maker : Order} {rest : List Order} (modifiedMakers : List Order) (txs : List OrderTx)
    (hbook : ∀ m ∈ maker :: rest, FeeRatesBounded m ∧ WellFormedPrice m.Price)
    (hrates : FeeRatesBounded taker) (hprice : taker.OrderType ≠ .Market → WellFormedPrice taker.Price) :
    ∃ r, recursiveTakeOrder env marketInfo tradeTimestamp taker maker rest modifiedMakers txs = some r := by
  induction rest generalizing taker maker modifiedMakers txs with
  | nil =>
    have hm := hbook maker (by simp)
    obtain ⟨⟨stop, taker₁, makers₁, txs₁⟩, hstep⟩ :=
      takeMaker_isSome env marketInfo tradeTimestamp modifiedMakers txs hrates hprice hm.1 hm.2
    rw [recursiveTakeOrder_unfold, hstep, Option.bind_some]
    split_ifs <;> exact ⟨_, rfl⟩
  | cons next rest ih =>
    have hm := hbook maker (by simp)
    obtain ⟨⟨stop, taker₁, makers₁, txs₁⟩, hstep⟩ :=
      takeMaker_isSome env marketInfo tradeTimestamp modifiedMakers txs hrates hprice hm.1 hm.2
    have hterms := takeMaker_terms hstep
    rw [recursiveTakeOrder_unfold, hstep, Option.bind_some]
    split_ifs
    · exact ⟨_, rfl⟩
    · refine ih makers₁ txs₁ (fun m hm' => hbook m (List.mem_cons_of_mem _ hm'))
        (hrates.of_terms hterms) ?_
      rw [show taker₁.OrderType = taker.OrderType from congrArg OrderTerms.OrderType hterms,
        show taker₁.Price = taker.Price from congrArg OrderTerms.Price hterms]
      exact hprice

end Vite.Dex
