import Vite.Dex.Calculator

/-!
# Division by proportion (`DivideByProportion`, fund_dividend.go)

The DEX hands out an amount among holders in proportion to what each holds: fee dividends by VX
held, mined VX by stake. `DivideByProportion` gives one holder `part / total` of the amount,
through `big.Float` and `RoundAmount`, and keeps two running amounts that Go updates in place:
what the holders served so far hold, and what is left to hand out. The last share is what is
left, and a call reports the division finished when nothing would be left or every holder has
been served. Its callers call it for each holder in turn and stop at the first call that reports
finished (`divideInTurn`).

Rounding cannot make the shares miss the amount: over holders with positive parts summing to the
total, the division finishes by the last holder, every share is non-negative and the shares sum
to the amount exactly (`divideInTurn_exact`).
-/

namespace Vite.Dex

open BinaryFloat BigFloat

/-- What `DivideByProportion` returns, with the two amounts it updates in place. -/
structure Division where
  proportionAmt : ℤ
  finished : Bool
  dividedReferAmt : ℤ
  toDivideLeaveAmt : ℤ
  deriving DecidableEq, Repr

def DivideByProportion (totalReferAmt partReferAmt dividedReferAmt toDivideTotalAmt toDivideLeaveAmt : ℤ) :
    Division :=
  let dividedReferAmt := dividedReferAmt + partReferAmt
  let proportion := quo bigFloatPrec (setInt bigFloatPrec partReferAmt) (setInt bigFloatPrec totalReferAmt)
  let proportionAmt := RoundAmount (mul bigFloatPrec (setInt bigFloatPrec toDivideTotalAmt) proportion)
  let toDivideLeaveNewAmt := toDivideLeaveAmt - proportionAmt
  if toDivideLeaveNewAmt ≤ 0 ∨ totalReferAmt ≤ dividedReferAmt then
    -- the rest goes to this holder
    ⟨toDivideLeaveAmt, true, dividedReferAmt, 0⟩
  else ⟨proportionAmt, false, dividedReferAmt, toDivideLeaveNewAmt⟩

/-- The callers' loop (`DoMineVxForStaking` over the stakers): `DivideByProportion` for each part
in turn until a call reports finished; the shares handed out, and whether one did. -/
def divideInTurn (totalReferAmt toDivideTotalAmt : ℤ) : List ℤ → ℤ → ℤ → List ℤ × Bool
  | [], _, _ => ([], false)
  | partReferAmt :: parts, dividedReferAmt, toDivideLeaveAmt =>
    let r := DivideByProportion totalReferAmt partReferAmt dividedReferAmt toDivideTotalAmt toDivideLeaveAmt
    if r.finished then ([r.proportionAmt], true)
    else
      let rest := divideInTurn totalReferAmt toDivideTotalAmt parts r.dividedReferAmt r.toDivideLeaveAmt
      (r.proportionAmt :: rest.1, rest.2)

section Division

variable {totalReferAmt partReferAmt toDivideTotalAmt : ℤ}

/-- The share a holder's part gives before the rest is checked is never negative. -/
theorem proportionAmt_nonneg (hT : 0 < totalReferAmt) (hp : 0 ≤ partReferAmt) (hA : 0 ≤ toDivideTotalAmt) :
    0 ≤ RoundAmount (mul bigFloatPrec (setInt bigFloatPrec toDivideTotalAmt)
      (quo bigFloatPrec (setInt bigFloatPrec partReferAmt) (setInt bigFloatPrec totalReferAmt))) := by
  have hcast : ∀ {x : ℤ}, 0 ≤ x → 0 ≤ setInt bigFloatPrec x := fun hx =>
    round_nonneg _ (by exact_mod_cast hx)
  have hq : 0 ≤ quo bigFloatPrec (setInt bigFloatPrec partReferAmt) (setInt bigFloatPrec totalReferAmt) :=
    round_nonneg _ (div_nonneg (hcast hp) (hcast hT.le))
  exact RoundAmount_nonneg (round_nonneg _ (mul_nonneg (hcast hA) hq))

/-- One call: the served parts grow by this part; either the division finishes and this holder
gets the rest, or it gets a non-negative share, something is left, and the parts served are still
below the total. -/
theorem DivideByProportion_spec (hT : 0 < totalReferAmt) (hp : 0 ≤ partReferAmt) (hA : 0 ≤ toDivideTotalAmt)
    (dividedReferAmt toDivideLeaveAmt : ℤ) :
    let r := DivideByProportion totalReferAmt partReferAmt dividedReferAmt toDivideTotalAmt toDivideLeaveAmt
    r.dividedReferAmt = dividedReferAmt + partReferAmt ∧
      ((r.finished = true ∧ r.proportionAmt = toDivideLeaveAmt) ∨
        (r.finished = false ∧ 0 ≤ r.proportionAmt ∧ 0 < r.toDivideLeaveAmt ∧
          r.proportionAmt + r.toDivideLeaveAmt = toDivideLeaveAmt ∧
          dividedReferAmt + partReferAmt < totalReferAmt)) := by
  have hprop := proportionAmt_nonneg hT hp hA
  unfold DivideByProportion
  dsimp only
  split_ifs with hfin
  · exact ⟨rfl, .inl ⟨rfl, rfl⟩⟩
  · rw [not_or, not_le, not_le] at hfin
    refine ⟨rfl, .inr ⟨rfl, hprop, ?_, ?_, hfin.2⟩⟩ <;> dsimp only <;> omega

/-- The loop from any point where the parts served are below the total and the parts still to
serve make it up: it finishes within those parts, and the shares are non-negative and hand out
exactly what was left. -/
theorem divideInTurn_spec (hT : 0 < totalReferAmt) (hA : 0 ≤ toDivideTotalAmt) (parts : List ℤ)
    (hpos : ∀ p ∈ parts, 0 < p) {dividedReferAmt toDivideLeaveAmt : ℤ}
    (hsum : dividedReferAmt + parts.sum = totalReferAmt) (hbelow : dividedReferAmt < totalReferAmt)
    (hleave : 0 ≤ toDivideLeaveAmt) :
    let r := divideInTurn totalReferAmt toDivideTotalAmt parts dividedReferAmt toDivideLeaveAmt
    r.2 = true ∧ (∀ s ∈ r.1, 0 ≤ s) ∧ r.1.sum = toDivideLeaveAmt ∧ r.1.length ≤ parts.length := by
  -- an induction on the parts still to serve, the two running amounts generalized
  induction parts generalizing dividedReferAmt toDivideLeaveAmt with
  | nil =>
    simp only [List.sum_nil, add_zero] at hsum
    omega
  | cons p parts ih =>
    have hp : 0 < p := hpos p List.mem_cons_self
    obtain ⟨hdiv, ⟨hfin, hshare⟩ | ⟨hfin, hshare, hleft, hsplit, hbelow'⟩⟩ :=
      DivideByProportion_spec hT hp.le hA dividedReferAmt toDivideLeaveAmt
    · simp only [divideInTurn, hfin, if_true, hshare]
      refine ⟨trivial, fun s hs => ?_, by simp, by simp⟩
      rw [List.mem_singleton.mp hs]
      exact hleave
    · simp only [divideInTurn, hfin, Bool.false_eq_true, if_false]
      rw [List.sum_cons] at hsum
      obtain ⟨hdone, hnonneg, hrest, hlen⟩ := @ih (fun q hq => hpos q (List.mem_cons_of_mem p hq))
        (dividedReferAmt + p) _ (by omega) hbelow' hleft.le
      rw [← hdiv] at hdone hnonneg hrest hlen
      refine ⟨hdone, fun s hs => ?_, ?_, by simpa using hlen⟩
      · rcases List.mem_cons.mp hs with rfl | hs
        · exact hshare
        · exact hnonneg s hs
      · rw [List.sum_cons, hrest, hsplit]

/-- Dividing an amount among holders with positive parts that make up the total, each in turn
from nothing divided: some call, at the latest the last holder's, reports finished, and the
shares handed out are non-negative and sum to the amount exactly. -/
theorem divideInTurn_exact (hT : 0 < totalReferAmt) (hA : 0 ≤ toDivideTotalAmt) {parts : List ℤ}
    (hpos : ∀ p ∈ parts, 0 < p) (hsum : parts.sum = totalReferAmt) :
    (divideInTurn totalReferAmt toDivideTotalAmt parts 0 toDivideTotalAmt).2 = true ∧
      (∀ s ∈ (divideInTurn totalReferAmt toDivideTotalAmt parts 0 toDivideTotalAmt).1, 0 ≤ s) ∧
      (divideInTurn totalReferAmt toDivideTotalAmt parts 0 toDivideTotalAmt).1.sum = toDivideTotalAmt ∧
      (divideInTurn totalReferAmt toDivideTotalAmt parts 0 toDivideTotalAmt).1.length ≤ parts.length :=
  divideInTurn_spec hT hA parts hpos (by rw [zero_add, hsum]) hT hA

theorem divideInTurn_exact_three_holders :
    (divideInTurn 6 100 [1, 2, 3] 0 100).2 = true ∧
      (∀ s ∈ (divideInTurn 6 100 [1, 2, 3] 0 100).1, 0 ≤ s) ∧
      (divideInTurn 6 100 [1, 2, 3] 0 100).1.sum = 100 ∧
      (divideInTurn 6 100 [1, 2, 3] 0 100).1.length ≤ 3 :=
  divideInTurn_exact (by decide) (by decide) (by decide) rfl

end Division

end Vite.Dex
