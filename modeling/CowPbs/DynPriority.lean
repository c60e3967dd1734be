import Mathlib
import CowPbs.Lib.CInt
import CowPbs.Pbs

/-!
# The dynamic priority in exact arithmetic

`dp_calc` computes with `int`s, and what an `int` operation gives that overflows is not
defined. `dpCalcC` is `dp_calc` with those results left out, next to `Proc.dpCalc`, which
wraps as the machine does, and `dpFormula` the priority over the integers. `dp_calc` gives
the formula, without an overflow, if and only if its sums and products are `int`s and the
priority before the cut at 100 is at most 100 (`dpCalc_exact_iff`) : `min` returns its
first argument in both branches, so there is no cut.
-/

open CInt

namespace CowPbs

theorem toInt_max (a b : Int32) : (max a b).toInt = Max.max a.toInt b.toInt := by
  have h : a > b ↔ b.toInt < a.toInt := Int32.lt_iff_toInt_lt
  unfold max
  split_ifs with hab
  · exact (max_eq_left (h.1 hab).le).symm
  · exact (max_eq_right (not_lt.1 fun hlt => hab (h.2 hlt))).symm

/-- `min` of proc.c is its first argument. -/
theorem min_eq (a b : Int32) : min a b = a := by
  unfold min
  split_ifs <;> rfl

namespace Proc

/-- `rbi_calculator`, as far as it is defined. -/
def rbiCalculatorC (p : Proc) : Option Int32 := do
  let r ← mul 3 p.runningTime
  let r ← sub r p.sleepTime
  let r ← sub r p.waitTime
  let num ← mul r 50
  let s ← add p.runningTime p.waitTime
  let s ← add s p.sleepTime
  let den ← add s 1
  let rbi ← div num den
  return max rbi 0

/-- `dp_calc`, as far as it is defined. -/
def dpCalcC (p : Proc) : Option Int32 := do
  let rbi ← p.rbiCalculatorC
  let dp ← add p.stPriority rbi
  return min dp 100

/-- The numerator of the quotient in `rbi_calculator`, over the integers. -/
def rbiNum (p : Proc) : ℤ :=
  (3 * p.runningTime.toInt - p.sleepTime.toInt - p.waitTime.toInt) * 50

/-- The denominator. -/
def rbiDen (p : Proc) : ℤ :=
  p.runningTime.toInt + p.waitTime.toInt + p.sleepTime.toInt + 1

/-- The dynamic priority over the integers. -/
def dpFormula (p : Proc) : ℤ :=
  Min.min (p.stPriority.toInt + Max.max (p.rbiNum.tdiv p.rbiDen) 0) 100

/-! ## Where `dp_calc` is defined -/

/-- The sums and products of `rbi_calculator` are `int`s, and it does not divide by 0. -/
structure RbiFits (p : Proc) : Prop where
  running : InRange (3 * p.runningTime.toInt)
  sleep : InRange (3 * p.runningTime.toInt - p.sleepTime.toInt)
  wait : InRange (3 * p.runningTime.toInt - p.sleepTime.toInt - p.waitTime.toInt)
  num : InRange p.rbiNum
  sum : InRange (p.runningTime.toInt + p.waitTime.toInt)
  sum' : InRange (p.runningTime.toInt + p.waitTime.toInt + p.sleepTime.toInt)
  den : InRange p.rbiDen
  den_ne : p.rbiDen ≠ 0
  quot : InRange (p.rbiNum.tdiv p.rbiDen)

variable {p : Proc} {r : Int32}

theorem rbiCalculatorC_of_fits (h : p.RbiFits) :
    ∃ r, p.rbiCalculatorC = some r ∧ r.toInt = Max.max (p.rbiNum.tdiv p.rbiDen) 0 := by
  obtain ⟨a, ha⟩ := ofInt_isSome.2 h.running
  obtain ⟨b, hb⟩ := ofInt_isSome.2 h.sleep
  obtain ⟨c, hc⟩ := ofInt_isSome.2 h.wait
  obtain ⟨num, hnum⟩ := ofInt_isSome.2 h.num
  obtain ⟨d, hd⟩ := ofInt_isSome.2 h.sum
  obtain ⟨e, he⟩ := ofInt_isSome.2 h.sum'
  obtain ⟨den, hden⟩ := ofInt_isSome.2 h.den
  obtain ⟨q, hq⟩ := ofInt_isSome.2 h.quot
  rw [ofInt_eq_some] at ha hb hc hnum hd he hden hq
  have ha' : mul 3 p.runningTime = some a := mul_eq_some.2 ha
  have hb' : sub a p.sleepTime = some b := sub_eq_some.2 (by rw [hb, ha])
  have hc' : sub b p.waitTime = some c := sub_eq_some.2 (by rw [hc, hb])
  have hnum' : mul c 50 = some num := mul_eq_some.2 (by rw [hnum, hc]; rfl)
  have hd' : add p.runningTime p.waitTime = some d := add_eq_some.2 hd
  have he' : add d p.sleepTime = some e := add_eq_some.2 (by rw [he, hd])
  have hden' : add e 1 = some den := add_eq_some.2 (by rw [hden, he]; rfl)
  have hq' : div num den = some q := by
    refine div_eq_some.2 ⟨?_, by rw [hq, hnum, hden]⟩
    rintro rfl
    exact h.den_ne hden.symm
  refine ⟨max q 0, ?_, by rw [toInt_max, hq]; rfl⟩
  simp only [rbiCalculatorC, ha', hb', hc', hnum', hd', he', hden', hq', bind, pure,
    Option.bind_some]

theorem fits_of_rbiCalculatorC (h : p.rbiCalculatorC = some r) : p.RbiFits := by
  simp only [rbiCalculatorC, bind, Option.bind_eq_some_iff, pure, Option.some.injEq] at h
  obtain ⟨a, ha, b, hb, c, hc, num, hnum, d, hd, e, he, den, hden, q, hq, -⟩ := h
  rw [mul_eq_some] at ha hnum
  rw [sub_eq_some] at hb hc
  rw [add_eq_some] at hd he hden
  rw [div_eq_some] at hq
  have ha : a.toInt = 3 * p.runningTime.toInt := ha
  rw [ha] at hb
  rw [hb] at hc
  have hnum : num.toInt = p.rbiNum := by rw [hnum, hc]; rfl
  rw [hd] at he
  have hden : den.toInt = p.rbiDen := by rw [hden, he]; rfl
  refine ⟨ha ▸ toInt_inRange a, hb ▸ toInt_inRange b, hc ▸ toInt_inRange c,
    hnum ▸ toInt_inRange num, hd ▸ toInt_inRange d, he ▸ toInt_inRange e,
    hden ▸ toInt_inRange den, fun h0 => hq.1 ?_, ?_⟩
  · rw [← Int32.toInt_inj, hden, h0]
    rfl
  · rw [← hnum, ← hden, ← hq.2]
    exact toInt_inRange q

/-- `dp_calc` is defined where `rbi_calculator` is and its sum is an `int`, and then it is
that sum. -/
theorem dpCalcC_eq_some : p.dpCalcC = some r ↔
    p.RbiFits ∧ r.toInt = p.stPriority.toInt + Max.max (p.rbiNum.tdiv p.rbiDen) 0 := by
  simp only [dpCalcC, bind, Option.bind_eq_some_iff, pure, Option.some.injEq, min_eq]
  constructor
  · rintro ⟨rbi, hrbi, dp, hdp, rfl⟩
    have hfits := fits_of_rbiCalculatorC hrbi
    obtain ⟨rbi', hrbi', hval⟩ := rbiCalculatorC_of_fits hfits
    obtain rfl : rbi = rbi' := Option.some.inj (hrbi.symm.trans hrbi')
    rw [add_eq_some] at hdp
    exact ⟨hfits, by rw [hdp, hval]⟩
  · rintro ⟨hfits, hr⟩
    obtain ⟨rbi, hrbi, hval⟩ := rbiCalculatorC_of_fits hfits
    exact ⟨rbi, hrbi, r, add_eq_some.2 (by rw [hr, hval]), rfl⟩

/-- Where `dp_calc` is defined, the machine computes it. -/
theorem dpCalc_eq (h : p.dpCalcC = some r) : p.dpCalc.1 = r := by
  simp only [dpCalcC, rbiCalculatorC, bind, Option.bind_assoc, Option.bind_eq_some_iff, pure,
    Option.some.injEq, Option.bind_some] at h
  obtain ⟨a, ha, b, hb, c, hc, num, hnum, d, hd, e, he, den, hden, q, hq, dp, hdp, rfl⟩ := h
  simp only [dpCalc, rbiCalculator, rbiRaw]
  rw [mul_eq ha, sub_eq hb, sub_eq hc, mul_eq hnum, add_eq hd, add_eq he, add_eq hden, div_eq hq,
    add_eq hdp]

/-! ## The formula -/

/-- `dp_calc` gives the documented priority, which is in `[0, 100]`, without an overflow. -/
structure DpExact (p : Proc) : Prop where
  defined : ∃ r, p.dpCalcC = some r
  value : p.dpCalc.1.toInt = p.dpFormula
  nonneg : 0 ≤ p.dpCalc.1.toInt
  le : p.dpCalc.1.toInt ≤ 100

/-- The sums and products of the counters are `int`s, and the quotient does not take the
priority over 100. -/
structure DpFits (p : Proc) : Prop where
  running : 3 * p.runningTime.toInt < 2 ^ 31
  num : InRange p.rbiNum
  den : p.rbiDen < 2 ^ 31
  le : p.rbiNum < (101 - p.stPriority.toInt) * p.rbiDen

/-- A truncated quotient is at most `k`. -/
theorem tdiv_le_iff {a b k : ℤ} (hb : 0 < b) (hk : 0 ≤ k) : a.tdiv b ≤ k ↔ a < (k + 1) * b := by
  rcases le_or_gt 0 a with ha | ha
  · rw [Int.tdiv_eq_ediv_of_nonneg ha, ← Int.lt_add_one_iff, Int.ediv_lt_iff_lt_mul hb]
  · have hq : a.tdiv b ≤ 0 := by
      have := Int.tdiv_nonneg (neg_nonneg.2 ha.le) hb.le
      rw [Int.neg_tdiv] at this
      omega
    have hp : 0 ≤ (k + 1) * b := by positivity
    exact ⟨fun _ => lt_of_lt_of_le ha hp, fun _ => hq.trans hk⟩

/-- `dp_calc` of a process with `st_priority` in `[0, 100]` and non-negative counters is the
documented dynamic priority if and only if no sum or product of the counters overflows and
the quotient leaves the priority at most 100. -/
theorem dpCalc_exact_iff (p : Proc) (hst : 0 ≤ p.stPriority.toInt)
    (hst' : p.stPriority.toInt ≤ 100) (hR : 0 ≤ p.runningTime.toInt)
    (hS : 0 ≤ p.sleepTime.toInt) (hW : 0 ≤ p.waitTime.toInt) : p.DpExact ↔ p.DpFits := by
  have hden : 0 < p.rbiDen := by
    unfold rbiDen
    omega
  have hq : p.rbiNum.tdiv p.rbiDen ≤ 100 - p.stPriority.toInt ↔
      p.rbiNum < (101 - p.stPriority.toInt) * p.rbiDen := by
    rw [tdiv_le_iff hden (by omega), show 100 - p.stPriority.toInt + 1 = 101 - p.stPriority.toInt by
      ring]
  constructor
  · rintro ⟨⟨r, hr⟩, hval, -, hle⟩
    obtain ⟨hfits, hsum⟩ := dpCalcC_eq_some.1 hr
    rw [dpCalc_eq hr, hsum] at hle
    refine ⟨hfits.running.2, hfits.num, hfits.den.2, hq.1 ?_⟩
    have := le_max_left (p.rbiNum.tdiv p.rbiDen) 0
    omega
  · rintro ⟨hrun, hnum, hden', hle⟩
    have hquot := hq.2 hle
    have hnum₂ := hnum
    have hden₂ := hden'
    unfold rbiNum InRange at hnum₂
    unfold rbiDen at hden₂
    have hlow : -2 ^ 31 ≤ p.rbiNum.tdiv p.rbiDen := by
      rcases le_or_gt 0 p.rbiNum with h0 | h0
      · exact le_trans (by norm_num) (Int.tdiv_nonneg h0 hden.le)
      · have habs := Int.natAbs_tdiv_le_natAbs p.rbiNum p.rbiDen
        have := hnum.1
        omega
    have hfits : p.RbiFits := by
      refine ⟨⟨by omega, hrun⟩, ⟨by omega, by omega⟩, ⟨by omega, by omega⟩, hnum,
        ⟨by omega, by omega⟩, ⟨by omega, by omega⟩, ⟨by omega, hden'⟩, hden.ne', hlow, by omega⟩
    have hsum : p.stPriority.toInt + Max.max (p.rbiNum.tdiv p.rbiDen) 0 ≤ 100 := by omega
    obtain ⟨r, hr⟩ : ∃ r : Int32, r.toInt =
        p.stPriority.toInt + Max.max (p.rbiNum.tdiv p.rbiDen) 0 := by
      obtain ⟨r, hr⟩ := ofInt_isSome.2 (⟨by omega, by omega⟩ : InRange
        (p.stPriority.toInt + Max.max (p.rbiNum.tdiv p.rbiDen) 0))
      exact ⟨r, ofInt_eq_some.1 hr⟩
    have hdef := dpCalcC_eq_some.2 ⟨hfits, hr⟩
    refine ⟨⟨r, hdef⟩, ?_, ?_, ?_⟩ <;> rw [dpCalc_eq hdef, hr]
    · exact (min_eq_left hsum).symm
    · omega
    · exact hsum

/-- A process that has just been created. -/
theorem dpCalc_exact_iff_fresh : (zero.fresh 7).DpExact ↔ (zero.fresh 7).DpFits :=
  dpCalc_exact_iff _ (by decide) (by decide) (by decide) (by decide) (by decide)

/-- A process with the least urgent priority that ran in the last tick gets 175. -/
theorem dpCalc_over_hundred : ∃ p : Proc, p.stPriority = 100 ∧ p.runningTime = 1 ∧
    p.sleepTime = 0 ∧ p.waitTime = 0 ∧ p.dpCalc.1 = 175 ∧ p.dpFormula = 100 ∧ ¬p.DpExact := by
  refine ⟨{ zero with stPriority := 100, runningTime := 1 }, rfl, rfl, rfl, rfl, by decide,
    by decide, fun h => ?_⟩
  exact absurd h.le (by decide)

end Proc

end CowPbs
