import Svr32.Lib.Calendar

/-! libgen/to_date.c: days numbered from the first of the year 1, and their dates; Julian up to
September of 1752, Gregorian after it. -/
namespace Svr32.Libgen
open Svr32.Lib Svr32.Lib.Calendar

def normUpto : List Int := [0, 0, 31, 59, 90, 120, 151, 181, 212, 243, 273, 304, 334, 365]

def leapUpto : List Int := [0, 0, 31, 60, 91, 121, 152, 182, 213, 244, 274, 305, 335, 366]

def y1752Upto : List Int := [0, 0, 31, 60, 91, 121, 152, 182, 213, 244, 263, 294, 324, 355]

/- The day and the year, as the two pointers leave them. -/
def doleap (days year firstleap : Int) : Int × Int :=
  if days < firstleap * 365 then (days.tmod 365, year + days.tdiv 365)
  else
    let year := year + firstleap
    let days := days - 365 * firstleap
    let nquad := days.tdiv (365 * 4 + 1)
    let nrem := days.tmod (365 * 4 + 1)
    let nyear := if 366 - 1 < nrem then (nrem - 366).tdiv 365 + 1 else 0
    (nrem - 365 * nyear - (if nyear = 0 then 0 else 1), year + (nquad * 4 + nyear))

def do100 (days year : Int) : Int × Int :=
  let ncentury := days.tdiv (100 * 365 + 100 / 4 - 1)
  doleap (days.tmod (100 * 365 + 100 / 4 - 1)) (year + 100 * ncentury) 4

def do400 (days year : Int) : Int × Int :=
  let n400 := days.tdiv (400 * 365 + 400 / 4 - 4 + 1)
  let days := days.tmod (400 * 365 + 400 / 4 - 4 + 1)
  let (n100, days) := if 100 * 365 + 100 / 4 < days then
      let n100 := (days - (100 * 365 + 100 / 4)).tdiv (100 * 365 + 100 / 4 - 1) + 1
      (n100, days - (n100 * (100 * 365 + 100 / 4 - 1) + 1))
    else (0, days)
  doleap days (year + (100 * n100 + 400 * n400)) (if n100 = 0 then 0 else 4)

/- The day in its year, the year, both from 0, and the table of the year. -/
def findYear (day : Int) : (Int × Int) × List Int :=
  if day < (1752 - 1) * 365 + (1752 - 1) / 4 then
    let r := doleap day 0 3
    (r, if r.2.tmod 4 = 3 then leapUpto else normUpto)
  else if day < (1753 - 1) * 365 + (1753 - 1) / 4 - 11 then
    ((day - ((1752 - 1) * 365 + (1752 - 1) / 4), 1752 - 1), y1752Upto)
  else if day < (1800 - 1) * 365 + (1800 - 1) / 4 - 11 then
    let r := doleap (day + 11) 0 (1756 - 1753)
    (r, if r.2.tmod 4 = 3 then leapUpto else normUpto)
  else if day < (2000 - 1) * 365 + (2000 - 1) / 4 - 2 - 11 then
    let r := do100 (day - ((1800 - 1) * 365 + (1800 - 1) / 4 - 11)) 1799
    (r, if r.2.tmod 4 = 3 ∧ r.2.tmod 100 ≠ 99 then leapUpto else normUpto)
  else
    let r := do400 (day - ((2000 - 1) * 365 + (2000 - 1) / 4 - 2 - 11)) 1999
    (r, if r.2.tmod 4 = 3 ∧ (r.2.tmod 100 ≠ 99 ∨ r.2.tmod 400 = 399) then leapUpto
      else normUpto)

/- for (month = 2; day >= upto[month] ; month++), for a number of turns; a month after the table
gives nothing. -/
def monthsUpto (upto : List Int) (day : Int) : Nat → Nat → Option Nat
  | 0, _ => none
  | n + 1, month => do
    let u ← upto[month]?
    if u ≤ day then monthsUpto upto day n (month + 1) else some month

/- The month, the day and the year. -/
def toDate (day : Int) : Option (Int × Int × Int) := do
  let ((day, year), upto) := findYear (day - 1)
  let month ← monthsUpto upto day 13 2
  let month := month - 1
  let u ← upto[month]?
  let pday := day - u + 1
  let pday := if year = 1751 ∧ month = 9 ∧ 2 < pday then pday + 11 else pday
  some (month, pday, year + 1)

/- The table of a year, for the months of its dates. -/
def uptoOf (y : Int) : List Int :=
  if y < 1752 then if y.tmod 4 = 0 then leapUpto else normUpto
  else if 1752 < y then
    if y.tmod 4 = 0 ∧ (y.tmod 100 ≠ 0 ∨ y.tmod 400 = 0) then leapUpto else normUpto
  else y1752Upto

/- -1 for a bad date. -/
def toDay (m d y : Int) : Option Int := do
  if y < 1 ∨ 9999 < y ∨ m < 1 ∨ 12 < m ∨ d < 1 ∨ 31 < d then some (-1)
  else
    let day := (y - 1) * 365
    let day := day + (y - 1).tdiv 4
    let day := if 1800 < y then day - (y - 1701).tdiv 100 + (y - 1601).tdiv 400 else day
    let day := if 1752 < y then day - 11 else day
    if y = 1752 ∧ m = 9 ∧ 2 < d ∧ d < 14 then some (-1)
    else
      let d := if y = 1752 ∧ m = 9 ∧ 14 ≤ d then d - 11 else d
      let u ← (uptoOf y)[m.toNat]?
      let v ← (uptoOf y)[m.toNat + 1]?
      if v - u < d then some (-1) else some (day + u + d)

/- Every fourth year until 1752, the Gregorian ones after it. -/
def britishLeap (y : Int) : Bool := y % 4 = 0 ∧ (y ≤ 1752 ∨ y % 100 ≠ 0 ∨ y % 400 = 0)

/- September of 1752 has the days 1, 2 and 14 to 30. -/
def britishMonths (y : Int) : List Int :=
  if y = 1752 then [31, 29, 31, 30, 31, 30, 31, 31, 19, 31, 30, 31]
  else monthLengths (britishLeap y)

theorem britishMonths_sum (y : Int) : (britishMonths y).sum =
    if y = 1752 then 355 else if britishLeap y = true then 366 else 365 := by
  rw [britishMonths]
  split
  · rfl
  · exact monthLengths_sum (britishLeap y)

/- The days before a year, from the first of the year 1. -/
def britishBefore (y : Int) : Int :=
  365 * (y - 1) + (y - 1) / 4 - (if 1800 < y then (y - 1701) / 100 - (y - 1601) / 400 else 0) -
    (if 1752 < y then 11 else 0)

theorem britishBefore_succ (y : Int) :
    britishBefore (y + 1) = britishBefore y + (britishMonths y).sum := by
  rw [britishMonths_sum, britishBefore, britishBefore]
  by_cases h : y = 1752
  · subst h
    rfl
  · rw [if_neg h]
    by_cases hl : britishLeap y = true
    · rw [if_pos hl]
      have := of_decide_eq_true hl
      split <;> split <;> split <;> split <;> omega
    · rw [if_neg hl]
      have : ¬(y % 4 = 0 ∧ (y ≤ 1752 ∨ y % 100 ≠ 0 ∨ y % 400 = 0)) :=
        fun hd => hl (decide_eq_true hd)
      split <;> split <;> split <;> split <;> omega

/-- The calendar that the days are counted by. -/
def british : Calendar where
  months := britishMonths
  before := britishBefore
  pos y := by
    rw [britishMonths]
    split
    · decide
    · exact monthLengths_pos (britishLeap y)
  nonempty y := by
    rw [britishMonths]
    split
    · exact List.cons_ne_nil _ _
    · exact List.cons_ne_nil _ _
  before_succ := britishBefore_succ

/-- What finding the year of a day comes to. -/
structure YearDay (D : Int) (r : Int × Int) : Prop where
  year : 0 ≤ r.2
  day : 0 ≤ r.1 ∧ r.1 < (britishMonths (r.2 + 1)).sum
  sum : britishBefore (r.2 + 1) + r.1 = D

/-- The leap years among `k` years of which the one at `f` is the first. -/
def leapsIn (f k : Int) : Int := if k ≤ f then 0 else (k - f + 3) / 4

theorem doleap_spec (year f : Int) {days : Int} (h0 : 0 ≤ days) (hf : 0 ≤ f) :
    ∃ k, 0 ≤ k ∧ (doleap days year f).2 = year + k ∧ 0 ≤ (doleap days year f).1 ∧
      days = 365 * k + leapsIn f k + (doleap days year f).1 ∧
      (doleap days year f).1 < 365 + if f ≤ k ∧ (k - f) % 4 = 0 then 1 else 0 := by
  by_cases h : days < f * 365
  · rw [doleap, if_pos h, Int.tmod_eq_emod_of_nonneg h0, Int.tdiv_eq_ediv_of_nonneg h0]
    refine ⟨days / 365, by omega, rfl, by dsimp only; omega, ?_, ?_⟩
    · rw [leapsIn, if_pos (by omega)]
      dsimp only
      omega
    · dsimp only
      split <;> omega
  · rw [doleap, if_neg h]
    dsimp only
    have hp : 0 ≤ days - 365 * f := by omega
    rw [Int.tmod_eq_emod_of_nonneg hp, Int.tdiv_eq_ediv_of_nonneg hp]
    generalize hq : (days - 365 * f) / (365 * 4 + 1) = q
    generalize hr : (days - 365 * f) % (365 * 4 + 1) = r
    have hr0 : 0 ≤ r ∧ r < 1461 := by omega
    by_cases hl : 366 - 1 < r
    · rw [if_pos hl, Int.tdiv_eq_ediv_of_nonneg (by omega)]
      generalize hy : (r - 366) / 365 + 1 = y
      have hy3 : 1 ≤ y ∧ y ≤ 3 := by omega
      rw [if_neg (by omega)]
      refine ⟨f + (q * 4 + y), by omega, by omega, by omega, ?_, ?_⟩
      · rw [leapsIn, if_neg (by omega)]
        omega
      · split <;> omega
    · rw [if_neg hl, if_pos rfl]
      refine ⟨f + (q * 4 + 0), by omega, by omega, by omega, ?_, ?_⟩
      · rw [leapsIn]
        split <;> omega
      · rw [if_pos (by omega)]
        omega

theorem britishBefore_julian {y : Int} (h : y ≤ 1752) :
    britishBefore y = 365 * (y - 1) + (y - 1) / 4 := by
  rw [britishBefore, if_neg (by omega), if_neg (by omega)]
  omega

theorem britishBefore_1753 {y : Int} (h₁ : 1752 < y) (h₂ : y ≤ 1800) :
    britishBefore y = 365 * (y - 1) + (y - 1) / 4 - 11 := by
  rw [britishBefore, if_neg (by omega), if_pos h₁]
  omega

theorem britishBefore_gregorian {y : Int} (h : 1800 ≤ y) : britishBefore y =
    365 * (y - 1) + (y - 1) / 4 - ((y - 1701) / 100 - (y - 1601) / 400) - 11 := by
  rw [britishBefore, if_pos (by omega : 1752 < y)]
  split <;> omega

/-- The length of a year but 1752. -/
theorem britishMonths_length {y : Int} (h : y ≠ 1752) (b : Prop) [Decidable b]
    (hb : b ↔ britishLeap y = true) :
    (britishMonths y).sum = 365 + if b then 1 else 0 := by
  rw [britishMonths_sum, if_neg h]
  by_cases hl : britishLeap y = true
  · rw [if_pos hl, if_pos (hb.mpr hl)]
    rfl
  · rw [if_neg hl, if_neg fun h => hl (hb.mp h)]
    rfl

theorem britishLeap_iff (y : Int) : britishLeap y = true ↔
    y % 4 = 0 ∧ (y ≤ 1752 ∨ y % 100 ≠ 0 ∨ y % 400 = 0) := decide_eq_true_iff

/-- Up to 1751, and with 11 days more up to 1799: every fourth year is a leap year. -/
theorem julian_spec {D : Int} (h0 : 0 ≤ D) (h : D < 365 * 1799 + 1799 / 4) :
    0 ≤ (doleap D 0 3).2 ∧ (doleap D 0 3).2 < 1799 ∧
    0 ≤ (doleap D 0 3).1 ∧ (doleap D 0 3).1 < 365 + (if (doleap D 0 3).2 % 4 = 3 then 1 else 0) ∧
    365 * (doleap D 0 3).2 + (doleap D 0 3).2 / 4 + (doleap D 0 3).1 = D := by
  obtain ⟨k, hk, hy, hd, hs, hlt⟩ := doleap_spec 0 3 h0 (by decide)
  have hl : leapsIn 3 k = k / 4 := by
    rw [leapsIn]
    split <;> omega
  rw [Int.zero_add] at hy
  rw [hl] at hs
  rw [hy]
  refine ⟨hk, by omega, hd, ?_, by omega⟩
  split at hlt
  · rw [if_pos (by omega)]
    exact hlt
  · split <;> omega

/-- A century from a year on that is divisible by 100 and no leap year. -/
theorem century_spec {D Y : Int} (h0 : 0 ≤ D) (h : D < 36524) :
    ∃ k, 0 ≤ k ∧ k < 100 ∧ (doleap D Y 4).2 = Y + k ∧ 0 ≤ (doleap D Y 4).1 ∧
      (doleap D Y 4).1 < 365 + (if k % 4 = 0 ∧ k ≠ 0 then 1 else 0) ∧
      365 * k + (k + 3) / 4 - (if k = 0 then 0 else 1) + (doleap D Y 4).1 = D := by
  obtain ⟨k, hk, hy, hd, hs, hlt⟩ := doleap_spec Y 4 h0 (by decide)
  have hl : leapsIn 4 k = (k + 3) / 4 - if k = 0 then 0 else 1 := by
    rw [leapsIn]
    split <;> split <;> omega
  rw [hl] at hs
  refine ⟨k, hk, ?_, hy, hd, ?_, ?_⟩
  · split at hs <;> omega
  · split at hlt
    · rw [if_pos (by omega)]
      exact hlt
    · split <;> omega
  · split
    · next hc =>
      rw [if_pos hc] at hs
      omega
    · next hc =>
      rw [if_neg hc] at hs
      omega

/-- The first century from a year that is divisible by 400. -/
theorem leapCentury_spec {D Y : Int} (h0 : 0 ≤ D) (h : D ≤ 36525) :
    ∃ k, 0 ≤ k ∧ k ≤ 100 ∧ (doleap D Y 0).2 = Y + k ∧ 0 ≤ (doleap D Y 0).1 ∧
      (doleap D Y 0).1 < 365 + (if k % 4 = 0 then 1 else 0) ∧
      365 * k + (k + 3) / 4 + (doleap D Y 0).1 = D := by
  obtain ⟨k, hk, hy, hd, hs, hlt⟩ := doleap_spec Y 0 h0 (by decide)
  have hl : leapsIn 0 k = (k + 3) / 4 := by
    rw [leapsIn]
    split <;> omega
  rw [hl] at hs
  refine ⟨k, hk, by omega, hy, hd, ?_, by omega⟩
  split at hlt
  · rw [if_pos (by omega)]
    exact hlt
  · split <;> omega

theorem do100_spec {D : Int} (h0 : 0 ≤ D) (h : D < 73048) :
    1799 ≤ (do100 D 1799).2 ∧ (do100 D 1799).2 < 1999 ∧
    YearDay (D + britishBefore 1800) (do100 D 1799) := by
  rw [do100, Int.tdiv_eq_ediv_of_nonneg h0, Int.tmod_eq_emod_of_nonneg h0]
  obtain ⟨k, hk₀, hk, hy, hd, hlt, hs⟩ := century_spec (D := D % (100 * 365 + 100 / 4 - 1))
    (Y := 1799 + 100 * (D / (100 * 365 + 100 / 4 - 1))) (by omega) (by omega)
  generalize hr : doleap (D % (100 * 365 + 100 / 4 - 1))
    (1799 + 100 * (D / (100 * 365 + 100 / 4 - 1))) 4 = r at *
  have hc : D / (100 * 365 + 100 / 4 - 1) = 0 ∨ D / (100 * 365 + 100 / 4 - 1) = 1 := by omega
  have hlen := britishMonths_length (y := r.2 + 1) (by omega) (k % 4 = 0 ∧ k ≠ 0)
    (by rw [britishLeap_iff]; omega)
  refine ⟨by omega, by omega, by omega, ⟨hd, by rw [hlen]; exact hlt⟩, ?_⟩
  rw [britishBefore_gregorian (by omega), britishBefore_gregorian (Int.le_refl 1800)]
  split at hs <;> omega

theorem do400_spec {D : Int} (h0 : 0 ≤ D) :
    1999 ≤ (do400 D 1999).2 ∧ YearDay (D + britishBefore 2000) (do400 D 1999) := by
  rw [do400, Int.tdiv_eq_ediv_of_nonneg h0, Int.tmod_eq_emod_of_nonneg h0]
  generalize hq : D / (400 * 365 + 400 / 4 - 4 + 1) = q
  generalize hR : D % (400 * 365 + 400 / 4 - 4 + 1) = R
  have hR₀ : 0 ≤ R ∧ R < 146097 := by omega
  have hq₀ : 0 ≤ q := by omega
  have hD : D = 146097 * q + R := by omega
  dsimp only
  by_cases hc : 100 * 365 + 100 / 4 < R
  · rw [if_pos hc, Int.tdiv_eq_ediv_of_nonneg (by omega)]
    dsimp only
    generalize hn : (R - (100 * 365 + 100 / 4)) / (100 * 365 + 100 / 4 - 1) + 1 = n
    have hn₁ : n = 1 ∨ n = 2 ∨ n = 3 := by omega
    rw [if_neg (by omega)]
    obtain ⟨k, hk₀, hk, hy, hd, hlt, hs⟩ := century_spec
      (D := R - (n * (100 * 365 + 100 / 4 - 1) + 1)) (Y := 1999 + (100 * n + 400 * q))
      (by omega) (by omega)
    generalize doleap (R - (n * (100 * 365 + 100 / 4 - 1) + 1))
      (1999 + (100 * n + 400 * q)) 4 = r at *
    have hlen := britishMonths_length (y := r.2 + 1) (by omega) (k % 4 = 0 ∧ k ≠ 0)
      (by rw [britishLeap_iff]; omega)
    refine ⟨by omega, by omega, ⟨hd, by rw [hlen]; exact hlt⟩, ?_⟩
    rw [britishBefore_gregorian (by omega), britishBefore_gregorian (by decide)]
    split at hs <;> omega
  · rw [if_neg hc]
    dsimp only
    rw [if_pos rfl]
    obtain ⟨k, hk₀, hk, hy, hd, hlt, hs⟩ := leapCentury_spec (D := R)
      (Y := 1999 + (100 * 0 + 400 * q)) hR₀.1 (by omega)
    generalize doleap R (1999 + (100 * 0 + 400 * q)) 0 = r at *
    -- the day after the century is its hundredth year's first, which is no leap year
    have hlen := britishMonths_length (y := r.2 + 1) (by omega) (k % 4 = 0 ∧ k ≠ 100)
      (by rw [britishLeap_iff]; omega)
    refine ⟨by omega, by omega, ⟨hd, ?_⟩, ?_⟩
    · rw [hlen]
      split at hlt <;> split <;> omega
    · rw [britishBefore_gregorian (by omega), britishBefore_gregorian (by decide)]
      omega

/-- The tables of all years but 1752. -/
theorem table_eq {y : Int} (h₁ : 1 ≤ y) (h : y ≠ 1752) (b : Prop) [Decidable b]
    (hb : b ↔ britishLeap y = true) : (if b then leapUpto else normUpto) = uptoOf y := by
  have hc : (if y < 1752 then y % 4 = 0 else y % 4 = 0 ∧ (y % 100 ≠ 0 ∨ y % 400 = 0)) ↔
      britishLeap y = true := by
    rw [britishLeap_iff]
    split <;> omega
  rw [uptoOf, Int.tmod_eq_emod_of_nonneg (by omega), Int.tmod_eq_emod_of_nonneg (by omega),
    Int.tmod_eq_emod_of_nonneg (by omega)]
  by_cases hy : y < 1752
  · rw [if_pos hy] at hc
    rw [if_pos hy]
    exact if_congr (hb.trans hc.symm) rfl rfl
  · rw [if_neg hy] at hc
    rw [if_neg hy, if_pos (show 1752 < y by omega)]
    exact if_congr (hb.trans hc.symm) rfl rfl

theorem findYear_julian {day : Int} (h0 : 0 ≤ day) (h : day < 365 * 1751 + 437) :
    YearDay day (doleap day 0 3) ∧ (if (doleap day 0 3).2.tmod 4 = 3 then leapUpto else normUpto) =
      uptoOf ((doleap day 0 3).2 + 1) := by
  obtain ⟨hy, hy', hd, hlt, hs⟩ := julian_spec h0 (by omega)
  generalize doleap day 0 3 = r at *
  have hlen := britishMonths_length (y := r.2 + 1) (by omega) (r.2 % 4 = 3)
    (by rw [britishLeap_iff]; omega)
  refine ⟨⟨hy, ⟨hd, by rw [hlen]; exact hlt⟩, ?_⟩, ?_⟩
  · rw [britishBefore_julian (by omega)]
    omega
  · rw [Int.tmod_eq_emod_of_nonneg hy]
    exact table_eq (by omega) (by omega) _ (by rw [britishLeap_iff]; omega)

theorem findYear_1753 {day : Int} (h₁ : 365 * 1752 + 438 - 11 ≤ day)
    (h₂ : day < 365 * 1799 + 449 - 11) : YearDay day (doleap (day + 11) 0 3) ∧
      (if (doleap (day + 11) 0 3).2.tmod 4 = 3 then leapUpto else normUpto) =
      uptoOf ((doleap (day + 11) 0 3).2 + 1) := by
  obtain ⟨hy, hy', hd, hlt, hs⟩ := julian_spec (D := day + 11) (by omega) (by omega)
  generalize doleap (day + 11) 0 3 = r at *
  have hr : 1752 ≤ r.2 := by
    by_contra hc
    split at hlt <;> omega
  have hlen := britishMonths_length (y := r.2 + 1) (by omega) (r.2 % 4 = 3)
    (by rw [britishLeap_iff]; omega)
  refine ⟨⟨hy, ⟨hd, by rw [hlen]; exact hlt⟩, ?_⟩, ?_⟩
  · rw [britishBefore_1753 (by omega) (by omega)]
    omega
  · rw [Int.tmod_eq_emod_of_nonneg hy]
    exact table_eq (by omega) (by omega) _ (by rw [britishLeap_iff]; omega)

/-- The year and the table of every day. -/
theorem findYear_spec (day : Int) (h0 : 0 ≤ day) :
    YearDay day (findYear day).1 ∧ (findYear day).2 = uptoOf ((findYear day).1.2 + 1) := by
  have h1800 : britishBefore 1800 = (1800 - 1) * 365 + (1800 - 1) / 4 - 11 := rfl
  have h2000 : britishBefore 2000 = (2000 - 1) * 365 + (2000 - 1) / 4 - 2 - 11 := rfl
  rw [findYear]
  split
  · next h => exact findYear_julian h0 (by omega)
  · next h₁ =>
    split
    · next h =>
      have hs : 365 * 1751 + 437 + (day - ((1752 - 1) * 365 + (1752 - 1) / 4)) = day := by omega
      have h0 : 0 ≤ day - ((1752 - 1) * 365 + (1752 - 1) / 4) := by omega
      have hlt : day - ((1752 - 1) * 365 + (1752 - 1) / 4) < 355 := by omega
      exact ⟨⟨Int.le.intro 1751 rfl, ⟨h0, hlt⟩, hs⟩, rfl⟩
    · next h₂ =>
      split
      · next h => exact findYear_1753 (by omega) (by omega)
      · next h₃ =>
        split
        · next h =>
          obtain ⟨hy, hy', hs⟩ := do100_spec
            (D := day - ((1800 - 1) * 365 + (1800 - 1) / 4 - 11)) (by omega) (by omega)
          rw [h1800, Int.sub_add_cancel] at hs
          refine ⟨hs, ?_⟩
          dsimp only
          rw [Int.tmod_eq_emod_of_nonneg (by omega), Int.tmod_eq_emod_of_nonneg (by omega)]
          exact table_eq (by omega) (by omega) _ (by rw [britishLeap_iff]; omega)
        · next h₄ =>
          obtain ⟨hy, hs⟩ := do400_spec
            (D := day - ((2000 - 1) * 365 + (2000 - 1) / 4 - 2 - 11)) (by omega)
          rw [h2000, Int.sub_add_cancel] at hs
          refine ⟨hs, ?_⟩
          dsimp only
          rw [Int.tmod_eq_emod_of_nonneg (by omega), Int.tmod_eq_emod_of_nonneg (by omega),
            Int.tmod_eq_emod_of_nonneg (by omega)]
          exact table_eq (by omega) (by omega) _ (by rw [britishLeap_iff]; omega)

/-- The table of a year has the days up to every month. -/
theorem uptoOf_spec {y : Int} (h : 1 ≤ y) :
    ∀ m < 13, (uptoOf y)[m + 1]? = some (upto (britishMonths y) m) := by
  by_cases h1752 : y = 1752
  · subst h1752
    decide
  · rw [← table_eq h h1752 (britishLeap y = true) Iff.rfl, britishMonths, if_neg h1752]
    cases britishLeap y
    · decide
    · decide

theorem britishMonths_length' (y : Int) : (britishMonths y).length = 12 := by
  rw [britishMonths]
  split <;> rfl

/-- The loop over a table of sums stops after the month that the day is in. -/
theorem monthsUpto_place {table : List Int} (l : List Int) (s : Nat) (a d : Int) (n : Nat)
    (ht : ∀ m ≤ l.length, table[s + m]? = some (a + upto l m)) (hn : l.length ≤ n)
    {m : Nat} {e : Int} (hp : locate l (d - a) = some (m, e)) :
    monthsUpto table d n (s + 1) = some (s + m + 1) := by
  induction l generalizing s a n m with
  | nil => cases hp
  | cons k l ih =>
    obtain ⟨n, rfl⟩ : ∃ j, n = j + 1 := ⟨n - 1, by simp at hn; omega⟩
    have hk : table[s + 1]? = some (a + k) := by
      have := ht 1 (by simp)
      rw [this]
      simp [upto]
    rw [monthsUpto, hk]
    dsimp only [Option.bind_eq_bind, Option.bind_some]
    rw [locate] at hp
    by_cases h : d - a < k
    · rw [if_pos h] at hp
      obtain ⟨rfl, -⟩ : 0 = m ∧ d - a = e := by simpa using hp
      rw [if_neg (by omega)]
    · rw [if_neg h] at hp
      obtain ⟨⟨m', e'⟩, hm, he⟩ := Option.map_eq_some_iff.mp hp
      obtain ⟨rfl, rfl⟩ : m' + 1 = m ∧ e' = e := by simpa using he
      have hd : d - a - k = d - (a + k) := by omega
      rw [hd] at hm
      have hr := ih (s + 1) (a + k) n (fun j hj => by
        have := ht (j + 1) (by simpa using hj)
        rw [upto_cons] at this
        rw [show s + 1 + j = s + (j + 1) by omega, this, Int.add_assoc]) (by simpa using hn) hm
      rw [if_pos (by omega), hr]
      congr 1
      omega

/- How a date is written: the month, the day and the year. -/
def written (t : Date) : Int × Int × Int :=
  (t.month + 1, if t.year = 1752 ∧ t.month = 8 ∧ 2 ≤ t.day then t.day + 12 else t.day + 1, t.year)

/-- toDate writes the date that has the number of the day. -/
theorem toDate_spec {n : Int} (h : 1 ≤ n) : ∃ t, british.Valid t ∧ 1 ≤ t.year ∧
    british.number t + 1 = n ∧ toDate n = some (written t) := by
  obtain ⟨⟨hy, hd, hs⟩, ht⟩ := findYear_spec (n - 1) (by omega)
  obtain ⟨⟨m, e⟩, hp⟩ := locate_total hd.1 hd.2
  obtain ⟨hv, hu⟩ := locate_sound hd.1 hp
  generalize hr : findYear (n - 1) = r at *
  obtain ⟨⟨day, year⟩, table⟩ := r
  dsimp only at *
  have hlen := britishMonths_length' (year + 1)
  have htab := uptoOf_spec (y := year + 1) (by omega)
  have hm : m < 12 := by
    obtain ⟨-, k, hk, -⟩ := hv
    have := (List.getElem?_eq_some_iff.mp hk).1
    omega
  refine ⟨⟨year + 1, m, e⟩, hv, by dsimp only; omega, ?_, ?_⟩
  · show britishBefore (year + 1) + (upto (britishMonths (year + 1)) m + e) + 1 = n
    omega
  · have hloop : monthsUpto table day 13 2 = some (1 + m + 1) := by
      apply monthsUpto_place (britishMonths (year + 1)) 1 0 day 13 _ (by omega)
      · rw [Int.sub_zero]
        exact hp
      · intro j hj
        rw [ht, Nat.add_comm 1 j, htab j (by omega), Int.zero_add]
    have hum : table[1 + m]? = some (upto (britishMonths (year + 1)) m) := by
      rw [ht, Nat.add_comm 1 m, htab m (by omega)]
    rw [toDate, hr]
    dsimp only [Option.bind_eq_bind, Option.bind_some]
    rw [hloop]
    dsimp only [Option.bind_some]
    rw [Nat.add_sub_cancel, hum]
    dsimp only [Option.bind_some]
    have he : day - upto (britishMonths (year + 1)) m + 1 = e + 1 := by omega
    rw [he, written]
    dsimp only
    by_cases hc : year + 1 = 1752 ∧ m = 8 ∧ 2 ≤ e
    · rw [if_pos hc, if_pos (by omega)]
      simp only [Option.some.injEq, Prod.mk.injEq]
      exact ⟨by omega, by omega, trivial⟩
    · rw [if_neg hc, if_neg (by omega)]
      simp only [Option.some.injEq, Prod.mk.injEq]
      exact ⟨by omega, trivial⟩

theorem britishBefore_eq {y : Int} (h : 1 ≤ y) :
    (if 1752 < y then
      (if 1800 < y then (y - 1) * 365 + (y - 1).tdiv 4 - (y - 1701).tdiv 100 + (y - 1601).tdiv 400
        else (y - 1) * 365 + (y - 1).tdiv 4) - 11
    else
      (if 1800 < y then (y - 1) * 365 + (y - 1).tdiv 4 - (y - 1701).tdiv 100 + (y - 1601).tdiv 400
        else (y - 1) * 365 + (y - 1).tdiv 4)) = britishBefore y := by
  rw [britishBefore, Int.tdiv_eq_ediv_of_nonneg (by omega)]
  by_cases h₁ : 1800 < y
  · have h₂ : (1752 : Int) < y := by omega
    rw [if_pos h₂, if_pos h₁, if_pos h₁, if_pos h₂, Int.tdiv_eq_ediv_of_nonneg (by omega),
      Int.tdiv_eq_ediv_of_nonneg (by omega)]
    omega
  · rw [if_neg h₁, if_neg h₁]
    split <;> omega

theorem months_le {y : Int} : ∀ k ∈ britishMonths y, k ≤ 31 := by
  rw [britishMonths]
  split
  · decide
  · cases britishLeap y <;> decide

theorem september_le {k : Int} (h : (britishMonths 1752)[8]? = some k) : k = 19 :=
  (Option.some.inj h).symm

/-- toDay finds the number of every date of its years. -/
theorem toDay_spec {t : Date} (h : british.Valid t) (h₁ : 1 ≤ t.year) (h₂ : t.year ≤ 9999) :
    toDay (written t).1 (written t).2.1 (written t).2.2 = some (british.number t + 1) := by
  obtain ⟨y, m, e⟩ := t
  obtain ⟨he, k, hk, hek⟩ := h
  have hk : (britishMonths y)[m]? = some k := hk
  dsimp only at he hek h₁ h₂
  have hm : m < 12 := by
    have := (List.getElem?_eq_some_iff.mp hk).1
    rw [britishMonths_length'] at this
    exact this
  have hk31 := months_le k (List.mem_of_getElem? hk)
  have hu := uptoOf_spec h₁ m (by omega)
  have hv := uptoOf_spec h₁ (m + 1) (by omega)
  rw [upto_succ hk] at hv
  have hsep : y = 1752 ∧ m = 8 → k = 19 := by
    rintro ⟨rfl, rfl⟩
    exact september_le hk
  have hb := britishBefore_eq h₁
  have hmn : ((m : Int) + 1).toNat = m + 1 := by omega
  rw [written, toDay]
  dsimp only
  have hnum : british.number ⟨y, m, e⟩ = britishBefore y + (upto (britishMonths y) m + e) := rfl
  rw [hnum, hb, hmn, hu, hv]
  dsimp only [Option.bind_eq_bind, Option.bind_some]
  by_cases hc : y = 1752 ∧ m = 8 ∧ 2 ≤ e
  · have h19 := hsep ⟨hc.1, hc.2.1⟩
    have hd : (if y = 1752 ∧ (m : Int) + 1 = 9 ∧ 14 ≤ e + 12 then e + 12 - 11 else e + 12) =
        e + 1 := by
      rw [if_pos (by omega)]
      omega
    rw [if_pos hc, if_neg (by omega), if_neg (by omega), hd, if_neg (by omega)]
    congr 1
    omega
  · have hd : (if y = 1752 ∧ (m : Int) + 1 = 9 ∧ 14 ≤ e + 1 then e + 1 - 11 else e + 1) =
        e + 1 := if_neg (by omega)
    rw [if_neg hc, if_neg (by omega), if_neg (by omega), hd, if_neg (by omega)]
    congr 1
    omega

/- The last day of a month, as it is written. -/
def lastDay (y : Int) (m : Nat) : Int :=
  (monthLengths (britishLeap y)).getD m 0

/-- A day of the calendar as it is written: the days from the 3rd to the 13th of September 1752
are none. -/
structure IsDate (m d y : Int) : Prop where
  year : 1 ≤ y
  month : 1 ≤ m ∧ m ≤ 12
  day : 1 ≤ d ∧ d ≤ lastDay y (m.toNat - 1)
  there : ¬(y = 1752 ∧ m = 9 ∧ 2 < d ∧ d < 14)

instance (m d y : Int) : Decidable (IsDate m d y) :=
  decidable_of_iff (1 ≤ y ∧ (1 ≤ m ∧ m ≤ 12) ∧ (1 ≤ d ∧ d ≤ lastDay y (m.toNat - 1)) ∧
      ¬(y = 1752 ∧ m = 9 ∧ 2 < d ∧ d < 14))
    ⟨fun h => ⟨h.1, h.2.1, h.2.2.1, h.2.2.2⟩, fun h => ⟨h.year, h.month, h.day, h.there⟩⟩

/- The calendar day after a date, as it is written. -/
def following (m d y : Int) : Int × Int × Int :=
  if IsDate m (d + 1) y then (m, d + 1, y)
  else if y = 1752 ∧ m = 9 ∧ d = 2 then (9, 14, 1752)
  else if m < 12 then (m + 1, 1, y)
  else (1, 1, y + 1)

theorem lastDay_eq {y : Int} {m : Nat} (hm : m < 12) : (britishMonths y)[m]? =
    some (if y = 1752 ∧ m = 8 then 19 else lastDay y m) := by
  have hl : ∀ leap, ∀ m < 12, (monthLengths leap)[m]? = some ((monthLengths leap).getD m 0) := by
    decide
  have h1752 : ∀ m < 12, [31, 29, 31, 30, 31, 30, 31, 31, 19, 31, 30, 31][m]? =
      some (if m = 8 then 19 else (monthLengths true).getD m 0) := by decide
  rw [britishMonths, lastDay]
  by_cases h : y = 1752
  · have hb : britishLeap y = true := by rw [h]; rfl
    rw [if_pos h, hb, h1752 m hm]
    simp [h]
  · rw [if_neg h, hl _ m hm, if_neg fun hc => h hc.1]

theorem valid_iff (y : Int) (m : Nat) (e : Int) : british.Valid ⟨y, m, e⟩ ↔
    m < 12 ∧ 0 ≤ e ∧ e < if y = 1752 ∧ m = 8 then 19 else lastDay y m := by
  constructor
  · rintro ⟨h0, k, hk, he⟩
    have hk : (britishMonths y)[m]? = some k := hk
    have hm : m < 12 := by
      have := (List.getElem?_eq_some_iff.mp hk).1
      rwa [britishMonths_length'] at this
    rw [lastDay_eq hm] at hk
    obtain rfl := Option.some.inj hk
    exact ⟨hm, h0, he⟩
  · rintro ⟨hm, h0, he⟩
    exact ⟨h0, _, lastDay_eq hm, he⟩

theorem lastDay_september : lastDay 1752 8 = 30 := rfl

theorem isDate_iff (m : Nat) (d y : Int) : IsDate (m + 1) d y ↔ 1 ≤ y ∧ m < 12 ∧ 1 ≤ d ∧
    d ≤ lastDay y m ∧ ¬(y = 1752 ∧ m = 8 ∧ 2 < d ∧ d < 14) := by
  have hm : ((m : Int) + 1).toNat - 1 = m := by omega
  constructor
  · intro h
    have hd := h.day
    rw [hm] at hd
    exact ⟨h.year, by have := h.month; omega, hd.1, hd.2, fun hc => h.there (by omega)⟩
  · rintro ⟨hy, hm', hd, hl, hn⟩
    exact ⟨hy, by omega, ⟨hd, by rw [hm]; exact hl⟩, fun hc => hn (by omega)⟩

/-- The dates are written as the dates of the calendar. -/
theorem isDate_written {t : Date} (h : british.Valid t) (h₁ : 1 ≤ t.year) :
    IsDate (written t).1 (written t).2.1 (written t).2.2 := by
  obtain ⟨y, m, e⟩ := t
  obtain ⟨hm, h0, he⟩ := (valid_iff y m e).mp h
  have hs := lastDay_september
  show IsDate (m + 1) (if y = 1752 ∧ m = 8 ∧ 2 ≤ e then e + 12 else e + 1) y
  rw [isDate_iff]
  by_cases hc : y = 1752 ∧ m = 8
  · obtain ⟨rfl, rfl⟩ := hc
    rw [if_pos ⟨rfl, rfl⟩] at he
    split <;> omega
  · rw [if_neg hc] at he
    rw [if_neg fun h => hc ⟨h.1, h.2.1⟩]
    exact ⟨h₁, hm, by omega, by omega, fun h => hc ⟨h.1, h.2.1⟩⟩

/-- Every date of the calendar is written for a date. -/
theorem exists_written {m d y : Int} (h : IsDate m d y) :
    ∃ t, british.Valid t ∧ t.year = y ∧ written t = (m, d, y) := by
  obtain ⟨n, rfl⟩ : ∃ n : Nat, m = n + 1 := ⟨(m - 1).toNat, by have := h.month; omega⟩
  obtain ⟨hy, hm, hd, hl, hn⟩ := (isDate_iff n d y).mp h
  have hs := lastDay_september
  by_cases hc : y = 1752 ∧ n = 8 ∧ 14 ≤ d
  · refine ⟨⟨y, n, d - 12⟩, (valid_iff y n (d - 12)).mpr ⟨hm, by omega, ?_⟩, rfl, ?_⟩
    · obtain ⟨rfl, rfl, -⟩ := hc
      rw [if_pos ⟨rfl, rfl⟩]
      omega
    · rw [written]
      dsimp only
      rw [if_pos (by omega), Int.sub_add_cancel]
  · refine ⟨⟨y, n, d - 1⟩, (valid_iff y n (d - 1)).mpr ⟨hm, by omega, ?_⟩, rfl, ?_⟩
    · split <;> omega
    · rw [written]
      dsimp only
      rw [if_neg (by omega), Int.sub_add_cancel]

theorem written_eq (y : Int) (m : Nat) (e : Int) : written ⟨y, m, e⟩ =
    ((m : Int) + 1, if y = 1752 ∧ m = 8 ∧ 2 ≤ e then e + 12 else e + 1, y) := rfl

theorem next_eq (y : Int) (m : Nat) (e : Int) : british.next ⟨y, m, e⟩ =
    if british.Valid ⟨y, m, e + 1⟩ then ⟨y, m, e + 1⟩
    else if m + 1 < 12 then ⟨y, m + 1, 0⟩ else ⟨y + 1, 0, 0⟩ := by
  have hl : (british.months y).length = 12 := britishMonths_length' y
  rw [next, hl]

/-- The next date is written as the calendar day that follows. -/
theorem written_next {t : Date} (h : british.Valid t) (h₁ : 1 ≤ t.year) :
    written (british.next t) = following (written t).1 (written t).2.1 (written t).2.2 := by
  obtain ⟨y, m, e⟩ := t
  dsimp only at h₁
  obtain ⟨hm, h0, he⟩ := (valid_iff y m e).mp h
  have hs := lastDay_september
  rw [next_eq, written_eq y m e]
  by_cases hv : british.Valid ⟨y, m, e + 1⟩
  · have hv' := (valid_iff y m (e + 1)).mp hv
    rw [if_pos hv, written_eq y m (e + 1), following]
    dsimp only
    by_cases hc : y = 1752 ∧ m = 8
    · obtain ⟨rfl, rfl⟩ := hc
      rw [if_pos ⟨rfl, rfl⟩] at hv'
      -- before the gap, at it, and after it
      rcases (by omega : e = 0 ∨ e = 1 ∨ 2 ≤ e) with rfl | rfl | h2
      · rfl
      · rfl
      · have hd : (if (1752 : Int) = 1752 ∧ 8 = 8 ∧ 2 ≤ e then e + 12 else e + 1) = e + 12 :=
          if_pos ⟨rfl, rfl, h2⟩
        have hd' : (if (1752 : Int) = 1752 ∧ 8 = 8 ∧ 2 ≤ e + 1 then e + 1 + 12 else e + 1 + 1) =
            e + 12 + 1 := by
          rw [if_pos ⟨rfl, rfl, by omega⟩]
          omega
        rw [hd, hd', if_pos ((isDate_iff 8 (e + 12 + 1) 1752).mpr
          ⟨by omega, by omega, by omega, by omega, by omega⟩)]
    · rw [if_neg hc] at hv'
      have hd : (if y = 1752 ∧ m = 8 ∧ 2 ≤ e then e + 12 else e + 1) = e + 1 :=
        if_neg fun h => hc ⟨h.1, h.2.1⟩
      have hd' : (if y = 1752 ∧ m = 8 ∧ 2 ≤ e + 1 then e + 1 + 12 else e + 1 + 1) = e + 1 + 1 :=
        if_neg fun h => hc ⟨h.1, h.2.1⟩
      rw [hd, hd', if_pos ((isDate_iff m (e + 1 + 1) y).mpr
        ⟨h₁, hm, by omega, by omega, fun h => hc ⟨h.1, h.2.1⟩⟩)]
  · have hv' : ¬(e + 1 < if y = 1752 ∧ m = 8 then 19 else lastDay y m) := fun hc =>
      hv ((valid_iff y m (e + 1)).mpr ⟨hm, by omega, hc⟩)
    have hd : ¬IsDate (m + 1) ((if y = 1752 ∧ m = 8 ∧ 2 ≤ e then e + 12 else e + 1) + 1) y := by
      rw [isDate_iff]
      rintro ⟨-, -, -, hl, -⟩
      by_cases hc : y = 1752 ∧ m = 8
      · obtain ⟨rfl, rfl⟩ := hc
        rw [if_pos ⟨rfl, rfl⟩] at hv' he
        split at hl <;> omega
      · rw [if_neg hc] at hv'
        rw [if_neg fun h => hc ⟨h.1, h.2.1⟩] at hl
        omega
    have hn : ¬(y = 1752 ∧ (m : Int) + 1 = 9 ∧
        (if y = 1752 ∧ m = 8 ∧ 2 ≤ e then e + 12 else e + 1) = 2) := by
      rintro ⟨rfl, hm8, h2⟩
      rw [if_pos ⟨rfl, by omega⟩] at hv'
      split at h2 <;> omega
    rw [if_neg hv, following]
    dsimp only
    rw [if_neg hd, if_neg hn]
    by_cases hm' : m + 1 < 12
    · rw [if_pos hm', if_pos (by omega), written_eq y (m + 1) 0, if_neg (by omega)]
      rfl
    · rw [if_neg hm', if_neg (by omega), written_eq (y + 1) 0 0, if_neg (by omega)]
      rfl

/-- Conversion between days and dates, for the years that toDay takes; and to dates one after the
other, for all days. -/
theorem conversion :
    (∀ m d y, IsDate m d y → y ≤ 9999 →
      ∃ n, toDay m d y = some n ∧ 1 ≤ n ∧ toDate n = some (m, d, y)) ∧
    (∀ n last, toDay 12 31 9999 = some last → 1 ≤ n → n ≤ last →
      ∃ m d y, toDate n = some (m, d, y) ∧ IsDate m d y ∧ toDay m d y = some n) ∧
    (∀ n, 1 ≤ n → ∃ m d y, toDate n = some (m, d, y) ∧ IsDate m d y ∧
      toDate (n + 1) = some (following m d y)) := by
  refine ⟨fun m d y h hy => ?_, fun n last hl hn hle => ?_, fun n hn => ?_⟩
  · obtain ⟨t, ht, rfl, hw⟩ := exists_written h
    have hday := toDay_spec ht h.year hy
    have hb : britishBefore 1 ≤ british.number t :=
      Int.le_trans (before_le (c := british) h.year) (number_bounds ht).1
    have h1 : britishBefore 1 = 0 := rfl
    rw [hw] at hday
    obtain ⟨u, hu, -, hnum, hdate⟩ := toDate_spec (n := british.number t + 1) (by omega)
    obtain rfl := number_inj hu ht (by omega)
    exact ⟨_, hday, by omega, hdate.trans (congrArg some hw)⟩
  · obtain ⟨t, ht, hy, hnum, hdate⟩ := toDate_spec hn
    have hlast : last = 3652061 := by
      have : toDay 12 31 9999 = some 3652061 := by decide
      exact (Option.some.inj (this.symm.trans hl)).symm
    have h9999 : t.year ≤ 9999 := by
      by_contra hc
      have hb : britishBefore 10000 ≤ britishBefore t.year :=
        before_le (c := british) (show (10000 : Int) ≤ t.year by omega)
      have hn' := (number_bounds ht).1
      have h1 : britishBefore 10000 = 3652061 := by decide
      have hn'' : britishBefore t.year ≤ british.number t := hn'
      omega
    exact ⟨_, _, _, hdate, isDate_written ht hy, hnum ▸ toDay_spec ht hy h9999⟩
  · obtain ⟨t, ht, hy, hnum, hdate⟩ := toDate_spec hn
    obtain ⟨u, hu, -, hnum', hdate'⟩ := toDate_spec (n := n + 1) (by omega)
    obtain ⟨hv, hs⟩ := next_valid ht
    obtain rfl := number_inj hu hv (by omega)
    exact ⟨_, _, _, hdate, isDate_written ht hy, hdate'.trans (congrArg some (written_next ht hy))⟩

/- The day after the gap. -/
theorem conversion_september :
    ∃ n, toDay 9 14 1752 = some n ∧ 1 ≤ n ∧ toDate n = some (9, 14, 1752) :=
  conversion.1 9 14 1752 (by decide) (by decide)

/- The first day of the year 10000 is refused. -/
theorem conversion_10000 : ¬((∀ m d y, IsDate m d y →
      ∃ n, toDay m d y = some n ∧ toDate n = some (m, d, y)) ∧
    ∀ n, 1 ≤ n → ∃ m d y, toDate n = some (m, d, y) ∧ toDay m d y = some n) := by
  rintro ⟨h, -⟩
  obtain ⟨n, hn, hd⟩ := h 1 1 10000 (by decide)
  have hbad : toDay 1 1 10000 = some (-1) := by decide
  obtain rfl := Option.some.inj (hbad.symm.trans hn)
  exact absurd hd (by decide)

/- Over the eleven days that were left out. -/
example : toDate 639798 = some (9, 2, 1752) ∧ toDate 639799 = some (9, 14, 1752) := by decide

end Svr32.Libgen
