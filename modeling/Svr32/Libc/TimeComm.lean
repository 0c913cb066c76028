import Svr32.Lib.Calendar
import Svr32.Lib.Word

/-! libc/port/gen/time_comm.c: gmtime, and localtime with the daylight rule of the table. -/
namespace Svr32.Libc
open Svr32.Lib Svr32.Lib.Calendar

/- A time_t, or a long: 32 bits and a sign. -/
abbrev Time := { x : Int // -2 ^ 31 ≤ x ∧ x < 2 ^ 31 }

/- What such a word keeps of a number. -/
def Time.of (x : Int) : Time := ⟨i32 x, i32_range x⟩

def SEC_IN_DAY : Int := 24 * 60 * 60

def yearSize (a : Int) : Int := if a.tmod 4 ≠ 0 then 365 else 366

structure Tm where
  tm_sec : Int
  tm_min : Int
  tm_hour : Int
  tm_mday : Int
  tm_mon : Nat
  tm_year : Int
  tm_wday : Int
  tm_yday : Int
  tm_isdst : Int
deriving DecidableEq

/- for(d1=70; day >= year_size(d1); d1++), for a number of turns -/
def yearsUp : Nat → Int → Int → Option (Int × Int)
  | 0, _, _ => none
  | n + 1, d1, day =>
    if yearSize d1 ≤ day then yearsUp n (d1 + 1) (day - yearSize d1) else some (d1, day)

/- for(d1=70; day < 0; d1--) -/
def yearsDown : Nat → Int → Int → Option (Int × Int)
  | 0, _, _ => none
  | n + 1, d1, day =>
    if day < 0 then yearsDown n (d1 - 1) (day + yearSize (d1 - 1)) else some (d1, day)

/- The loop over month_size, which has nothing after its twelve entries. -/
def monthLoop : List Int → Nat → Int → Option (Nat × Int)
  | [], _, _ => none
  | k :: l, d1, d0 => if k ≤ d0 then monthLoop l (d1 + 1) (d0 - k) else some (d1, d0)

def monthSize (feb : Int) : List Int := [31, feb, 31, 30, 31, 30, 31, 31, 30, 31, 30, 31]

/- A day more than the years of the loops can have. -/
def turns (day : Int) : Nat := day.natAbs / 365 + 2

/- The year number, and the day in it. -/
def yearLoop (day : Int) : Option (Int × Int) :=
  if 0 ≤ day then yearsUp (turns day) 70 day else yearsDown (turns day) 70 day

def gmtime (tim : Time) : Option Tm := do
  let hms := tim.val.tmod SEC_IN_DAY
  let day := tim.val.tdiv SEC_IN_DAY
  let (hms, day) := if hms < 0 then (hms + SEC_IN_DAY, day - 1) else (hms, day)
  let d1 := hms.tdiv 60
  let wday := (day + 7340036).tmod 7
  let (year, yday) ← yearLoop day
  let (mon, d0) ← monthLoop (monthSize (if yearSize year = 366 then 29 else 28)) 0 yday
  some
    { tm_sec := hms.tmod 60
      tm_min := d1.tmod 60
      tm_hour := d1.tdiv 60
      tm_mday := d0 + 1
      tm_mon := mon
      tm_year := year
      tm_wday := wday
      tm_yday := yday
      tm_isdst := 0 }

/- The statics that tzset leaves. -/
structure Zone where
  timezone : Time
  altzone : Time
  daylight : Bool
  start_dst : Time
  end_dst : Time

structure DayTab where
  yrbgn : Int
  daylb : Int
  dayle : Int
deriving DecidableEq

def daytab : List DayTab :=
  [⟨87, 96, 303⟩, ⟨76, 119, 303⟩, ⟨75, 58, 303⟩, ⟨74, 5, 333⟩, ⟨70, 119, 303⟩]

/- The scan of the table; nothing is after its last entry. -/
def scanTab (year : Int) : List DayTab → Option DayTab
  | [] => none
  | e :: l => if year < e.yrbgn then scanTab year l else some e

def sunday (t : Tm) (d : Int) : Int :=
  let d := if 58 ≤ d then d + (yearSize t.tm_year - 365) else d
  d - (d - t.tm_yday + t.tm_wday + 700).tmod 7

def getusa (t : Tm) : Option (Int × Int) := do
  let e ← scanTab t.tm_year daytab
  some (sunday t e.daylb * SEC_IN_DAY + 2 * 60 * 60, sunday t e.dayle * SEC_IN_DAY + 60 * 60)

def localtime (z : Zone) (tim : Time) : Option Tm := do
  let ct ← gmtime (Time.of (tim.val - z.timezone.val))
  if z.daylight = false then some ct
  else
    let curr := ct.tm_yday * SEC_IN_DAY + ct.tm_hour * 60 * 60 + ct.tm_min * 60 + ct.tm_sec
    let (daybegin, dayend) ← if z.start_dst.val = 0 ∧ z.end_dst.val = 0 then getusa ct
      else some (z.start_dst.val, z.end_dst.val)
    if daybegin ≤ curr ∧ curr < dayend then do
      let ct ← gmtime (Time.of (tim.val - z.altzone.val))
      some { ct with tm_isdst := 1 }
    else some ct

/- The Gregorian year that tm_year counts from 1900. -/
def leapYear (a : Int) : Bool := gregorianLeap (1900 + a)

def daysBefore (a : Int) : Int := gregorian.before (1900 + a)

/-- The years 1901 to 2099, of which every fourth is a leap year. -/
theorem yearSize_eq {a : Int} (h₁ : 1 ≤ a) (h₂ : a < 200) :
    yearSize a = (monthLengths (leapYear a)).sum := by
  rw [monthLengths_sum, yearSize, Int.tmod_eq_emod_of_nonneg (by omega)]
  by_cases h : a % 4 = 0
  · have hl : leapYear a = true := decide_eq_true (by omega)
    simp [h, hl]
  · have hl : leapYear a = false := decide_eq_false (by omega)
    simp [h, hl]

theorem daysBefore_succ {a : Int} (h₁ : 1 ≤ a) (h₂ : a < 200) :
    daysBefore (a + 1) = daysBefore a + yearSize a := by
  have := gregorian.before_succ (1900 + a)
  rw [yearSize_eq h₁ h₂, daysBefore, ← Int.add_assoc, this]
  rfl

theorem daysBefore_eq (a : Int) : daysBefore a =
    365 * (a - 70) + (1899 + a) / 4 - (1899 + a) / 100 + (1899 + a) / 400 - 477 := by
  show 365 * (1900 + a - 1970) + (1900 + a - 1) / 4 - (1900 + a - 1) / 100 +
    (1900 + a - 1) / 400 - 477 = _
  omega

theorem yearSize_pos (a : Int) : 365 ≤ yearSize a ∧ yearSize a ≤ 366 := by
  rw [yearSize]
  split <;> omega

/-- What the loops over the years end with: the year, and the day in it. -/
structure YearOf (D : Int) (r : Int × Int) : Prop where
  year : 1 ≤ r.1 ∧ r.1 < 200
  day : 0 ≤ r.2 ∧ r.2 < yearSize r.1
  sum : daysBefore r.1 + r.2 = D

theorem yearsUp_spec {D : Int} (hD : D < 30000) (n : Nat) (d1 day : Int) (h1 : 70 ≤ d1)
    (h0 : 0 ≤ day) (hs : daysBefore d1 + day = D) (hn : day < 365 * (n : Int)) :
    ∃ r, yearsUp n d1 day = some r ∧ YearOf D r := by
  induction n generalizing d1 day with
  | zero => omega
  | succ n ih =>
    have hy := yearSize_pos d1
    have hb : d1 < 199 := by
      rw [daysBefore_eq] at hs
      omega
    rw [yearsUp]
    split
    · have hd := daysBefore_succ (a := d1) (by omega) (by omega)
      exact ih (d1 + 1) (day - yearSize d1) (by omega) (by omega) (by omega) (by omega)
    · next hlt =>
      have hlt : day < yearSize d1 := Int.not_le.mp hlt
      exact ⟨(d1, day), rfl, ⟨⟨by omega, by omega⟩, ⟨h0, hlt⟩, hs⟩⟩

theorem yearsDown_spec {D : Int} (hD : -25000 < D) (n : Nat) (d1 day : Int) (h1 : d1 ≤ 70)
    (h2 : 1 ≤ d1) (h0 : day < yearSize d1) (hs : daysBefore d1 + day = D)
    (hn : -day < 365 * (n - 1 : Int)) :
    ∃ r, yearsDown n d1 day = some r ∧ YearOf D r := by
  induction n generalizing d1 day with
  | zero =>
    have := yearSize_pos d1
    omega
  | succ n ih =>
    have hy := yearSize_pos d1
    rw [yearsDown]
    split
    · next hlt =>
      have hb : 2 ≤ d1 := by
        rw [daysBefore_eq] at hs
        omega
      have hd := daysBefore_succ (a := d1 - 1) (by omega) (by omega)
      have hy' := yearSize_pos (d1 - 1)
      rw [Int.sub_add_cancel] at hd
      exact ih (d1 - 1) (day + yearSize (d1 - 1)) (by omega) (by omega) (by omega) (by omega)
        (by omega)
    · next hlt => exact ⟨(d1, day), rfl, ⟨⟨h2, by omega⟩, ⟨Int.not_lt.mp hlt, h0⟩, hs⟩⟩

theorem monthLoop_place (l : List Int) (d1 : Nat) (d0 : Int) :
    monthLoop l d1 d0 = (locate l d0).map fun p => (d1 + p.1, p.2) := by
  induction l generalizing d1 d0 with
  | nil => rfl
  | cons k l ih =>
    rw [monthLoop, locate]
    by_cases h : k ≤ d0
    · rw [if_pos h, if_neg (Int.not_lt.mpr h), ih, Option.map_map]
      congr 1
      funext p
      simp [Nat.add_assoc, Nat.add_comm 1]
    · rw [if_neg h, if_pos (Int.not_le.mp h)]
      rfl

/-- A broken-down time stands for a number of seconds. -/
structure IsTime (tm : Tm) (t : Int) : Prop where
  sec : 0 ≤ tm.tm_sec ∧ tm.tm_sec < 60
  min : 0 ≤ tm.tm_min ∧ tm.tm_min < 60
  hour : 0 ≤ tm.tm_hour ∧ tm.tm_hour < 24
  date : gregorian.Valid ⟨1900 + tm.tm_year, tm.tm_mon, tm.tm_mday - 1⟩
  yday : tm.tm_yday = gregorian.yday ⟨1900 + tm.tm_year, tm.tm_mon, tm.tm_mday - 1⟩
  wday : tm.tm_wday =
    (gregorian.number ⟨1900 + tm.tm_year, tm.tm_mon, tm.tm_mday - 1⟩ + 4) % 7
  time : tm.tm_sec + 60 * tm.tm_min + 3600 * tm.tm_hour + 86400 *
    gregorian.number ⟨1900 + tm.tm_year, tm.tm_mon, tm.tm_mday - 1⟩ = t

/-- The loops over the years find the year of every day that a time of 32 bits has. -/
theorem years_spec {D : Int} (h₁ : -25000 < D) (h₂ : D < 25000) :
    ∃ r, yearLoop D = some r ∧ YearOf D r := by
  have h0 : daysBefore 70 = 0 := rfl
  have h366 := yearSize_pos 70
  have hn : D.natAbs < 365 * (turns D - 1) := by
    rw [turns]
    omega
  rw [yearLoop]
  split
  · next hp => exact yearsUp_spec (by omega) (turns D) 70 D (by omega) hp (by omega) (by omega)
  · next hp =>
    exact yearsDown_spec h₁ (turns D) 70 D (by omega) (by omega) (by omega) (by omega) (by omega)

/-- The loop over the months finds the date. -/
theorem month_spec {D : Int} {r : Int × Int} (h : YearOf D r) :
    ∃ m e, monthLoop (monthSize (if yearSize r.1 = 366 then 29 else 28)) 0 r.2 = some (m, e) ∧
      gregorian.Valid ⟨1900 + r.1, m, e⟩ ∧ gregorian.yday ⟨1900 + r.1, m, e⟩ = r.2 ∧
      gregorian.number ⟨1900 + r.1, m, e⟩ = D := by
  have hy := yearSize_eq h.year.1 h.year.2
  have hm : monthSize (if yearSize r.1 = 366 then 29 else 28) = monthLengths (leapYear r.1) := by
    rw [hy, monthLengths_sum, monthSize, monthLengths]
    cases leapYear r.1 <;> rfl
  obtain ⟨⟨m, e⟩, hp⟩ := locate_total h.day.1 (hy ▸ h.day.2)
  obtain ⟨hv, hu⟩ := locate_sound h.day.1 hp
  refine ⟨m, e, ?_, hv, hu, ?_⟩
  · rw [hm, monthLoop_place, hp]
    simp
  · show daysBefore r.1 + (upto (monthLengths (leapYear r.1)) m + e) = D
    rw [hu]
    exact h.sum

/-- Splitting into days and seconds rounds down, also below zero. -/
theorem split_spec (t : Int) :
    (if t.tmod SEC_IN_DAY < 0 then (t.tmod SEC_IN_DAY + SEC_IN_DAY, t.tdiv SEC_IN_DAY - 1)
      else (t.tmod SEC_IN_DAY, t.tdiv SEC_IN_DAY)) = (t % 86400, t / 86400) := by
  have hs : SEC_IN_DAY = 86400 := rfl
  have h := Int.tmod_add_mul_tdiv t 86400
  have hb := Int.tmod_lt_of_pos t (b := 86400) (by decide)
  rw [hs]
  split
  · next hn =>
    have := Int.lt_tmod_of_pos t (b := 86400) (by decide)
    rw [Prod.mk.injEq]
    omega
  · rw [Prod.mk.injEq]
    omega

theorem gmtime_spec (tim : Time) : ∃ tm, gmtime tim = some tm ∧ IsTime tm tim.val ∧
    tm.tm_isdst = 0 := by
  obtain ⟨t, ht₁, ht₂⟩ := tim
  have hd₁ : -25000 < t / 86400 := by omega
  have hd₂ : t / 86400 < 25000 := by omega
  obtain ⟨r, hr, hy⟩ := years_spec hd₁ hd₂
  obtain ⟨m, e, hm, hv, hyd, hn⟩ := month_spec hy
  have h0 : 0 ≤ t % 86400 := Int.emod_nonneg t (by decide)
  have hlt : t % 86400 < 86400 := Int.emod_lt_of_pos t (by decide)
  have h60 : (t % 86400).tdiv 60 = t % 86400 / 60 := Int.tdiv_eq_ediv_of_nonneg h0
  have hs : (t % 86400).tmod 60 = t % 86400 % 60 := Int.tmod_eq_emod_of_nonneg h0
  have hmin : (t % 86400 / 60).tmod 60 = t % 86400 / 60 % 60 :=
    Int.tmod_eq_emod_of_nonneg (by omega)
  have hhour : (t % 86400 / 60).tdiv 60 = t % 86400 / 60 / 60 :=
    Int.tdiv_eq_ediv_of_nonneg (by omega)
  have hw : (t / 86400 + 7340036).tmod 7 = (t / 86400 + 7340036) % 7 :=
    Int.tmod_eq_emod_of_nonneg (by omega)
  refine ⟨⟨t % 86400 % 60, t % 86400 / 60 % 60, t % 86400 / 60 / 60, e + 1, m, r.1,
    (t / 86400 + 7340036) % 7, r.2, 0⟩, ?_, ?_, rfl⟩
  · rw [gmtime]
    dsimp only
    rw [split_spec]
    dsimp only
    rw [hr, h60, hs, hmin, hhour, hw]
    dsimp only [Option.bind_eq_bind, Option.bind_some]
    rw [hm]
    rfl
  · have he : e + 1 - 1 = e := by omega
    constructor
    · dsimp only
      omega
    · dsimp only
      omega
    · dsimp only
      omega
    · dsimp only
      rw [he]
      exact hv
    · dsimp only
      rw [he, hyd]
    · dsimp only
      rw [he, hn]
      omega
    · dsimp only
      rw [he, hn]
      omega

theorem IsTime.parts {tm : Tm} {t : Int} (h : IsTime tm t) :
    tm.tm_sec = t % 60 ∧ tm.tm_min = t / 60 % 60 ∧ tm.tm_hour = t / 60 / 60 % 24 ∧
    gregorian.number ⟨1900 + tm.tm_year, tm.tm_mon, tm.tm_mday - 1⟩ = t / 60 / 60 / 24 := by
  have := h.sec
  have := h.min
  have := h.hour
  have ht := h.time
  have h₁ : tm.tm_min + 60 * (tm.tm_hour +
      24 * gregorian.number ⟨1900 + tm.tm_year, tm.tm_mon, tm.tm_mday - 1⟩) = t / 60 := by omega
  have h₂ : tm.tm_hour +
      24 * gregorian.number ⟨1900 + tm.tm_year, tm.tm_mon, tm.tm_mday - 1⟩ = t / 60 / 60 := by
    omega
  omega

/-- A time has one set of fields. -/
theorem IsTime.unique {tm u : Tm} {t : Int} (h : IsTime tm t) (hu : IsTime u t) :
    u = { tm with tm_isdst := u.tm_isdst } := by
  obtain ⟨hs, hm, hh, hn⟩ := h.parts
  obtain ⟨hs', hm', hh', hn'⟩ := hu.parts
  have hd := number_inj hu.date h.date (hn'.trans hn.symm)
  have hy := hu.yday
  have hw := hu.wday
  rw [hd] at hy hw
  rw [← h.yday] at hy
  rw [← h.wday] at hw
  obtain ⟨h₃, h₄, h₅⟩ := Date.mk.inj hd
  cases u
  cases tm
  simp only [Tm.mk.injEq]
  dsimp only at *
  exact ⟨hs'.trans hs.symm, hm'.trans hm.symm, hh'.trans hh.symm, by omega, h₄, by omega, hw, hy,
    trivial⟩

/-- gmtime finds the fields of every time of 32 bits, which no other fields are. -/
theorem gmtime_fields (tim : Time) : ∃ tm, gmtime tim = some tm ∧ IsTime tm tim.val ∧
    ∀ u, IsTime u tim.val → u = { tm with tm_isdst := u.tm_isdst } := by
  obtain ⟨tm, hg, ht, -⟩ := gmtime_spec tim
  exact ⟨tm, hg, ht, fun u hu => ht.unique hu⟩

/-! The rule of a year, by its calendar. -/

/- The Sunday that a day is, or the last before it: day 3 after the first was a Sunday. -/
def sundayUpTo (n : Int) : Int := n - (n + 4) % 7

/- Where daylight time begins and ends: with the last Sunday up to a date. -/
def ruleOf (y : Int) : Option (Date × Date) :=
  if 1987 ≤ y then some (⟨y, 3, 6⟩, ⟨y, 9, 30⟩)
  else if 1976 ≤ y then some (⟨y, 3, 29⟩, ⟨y, 9, 30⟩)
  else if 1975 ≤ y then some (⟨y, 1, 27⟩, ⟨y, 9, 30⟩)
  else if 1974 ≤ y then some (⟨y, 0, 5⟩, ⟨y, 10, 29⟩)
  else if 1970 ≤ y then some (⟨y, 3, 29⟩, ⟨y, 9, 30⟩)
  else none

/- 2:00 standard time, in seconds of local standard time from the first of 1970. -/
def startOf (rule : Date × Date) : Int := 86400 * sundayUpTo (gregorian.number rule.1) + 7200

/- 2:00 of daylight time. -/
def endOf (z : Zone) (rule : Date × Date) : Int :=
  86400 * sundayUpTo (gregorian.number rule.2) + 7200 - (z.timezone.val - z.altzone.val)

/- 1:00 of standard time. -/
def endStandard (rule : Date × Date) : Int :=
  86400 * sundayUpTo (gregorian.number rule.2) + 3600

/- The rule that a second of local standard time falls under. -/
def Under (L : Int) (rule : Date × Date) : Prop :=
  ∃ t, gregorian.Valid t ∧ gregorian.number t = L / 86400 ∧ ruleOf t.year = some rule

theorem Under.unique {L : Int} {r r' : Date × Date} (h : Under L r) (h' : Under L r') :
    r' = r := by
  obtain ⟨t, ht, hn, hr⟩ := h
  obtain ⟨t', ht', hn', hr'⟩ := h'
  rw [number_inj ht' ht (hn'.trans hn.symm), hr] at hr'
  exact (Option.some.inj hr').symm

/-- The Sunday that the code finds from the fields of some day of the year. -/
theorem sunday_eq {tm : Tm} {t : Int} (h : IsTime tm t) (hy : 1 ≤ tm.tm_year ∧ tm.tm_year < 200)
    {d : Int} (hd : 5 ≤ d) : daysBefore tm.tm_year + sunday tm d =
      sundayUpTo (daysBefore tm.tm_year +
        if 58 ≤ d then d + (yearSize tm.tm_year - 365) else d) := by
  have hyd := h.yday
  have hb := yday_bounds h.date
  rw [← hyd] at hb
  have hn : gregorian.number ⟨1900 + tm.tm_year, tm.tm_mon, tm.tm_mday - 1⟩ =
      daysBefore tm.tm_year + tm.tm_yday := by
    rw [hyd]
    rfl
  have hw := h.wday
  have hs : (gregorian.months (1900 + tm.tm_year)).sum = yearSize tm.tm_year :=
    (yearSize_eq hy.1 hy.2).symm
  have hy366 := yearSize_pos tm.tm_year
  dsimp only at hb
  rw [hn] at hw
  rw [hs] at hb
  rw [sunday, sundayUpTo]
  generalize he : (if 58 ≤ d then d + (yearSize tm.tm_year - 365) else d) = e
  have h5 : 5 ≤ e := by
    rw [← he]
    split <;> omega
  rw [Int.tmod_eq_emod_of_nonneg (by omega)]
  omega

theorem number_eq (a : Int) (m : Nat) (k : Int) : gregorian.number ⟨1900 + a, m, k⟩ =
    daysBefore a + (upto (monthLengths (leapYear a)) m + k) := rfl

/- The day of an entry of the table, in the given year. -/
def tableDay (a d : Int) : Int := if 58 ≤ d then d + (yearSize a - 365) else d

/- The entry of the table that goes with a rule in a year. -/
structure TabEntry (a : Int) (e : DayTab) (rule : Date × Date) : Prop where
  daylb : 5 ≤ e.daylb ∧ daysBefore a + tableDay a e.daylb = gregorian.number rule.1
  dayle : 5 ≤ e.dayle ∧ daysBefore a + tableDay a e.dayle = gregorian.number rule.2

/-- From 1970 on the scan finds the entry of the year's rule. -/
theorem scanTab_spec {a : Int} (h₁ : 70 ≤ a) (h₂ : a < 200) :
    ∃ e rule, scanTab a daytab = some e ∧ ruleOf (1900 + a) = some rule ∧ TabEntry a e rule := by
  have hl : yearSize a - 365 = if leapYear a = true then 1 else 0 := by
    rw [yearSize_eq (by omega) h₂, monthLengths_sum]
    split <;> rfl
  have hu : ∀ d, 58 ≤ d → tableDay a d = d + if leapYear a = true then 1 else 0 := by
    intro d hd
    rw [tableDay, if_pos hd, hl]
  have h303 : daysBefore a + tableDay a 303 = gregorian.number ⟨1900 + a, 9, 30⟩ := by
    rw [hu 303 (by decide), number_eq]
    cases leapYear a <;> rfl
  have h119 : daysBefore a + tableDay a 119 = gregorian.number ⟨1900 + a, 3, 29⟩ := by
    rw [hu 119 (by decide), number_eq]
    cases leapYear a <;> rfl
  have h96 : daysBefore a + tableDay a 96 = gregorian.number ⟨1900 + a, 3, 6⟩ := by
    rw [hu 96 (by decide), number_eq]
    cases leapYear a <;> rfl
  have hs : ∀ e l, e.yrbgn ≤ a → scanTab a (e :: l) = some e := fun e l h =>
    if_neg (Int.not_lt.mpr h)
  have hp : ∀ e l, a < e.yrbgn → scanTab a (e :: l) = scanTab a l := fun e l h => if_pos h
  rw [ruleOf, daytab]
  by_cases h87 : 87 ≤ a
  · rw [hs _ _ h87, if_pos (by omega)]
    exact ⟨_, _, rfl, rfl, ⟨by decide, h96⟩, ⟨by decide, h303⟩⟩
  rw [hp _ _ (Int.not_le.mp h87), if_neg (by omega)]
  by_cases h76 : 76 ≤ a
  · rw [hs _ _ h76, if_pos (by omega)]
    exact ⟨_, _, rfl, rfl, ⟨by decide, h119⟩, ⟨by decide, h303⟩⟩
  rw [hp _ _ (Int.not_le.mp h76), if_neg (by omega)]
  by_cases h75 : 75 ≤ a
  · obtain rfl : a = 75 := by omega
    exact ⟨⟨75, 58, 303⟩, _, rfl, rfl, ⟨by decide, rfl⟩, ⟨by decide, h303⟩⟩
  rw [hp _ _ (Int.not_le.mp h75), if_neg (by omega)]
  by_cases h74 : 74 ≤ a
  · obtain rfl : a = 74 := by omega
    exact ⟨⟨74, 5, 333⟩, _, rfl, rfl, ⟨by decide, rfl⟩, ⟨by decide, rfl⟩⟩
  rw [hp _ _ (Int.not_le.mp h74), if_neg (by omega), hs _ _ h₁, if_pos (by omega)]
  exact ⟨_, _, rfl, rfl, ⟨by decide, h119⟩, ⟨by decide, h303⟩⟩

/-- Before 1970 it leaves the table. -/
theorem scanTab_none {a : Int} (h : a < 70) : scanTab a daytab = none := by
  simp only [daytab, scanTab]
  repeat rw [if_pos (by omega)]

/- A zone that the rule of the table is for. -/
structure Default (z : Zone) : Prop where
  daylight : z.daylight = true
  start : z.start_dst.val = 0
  stop : z.end_dst.val = 0

theorem year_bounds {tm : Tm} {t : Int} (h : IsTime tm t) (h₁ : -2 ^ 31 ≤ t) (h₂ : t < 2 ^ 31) :
    1 ≤ tm.tm_year ∧ tm.tm_year < 200 ∧ (70 ≤ tm.tm_year ↔ 0 ≤ t) := by
  have hn := h.parts.2.2.2
  have hb := number_bounds h.date
  rw [hn] at hb
  have hb₁ : daysBefore tm.tm_year ≤ t / 60 / 60 / 24 := hb.1
  have hb₂ : t / 60 / 60 / 24 < daysBefore (tm.tm_year + 1) := by
    rw [daysBefore, ← Int.add_assoc]
    exact hb.2
  have hm : ∀ {a b : Int}, a ≤ b → daysBefore a ≤ daysBefore b := fun h => before_le (by omega)
  have e₁ : daysBefore 1 = -25202 := by decide
  have e₇₀ : daysBefore 70 = 0 := rfl
  have e₂₀₀ : daysBefore 200 = 47482 := by decide
  refine ⟨?_, ?_, fun h => ?_, fun h => ?_⟩
  · by_contra hc
    have := hm (show tm.tm_year + 1 ≤ 1 by omega)
    omega
  · by_contra hc
    have := hm (show 200 ≤ tm.tm_year by omega)
    omega
  · have := hm h
    omega
  · by_contra hc
    have := hm (show tm.tm_year + 1 ≤ 70 by omega)
    omega

theorem localtime_table {z : Zone} (hz : Default z) {tim : Time} {ct : Tm}
    (h : gmtime (Time.of (tim.val - z.timezone.val)) = some ct) : localtime z tim = (do
      let (daybegin, dayend) ← getusa ct
      let curr := ct.tm_yday * SEC_IN_DAY + ct.tm_hour * 60 * 60 + ct.tm_min * 60 + ct.tm_sec
      if daybegin ≤ curr ∧ curr < dayend then do
        let ct ← gmtime (Time.of (tim.val - z.altzone.val))
        some { ct with tm_isdst := 1 }
      else some ct) := by
  rw [localtime, h, hz.daylight, hz.start, hz.stop]
  rfl

/-- What localtime does in a year of the table. -/
theorem localtime_spec {z : Zone} (hz : Default z) {tim : Time}
    (h₁ : 0 ≤ tim.val - z.timezone.val) (h₂ : tim.val - z.timezone.val < 2 ^ 31) :
    ∃ rule, Under (tim.val - z.timezone.val) rule ∧ ∃ tm, localtime z tim = some tm ∧
      if startOf rule ≤ tim.val - z.timezone.val ∧ tim.val - z.timezone.val < endStandard rule then
        tm.tm_isdst = 1 ∧ IsTime tm (Time.of (tim.val - z.altzone.val)).val
      else tm.tm_isdst = 0 ∧ IsTime tm (tim.val - z.timezone.val) := by
  generalize hL : tim.val - z.timezone.val = L at *
  obtain ⟨ct, hct, ht, h0⟩ := gmtime_spec (Time.of L)
  have hv : (Time.of L).val = L := i32_eq (by omega) h₂
  rw [hv] at ht
  obtain ⟨hy₁, hy₂, hy₃⟩ := year_bounds ht (by omega) h₂
  obtain ⟨e, rule, he, hr, hb, hd⟩ := scanTab_spec (hy₃.mpr h₁) hy₂
  have hn := ht.parts.2.2.2
  have hday : L / 60 / 60 / 24 = L / 86400 := by omega
  refine ⟨rule, ⟨_, ht.date, hn.trans hday, hr⟩, ?_⟩
  have hs₁ := (sunday_eq ht ⟨hy₁, hy₂⟩ hb.1).trans (congrArg sundayUpTo hb.2)
  have hs₂ := (sunday_eq ht ⟨hy₁, hy₂⟩ hd.1).trans (congrArg sundayUpTo hd.2)
  have hyd : gregorian.number ⟨1900 + ct.tm_year, ct.tm_mon, ct.tm_mday - 1⟩ =
      daysBefore ct.tm_year + ct.tm_yday := by
    rw [ht.yday]
    rfl
  have hsum := ht.time
  rw [hyd] at hsum
  have hloc := localtime_table hz (hL ▸ hct)
  have hus : getusa ct = some (sunday ct e.daylb * SEC_IN_DAY + 2 * 60 * 60,
      sunday ct e.dayle * SEC_IN_DAY + 60 * 60) := by
    rw [getusa, he]
    rfl
  rw [hus] at hloc
  have hc : (sunday ct e.daylb * SEC_IN_DAY + 2 * 60 * 60 ≤ ct.tm_yday * SEC_IN_DAY +
      ct.tm_hour * 60 * 60 + ct.tm_min * 60 + ct.tm_sec ∧ ct.tm_yday * SEC_IN_DAY +
      ct.tm_hour * 60 * 60 + ct.tm_min * 60 + ct.tm_sec <
        sunday ct e.dayle * SEC_IN_DAY + 60 * 60) ↔
      startOf rule ≤ L ∧ L < endStandard rule := by
    rw [startOf, endStandard, ← hs₁, ← hs₂, SEC_IN_DAY]
    omega
  dsimp only [Option.bind_eq_bind, Option.bind_some] at hloc
  by_cases hin : startOf rule ≤ L ∧ L < endStandard rule
  · obtain ⟨ct', hct', ht', -⟩ := gmtime_spec (Time.of (tim.val - z.altzone.val))
    rw [if_pos (hc.mpr hin), hct'] at hloc
    refine ⟨_, hloc, ?_⟩
    rw [if_pos hin]
    exact ⟨rfl, ⟨ht'.sec, ht'.min, ht'.hour, ht'.date, ht'.yday, ht'.wday, ht'.time⟩⟩
  · rw [if_neg fun h => hin (hc.mp h)] at hloc
    refine ⟨_, hloc, ?_⟩
    rw [if_neg hin]
    exact ⟨h0, ht⟩

/-- Before 1970 in local standard time there is no entry of the table to find. -/
theorem localtime_outside {z : Zone} (hz : Default z) {tim : Time}
    (h : (Time.of (tim.val - z.timezone.val)).val < 0) : localtime z tim = none := by
  obtain ⟨ct, hct, ht, -⟩ := gmtime_spec (Time.of (tim.val - z.timezone.val))
  have hr := (Time.of (tim.val - z.timezone.val)).property
  obtain ⟨-, -, hy⟩ := year_bounds ht hr.1 hr.2
  have hn : ct.tm_year < 70 := by
    by_contra hc
    have := hy.mp (by omega)
    omega
  rw [localtime_table hz hct, getusa, scanTab_none hn]
  rfl

/-- What localtime is to find: the scan ends in the table, with the rule of the year of local
standard time; daylight time is in force from its first Sunday to its last; and the fields are
those of the time shifted by the offset in force. -/
def Right (z : Zone) (tim : Time) : Prop :=
  ∃ tm rule, localtime z tim = some tm ∧ Under (tim.val - z.timezone.val) rule ∧
    (tm.tm_isdst = 1 ↔ startOf rule ≤ tim.val - z.timezone.val ∧
      tim.val - z.timezone.val < endOf z rule) ∧
    IsTime tm (tim.val - if tm.tm_isdst = 1 then z.altzone.val else z.timezone.val)

/- The local standard time is of 1970 or later and fits in 32 bits. If daylight time has begun,
it has ended by 1:00 of standard time if and only if it has ended by 2:00 of its own; and if it
has not, it fits in 32 bits as well. -/
def InTable (z : Zone) (tim : Time) : Prop :=
  0 ≤ tim.val - z.timezone.val ∧ tim.val - z.timezone.val < 2 ^ 31 ∧
  ∀ rule, Under (tim.val - z.timezone.val) rule → startOf rule ≤ tim.val - z.timezone.val →
    (tim.val - z.timezone.val < endStandard rule ↔ tim.val - z.timezone.val < endOf z rule) ∧
    (tim.val - z.timezone.val < endOf z rule →
      -2 ^ 31 ≤ tim.val - z.altzone.val ∧ tim.val - z.altzone.val < 2 ^ 31)

theorem IsTime.time_eq {tm : Tm} {t u : Int} (h : IsTime tm t) (h' : IsTime tm u) : t = u :=
  h.time.symm.trans h'.time

theorem Under.nonneg {L : Int} {rule : Date × Date} (h : Under L rule) : 0 ≤ L := by
  obtain ⟨t, ht, hn, hr⟩ := h
  have hy : 1970 ≤ t.year := by
    by_contra hc
    rw [ruleOf, if_neg (by omega), if_neg (by omega), if_neg (by omega), if_neg (by omega),
      if_neg (by omega)] at hr
    cases hr
  have hb := (number_bounds ht).1
  have hm : gregorian.before 1970 ≤ gregorian.before t.year := before_le hy
  have h0 : gregorian.before 1970 = 0 := rfl
  omega

/-- localtime is right exactly for the times that its table and its words have room for. -/
theorem localtime_right_iff {z : Zone} (hz : Default z) (tim : Time) :
    Right z tim ↔ InTable z tim := by
  have hrange := tim.property
  have hzone := z.timezone.property
  constructor
  · rintro ⟨tm, rule, hloc, hu, hdst, ht⟩
    have h0 := hu.nonneg
    have h₂ : tim.val - z.timezone.val < 2 ^ 31 := by
      by_contra hc
      have hn : (Time.of (tim.val - z.timezone.val)).val < 0 := by
        show i32 _ < 0
        rw [i32, Int.bmod_def]
        split <;> omega
      rw [localtime_outside hz hn] at hloc
      cases hloc
    obtain ⟨rule', hu', tm', hloc', hspec⟩ := localtime_spec hz h0 h₂
    obtain rfl := hu.unique hu'
    obtain rfl : tm' = tm := Option.some.inj (hloc'.symm.trans hloc)
    refine ⟨h0, h₂, fun rule'' hu'' hs => ?_⟩
    obtain rfl := hu.unique hu''
    by_cases hin : tim.val - z.timezone.val < endStandard rule''
    · rw [if_pos ⟨hs, hin⟩] at hspec
      have he := (hdst.mp hspec.1).2
      refine ⟨iff_of_true hin he, fun _ => ?_⟩
      rw [if_pos hspec.1] at ht
      rw [ht.time_eq hspec.2]
      exact i32_range _
    · rw [if_neg fun h => hin h.2] at hspec
      have he : ¬tim.val - z.timezone.val < endOf z rule'' := fun he => by
        have := hdst.mpr ⟨hs, he⟩
        omega
      exact ⟨iff_of_false hin he, fun h => absurd h he⟩
  · rintro ⟨h0, h₂, h⟩
    obtain ⟨rule, hu, tm, hloc, hspec⟩ := localtime_spec hz h0 h₂
    refine ⟨tm, rule, hloc, hu, ?_⟩
    by_cases hin : startOf rule ≤ tim.val - z.timezone.val ∧
        tim.val - z.timezone.val < endStandard rule
    · rw [if_pos hin] at hspec
      obtain ⟨he, hr⟩ := h rule hu hin.1
      have he := he.mp hin.2
      refine ⟨iff_of_true hspec.1 ⟨hin.1, he⟩, ?_⟩
      have hv : (Time.of (tim.val - z.altzone.val)).val = tim.val - z.altzone.val :=
        i32_eq (hr he).1 (hr he).2
      rw [if_pos hspec.1, ← hv]
      exact hspec.2
    · rw [if_neg hin] at hspec
      have hn : ¬tm.tm_isdst = 1 := by
        rw [hspec.1]
        decide
      refine ⟨iff_of_false hn fun hc => ?_, ?_⟩
      · exact hin ⟨hc.1, (h rule hu hc.1).1.mpr hc.2⟩
      · rw [if_neg hn]
        exact hspec.2

/- EST5EDT -/
def eastern : Zone :=
  { timezone := ⟨18000, by decide⟩
    altzone := ⟨14400, by decide⟩
    daylight := true
    start_dst := ⟨0, by decide⟩
    end_dst := ⟨0, by decide⟩ }

/- The first second of 1970 is still in 1969 there. -/
theorem localtime_eastern : ¬Right eastern ⟨0, by decide⟩ := by
  rintro ⟨tm, rule, h, -⟩
  have hn : localtime eastern ⟨0, by decide⟩ = none :=
    localtime_outside ⟨rfl, rfl, rfl⟩ (by decide)
  rw [hn] at h
  cases h

/- July of 1987. -/
theorem localtime_july :
    Right eastern ⟨552400000, by decide⟩ ↔ InTable eastern ⟨552400000, by decide⟩ :=
  localtime_right_iff ⟨rfl, rfl, rfl⟩ ⟨552400000, by decide⟩

end Svr32.Libc
