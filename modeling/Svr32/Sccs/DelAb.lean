import Svr32.Libc.TimeComm
import Svr32.Sccs.Packet
import Svr32.Sccs.Dolist

/-! sccs date_ab.c and date_ba.c: a time as the text of its local date, and back. -/
namespace Svr32.Sccs
open Svr32.Lib Svr32.Lib.Calendar Svr32.Libc

def byteOf (x : Int) : Nat := (x % 256).toNat

/- DO2(p,n,c), up to the character behind the number. -/
def do2 (n : Int) : Text := [byteOf (n.tdiv 10 + 48), byteOf (n.tmod 10 + 48)]

def date_ba (z : Zone) (bdt : Time) : Option Text := do
  let lcltm ← localtime z bdt
  some (do2 lcltm.tm_year ++ 47 :: (do2 (lcltm.tm_mon + 1) ++ 47 :: (do2 lcltm.tm_mday ++ 32 ::
    (do2 lcltm.tm_hour ++ 58 :: (do2 lcltm.tm_min ++ 58 :: do2 lcltm.tm_sec)))))

def dysize (a : Int) : Int := if a.tmod 4 ≠ 0 then 365 else 366

def dmsize : List Int := [31, 28, 31, 30, 31, 30, 31, 31, 30, 31, 30, 31]

def mosize (y t : Int) : Int :=
  if t = 2 ∧ dysize y = 366 then 29 else dmsize.getD (t - 1).toNat 0

/- The next number of one or two digits, or -2, with what Datep points to. -/
def g2 (p : Text) : Int × Text :=
  match p.dropWhile fun c => ¬ IsDigit c with
  | [] => (-2, [])
  | c :: p =>
    if IsDigit (byte p 0) then
      (((c : Int) - 48) * 10 + ((byte p 0 : Int) - 48), p.drop 1)
    else ((c : Int) - 48, p)

/- A number within bounds, for which there is a default. -/
def part (dflt lo hi : Int) (p : Text) : Option Int × Text :=
  let c := g2 p
  let n := if c.1 = -2 then dflt else c.1
  (if n < lo ∨ hi < n then none else some n, c.2)

/- for(i=1970; i<y; i++) tim += dysize(i), for a number of turns -/
def yearDays : Nat → Int → Int
  | 0, _ => 0
  | turns + 1, i => dysize i + yearDays turns (i + 1)

/- while(--t) tim += mosize(y,t) -/
def monthDays (y : Int) : Nat → Int
  | 0 => 0
  | t + 1 => mosize y (t + 1) + monthDays y t

def seconds (z : Zone) (y t d h m s : Int) : Option Time := do
  let days := yearDays (y - 70).toNat 1970 + monthDays (y + 1900) (t - 1).toNat + (d - 1)
  let tim := ((days * 24 + h) * 60 + m) * 60 + s + z.timezone.val
  let ct ← localtime z (Time.of tim)
  some (Time.of (if ct.tm_isdst ≠ 0 then tim - 1 * 60 * 60 else tim))

/- The time, or none for -1, with what Datep points to. -/
def date_ab (z : Zone) (adt : Text) : Option Time × Text :=
  match part 99 70 99 adt with
  | (none, p) => (none, p)
  | (some y, p) =>
    match part 12 1 12 p with
    | (none, p) => (none, p)
    | (some t, p) =>
      match part (mosize y t) 1 (mosize y t) p with
      | (none, p) => (none, p)
      | (some d, p) =>
        match part 23 0 23 p with
        | (none, p) => (none, p)
        | (some h, p) =>
          match part 59 0 59 p with
          | (none, p) => (none, p)
          | (some m, p) =>
            match part 59 0 59 p with
            | (none, p) => (none, p)
            | (some s, p) => (seconds z y t d h m s, p)

/- Two digits. -/
theorem do2_eq {n : Int} (h₀ : 0 ≤ n) (h₁ : n < 100) :
    do2 n = [48 + (n / 10).toNat, 48 + (n % 10).toNat] := by
  have hd : n.tdiv 10 = n / 10 := Int.tdiv_eq_ediv_of_nonneg h₀
  have hm : n.tmod 10 = n % 10 := Int.tmod_eq_emod_of_nonneg h₀
  have e₁ : byteOf (n / 10 + 48) = 48 + (n / 10).toNat := by
    rw [byteOf]
    omega
  have e₂ : byteOf (n % 10 + 48) = 48 + (n % 10).toNat := by
    rw [byteOf]
    omega
  rw [do2, hd, hm, e₁, e₂]

theorem g2_do2 {n : Int} (h₀ : 0 ≤ n) (h₁ : n < 100) (p : Text) : g2 (do2 n ++ p) = (n, p) := by
  have hfst : IsDigit (48 + (n / 10).toNat) := ⟨by omega, by omega⟩
  have hsnd : IsDigit (48 + (n % 10).toNat) := ⟨by omega, by omega⟩
  have hval : (((48 + (n / 10).toNat : Nat) : Int) - 48) * 10 +
      (((48 + (n % 10).toNat : Nat) : Int) - 48) = n := by
    omega
  rw [do2_eq h₀ h₁, List.cons_append, List.cons_append, List.nil_append, g2,
    List.dropWhile_cons_of_neg (by simpa using hfst)]
  exact (if_pos hsnd).trans (congrArg (·, p) hval)

/- A separator is passed over. -/
theorem g2_cons {c : Nat} (hc : ¬ IsDigit c) (p : Text) : g2 (c :: p) = g2 p := by
  rw [g2, g2, List.dropWhile_cons_of_pos (by simpa using hc)]

theorem part_do2 {n lo hi : Int} (dflt : Int) (h₀ : 0 ≤ n) (h₁ : n < 100) (hlo : lo ≤ n)
    (hhi : n ≤ hi) (p : Text) : part dflt lo hi (do2 n ++ p) = (some n, p) := by
  rw [part, g2_do2 h₀ h₁]
  dsimp only
  rw [if_neg (by omega), if_neg (by omega)]

theorem part_cons {c : Nat} (hc : ¬ IsDigit c) (dflt lo hi : Int) (p : Text) :
    part dflt lo hi (c :: p) = part dflt lo hi p := by
  rw [part, part, g2_cons hc]

theorem dysize_eq (a : Int) (h : 0 ≤ a) : dysize (1900 + a) = yearSize a := by
  rw [dysize, yearSize, Int.tmod_eq_emod_of_nonneg h, Int.tmod_eq_emod_of_nonneg (by omega)]
  have : (1900 + a) % 4 = a % 4 := by omega
  rw [this]

theorem mosize_short (a t : Int) (h : 0 ≤ a) : mosize (1900 + a) t = mosize a t := by
  rw [mosize, mosize, dysize_eq a h]
  rfl

theorem yearDays_eq (turns : Nat) {a : Int} (h₁ : 1 ≤ a) (h₂ : a + turns ≤ 200) :
    daysBefore a + yearDays turns (1900 + a) = daysBefore (a + turns) := by
  induction turns generalizing a with
  | zero => simp [yearDays]
  | succ turns ih =>
    have hnext := ih (a := a + 1) (by omega) (by omega)
    have hyear := daysBefore_succ h₁ (by omega)
    have hsum : a + ((turns + 1 : Nat) : Int) = a + 1 + turns := by omega
    rw [yearDays, dysize_eq a (by omega), hsum, ← hnext, hyear, ← Int.add_assoc, Int.add_assoc 1900]

/- The months of mosize are those of the calendar. -/
theorem mosize_eq {a : Int} (h₁ : 1 ≤ a) (h₂ : a < 200) {m : Nat} (hm : m < 12) :
    (monthLengths (leapYear a))[m]? = some (mosize (1900 + a) (m + 1)) := by
  have hleap : dysize (1900 + a) = if leapYear a = true then 366 else 365 := by
    rw [dysize_eq a (by omega), yearSize_eq h₁ h₂, monthLengths_sum]
  rw [mosize, hleap]
  clear hleap h₁ h₂
  cases leapYear a with
  | true =>
    revert m
    decide
  | false =>
    revert m
    decide

theorem monthDays_eq {a : Int} (h₁ : 1 ≤ a) (h₂ : a < 200) {m : Nat} (hm : m ≤ 12) :
    monthDays (1900 + a) m = upto (monthLengths (leapYear a)) m := by
  induction m with
  | zero => rw [monthDays, upto_zero]
  | succ m ih =>
    rw [monthDays, ih (by omega), upto_succ (mosize_eq h₁ h₂ (by omega)), Int.add_comm]

/-- The time of a zone without daylight saving, at a date from 1970 to 1999. -/
structure InRange (z : Zone) (t : Time) : Prop where
  standard : z.daylight = false
  first : 0 ≤ t.val - z.timezone.val
  last : t.val - z.timezone.val < 86400 * daysBefore 100

/- localtime takes the zone's offset off, and no more. -/
theorem InRange.localtime {z : Zone} {t : Time} (h : InRange z t) :
    ∃ tm, localtime z t = some tm ∧ IsTime tm (t.val - z.timezone.val) ∧ tm.tm_isdst = 0 ∧
      70 ≤ tm.tm_year ∧ tm.tm_year < 100 := by
  have hlast := h.last
  have hend : daysBefore 100 = 10957 := rfl
  have hof : (Time.of (t.val - z.timezone.val)).val = t.val - z.timezone.val :=
    i32_eq (by have := h.first; omega) (by omega)
  obtain ⟨tm, htm, his, hdst⟩ := gmtime_spec (Time.of (t.val - z.timezone.val))
  rw [hof] at his
  have hnum := gregorian.number_bounds his.date
  have hparts := his.parts.2.2.2
  have hfirst := h.first
  have hlow : 70 ≤ tm.tm_year := by
    by_contra hlt
    have hle := gregorian.before_le (y := 1900 + tm.tm_year + 1) (z := 1900 + 70) (by omega)
    have hzero : gregorian.before (1900 + 70) = 0 := rfl
    dsimp only at hnum
    omega
  have hhigh : tm.tm_year < 100 := by
    by_contra hge
    have hle := gregorian.before_le (y := 1900 + 100) (z := 1900 + tm.tm_year) (by omega)
    have hmax : gregorian.before (1900 + 100) = 10957 := rfl
    dsimp only at hnum
    omega
  refine ⟨tm, ?_, his, hdst, hlow, hhigh⟩
  rw [Libc.localtime, htm]
  simp [h.standard]

/-- What date_ba writes date_ab reads back. -/
theorem date_ab_date_ba {z : Zone} {t : Time} (h : InRange z t) :
    ∃ adt, date_ba z t = some adt ∧ ∀ p, date_ab z (adt ++ p) = (some t, p) := by
  obtain ⟨tm, htm, his, hdst, hlow, hhigh⟩ := h.localtime
  obtain ⟨hday0, k, hk, hday⟩ := his.date
  have hmon : tm.tm_mon < 12 := by
    have := (List.getElem?_eq_some_iff.mp hk).1
    simpa [gregorian, monthLengths] using this
  have hsize : mosize tm.tm_year (tm.tm_mon + 1) = k := by
    have := mosize_eq (a := tm.tm_year) (by omega) (by omega) hmon
    rw [← mosize_short _ _ (by omega)]
    exact Option.some.inj (this.symm.trans hk)
  have hk31 : k ≤ 31 := by
    have hall : ∀ leap, ∀ k ∈ monthLengths leap, k ≤ 31 := by decide
    exact hall _ _ (List.mem_of_getElem? hk)
  dsimp only at hday0 hday
  refine ⟨_, by rw [date_ba, htm]; rfl, fun p => ?_⟩
  have hslash : ¬ IsDigit 47 := by decide
  have hblank : ¬ IsDigit 32 := by decide
  have hcolon : ¬ IsDigit 58 := by decide
  have hsec := his.sec
  have hmin := his.min
  have hhour := his.hour
  simp only [List.append_assoc, List.cons_append]
  rw [date_ab, part_do2 99 (by omega) (by omega) hlow (by omega)]
  dsimp only
  rw [part_cons hslash, part_do2 12 (by omega) (by omega) (by omega) (by omega)]
  dsimp only
  rw [part_cons hslash, hsize, part_do2 k (by omega) (by omega) (by omega) (by omega)]
  dsimp only
  rw [part_cons hblank, part_do2 23 (by omega) (by omega) (by omega) (by omega)]
  dsimp only
  rw [part_cons hcolon, part_do2 59 (by omega) (by omega) (by omega) (by omega)]
  dsimp only
  rw [part_cons hcolon, part_do2 59 (by omega) (by omega) (by omega) (by omega)]
  dsimp only
  have hyears : yearDays (tm.tm_year - 70).toNat 1970 = daysBefore tm.tm_year := by
    have hsum := yearDays_eq (tm.tm_year - 70).toNat (a := 70) (by omega) (by omega)
    have hzero : daysBefore 70 = 0 := rfl
    have hidx : (70 : Int) + ((tm.tm_year - 70).toNat : Int) = tm.tm_year := by omega
    rw [hidx, hzero] at hsum
    simpa using hsum
  have hmonths : monthDays (tm.tm_year + 1900) ((tm.tm_mon : Int) + 1 - 1).toNat =
      upto (monthLengths (leapYear tm.tm_year)) tm.tm_mon := by
    have hidx : ((tm.tm_mon : Int) + 1 - 1).toNat = tm.tm_mon := by omega
    rw [hidx, Int.add_comm, monthDays_eq (by omega) (by omega) (by omega)]
  have hnumber : daysBefore tm.tm_year + upto (monthLengths (leapYear tm.tm_year)) tm.tm_mon +
      (tm.tm_mday - 1) = gregorian.number ⟨1900 + tm.tm_year, tm.tm_mon, tm.tm_mday - 1⟩ := by
    rw [Int.add_assoc]
    rfl
  have htime := his.time
  have htim : ((gregorian.number ⟨1900 + tm.tm_year, tm.tm_mon, tm.tm_mday - 1⟩ * 24 +
      tm.tm_hour) * 60 + tm.tm_min) * 60 + tm.tm_sec + z.timezone.val = t.val := by
    omega
  have hof : Time.of t.val = t := Subtype.ext (i32_eq t.property.1 t.property.2)
  rw [seconds, hyears, hmonths, hnumber, htim, hof, htm]
  simp [hdst, hof]

end Svr32.Sccs

/-! sccs del_ab.c and del_ba.c: an entry of the delta table as a line, and back. -/
namespace Svr32.Sccs
open Svr32.Lib Svr32.Libc

def BDELTAB : Nat := 100
def LOGSIZE : Nat := 16

structure Deltab where
  d_sid : Sid
  d_serial : Int
  d_pred : Int
  d_datetime : Time
  d_pgmr : Text
  d_type : Nat
deriving DecidableEq

def sid_ba (s : Sid) : Text :=
  dec s.s_rel ++ 46 :: (dec s.s_lev ++
    if s.s_br ≠ 0 then 46 :: (dec s.s_br ++ 46 :: dec s.s_seq) else [])

def del_ba (z : Zone) (dt : Deltab) : Option Text := do
  let date ← date_ba z dt.d_datetime
  some (CTLCHAR :: BDELTAB :: 32 :: dt.d_type :: 32 :: (sid_ba dt.d_sid ++ 32 :: (date ++
    32 :: (dt.d_pgmr ++ 32 :: (udec (unsigned dt.d_serial) ++
      32 :: (udec (unsigned dt.d_pred) ++ [newline]))))))

/- index(p,s) for a string of one character. -/
def index (p : Text) (c : Nat) : Option Nat := p.findIdx? (· = c)

/- The character that del_ab returns, and what it has made of `dt`. A name that is too long for its
array is written over what comes behind it. -/
def del_ab (z : Zone) (pkt : Packet) (dt : Deltab) (p : Text) : Except Fatal (Nat × Deltab) :=
  if byte p 0 ≠ CTLCHAR then fmterr pkt
  else if byte p 1 ≠ BDELTAB then pure (byte p 1, dt)
  else
    let p := nonblank (p.drop 2)
    let d_type := byte p 0
    let sid := sid_ab (nonblank (p.drop 1))
    let date := date_ab z (nonblank sid.2)
    let p := nonblank date.2
    match index p 32 with
    | none => fmterr pkt
    | some n =>
      if LOGSIZE ≤ n then throw .undefined
      else
        let serial := satoi (nonblank (p.drop (n + 1)))
        let pred := satoi (nonblank serial.2)
        if byte pred.2 0 ≠ newline then fmterr pkt
        else pure (BDELTAB,
          { d_sid := sid.1
            d_serial := serial.1
            d_pred := pred.1
            d_datetime := date.1.getD dt.d_datetime
            d_pgmr := p.take n
            d_type := d_type })

def IsLetter (c : Nat) : Prop := 65 ≤ c ∧ c ≤ 90 ∨ 97 ≤ c ∧ c ≤ 122

instance (c : Nat) : Decidable (IsLetter c) := inferInstanceAs (Decidable (_ ∨ _))

/- What a char array of the size holds: a string without blanks, and not empty. -/
structure IsName (p : Text) : Prop where
  some : p ≠ []
  string : 0 ∉ p
  blanks : ∀ c ∈ p, c ≠ 32 ∧ c ≠ 9
  fits : p.length < LOGSIZE

/-- A record of the delta table, of a time from 1970 to 1999 in a zone without daylight saving. -/
structure Deltab.Valid (z : Zone) (dt : Deltab) : Prop where
  type : IsLetter dt.d_type
  sid : Full dt.d_sid
  time : InRange z dt.d_datetime
  name : IsName dt.d_pgmr
  serial : -2 ^ 31 ≤ dt.d_serial ∧ dt.d_serial < 2 ^ 31
  pred : -2 ^ 31 ≤ dt.d_pred ∧ dt.d_pred < 2 ^ 31

theorem dec_numeral (x : Nat) : Numeral x (dec x) where
  some := digits_ne_nil x x
  digits := digits_digit x x
  value := by
    have h := readFrom_dec x (p := []) trivial
    rw [List.append_nil] at h
    rw [h]

theorem sid_ba_text {s : Sid} (hs : Full s) : SidText s (sid_ba s) := by
  obtain ⟨rel, lev, br, seq⟩ := s
  have hiff : br = 0 ↔ seq = 0 := hs.2.2
  rw [sid_ba]
  dsimp only
  by_cases h : br = 0
  · obtain rfl : seq = 0 := hiff.mp h
    subst h
    simpa using SidText.trunk (dec_numeral rel) (dec_numeral lev)
  · rw [if_pos h]
    exact .branch (dec_numeral rel) (dec_numeral lev) (dec_numeral br) (dec_numeral seq)

theorem i32_step (x d : Int) : i32 (i32 x * 10 + d) = i32 (x * 10 + d) := by
  have hmod : i32 x % 2 ^ 32 = x % 2 ^ 32 := by
    rw [i32, Int.bmod_def]
    split <;> omega
  rw [← i32_emod (i32 x * 10 + d), ← i32_emod (x * 10 + d)]
  congr 1
  omega

/- satoi reads what a number of any size leaves in an int. -/
theorem satoiFrom_read (sum : Nat) (p : Text) :
    satoiFrom (i32 sum) p = (i32 (readFrom sum p).1, (readFrom sum p).2) := by
  induction p generalizing sum with
  | nil => rfl
  | cons c p ih =>
    rw [satoiFrom, readFrom]
    by_cases hc : IsDigit c
    · have hc' : 48 ≤ c ∧ c ≤ 57 := hc
      have hsum : (sum : Int) * 10 + ((c : Int) - 48) = ((sum * 10 + (c - 48) : Nat) : Int) := by
        omega
      rw [if_pos hc', if_pos hc, i32_step, hsum, ih]
    · have hc' : ¬ (48 ≤ c ∧ c ≤ 57) := hc
      rw [if_neg hc', if_neg hc]

/- "%u" of an int is read back. -/
theorem satoi_udec {x : Int} (hx : -2 ^ 31 ≤ x ∧ x < 2 ^ 31) {p : Text} (hp : Stops p) :
    satoi (udec (unsigned x) ++ p) = (x, p) := by
  have hlt : unsigned x < 10 ^ (9 + 1) := by
    rw [unsigned]
    omega
  have hback : i32 (unsigned x : Int) = x := by
    have hcast : ((unsigned x : Nat) : Int) = x % 2 ^ 32 := by
      rw [unsigned]
      omega
    rw [hcast, i32_emod, i32_eq hx.1 hx.2]
  have h := satoiFrom_read 0 (udec (unsigned x) ++ p)
  rw [udec, readFrom_digits 9 _ hlt, readFrom_end _ hp, hback] at h
  exact h

theorem nonblank_cons {c : Nat} (h₁ : c ≠ 32) (h₂ : c ≠ 9) (p : Text) :
    nonblank (c :: p) = c :: p := by
  simp [nonblank, h₁, h₂]

theorem nonblank_blank (p : Text) : nonblank (32 :: p) = nonblank p := by
  simp [nonblank]

theorem nonblank_append {t : Text} (ht : t ≠ []) (h : ∀ c ∈ t, c ≠ 32 ∧ c ≠ 9) (p : Text) :
    nonblank (t ++ p) = t ++ p := by
  cases t with
  | nil => exact absurd rfl ht
  | cons c t =>
    have hc := h c (by simp)
    exact nonblank_cons hc.1 hc.2 (t ++ p)

theorem nonblank_digits {t : Text} (ht : t ≠ []) (h : ∀ c ∈ t, IsDigit c) (p : Text) :
    nonblank (t ++ p) = t ++ p := by
  refine nonblank_append ht (fun c hc => ?_) p
  have hd : 48 ≤ c ∧ c ≤ 57 := h c hc
  omega

theorem SidText.nonblank {s : Sid} {t : Text} (h : SidText s t) (p : Text) :
    nonblank (t ++ p) = t ++ p := by
  cases h with
  | trunk ha _ =>
    rw [List.append_assoc]
    exact nonblank_digits ha.some ha.digits _
  | branch ha _ _ _ =>
    rw [List.append_assoc]
    exact nonblank_digits ha.some ha.digits _

theorem date_ba_nonblank {z : Zone} {t : Time} (h : InRange z t) {adt : Text}
    (ha : date_ba z t = some adt) (p : Text) : nonblank (adt ++ p) = adt ++ p := by
  obtain ⟨tm, htm, -, -, hlow, hhigh⟩ := h.localtime
  rw [date_ba, htm] at ha
  cases ha
  rw [List.append_assoc]
  refine nonblank_digits (by simp [do2]) ?_ _
  rw [do2_eq (by omega) (by omega)]
  intro c hc
  simp only [List.mem_cons, List.not_mem_nil, or_false] at hc
  rcases hc with rfl | rfl <;> exact ⟨by omega, by omega⟩

theorem index_append {t : Text} {c : Nat} (ht : c ∉ t) (p : Text) :
    index (t ++ c :: p) c = some t.length := by
  rw [index, List.findIdx?_append, List.findIdx?_eq_none_iff.mpr]
  · simp [List.findIdx?_cons]
  · intro x hx
    exact decide_eq_false fun h => ht (h ▸ hx)

/-- del_ab makes of the line that del_ba writes the record that it was. -/
theorem del_ab_del_ba {z : Zone} {dt : Deltab} (h : dt.Valid z) (pkt : Packet) (dt₀ : Deltab) :
    ∃ str, del_ba z dt = some str ∧ del_ab z pkt dt₀ str = .ok (BDELTAB, dt) := by
  obtain ⟨adt, hadt, hdate⟩ := date_ab_date_ba h.time
  refine ⟨_, by rw [del_ba, hadt]; rfl, ?_⟩
  have hstops : ∀ p : Text, Stops (32 :: p) := fun p => show ¬ IsDigit 32 by decide
  have htype : dt.d_type ≠ 32 ∧ dt.d_type ≠ 9 := by
    have := h.type
    simp only [IsLetter] at this
    omega
  have hsid := sid_ba_text h.sid
  have hdigits : ∀ x, udec x ≠ [] ∧ ∀ c ∈ udec x, IsDigit c := fun x =>
    ⟨digits_ne_nil 9 x, digits_digit 9 x⟩
  have hblank : 32 ∉ dt.d_pgmr := fun hmem => (h.name.blanks 32 hmem).1 rfl
  have hfits : ¬ LOGSIZE ≤ dt.d_pgmr.length := Nat.not_le.mpr h.name.fits
  have hend : Stops [newline] := show ¬ IsDigit newline by decide
  rw [del_ab, if_neg (by simp [byte]), if_neg (by simp [byte])]
  simp only [List.drop_succ_cons, List.drop_zero, nonblank_blank, nonblank_cons htype.1 htype.2,
    byte_zero, hsid.nonblank, sid_ab_text hsid ⟨hstops _, show (32 : Nat) ≠ 46 by decide⟩,
    date_ba_nonblank h.time hadt, hdate, nonblank_append h.name.some h.name.blanks,
    index_append hblank, if_neg hfits]
  have hdrop : ∀ p : Text, (dt.d_pgmr ++ 32 :: p).drop (dt.d_pgmr.length + 1) = p := by
    intro p
    rw [List.drop_append]
    simp
  simp only [hdrop, nonblank_digits (hdigits _).1 (hdigits _).2, satoi_udec h.serial (hstops _),
    nonblank_blank, satoi_udec h.pred hend, byte_zero, List.take_left', Option.getD_some]
  rfl

/- Greenwich, and a delta by root at the begin of 1970. -/
def greenwich : Zone := ⟨Time.of 0, Time.of 0, false, Time.of 0, Time.of 0⟩

def firstDelta : Deltab := ⟨⟨1, 1, 0, 0⟩, 1, 0, Time.of 0, [114, 111, 111, 116], 68⟩

theorem del_ab_del_ba_first :
    ∃ str, del_ba greenwich firstDelta = some str ∧
      del_ab greenwich (opened []) firstDelta str = .ok (BDELTAB, firstDelta) :=
  del_ab_del_ba
    { type := by decide
      sid := by decide
      time := ⟨rfl, by decide, by decide⟩
      name := ⟨by decide, by decide, by decide, by decide⟩
      serial := by decide
      pred := by decide }
    (opened []) firstDelta

end Svr32.Sccs
