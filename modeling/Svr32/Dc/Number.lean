import Mathlib.Tactic.Ring
import Mathlib.Data.List.Basic
import Mathlib.Data.List.DropRight

/-! cmd/dc: numbers as blocks of digits to the base 100, the least first. A negative number is a
hundred's complement with a top digit of -1. -/
namespace Svr32.Dc

/- The number of a block. -/
def val : List Int → Int
  | [] => 0
  | d :: p => d + 100 * val p

def Digit (d : Int) : Prop := 0 ≤ d ∧ d < 100

def Digits (p : List Int) : Prop := ∀ d ∈ p, Digit d

/-- No zeros at the top, and no 99 below a top digit of -1. -/
def Normal : List Int → Prop
  | [] => True
  | d :: p => Normal p ∧
    (p = [] ∧ (d = -1 ∨ d ≠ 0 ∧ Digit d) ∨ p ≠ [] ∧ Digit d ∧ ¬ (d = 99 ∧ p = [-1]))

theorem Normal.zero {p : List Int} (h : Normal p) (hv : val p = 0) : p = [] := by
  induction p with
  | nil => rfl
  | cons d p ih =>
    obtain ⟨hp, ⟨rfl, hd⟩ | ⟨hne, hd, -⟩⟩ := h
    · rw [val, val] at hv
      unfold Digit at hd
      omega
    · rw [val] at hv
      unfold Digit at hd
      exact absurd (ih hp (by omega)) hne

theorem Normal.minus_one {p : List Int} (h : Normal p) (hv : val p = -1) : p = [-1] := by
  induction p with
  | nil => exact absurd hv (by decide)
  | cons d p ih =>
    obtain ⟨hp, ⟨rfl, hd⟩ | ⟨hne, hd, hno⟩⟩ := h
    · rw [val, val] at hv
      rw [show d = -1 by omega]
    · rw [val] at hv
      unfold Digit at hd
      exact absurd ⟨by omega, ih hp (by omega)⟩ hno

/-- A number has one normalized block. -/
theorem Normal.ext {p q : List Int} (hp : Normal p) (hq : Normal q) (h : val p = val q) : p = q := by
  induction p generalizing q with
  | nil => exact (hq.zero h.symm).symm
  | cons d p ih =>
    cases q with
    | nil => exact hp.zero h
    | cons e q =>
      have hd := hp
      have he := hq
      rw [val, val] at h
      obtain ⟨hp', hd⟩ := hd
      obtain ⟨hq', he⟩ := he
      unfold Digit at hd he
      rcases hd with ⟨rfl, hd⟩ | ⟨hne, hd, hno⟩ <;> rcases he with ⟨rfl, he⟩ | ⟨hne', he, hno'⟩
      · rw [show d = e by simpa [val] using h]
      · rw [val] at h
        by_cases hneg : d = -1
        · exact absurd ⟨by omega, hq'.minus_one (by omega)⟩ hno'
        · exact absurd (hq'.zero (by omega)) hne'
      · rw [val] at h
        by_cases hneg : e = -1
        · exact absurd ⟨by omega, hp'.minus_one (by omega)⟩ hno
        · exact absurd (hp'.zero (by omega)) hne
      · rw [show d = e by omega, ih hp' hq' (by omega)]

theorem val_append (p q : List Int) : val (p ++ q) = val p + 100 ^ p.length * val q := by
  induction p with
  | nil => rw [List.nil_append, val, List.length_nil, pow_zero, one_mul, zero_add]
  | cons d p ih =>
    rw [List.cons_append, val, val, ih, List.length_cons, pow_succ]
    ring

theorem Digits.val_nonneg {p : List Int} (h : Digits p) : 0 ≤ val p := by
  induction p with
  | nil => exact Int.le_refl 0
  | cons d p ih =>
    have hd := h d List.mem_cons_self
    have hp := ih fun e he => h e (List.mem_cons_of_mem d he)
    rw [val]
    unfold Digit at hd
    omega

theorem Digits.val_lt {p : List Int} (h : Digits p) : val p < 100 ^ p.length := by
  induction p with
  | nil => exact Int.one_pos
  | cons d p ih =>
    have hd := h d List.mem_cons_self
    have hp := ih fun e he => h e (List.mem_cons_of_mem d he)
    rw [val, List.length_cons, pow_succ]
    unfold Digit at hd
    omega

/-- Digits without a zero at the top. -/
theorem Digits.normal {p : List Int} (h : Digits p) (htop : p.getLast? ≠ some 0) : Normal p := by
  induction p with
  | nil => trivial
  | cons d p ih =>
    have hd := h d List.mem_cons_self
    have hp : Digits p := fun e he => h e (List.mem_cons_of_mem d he)
    cases p with
    | nil =>
      refine ⟨trivial, .inl ⟨rfl, .inr ⟨fun hz => htop ?_, hd⟩⟩⟩
      rw [hz]
      rfl
    | cons e p =>
      refine ⟨ih hp htop, .inr ⟨List.cons_ne_nil e p, hd, fun hno => ?_⟩⟩
      have he := hp e List.mem_cons_self
      rw [(List.cons.inj hno.2).1] at he
      exact absurd he.1 (by decide)

/-- Digits without a 99 at the top, below the -1. -/
theorem Digits.normal_neg {p : List Int} (h : Digits p) (htop : p.getLast? ≠ some 99) :
    Normal (p ++ [-1]) := by
  induction p with
  | nil => exact ⟨trivial, .inl ⟨rfl, .inl rfl⟩⟩
  | cons d p ih =>
    have hd := h d List.mem_cons_self
    have hp : Digits p := fun e he => h e (List.mem_cons_of_mem d he)
    have hne : p ++ [-1] ≠ [] := List.append_ne_nil_of_right_ne_nil p (List.cons_ne_nil _ _)
    cases p with
    | nil =>
      refine ⟨⟨trivial, .inl ⟨rfl, .inl rfl⟩⟩, .inr ⟨hne, hd, fun hno => htop ?_⟩⟩
      rw [hno.1]
      rfl
    | cons e p =>
      refine ⟨ih hp htop, .inr ⟨hne, hd, fun hno => ?_⟩⟩
      exact absurd (List.cons.inj hno.2).2 (List.append_ne_nil_of_right_ne_nil p (List.cons_ne_nil _ _))

/-- A normalized block is of one of the two kinds. -/
theorem Normal.kinds {p : List Int} (h : Normal p) :
    (Digits p ∧ p.getLast? ≠ some 0) ∨
      ∃ ds, p = ds ++ [-1] ∧ Digits ds ∧ ds.getLast? ≠ some 99 := by
  induction p with
  | nil => exact .inl ⟨fun d hd => (nomatch hd), fun h => nomatch h⟩
  | cons d p ih =>
    obtain ⟨hp, ⟨rfl, hd⟩ | ⟨hne, hd, hno⟩⟩ := h
    · rcases hd with hd | ⟨hd₀, hd⟩
      · exact .inr ⟨[], by rw [hd]; rfl, fun e he => (nomatch he), fun h => nomatch h⟩
      · refine .inl ⟨fun e he => List.mem_singleton.mp he ▸ hd, fun h => hd₀ ?_⟩
        exact Option.some.inj h
    · rcases ih hp with ⟨hds, htop⟩ | ⟨ds, rfl, hds, htop⟩
      · left
        constructor
        · exact List.forall_mem_cons.mpr ⟨hd, hds⟩
        · rw [List.getLast?_cons_of_ne_nil hne]
          exact htop
      · refine .inr ⟨d :: ds, rfl, List.forall_mem_cons.mpr ⟨hd, hds⟩, ?_⟩
        cases ds with
        | nil => exact fun h => hno ⟨Option.some.inj h, rfl⟩
        | cons e ds => exact htop

end Svr32.Dc

/-! cmd/dc/dc.c: add, chsign and mult. Blocks are read from rd on; a block is a list of its digits,
and what is truncated is taken off its end. -/
namespace Svr32.Dc

/- while(--size >= 0), and if(carry != 0)sputc(p,carry); -/
def addLoop : Nat → List Int → List Int → Int → List Int
  | 0, _, _, carry => if carry ≠ 0 then [carry] else []
  | size + 1, a1, a2, carry =>
    let n := a1.headD 0 + a2.headD 0 + carry
    if n ≥ 100 then (n - 100) :: addLoop size a1.tail a2.tail 1
    else if n < 0 then (n + 100) :: addLoop size a1.tail a2.tail (-1)
    else n :: addLoop size a1.tail a2.tail 0

/- while(sfbeg(p) == 0 && (c = sbackc(p)) == 0); and all behind the last digit that is not 0 is cut. -/
def stripZeros (p : List Int) : List Int := p.rdropWhile (· == 0)

/- while((c = sbackc(p)) == 99): behind the digit that stops it, -1 is put. At the beginning sbackc
gives EOF, and sgetc goes over the first digit, whatever it is. -/
def stripNines (p : List Int) : List Int :=
  let q := p.dropLast.rdropWhile (· == 99)
  if q = [] then p.take 1 ++ [-1] else q ++ [-1]

def add (a1 a2 : List Int) : List Int :=
  let p := stripZeros (addLoop (max a1.length a2.length) a1 a2 0)
  if p.getLast? = some (-1) then stripNines p else p

/- while(sfeof(p) == 0), with the carry that is left. -/
def chsignLoop : List Int → Int → List Int × Int
  | [], carry => ([], carry)
  | d :: p, carry =>
    let ct := 100 - d - carry
    if ct ≥ 100 then
      let r := chsignLoop p 0
      ((ct - 100) :: r.1, r.2)
    else
      let r := chsignLoop p 1
      (ct :: r.1, r.2)

/- What is done with the top by the carry. -/
def chsignEnd (r : List Int × Int) : List Int :=
  if r.2 ≠ 0 then
    if r.1.getLast? = some 99 then r.1.dropLast ++ [-1] else r.1 ++ [-1]
  else if r.1.getLast? = some 0 then r.1.dropLast
  else r.1

def chsign (p : List Int) : List Int := chsignEnd (chsignLoop p 0)

/- sfbeg(p) == 0 && sbackc(p) < 0 -/
def isNeg (p : List Int) : Bool :=
  match p.getLast? with
  | some t => t < 0
  | none => false

/- while(sfeof(mp) == 0), on the digits of mr from rd on. -/
def multRow (cq : Int) : List Int → List Int → Int → List Int
  | [], mr, carry => if carry ≠ 0 then (mr.headD 0 + carry) :: mr.tail else mr
  | cp :: mp, mr, carry =>
    let mt := cp * cq + carry + mr.headD 0
    (mt % 100) :: multRow cq mp mr.tail (mt / 100)

/- while(sfeof(mq) == 0) -/
def multLoop (mp : List Int) : List Int → Nat → List Int → List Int
  | [], _, mr => mr
  | cq :: mq, offset, mr =>
    multLoop mp mq (offset + 1) (mr.take offset ++ multRow cq mp (mr.drop offset) 0)

def mult (p q : List Int) : List Int :=
  let mp := if isNeg p then chsign p else p
  let mq := if isNeg q then chsign q else q
  let mr := multLoop mp mq 0 []
  if isNeg p != isNeg q then chsign mr else mr

end Svr32.Dc
