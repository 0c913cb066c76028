import Svr32.Lib.BitStream
import Svr32.Spell.Huff
import Mathlib.Algebra.Order.BigOperators.Group.List

/-! cmd/spell/spellin.c: the hash codes of a word list, as differences in a table with an index. -/
namespace Svr32.Spell
open Svr32.Lib

def HASHWIDTH : Nat := 27

def HASHSIZE : Nat := 134217689

def INDEXWIDTH : Nat := 9

def NI : Nat := 2 ^ INDEXWIDTH + 1

/- The globals of spellin, with `u` and `k` of main. -/
structure Spellin where
  table : Nat → BitVec 32
  index : Nat → Nat
  wp : Nat
  bp : Nat
  ignore : Nat
  extra : Nat
  u : Nat
  k : Int

/- append: `room` is what is left of the table. -/
def appendLoop : Nat → BitVec 32 → Nat → Spellin → Bool × Spellin
  | 0, _, _, s => (false, s)
  | room + 1, w, i, s =>
    let s := { s with table := Function.update s.table s.wp (s.table s.wp ||| w >>> (32 - s.bp)) }
    if i < s.bp then (true, { s with bp := s.bp - i })
    else appendLoop room (w <<< s.bp) (i - s.bp) { s with bp := 32, wp := s.wp + 1 }

/-- append -/
def append (nd : Nat) (w : BitVec 32) (i : Nat) (s : Spellin) : Bool × Spellin :=
  appendLoop (nd - 1 - s.wp) w i s

/- for(x=d;;x/=2): what is encoded of `d`, with its code. -/
def halve (f : Huff) : Nat → Int → Option (Int × Nat × Int)
  | 0, _ => none
  | fuel + 1, x =>
    let (i, w) := encode f x
    if i > 0 then some (x, i, w) else halve f fuel (x.tdiv 2)

/- A code of `i` bits goes to the table, in two parts if it must. -/
def appendCode (nd i : Nat) (w : Int) (s : Spellin) : Bool × Spellin :=
  if i > 32 then
    let r := append nd (BitVec.ofInt 32 (w >>> (i - 32))) 32 s
    if r.1 then append nd (BitVec.ofInt 32 w <<< (32 + 32 - i)) (i - 32) r.2 else r
  else append nd (BitVec.ofInt 32 w <<< (32 - i)) i s

/- if(!append(..)) ignore++ -/
def putCode (nd i : Nat) (w : Int) (s : Spellin) : Spellin :=
  let r := appendCode nd i w s
  if r.1 then r.2 else { r.2 with ignore := r.2.ignore + 1 }

/- The inner loop of main. -/
def putLoop (f : Huff) (nd : Nat) : Nat → Int → Spellin → Option Spellin
  | 0, _, _ => none
  | fuel + 1, d, s => do
    let (x, i, w) ← halve f 32 d
    let s := putCode nd i w s
    let d := d - x
    if d > 0 then putLoop f nd fuel d { s with extra := s.extra + 1 } else some s

/- index[++u] = wp, so many times. -/
def fillIndex : Nat → Spellin → Spellin
  | 0, s => s
  | m + 1, s => fillIndex m { s with u := s.u + 1, index := Function.update s.index (s.u + 1) s.wp }

/- if(bp!=B) wp++ -/
def flush (s : Spellin) : Spellin := if s.bp ≠ 32 then { s with wp := s.wp + 1 } else s

/- The codes of another bucket begin with a word of their own. -/
def enter (t : Nat) (s : Spellin) : Spellin :=
  if t ≠ s.u then
    let s := { flush s with bp := 32 }
    { fillIndex (t - s.u) s with k := (t <<< (HASHWIDTH - INDEXWIDTH) : Nat) }
  else s

/- What main does with a hash code. -/
def place (f : Huff) (nd : Nat) (s : Spellin) (h : Nat) : Option Spellin :=
  let s := enter (h >>> (HASHWIDTH - INDEXWIDTH)) s
  let d := h - s.k
  putLoop f nd (d.toNat + 1) d { s with k := h }

def start : Spellin := ⟨fun _ => 0, fun _ => 0, 0, 32, 0, 0, 0, 0⟩

/- The end of main. -/
def finish (s : Spellin) : Spellin :=
  let s := flush s
  fillIndex (NI - 1 - s.u) s

/-- main of spellin, with a zeroed table of `nd` words. -/
def spellin (f : Huff) (nd : Nat) (codes : List Nat) : Option Spellin := do
  let s ← codes.foldlM (place f nd) start
  return finish s

variable {f : Huff} {nd i : Nat} {s s' : Spellin}

namespace Spellin

/- How many bits are written, and where the next one goes. -/
def pos (s : Spellin) : Nat := 32 * s.wp + (32 - s.bp)

/- The table is clear from there on. -/
structure Clear (s : Spellin) : Prop where
  pos : 1 ≤ s.bp
  le : s.bp ≤ 32
  zero : ∀ j, s.pos ≤ j → bitAt s.table j = false

/- Another state but for the bits in the table. -/
structure Aside (s s' : Spellin) : Prop where
  index : s'.index = s.index
  u : s'.u = s.u
  k : s'.k = s.k

theorem Aside.trans {s'' : Spellin} (h : Aside s s') (h' : Aside s' s'') : Aside s s'' :=
  ⟨h'.index.trans h.index, h'.u.trans h.u, h'.k.trans h.k⟩

end Spellin

/-- append puts the first `i` bits of a word at the end. -/
theorem appendLoop_spec {room : Nat} {w : BitVec 32} (hb : 1 ≤ s.bp) (hb' : s.bp ≤ 32)
    (hw : ∀ j, i ≤ j → w.getMsbD j = false) (h : appendLoop room w i s = (true, s')) :
    s'.pos = s.pos + i ∧ 1 ≤ s'.bp ∧ s'.bp ≤ 32 ∧ s.Aside s' ∧ s'.ignore = s.ignore ∧
      ∀ j, bitAt s'.table j = (bitAt s.table j || (decide (s.pos ≤ j) && w.getMsbD (j - s.pos))) := by
  induction room generalizing w i s with
  | zero => cases h
  | succ room ih =>
    have hor := bitAt_or s.table s.wp (show 32 - s.bp < 32 by omega) w
    rw [appendLoop] at h
    simp only at h
    have hp : s.pos = 32 * s.wp + (32 - s.bp) := rfl
    by_cases hi : i < s.bp
    · rw [if_pos hi] at h
      cases h
      refine ⟨?_, ?_, ?_, ⟨rfl, rfl, rfl⟩, rfl, fun j => ?_⟩
      · simp only [Spellin.pos]
        omega
      · show 1 ≤ s.bp - i
        omega
      · show s.bp - i ≤ 32
        omega
      · show bitAt (Function.update _ _ _) j = _
        rw [hor, ← hp]
        by_cases hin : j < 32 * (s.wp + 1)
        · simp [hin]
        · rw [hw (j - s.pos) (by omega), Bool.and_false, Bool.and_false]
    · rw [if_neg hi] at h
      obtain ⟨h₁, h₂, h₃, h₄, h₅, h₆⟩ := ih (Nat.le_add_left 1 31) (Nat.le_refl 32) (fun j hj => by
        rw [BitVec.getMsbD_shiftLeft]
        exact hw (j + s.bp) (by omega)) h
      have hp' : Spellin.pos { s with
          table := Function.update s.table s.wp (s.table s.wp ||| w >>> (32 - s.bp)), bp := 32,
          wp := s.wp + 1 } = s.pos + s.bp := by
        simp only [Spellin.pos]
        omega
      rw [hp'] at h₁ h₆
      refine ⟨by omega, h₂, h₃, ⟨h₄.index, h₄.u, h₄.k⟩, h₅, fun j => ?_⟩
      rw [h₆ j, hor, ← hp, BitVec.getMsbD_shiftLeft]
      by_cases hin : j < 32 * (s.wp + 1)
      · have hno : ¬ s.pos + s.bp ≤ j := by omega
        simp [hin, hno]
      · have hge : s.pos + s.bp ≤ j := by omega
        have hge' : s.pos ≤ j := by omega
        have hd : j - (s.pos + s.bp) + s.bp = j - s.pos := by omega
        simp [hin, hge, hge', hd]

theorem appendLoop_ignore (room : Nat) (w : BitVec 32) (i : Nat) (s : Spellin) :
    (appendLoop room w i s).2.ignore = s.ignore ∧ s.Aside (appendLoop room w i s).2 := by
  induction room generalizing w i s with
  | zero => exact ⟨rfl, rfl, rfl, rfl⟩
  | succ room ih =>
    rw [appendLoop]
    simp only
    split
    · exact ⟨rfl, rfl, rfl, rfl⟩
    · obtain ⟨h₁, h₂⟩ := ih (w <<< s.bp) (i - s.bp) { s with
        table := Function.update s.table s.wp (s.table s.wp ||| w >>> (32 - s.bp)), bp := 32,
        wp := s.wp + 1 }
      exact ⟨h₁, h₂.index, h₂.u, h₂.k⟩

theorem Code.lt (hf : Good f) {x : Int} {Y : Nat} (h : Code f x i Y) : Y < 2 ^ i := by
  cases h with
  | short hk =>
    have hs := hf.sum
    omega
  | @long m r hr hm =>
    have hpos : 0 < 2 ^ m := Nat.two_pow_pos m
    obtain ⟨M, hM⟩ := Nat.exists_eq_succ_of_ne_zero hpos.ne'
    rw [Nat.pow_add, hM, Nat.succ_sub_one, hf.cq, hf.width, Nat.mul_succ, Nat.mul_comm]
    omega

/-- A code goes to the end of the table. -/
theorem putCode_spec (hf : Good f) {x : Int} {Y : Nat} (hs : s.Clear) (hc : Code f x i Y)
    (hi : i ≤ 31) (h : (putCode nd i Y s).ignore = s.ignore) :
    (putCode nd i Y s).Clear ∧ (putCode nd i Y s).pos = s.pos + i ∧
      Field (putCode nd i Y s).table s.pos i Y ∧
      ∀ j < s.pos, bitAt (putCode nd i Y s).table j = bitAt s.table j := by
  have hno : ¬ i > 32 := by omega
  have hw : ∀ j, (BitVec.ofInt 32 (Y : Int) <<< (32 - i)).getMsbD j =
      (decide (j < i) && Y.testBit (i - 1 - j)) := by
    intro j
    rw [BitVec.getMsbD_shiftLeft, BitVec.ofInt_natCast, BitVec.getMsbD_eq_getLsbD,
      BitVec.getLsbD_ofNat]
    by_cases hj : j < i
    · have h₁ : j + (32 - i) < 32 := by omega
      have h₂ : 32 - 1 - (j + (32 - i)) < 32 := by omega
      have h₃ : 32 - 1 - (j + (32 - i)) = i - 1 - j := by omega
      rw [decide_eq_true h₁, decide_eq_true h₂, decide_eq_true hj, h₃, Bool.true_and]
    · have h₁ : ¬ j + (32 - i) < 32 := by omega
      rw [decide_eq_false h₁, decide_eq_false hj, Bool.false_and, Bool.false_and]
  simp only [putCode, appendCode, if_neg hno] at h ⊢
  cases ha : append nd (BitVec.ofInt 32 (Y : Int) <<< (32 - i)) i s with
  | mk ok t =>
    rw [ha] at h
    cases ok with
    | false =>
      have hig := (appendLoop_ignore (nd - 1 - s.wp) (BitVec.ofInt 32 (Y : Int) <<< (32 - i)) i s).1
      rw [append] at ha
      rw [ha] at hig
      simp only [Bool.false_eq_true, if_false] at h hig
      omega
    | true =>
      simp only [if_true]
      obtain ⟨h₁, h₂, h₃, -, -, h₆⟩ := appendLoop_spec hs.pos hs.le
        (fun j hj => by rw [hw, decide_eq_false (Nat.not_lt.mpr hj), Bool.false_and]) ha
      refine ⟨⟨h₂, h₃, fun j hj => ?_⟩, h₁, ⟨hc.lt hf, fun j hj => ?_⟩, fun j hj => ?_⟩
      · have hout : ¬ j - s.pos < i := by omega
        rw [h₆, hs.zero j (by omega), hw, decide_eq_false hout, Bool.false_and, Bool.and_false,
          Bool.false_or]
      · have hd : s.pos + j - s.pos = j := by omega
        rw [h₆, hs.zero _ (by omega), hw, hd, decide_eq_true hj, decide_eq_true (Nat.le_add_right _ _),
          Bool.true_and, Bool.true_and, Bool.false_or]
      · rw [h₆, decide_eq_false (Nat.not_le.mpr hj), Bool.false_and, Bool.or_false]

theorem appendCode_aside (nd i : Nat) (w : Int) (s : Spellin) :
    (appendCode nd i w s).2.ignore = s.ignore ∧ s.Aside (appendCode nd i w s).2 := by
  rw [appendCode]
  split
  · have hfirst := appendLoop_ignore (nd - 1 - s.wp) (BitVec.ofInt 32 (w >>> (i - 32))) 32 s
    generalize hr : append nd (BitVec.ofInt 32 (w >>> (i - 32))) 32 s = r
    rw [append] at hr
    rw [hr] at hfirst
    simp only
    split
    · have hnext := appendLoop_ignore (nd - 1 - r.2.wp) (BitVec.ofInt 32 w <<< (32 + 32 - i))
        (i - 32) r.2
      exact ⟨hnext.1.trans hfirst.1, hfirst.2.trans hnext.2⟩
    · exact hfirst
  · exact appendLoop_ignore (nd - 1 - s.wp) (BitVec.ofInt 32 w <<< (32 - i)) i s

theorem putCode_aside (nd i : Nat) (w : Int) (s : Spellin) :
    s.ignore ≤ (putCode nd i w s).ignore ∧ s.Aside (putCode nd i w s) := by
  obtain ⟨h₁, h₂⟩ := appendCode_aside nd i w s
  simp only [putCode]
  split
  · exact ⟨h₁.ge, h₂⟩
  · refine ⟨?_, h₂.index, h₂.u, h₂.k⟩
    show s.ignore ≤ (appendCode nd i w s).2.ignore + 1
    omega

end Svr32.Spell

/-! A difference goes to the table in pieces, each as large as encode takes it. -/
namespace Svr32.Spell
open Svr32.Lib
variable {f : Huff} {nd fuel i p e : Nat} {s s' : Spellin} {d x a : Int} {xs ys : List Int}
  {tab tab' : Nat → BitVec 32}

/- The pieces that the inner loop of main makes of `d`. -/
def pieces (f : Huff) : Nat → Int → List Int
  | 0, _ => []
  | fuel + 1, d =>
    match halve f 32 d with
    | none => []
    | some (x, _) => x :: if d - x > 0 then pieces f fuel (d - x) else []

/- The sums that differences lead to from `a` on. -/
def sums : Int → List Int → List Int
  | _, [] => []
  | a, x :: xs => (a + x) :: sums (a + x) xs

/- The table has the codes of `xs` from bit `p` up to bit `e`. -/
inductive Reads (f : Huff) (tab : Nat → BitVec 32) : Nat → List Int → Nat → Prop
  | nil {p : Nat} : Reads f tab p [] p
  | cons {p e i Y : Nat} {x : Int} {xs : List Int} (hc : Code f x i Y) (hi : 0 < i)
      (hy : Field tab p i Y) (hr : Reads f tab (p + i) xs e) : Reads f tab p (x :: xs) e

namespace Reads

theorem le (h : Reads f tab p xs e) : p ≤ e := by
  induction h with
  | nil => exact le_rfl
  | cons _ _ _ _ ih => omega

theorem congr (h : Reads f tab p xs e) (hs : ∀ j, p ≤ j → j < e → bitAt tab' j = bitAt tab j) :
    Reads f tab' p xs e := by
  induction h with
  | nil => exact .nil
  | cons hc hi hy hr ih =>
    have hle := hr.le
    refine .cons hc hi (hy.congr fun j h₁ h₂ => hs j h₁ (by omega)) ?_
    exact ih fun j h₁ h₂ => hs j (by omega) h₂

theorem append {e' : Nat} (h : Reads f tab p xs e) (h' : Reads f tab e ys e') :
    Reads f tab p (xs ++ ys) e' := by
  induction h with
  | nil => exact h'
  | cons hc hi hy _ ih => exact .cons hc hi hy (ih h')

end Reads

theorem sums_append (a : Int) (xs ys : List Int) :
    sums a (xs ++ ys) = sums a xs ++ sums (a + xs.sum) ys := by
  induction xs generalizing a with
  | nil => simp [sums]
  | cons x xs ih => rw [List.cons_append, sums, sums, ih, List.sum_cons, Int.add_assoc]; rfl

theorem sums_last (a : Int) (h : xs ≠ []) :
    sums a xs = (sums a xs).dropLast ++ [a + xs.sum] := by
  induction xs generalizing a with
  | nil => exact absurd rfl h
  | cons x xs ih =>
    cases xs with
    | nil => simp [sums]
    | cons y ys =>
      have hl := ih (a + x) (List.cons_ne_nil y ys)
      have hne : sums (a + x) (y :: ys) ≠ [] := List.cons_ne_nil _ _
      rw [sums, List.dropLast_cons_of_ne_nil hne, List.cons_append, List.sum_cons, ← Int.add_assoc,
        ← hl]

/-- Sums of differences do not go down. -/
theorem sums_bounds (h : ∀ x ∈ xs, 0 ≤ x) : ∀ y ∈ sums a xs, a ≤ y ∧ y ≤ a + xs.sum := by
  induction xs generalizing a with
  | nil => exact nofun
  | cons x xs ih =>
    have hx := h x List.mem_cons_self
    have hxs : ∀ y ∈ xs, 0 ≤ y := fun y hy => h y (List.mem_cons_of_mem x hy)
    have hpos : 0 ≤ xs.sum := List.sum_nonneg hxs
    intro y hy
    rw [sums, List.mem_cons] at hy
    rw [List.sum_cons]
    rcases hy with rfl | hy
    · omega
    · have hb := ih hxs y hy
      omega

/- The length of the code of 0. -/
def least (f : Huff) : Nat := if f.c = 0 then f.w else f.w - 1

theorem code_zero (hf : Good f) : Code f 0 (least f) 0 ∧ 0 < least f := by
  have hpos := hf.pos
  have hlt := hf.lt
  rw [least]
  by_cases hc : f.c = 0
  · rw [if_pos hc]
    have h := @Code.long f 0 0 hf.one (by omega)
    simp only [hf.cq, hc, Nat.zero_mul, Nat.mul_zero, pow_zero, Nat.sub_self, Nat.add_zero] at h
    exact ⟨h, hpos⟩
  · rw [if_neg hc]
    refine ⟨@Code.short f 0 (Nat.pos_of_ne_zero hc), ?_⟩
    have hs := hf.sum
    have hone := hf.one
    by_contra hw
    rw [show f.w - 1 = 0 by omega, pow_zero] at hs
    omega

theorem code_one (hf : Good f) : ∃ i Y, Code f 1 i Y ∧ 0 < i := by
  have hpos := hf.pos
  have hlt := hf.lt
  have hs := hf.sum
  have hone := hf.one
  by_cases h₁ : 1 < f.c
  · refine ⟨_, _, @Code.short f 1 h₁, ?_⟩
    by_contra hw
    rw [show f.w - 1 = 0 by omega, pow_zero] at hs
    omega
  · by_cases h₂ : f.c = 1
    · have h := @Code.long f 0 0 hone (by omega)
      rw [h₂] at h
      exact ⟨_, _, by simpa using h, by omega⟩
    · have hc : f.c = 0 := by omega
      by_cases hn : 1 < f.n
      · have h := @Code.long f 0 1 hn (by omega)
        rw [hc] at h
        exact ⟨_, _, by simpa using h, by omega⟩
      · have hn' : f.n = 1 := by omega
        have h := @Code.long f 1 0 hone (by omega)
        rw [hc, hn'] at h
        exact ⟨_, _, by simpa using h, by omega⟩

/-- The halves of a difference come to one that has a code. -/
theorem halve_spec (hf : Good f) (h0 : 0 ≤ d) (hd : d < 2 ^ fuel) :
    ∃ x i, ∃ Y : Nat, halve f (fuel + 1) d = some (x, i, (Y : Int)) ∧ Code f x i Y ∧ 0 < i ∧ 0 ≤ x ∧ x ≤ d ∧
      (0 < d → 0 < x) := by
  induction fuel generalizing d with
  | zero =>
    have hz : d = 0 := by omega
    subst hz
    obtain ⟨hc, hi⟩ := code_zero hf
    refine ⟨0, _, _, ?_, hc, hi, le_rfl, le_rfl, id⟩
    rw [halve, hc.encode hf]
    exact if_pos hi
  | succ fuel ih =>
    by_cases hi : (encode f d).1 > 0
    · obtain ⟨Y, hY, hc⟩ := encode_code hf h0 (rfl : encode f d = ((encode f d).1, (encode f d).2)) hi
      refine ⟨d, _, Y, ?_, hc, hi, h0, le_rfl, id⟩
      rw [halve, ← hY]
      exact if_pos hi
    · have htwo : 2 ≤ d := by
        by_contra hlt
        have hcase : d = 0 ∨ d = 1 := by omega
        rcases hcase with rfl | rfl
        · obtain ⟨hc, hpos⟩ := code_zero hf
          rw [hc.encode hf] at hi
          exact hi hpos
        · obtain ⟨i, Y, hc, hpos⟩ := code_one hf
          rw [hc.encode hf] at hi
          exact hi hpos
      have hdiv : d.tdiv 2 = d / 2 := Int.tdiv_eq_ediv_of_nonneg h0
      rw [pow_succ] at hd
      obtain ⟨x, i, Y, hx, hc, hpos, h₁, h₂, h₃⟩ := @ih (d / 2) (by omega) (by omega)
      refine ⟨x, i, Y, ?_, hc, hpos, h₁, by omega, fun _ => h₃ (by omega)⟩
      rw [halve, ← hx, ← hdiv]
      exact if_neg hi

/- Enough pieces for a difference, each with a code. -/
structure Splits (f : Huff) (d : Int) (xs : List Int) : Prop where
  ne : xs ≠ []
  sum : xs.sum = d
  nonneg : ∀ x ∈ xs, 0 ≤ x

theorem pieces_spec (hf : Good f) (h0 : 0 ≤ d) (hd : d < 2 ^ 31) (hfuel : d < fuel) :
    Splits f d (pieces f fuel d) := by
  induction fuel generalizing d with
  | zero => omega
  | succ fuel ih =>
    obtain ⟨x, i, Y, hx, -, -, h₁, h₂, h₃⟩ := halve_spec hf h0 hd
    rw [pieces, hx]
    simp only
    by_cases hrest : d - x > 0
    · rw [if_pos hrest]
      have h := @ih (d - x) (by omega) (by omega) (by omega)
      refine ⟨List.cons_ne_nil _ _, ?_, fun y hy => ?_⟩
      · rw [List.sum_cons, h.sum]
        omega
      · rcases List.mem_cons.mp hy with rfl | hy
        · exact h₁
        · exact h.nonneg y hy
    · rw [if_neg hrest]
      refine ⟨List.cons_ne_nil _ _, ?_, fun y hy => ?_⟩
      · rw [List.sum_singleton]
        omega
      · rw [List.mem_singleton.mp hy]
        exact h₁

theorem putLoop_some (hf : Good f) (h0 : 0 ≤ d) (hd : d < 2 ^ 31) (hfuel : d < fuel) :
    ∃ s', putLoop f nd fuel d s = some s' ∧ s.ignore ≤ s'.ignore ∧ s.Aside s' := by
  induction fuel generalizing d s with
  | zero => omega
  | succ fuel ih =>
    obtain ⟨x, i, Y, hx, -, -, h₁, h₂, h₃⟩ := halve_spec hf h0 hd
    obtain ⟨hle, haside⟩ := putCode_aside nd i Y s
    simp only [putLoop, hx, Option.bind_eq_bind, Option.bind_some]
    by_cases hrest : d - x > 0
    · rw [if_pos hrest]
      obtain ⟨s', hs', hle', h'⟩ := @ih { putCode nd i Y s with
        extra := (putCode nd i Y s).extra + 1 } (d - x) (by omega) (by omega) (by omega)
      exact ⟨s', hs', hle.trans hle', haside.trans ⟨h'.index, h'.u, h'.k⟩⟩
    · rw [if_neg hrest]
      exact ⟨_, rfl, hle, haside⟩

theorem Code.le (hf : Good f) {Y : Nat} (h : Code f x i Y) : i ≤ 31 := by
  have hlt := hf.lt
  cases h with
  | short => omega
  | long _ hm => exact hm

/-- The pieces of a difference go to the end of the table. -/
theorem putLoop_spec (hf : Good f) (hs : s.Clear) (h0 : 0 ≤ d) (hd : d < 2 ^ 31) (hfuel : d < fuel)
    (h : putLoop f nd fuel d s = some s') (hig : s'.ignore = s.ignore) :
    s'.Clear ∧ Reads f s'.table s.pos (pieces f fuel d) s'.pos ∧
      ∀ j < s.pos, bitAt s'.table j = bitAt s.table j := by
  induction fuel generalizing d s with
  | zero => omega
  | succ fuel ih =>
    obtain ⟨x, i, Y, hx, hc, hi, h₁, h₂, h₃⟩ := halve_spec hf h0 hd
    have hle := (putCode_aside nd i Y s).1
    have hput := @putCode_spec f nd i s hf x Y hs hc (hc.le hf)
    simp only [putLoop, hx, Option.bind_eq_bind, Option.bind_some] at h
    rw [pieces, hx]
    generalize putCode nd i Y s = s₁ at *
    by_cases hrest : d - x > 0
    · rw [if_pos hrest] at h
      obtain ⟨s₂, hs₂, hle₂, -⟩ := @putLoop_some f nd fuel { s₁ with extra := s₁.extra + 1 } (d - x)
        hf (by omega) (by omega) (by omega)
      rw [h] at hs₂
      cases hs₂
      have hle₂ : s₁.ignore ≤ s'.ignore := hle₂
      obtain ⟨h₄, h₅, h₆, h₇⟩ := hput (by omega)
      obtain ⟨h₈, h₉, h₁₀⟩ := @ih { s₁ with extra := s₁.extra + 1 } (d - x)
        ⟨h₄.pos, h₄.le, h₄.zero⟩ (by omega) (by omega) (by omega) h (by
          show s'.ignore = s₁.ignore
          omega)
      have hpos : Spellin.pos { s₁ with extra := s₁.extra + 1 } = s.pos + i := h₅
      rw [hpos] at h₉ h₁₀
      refine ⟨h₈, ?_, fun j hj => (h₁₀ j (by omega)).trans (h₇ j hj)⟩
      simp only [if_pos hrest]
      exact .cons hc hi (h₆.congr fun j _ hj => h₁₀ j hj) h₉
    · rw [if_neg hrest] at h
      cases h
      obtain ⟨h₄, h₅, h₆, h₇⟩ := hput hig
      simp only [if_neg hrest]
      refine ⟨h₄, .cons hc hi h₆ ?_, h₇⟩
      rw [h₅]
      exact .nil

end Svr32.Spell
