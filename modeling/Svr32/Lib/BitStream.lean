import Mathlib.Data.Nat.Bitwise
import Mathlib.Logic.Function.Basic

/-! Numbers of any width in a table of words, each word read from its high end. -/
namespace Svr32.Lib
variable {W : Nat} {tab tab' : Nat → BitVec W} {p i y : Nat}

def bitAt (tab : Nat → BitVec W) (j : Nat) : Bool := (tab (j / W)).getMsbD (j % W)

/- The `W` bits from `p` on. -/
def window (tab : Nat → BitVec W) (p : Nat) : BitVec W :=
  tab (p / W) <<< (p % W) ||| tab (p / W + 1) >>> (W - p % W)

/- The `i` bits from `p` on are the number `y`. -/
structure Field (tab : Nat → BitVec W) (p i y : Nat) : Prop where
  lt : y < 2 ^ i
  bits : ∀ j < i, bitAt tab (p + j) = y.testBit (i - 1 - j)

theorem bitAt_word (tab : Nat → BitVec W) (n : Nat) {r : Nat} (hr : r < W) :
    bitAt tab (W * n + r) = (tab n).getMsbD r := by
  have hpos : 0 < W := Nat.zero_lt_of_lt hr
  rw [bitAt, Nat.mul_add_div hpos, Nat.div_eq_of_lt hr, Nat.mul_add_mod, Nat.mod_eq_of_lt hr,
    Nat.add_zero]

theorem window_getMsbD (hW : 0 < W) (tab : Nat → BitVec W) (p : Nat) {j : Nat} (hj : j < W) :
    (window tab p).getMsbD j = bitAt tab (p + j) := by
  have hp := Nat.div_add_mod p W
  have hr := Nat.mod_lt p hW
  rw [window, BitVec.getMsbD_or, BitVec.getMsbD_shiftLeft, BitVec.getMsbD_ushiftRight]
  by_cases hin : p % W + j < W
  · have he : p + j = W * (p / W) + (p % W + j) := by omega
    have hlt : j < W - p % W := by omega
    rw [he, bitAt_word tab _ hin, Nat.add_comm j]
    simp [hlt]
  · have he : p + j = W * (p / W + 1) + (j - (W - p % W)) := by
      rw [Nat.mul_add, Nat.mul_one]
      omega
    have hge : ¬ j < W - p % W := by omega
    rw [he, bitAt_word tab _ (by omega), BitVec.getMsbD_of_ge _ _ (by omega)]
    simp [hj, hge]

/-- A number is what is left of the window at its first bit when the other bits are cut off. -/
theorem Field.window (h : Field tab p i y) (hi : i ≤ W) (hW : 0 < W) :
    (window tab p).toNat / 2 ^ (W - i) = y := by
  refine Nat.eq_of_testBit_eq fun b => ?_
  rw [Nat.testBit_div_two_pow, BitVec.testBit_toNat, BitVec.getLsbD_eq_getMsbD]
  by_cases hb : b < i
  · have hin : b + (W - i) < W := by omega
    have hj : W - 1 - (b + (W - i)) = i - 1 - b := by omega
    have hbit := h.bits (i - 1 - b) (by omega)
    rw [decide_eq_true hin, Bool.true_and, hj, window_getMsbD hW tab p (by omega), hbit]
    congr 1
    omega
  · have hout : ¬ b + (W - i) < W := by omega
    rw [decide_eq_false hout, Bool.false_and]
    exact (Nat.testBit_lt_two_pow (Nat.lt_of_lt_of_le h.lt
      (Nat.pow_le_pow_right (by decide) (Nat.le_of_not_lt hb)))).symm

/-- A number depends on its own bits only. -/
theorem Field.congr (h : Field tab p i y) (hs : ∀ j, p ≤ j → j < p + i → bitAt tab' j = bitAt tab j) :
    Field tab' p i y :=
  ⟨h.lt, fun j hj => (hs (p + j) (by omega) (by omega)).trans (h.bits j hj)⟩

theorem Field.zero (h : ∀ j, p ≤ j → j < p + i → bitAt tab j = false) : Field tab p i 0 :=
  ⟨Nat.two_pow_pos i, fun j hj => by rw [h (p + j) (by omega) (by omega), Nat.zero_testBit]⟩

/-- The bits of a word are put into the table from bit `r` of word `n` on. -/
theorem bitAt_or (tab : Nat → BitVec W) (n : Nat) {r : Nat} (hr : r < W) (v : BitVec W) (j : Nat) :
    bitAt (Function.update tab n (tab n ||| v >>> r)) j =
      (bitAt tab j || (decide (W * n + r ≤ j ∧ j < W * (n + 1)) && v.getMsbD (j - (W * n + r)))) := by
  have hj := Nat.div_add_mod j W
  have hm := Nat.mod_lt j (Nat.zero_lt_of_lt hr)
  rw [bitAt]
  by_cases hn : j / W = n
  · subst hn
    rw [Function.update_self, BitVec.getMsbD_or, BitVec.getMsbD_ushiftRight, ← bitAt]
    have hlt : j < W * (j / W + 1) := by
      rw [Nat.mul_add, Nat.mul_one]
      omega
    have hd : j - (W * (j / W) + r) = j % W - r := by omega
    rw [hd]
    by_cases hin : W * (j / W) + r ≤ j
    · have hge : ¬ j % W < r := by omega
      simp [hm, hge, hin, hlt]
    · have hl : j % W < r := by omega
      simp [hl, hin]
  · rw [Function.update_of_ne hn]
    have hout : ¬ (W * n + r ≤ j ∧ j < W * (n + 1)) := by
      rintro ⟨h₁, h₂⟩
      apply hn
      exact Nat.div_eq_of_lt_le (by rw [Nat.mul_comm]; omega) (by rw [Nat.mul_comm]; exact h₂)
    rw [decide_eq_false hout, Bool.false_and, Bool.or_false, bitAt]

end Svr32.Lib
