import Mathlib.Data.Nat.ModEq
import Mathlib.Tactic.Ring

/-! libc/port/gen/drand48.c: the step of the generator on 48-bit values kept in limbs of 16
bits, with unsigned and long of 32 bits. -/
namespace Svr32.Libc

def mask : BitVec 32 := (1 <<< 15) + (1 <<< 15) - 1

def low (x : BitVec 32) : BitVec 32 := x &&& mask

/- The shift of a long carries its sign. -/
def high (x : BitVec 32) : BitVec 32 := low (x.sshiftRight 16)

/- MUL(x, y, z): z[0] and z[1] -/
def mul (x y : BitVec 32) : BitVec 32 × BitVec 32 := (low (x * y), high (x * y))

def carry (x y : BitVec 32) : BitVec 32 := if x + y > mask then 1 else 0

/- ADDEQU(x, y, z): the new x, and z -/
def addequ (x y : BitVec 32) : BitVec 32 × BitVec 32 := (low (x + y), carry x y)

structure Limbs where
  x0 : BitVec 32
  x1 : BitVec 32
  x2 : BitVec 32
deriving DecidableEq

def next (a : Limbs) (c : BitVec 32) (x : Limbs) : Limbs :=
  let p := mul a.x0 x.x0
  let (p0, carry0) := addequ p.1 c
  let (p1, carry1) := addequ p.2 carry0
  let q := mul a.x0 x.x1
  let (p1, carry0) := addequ p1 q.1
  let r := mul a.x1 x.x0
  { x2 := low (carry0 + carry1 + carry p1 r.1 + q.2 + r.2 +
      a.x0 * x.x2 + a.x1 * x.x1 + a.x2 * x.x0)
    x1 := low (p1 + r.1)
    x0 := low p0 }

/- Every limb is below 2^16. -/
def Limbs.Small (x : Limbs) : Prop :=
  x.x0.toNat < 65536 ∧ x.x1.toNat < 65536 ∧ x.x2.toNat < 65536

/- The number of 48 bits that three limbs are. -/
def Limbs.value (x : Limbs) : Nat := x.x0.toNat + 65536 * x.x1.toNat + 65536 ^ 2 * x.x2.toNat

theorem low_toNat (x : BitVec 32) : (low x).toNat = x.toNat % 65536 := by
  have h : mask.toNat = 2 ^ 16 - 1 := rfl
  rw [low, BitVec.toNat_and, h, Nat.and_two_pow_sub_one_eq_mod]

theorem low_lt (x : BitVec 32) : (low x).toNat < 65536 := by
  rw [low_toNat]
  exact Nat.mod_lt _ (by decide)

theorem mask_bit : ∀ i : Fin 32, mask[i.val] = decide (i.val < 16) := by decide

theorem high_eq (x : BitVec 32) : high x = x >>> 16 := by
  ext i hi
  have hm := mask_bit ⟨i, hi⟩
  by_cases h : i < 16
  · simp [high, low, hm, h, BitVec.getElem_sshiftRight, show 16 + i < 32 by omega]
  · have hx : 32 ≤ 16 + i := by omega
    simp [high, low, hm, h, BitVec.getLsbD_of_ge x _ hx]

theorem high_toNat (x : BitVec 32) : (high x).toNat = x.toNat / 65536 := by
  rw [high_eq, BitVec.toNat_ushiftRight, Nat.shiftRight_eq_div_pow]

theorem carry_toNat {x y : BitVec 32} (hx : x.toNat < 65536) (hy : y.toNat < 65536) :
    (carry x y).toNat = (x.toNat + y.toNat) / 65536 := by
  have hm : mask.toNat = 65535 := rfl
  have hs : (x + y).toNat = x.toNat + y.toNat := by
    rw [BitVec.toNat_add]
    omega
  have hd : mask < x + y ↔ 65535 < x.toNat + y.toNat := by rw [BitVec.lt_def, hs, hm]
  by_cases h : 65535 < x.toNat + y.toNat
  · rw [carry, if_pos (hd.mpr h)]
    show 1 = _
    omega
  · rw [carry, if_neg fun hc => h (hd.mp hc)]
    show 0 = _
    omega

/-- Two words are the limbs of a number. -/
structure Splits (z : BitVec 32 × BitVec 32) (n : Nat) : Prop where
  sum : z.1.toNat + 65536 * z.2.toNat = n
  fst_lt : z.1.toNat < 65536
  snd_lt : z.2.toNat < 65536

theorem addequ_splits {x y : BitVec 32} (hx : x.toNat < 65536) (hy : y.toNat < 65536) :
    Splits (addequ x y) (x.toNat + y.toNat) := by
  have h₁ : (addequ x y).1.toNat = (x.toNat + y.toNat) % 65536 := by
    rw [addequ, low_toNat, BitVec.toNat_add]
    omega
  have h₂ : (addequ x y).2.toNat = (x.toNat + y.toNat) / 65536 := carry_toNat hx hy
  constructor <;> omega

theorem mul_splits {x y : BitVec 32} (hx : x.toNat < 65536) (hy : y.toNat < 65536) :
    Splits (mul x y) (x.toNat * y.toNat) := by
  have hp : x.toNat * y.toNat ≤ 65535 * 65535 := Nat.mul_le_mul (by omega) (by omega)
  have h₁ : (mul x y).1.toNat = x.toNat * y.toNat % 65536 := by
    rw [mul, low_toNat, BitVec.toNat_mul]
    omega
  have h₂ : (mul x y).2.toNat = x.toNat * y.toNat / 65536 := by
    rw [mul, high_toNat, BitVec.toNat_mul]
    omega
  constructor <;> omega

/-- A word that has wrapped ends in the same 16 bits. -/
theorem wrap_add {x y : Nat} (z : Nat) (h : x % 65536 = y % 65536) :
    (x + z) % 2 ^ 32 % 65536 = (y + z) % 65536 := by omega

theorem wrap_add_wrap {x y : Nat} (z : Nat) (h : x % 65536 = y % 65536) :
    (x + z % 2 ^ 32) % 2 ^ 32 % 65536 = (y + z) % 65536 := by omega

/-- The third limb: a sum of eight unsigned words that may all wrap. -/
theorem sum_toNat (s t u v w : BitVec 32) (i j k l m n : BitVec 32) :
    (low (s + t + u + v + w + i * j + k * l + m * n)).toNat =
      (s.toNat + t.toNat + u.toNat + v.toNat + w.toNat + i.toNat * j.toNat +
        k.toNat * l.toNat + m.toNat * n.toNat) % 65536 := by
  rw [low_toNat]
  simp only [BitVec.toNat_add, BitVec.toNat_mul]
  exact wrap_add_wrap _ (wrap_add_wrap _ (wrap_add_wrap _
    (wrap_add _ (wrap_add _ (wrap_add _ (wrap_add _ rfl))))))

theorem next_small (a x : Limbs) (c : BitVec 32) : (next a c x).Small :=
  ⟨low_lt _, low_lt _, low_lt _⟩

/-- One step takes the 48-bit value x to a * x + c modulo 2^48. -/
theorem next_mod (a x : Limbs) (c : BitVec 32) (ha : a.Small) (hx : x.Small)
    (hc : c.toNat < 65536) :
    (next a c x).value = (a.value * x.value + c.toNat) % 2 ^ 48 := by
  obtain ⟨ha0, ha1, ha2⟩ := ha
  obtain ⟨hx0, hx1, hx2⟩ := hx
  let p := mul a.x0 x.x0
  let q := mul a.x0 x.x1
  let r := mul a.x1 x.x0
  let s := addequ p.1 c
  let t := addequ p.2 s.2
  let u := addequ t.1 q.1
  let v := addequ u.1 r.1
  have hp : Splits p (a.x0.toNat * x.x0.toNat) := mul_splits ha0 hx0
  have hq : Splits q (a.x0.toNat * x.x1.toNat) := mul_splits ha0 hx1
  have hr : Splits r (a.x1.toNat * x.x0.toNat) := mul_splits ha1 hx0
  -- the carries into the second limb, and out of it
  have hs : Splits s (p.1.toNat + c.toNat) := addequ_splits hp.fst_lt hc
  have ht : Splits t (p.2.toNat + s.2.toNat) := addequ_splits hp.snd_lt hs.snd_lt
  have hu : Splits u (t.1.toNat + q.1.toNat) := addequ_splits ht.fst_lt hq.fst_lt
  have hv : Splits v (u.1.toNat + r.1.toNat) := addequ_splits hu.fst_lt hr.fst_lt
  have e₀ : (next a c x).x0.toNat = s.1.toNat := by
    show (low s.1).toNat = s.1.toNat
    rw [low_toNat, Nat.mod_eq_of_lt hs.fst_lt]
  have e₁ : (next a c x).x1.toNat = v.1.toNat := rfl
  have e₂ : (next a c x).x2.toNat = (u.2.toNat + t.2.toNat + v.2.toNat + q.2.toNat + r.2.toNat +
      a.x0.toNat * x.x2.toNat + a.x1.toNat * x.x1.toNat + a.x2.toNat * x.x0.toNat) % 65536 :=
    sum_toNat u.2 t.2 v.2 q.2 r.2 a.x0 x.x2 a.x1 x.x1 a.x2 x.x0
  have hm : a.value * x.value = a.x0.toNat * x.x0.toNat +
      65536 * (a.x0.toNat * x.x1.toNat + a.x1.toNat * x.x0.toNat) +
      65536 ^ 2 * (a.x0.toNat * x.x2.toNat + a.x1.toNat * x.x1.toNat + a.x2.toNat * x.x0.toNat) +
      2 ^ 48 * (a.x1.toNat * x.x2.toNat + a.x2.toNat * x.x1.toNat +
        65536 * (a.x2.toNat * x.x2.toNat)) := by
    rw [Limbs.value, Limbs.value]
    ring
  rw [hm, Limbs.value, e₀, e₁, e₂]
  clear_value p q r s t u v
  have hlow : s.1.toNat + 65536 * (v.1.toNat + 65536 *
      (u.2.toNat + t.2.toNat + v.2.toNat + q.2.toNat + r.2.toNat)) = c.toNat +
        a.x0.toNat * x.x0.toNat + 65536 * (a.x0.toNat * x.x1.toNat + a.x1.toNat * x.x0.toNat) := by
    rw [← hp.sum, ← hq.sum, ← hr.sum]
    have := hs.sum
    have := ht.sum
    have := hu.sum
    have := hv.sum
    omega
  have := hs.fst_lt
  have := hv.fst_lt
  clear hp hq hr hs ht hu hv hm e₀ e₁ e₂
  omega

/-- Every step is exact, and leaves limbs of 16 bits. -/
theorem next_value (a x : Limbs) (c : BitVec 32) (ha : a.Small) (hx : x.Small)
    (hc : c.toNat < 65536) :
    (next a c x).value = (a.value * x.value + c.toNat) % 2 ^ 48 ∧ (next a c x).Small :=
  ⟨next_mod a x c ha hx hc, next_small a x c⟩

/- x and a as they are set at first, and c. -/
def X : Limbs := ⟨0x330E, 0xABCD, 0x1234⟩
def A : Limbs := ⟨0xE66D, 0xDEEC, 0x5⟩
def C : BitVec 32 := 0xB

theorem next_first :
    (next A C X).value = (A.value * X.value + C.toNat) % 2 ^ 48 ∧ (next A C X).Small :=
  next_value A X C (by simp [Limbs.Small, A]) (by simp [Limbs.Small, X]) (by simp [C])

/-- After any number of calls: the value of the linear congruential generator. -/
theorem next_run (a : Limbs) (c : BitVec 32) (ha : a.Small) (hc : c.toNat < 65536) (n : Nat)
    (x : Limbs) (hx : x.Small) :
    ((next a c)^[n] x).value = (fun v => (a.value * v + c.toNat) % 2 ^ 48)^[n] x.value ∧
    ((next a c)^[n] x).Small := by
  induction n generalizing x with
  | zero => exact ⟨rfl, hx⟩
  | succ n ih =>
    have hr := ih (next a c x) (next_small a x c)
    rw [Function.iterate_succ_apply, Function.iterate_succ_apply, ← next_mod a x c ha hx hc]
    exact hr

theorem next_run_twice : ((next A C)^[2] X).value =
      (fun v => (A.value * v + C.toNat) % 2 ^ 48)^[2] X.value ∧ ((next A C)^[2] X).Small :=
  next_run A C (by simp [Limbs.Small, A]) (by simp [C]) 2 X (by simp [Limbs.Small, X])

end Svr32.Libc
