import Mathlib.Tactic.Ring
import Mathlib.Tactic.Linarith
import Mathlib.Algebra.Order.Ring.Int

/-! The code of cmd/spell/huff.c: short differences in few bits, all others after a row of ones. -/
namespace Svr32.Spell

/- struct huff, which goes before the index and the table. -/
structure Huff where
  n : Nat
  w : Nat
  c : Nat
  cq : Nat
  cs : Nat
  qcs : Nat
  v0 : Int
deriving DecidableEq, Repr

/- for(w=QW,j=1; j<d; w+=QW,j*=q) -/
def widthLoop (d : Nat) : Nat → Nat → Nat → Nat × Nat
  | 0, w, j => (w, j)
  | fuel + 1, w, j => if j < d then widthLoop d fuel (w + 1) (j * 2) else (w, j)

/-- huff, from the number `d` that qlog finds: QW is 1, so q is 2, and L is 31. -/
def huff (d : Nat) : Huff :=
  let (w, j) := widthLoop d d 1 1
  let c := j - d
  let cq := c * 2
  { n := d, w := w, c := c, cq := cq, cs := cq <<< (31 - w)
    qcs := ((1 <<< w) + cq) <<< (31 - 1 - w), v0 := c - cq }

/- for(k-=c,y=1,l=w; k>=n; k-=n,y<<=QW), and what comes after it. -/
def encodeLoop (f : Huff) : Nat → Int → Int → Nat → Nat × Int
  | 0, _, _, _ => (0, 0)
  | fuel + 1, k, y, l =>
    if k ≥ f.n then
      if l + 1 > 31 then (0, 0) else encodeLoop f fuel (k - f.n) (y * 2) (l + 1)
    else (l, (y - 1) * 2 ^ f.w + f.cq + k)

/-- encode: the length of the code of `k`, 0 when it is too long, and the code. -/
def encode (f : Huff) (k : Int) : Nat × Int :=
  if k < f.c then (f.w - 1, k) else encodeLoop f 32 (k - f.c) 1 f.w

def mask : Nat := 2 ^ 31 - 1

/- for(l=w,v=v0; y>=qcs; y=(y<<QW)&MASK,v+=n), and what comes after it. -/
def decodeLoop (f : Huff) : Nat → Nat → Int → Nat → Nat × Int
  | 0, _, _, _ => (0, 0)
  | fuel + 1, y, v, l =>
    if y ≥ f.qcs then
      if l + 1 > 31 then (0, 0) else decodeLoop f fuel (y <<< 1 &&& mask) (v + f.n) (l + 1)
    else (l, v + (y >>> (31 - f.w) : Nat))

/-- decode: the length of the code that `y` begins with, 0 when it is out of range, and what it is
the code of. -/
def decode (f : Huff) (y : Nat) : Nat × Int :=
  if y < f.cs then (f.w - 1, (y >>> (31 + 1 - f.w) : Nat)) else decodeLoop f 32 y f.v0 f.w

/- What huff sees to. -/
structure Good (f : Huff) : Prop where
  pos : 1 ≤ f.w
  lt : f.w < 31
  one : 1 ≤ f.n
  sum : f.c + f.n = 2 ^ (f.w - 1)
  cq : f.cq = 2 * f.c
  cs : f.cs = f.c * 2 ^ (32 - f.w)
  qcs : f.qcs = (2 ^ (f.w - 1) + f.c) * 2 ^ (31 - f.w)
  v0 : f.v0 = -(f.c : Int)

theorem widthLoop_spec {d fuel w j : Nat} (hw : 1 ≤ w) (hj : j = 2 ^ (w - 1)) (hf : d ≤ j + fuel) :
    1 ≤ (widthLoop d fuel w j).1 ∧ (widthLoop d fuel w j).2 = 2 ^ ((widthLoop d fuel w j).1 - 1) ∧
      d ≤ (widthLoop d fuel w j).2 := by
  induction fuel generalizing w j with
  | zero => exact ⟨hw, hj, hf⟩
  | succ fuel ih =>
    rw [widthLoop]
    split
    · have hpos : 1 ≤ j := by
        rw [hj]
        exact Nat.one_le_two_pow
      refine ih (by omega) ?_ (by omega)
      rw [hj, ← Nat.pow_succ]
      congr 1
      omega
    · exact ⟨hw, hj, by omega⟩

theorem huff_good {d : Nat} (hd : 1 ≤ d) (hw : (huff d).w < 31) : Good (huff d) := by
  obtain ⟨h₁, h₂, h₃⟩ := @widthLoop_spec d d 1 1 le_rfl rfl (by omega)
  generalize hl : widthLoop d d 1 1 = r at h₁ h₂ h₃
  obtain ⟨w, j⟩ := r
  simp only [huff, hl] at hw ⊢
  simp only at h₁ h₂ h₃
  refine ⟨h₁, hw, hd, ?_, Nat.mul_comm _ _, ?_, ?_, ?_⟩
  · simp only
    omega
  · simp only
    rw [Nat.shiftLeft_eq, Nat.mul_assoc, ← Nat.pow_succ', show (31 - w).succ = 32 - w by omega]
  · simp only
    rw [Nat.shiftLeft_eq, Nat.one_shiftLeft, show 31 - w = 31 - 1 - w + 1 by omega, Nat.pow_succ',
      show 2 ^ w = 2 * 2 ^ (w - 1) by rw [← Nat.pow_succ']; congr 1; omega]
    ring
  · simp only
    push_cast
    ring

/- The code of a difference: its length, and what is in these bits. -/
inductive Code (f : Huff) : Int → Nat → Nat → Prop
  | short {k : Nat} (hk : k < f.c) : Code f k (f.w - 1) k
  | long {m r : Nat} (hr : r < f.n) (hm : f.w + m ≤ 31) :
      Code f (f.c + m * f.n + r : Nat) (f.w + m) ((2 ^ m - 1) * 2 ^ f.w + f.cq + r)

variable {f : Huff} {k : Int} {i : Nat}

theorem encodeLoop_eq {fuel l m r j : Nat} (hr : r < f.n) (hl : l ≤ 31) (hf : 31 < fuel + l) :
    encodeLoop f fuel (m * f.n + r : Nat) (2 ^ j) l =
      if l + m ≤ 31 then (l + m, ((2 ^ (j + m) - 1) * 2 ^ f.w + f.cq + r : Int)) else (0, 0) := by
  induction m generalizing fuel l j with
  | zero =>
    obtain ⟨fuel, rfl⟩ := Nat.exists_eq_succ_of_ne_zero (show fuel ≠ 0 by omega)
    have hk : ¬ ((0 * f.n + r : Nat) : Int) ≥ f.n := by omega
    rw [encodeLoop, if_neg hk, if_pos (by omega), Nat.zero_mul, Nat.zero_add]
    rfl
  | succ m ih =>
    obtain ⟨fuel, rfl⟩ := Nat.exists_eq_succ_of_ne_zero (show fuel ≠ 0 by omega)
    have hmul : (m + 1) * f.n = m * f.n + f.n := Nat.succ_mul m f.n
    have hk : (((m + 1) * f.n + r : Nat) : Int) ≥ f.n := by omega
    have hnext : (((m + 1) * f.n + r : Nat) : Int) - f.n = (m * f.n + r : Nat) := by omega
    rw [encodeLoop, if_pos hk, hnext, ← pow_succ]
    by_cases hlast : l + 1 > 31
    · have hlong : ¬ l + (m + 1) ≤ 31 := by omega
      rw [if_pos hlast, if_neg hlong]
    · rw [if_neg hlast, ih (by omega) (by omega), Nat.add_right_comm j 1 m, ← Nat.add_assoc j,
        Nat.add_assoc l 1 m, Nat.add_comm 1 m]

theorem encode_short {k : Nat} (hk : k < f.c) : encode f k = (f.w - 1, (k : Int)) :=
  if_pos (Int.ofNat_lt.mpr hk)

theorem encode_long (hf : Good f) {m r : Nat} (hr : r < f.n) :
    encode f (f.c + m * f.n + r : Nat) = if f.w + m ≤ 31 then
      (f.w + m, (((2 ^ m - 1) * 2 ^ f.w + f.cq + r : Nat) : Int)) else (0, 0) := by
  have hlt := hf.lt
  have hk : ¬ ((f.c + m * f.n + r : Nat) : Int) < f.c := by omega
  have hsub : ((f.c + m * f.n + r : Nat) : Int) - f.c = (m * f.n + r : Nat) := by
    push_cast
    ring
  rw [encode, if_neg hk, hsub]
  have h := @encodeLoop_eq f 32 f.w m r 0 hr (by omega) (by omega)
  rw [pow_zero, Nat.zero_add] at h
  rw [h]
  have hpos : 1 ≤ 2 ^ m := Nat.one_le_two_pow
  push_cast [hpos]
  rfl

/-- encode makes codes. -/
theorem encode_code (hf : Good f) (hk : 0 ≤ k) {y : Int} (h : encode f k = (i, y)) (hi : 0 < i) :
    ∃ Y : Nat, y = Y ∧ Code f k i Y := by
  obtain ⟨k, rfl⟩ := Int.eq_ofNat_of_zero_le hk
  by_cases hc : k < f.c
  · rw [encode_short hc] at h
    cases h
    exact ⟨k, rfl, .short hc⟩
  · have hr := Nat.mod_lt (k - f.c) hf.one
    have hk' : k = f.c + (k - f.c) / f.n * f.n + (k - f.c) % f.n := by
      have hd := Nat.div_add_mod (k - f.c) f.n
      rw [Nat.mul_comm] at hd
      omega
    rw [hk'] at h ⊢
    rw [encode_long hf hr] at h
    split at h
    · next hm =>
      cases h
      exact ⟨_, rfl, .long hr hm⟩
    · cases h
      exact absurd hi (lt_irrefl 0)

theorem Code.encode (hf : Good f) {Y : Nat} (h : Code f k i Y) : encode f k = (i, (Y : Int)) := by
  cases h with
  | short hk => exact encode_short hk
  | long hr hm => rw [encode_long hf hr, if_pos hm]

theorem Good.width (hf : Good f) : 2 ^ f.w = 2 * (f.c + f.n) := by
  have hpos := hf.pos
  rw [hf.sum, ← Nat.pow_succ']
  congr 1
  omega

theorem and_mask (y : Nat) : y &&& mask = y % 2 ^ 31 := Nat.and_two_pow_sub_one_eq_mod y 31

/-- A code that begins with a one: without this bit it is the code of a difference less by `n`. -/
theorem strip_one (hf : Good f) {m r e y : Nat} (he : e + f.w + (m + 1) = 31) (hr : r < f.n)
    (hy : y < 2 ^ 31) (h : y / 2 ^ e = (2 ^ (m + 1) - 1) * 2 ^ f.w + f.cq + r) :
    f.qcs ≤ y ∧ (y <<< 1 &&& mask) < 2 ^ 31 ∧
      (y <<< 1 &&& mask) / 2 ^ (e + 1) = (2 ^ m - 1) * 2 ^ f.w + f.cq + r := by
  have hE : 0 < 2 ^ e := Nat.two_pow_pos e
  obtain ⟨M, hM⟩ := Nat.exists_eq_succ_of_ne_zero (Nat.two_pow_pos m).ne'
  have hall : 2 ^ 31 = 2 ^ e * 2 ^ f.w * (2 * (M + 1)) := by
    rw [← he, Nat.pow_add, Nat.pow_add, Nat.pow_succ' (n := m), hM]
  have hrow : 2 ^ (31 - f.w) = 2 ^ e * (2 * (M + 1)) := by
    rw [show 31 - f.w = e + (m + 1) by omega, Nat.pow_add, Nat.pow_succ' (n := m), hM]
  have hp : 2 ^ (m + 1) - 1 = 2 * M + 1 := by
    rw [Nat.pow_succ', hM]
    omega
  have hp' : 2 ^ m - 1 = M := by
    rw [hM]
    rfl
  have hqcs : f.qcs = (2 * f.c + f.n) * (2 ^ e * (2 * (M + 1))) := by
    rw [hf.qcs, hrow, ← hf.sum]
    ring
  rw [hp, hf.width, hf.cq] at h
  rw [hp', hf.width, hf.cq]
  rw [hf.width] at hall
  have hle : ((2 * M + 1) * (2 * (f.c + f.n)) + 2 * f.c + r) * 2 ^ e ≤ y := by
    rw [← h]
    exact Nat.div_mul_le_self y _
  have hsucc : 2 ^ (e + 1) = 2 * 2 ^ e := Nat.pow_succ'
  generalize 2 ^ e = E at *
  have hq : f.qcs ≤ y := by
    have hA : (2 * f.c + f.n) * (2 * (M + 1)) ≤ (2 * M + 1) * (2 * (f.c + f.n)) + 2 * f.c + r := by
      nlinarith [Nat.zero_le (M * f.n)]
    calc f.qcs = (2 * f.c + f.n) * (2 * (M + 1)) * E := by rw [hqcs]; ring
      _ ≤ _ := Nat.mul_le_mul_right E hA
      _ ≤ y := hle
  have hhalf : 2 ^ 30 ≤ y := by
    refine le_trans ?_ hq
    rw [hqcs]
    nlinarith
  have hmask : (y <<< 1 &&& mask) = 2 * y - 2 ^ 31 := by
    rw [and_mask, Nat.shiftLeft_eq]
    omega
  refine ⟨hq, ?_, ?_⟩
  · rw [hmask]
    omega
  · have hcut : 2 * y - 2 ^ 31 = 2 * (y - E * ((f.c + f.n) * (2 * (M + 1)))) := by
      rw [hall, Nat.mul_sub]
      congr 1
      ring
    have hrest : (2 * M + 1) * (2 * (f.c + f.n)) + 2 * f.c + r =
        (f.c + f.n) * (2 * (M + 1)) + (M * (2 * (f.c + f.n)) + 2 * f.c + r) := by ring
    rw [hmask, hcut, hsucc, Nat.mul_div_mul_left _ _ (by decide), Nat.sub_mul_div, h, hrest,
      Nat.add_sub_cancel_left]

theorem last_code (hf : Good f) {r e y : Nat} (he : e + f.w = 31) (hr : r < f.n)
    (h : y / 2 ^ e = f.cq + r) : f.cs ≤ y ∧ y < f.qcs ∧ y >>> (31 - f.w) = f.cq + r := by
  have hE : 0 < 2 ^ e := Nat.two_pow_pos e
  have h₁ : 31 - f.w = e := by omega
  have h₂ : 32 - f.w = e + 1 := by omega
  have hqcs : f.qcs = (f.cq + f.n) * 2 ^ e := by
    rw [hf.qcs, ← hf.sum, h₁, hf.cq]
    ring
  have hcs : f.cs = f.cq * 2 ^ e := by
    rw [hf.cs, h₂, Nat.pow_succ', hf.cq]
    ring
  refine ⟨?_, ?_, by rw [h₁, Nat.shiftRight_eq_div_pow, h]⟩
  · rw [hcs]
    exact (Nat.le_div_iff_mul_le hE).mp (by omega)
  · rw [hqcs]
    exact (Nat.div_lt_iff_lt_mul hE).mp (by omega)

theorem Good.cs_le (hf : Good f) : f.cs ≤ f.qcs := by
  have hlt := hf.lt
  rw [hf.cs, hf.qcs, ← hf.sum, show 32 - f.w = 31 - f.w + 1 by omega, Nat.pow_succ']
  nlinarith [Nat.zero_le (f.n * 2 ^ (31 - f.w))]

/-- A code with `w` bits or more behind `m` ones is not below cs. -/
theorem cs_le_code (hf : Good f) {m r e y : Nat} (he : e + f.w + m = 31) (hr : r < f.n)
    (hy : y < 2 ^ 31) (h : y / 2 ^ e = (2 ^ m - 1) * 2 ^ f.w + f.cq + r) : f.cs ≤ y := by
  cases m with
  | zero =>
    rw [pow_zero, Nat.sub_self, Nat.zero_mul, Nat.zero_add] at h
    exact (last_code hf he hr h).1
  | succ m => exact hf.cs_le.trans (strip_one hf he hr hy h).1

theorem decodeLoop_code (hf : Good f) {fuel m r e y l : Nat} {v : Int} (he : e + f.w + m = 31)
    (hr : r < f.n) (hy : y < 2 ^ 31) (h : y / 2 ^ e = (2 ^ m - 1) * 2 ^ f.w + f.cq + r)
    (hl : l + m ≤ 31) (hfuel : m < fuel) :
    decodeLoop f fuel y v l = (l + m, v + (m * f.n + f.cq + r : Nat)) := by
  induction m generalizing fuel e y l v with
  | zero =>
    obtain ⟨fuel, rfl⟩ := Nat.exists_eq_succ_of_ne_zero (Nat.ne_zero_of_lt hfuel)
    rw [pow_zero, Nat.sub_self, Nat.zero_mul, Nat.zero_add] at h
    obtain ⟨-, hlt, hval⟩ := last_code hf he hr h
    rw [decodeLoop, if_neg (Nat.not_le.mpr hlt), hval, Nat.zero_mul, Nat.zero_add]
    rfl
  | succ m ih =>
    obtain ⟨fuel, rfl⟩ := Nat.exists_eq_succ_of_ne_zero (Nat.ne_zero_of_lt hfuel)
    obtain ⟨hge, hy', h'⟩ := strip_one hf he hr hy h
    have hshort : ¬ l + 1 > 31 := by omega
    rw [decodeLoop, if_pos hge, if_neg hshort,
      ih (by omega) hy' h' (by omega) (Nat.lt_of_succ_lt_succ hfuel), Nat.add_assoc l,
      Nat.add_comm 1 m, Int.add_assoc]
    congr 2
    push_cast
    ring

/-- decode finds the code that a word begins with. -/
theorem decode_code (hf : Good f) {Y y : Nat} (h : Code f k i Y) (hy : y < 2 ^ 31)
    (hpre : y / 2 ^ (31 - i) = Y) : decode f y = (i, k) := by
  have hpos := hf.pos
  have hlt := hf.lt
  cases h with
  | @short k hk =>
    have he : 31 - (f.w - 1) = 32 - f.w := by omega
    rw [he] at hpre
    have hcs : y < f.cs := by
      rw [hf.cs]
      exact (Nat.div_lt_iff_lt_mul (Nat.two_pow_pos _)).mp (hpre ▸ hk)
    rw [decode, if_pos hcs, Nat.shiftRight_eq_div_pow, hpre]
  | @long m r hr hm =>
    have he : 31 - (f.w + m) + f.w + m = 31 := by omega
    rw [decode, if_neg (Nat.not_lt.mpr (cs_le_code hf he hr hy hpre)),
      decodeLoop_code hf he hr hy hpre hm (by omega), hf.v0, hf.cq]
    congr 1
    push_cast
    ring

end Svr32.Spell
