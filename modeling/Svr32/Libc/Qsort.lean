import Svr32.Lib.Partition
import Mathlib.Logic.Function.Basic

/-! libc/port/gen/qsort.c as it is compiled where memcpy is used, from 8 bytes on. An array lies in
memory, so no address wraps. A comparison or an exchange outside the elements of the array, and a
run that does not end in its turns, give `none`. -/
namespace Svr32.Libc.Qsort
open Svr32.Lib.Partition
open Equiv (swap)

abbrev Mem := Nat → UInt8

def MINCPY : Nat := 8

/- The array, what qsort leaves in its statics, and the size of the space at qsbuf, if any. -/
structure Qs where
  base : Nat
  nel : Nat
  qses : Nat
  qscmp : List UInt8 → List UInt8 → Int
  qsbuf : Option Nat

/- The bytes of the element at `x`. -/
def elem (es : Nat) (m : Mem) (x : Nat) : List UInt8 := (List.range es).map fun k => m (x + k)

def memcpy (dst : Nat) (bytes : List UInt8) (m : Mem) : Mem := fun x =>
  if dst ≤ x then bytes.getD (x - dst) (m x) else m x

variable (q : Qs)

/- An element of the array is at `x`. -/
def Qs.Inside (x : Nat) : Prop :=
  q.base ≤ x ∧ x + q.qses ≤ q.base + q.nel * q.qses ∧ q.qses ∣ x - q.base

instance (x : Nat) : Decidable (q.Inside x) := inferInstanceAs (Decidable (_ ∧ _ ∧ _))

def compare (m : Mem) (i j : Nat) : Option Int :=
  if q.Inside i ∧ q.Inside j then some (q.qscmp (elem q.qses m i) (elem q.qses m j)) else none

/- The loops over the bytes of qsexc and qstexc. -/
def excBytes : Nat → Nat → Nat → Mem → Mem
  | 0, _, _, m => m
  | n + 1, ri, rj, m =>
    let c := m ri
    let m := Function.update m ri (m rj)
    let m := Function.update m rj c
    excBytes n (ri + 1) (rj + 1) m

def texcBytes : Nat → Nat → Nat → Nat → Mem → Mem
  | 0, _, _, _, m => m
  | n + 1, ri, rj, rk, m =>
    let c := m ri
    let m := Function.update m ri (m rk)
    let m := Function.update m rk (m rj)
    let m := Function.update m rj c
    texcBytes n (ri + 1) (rj + 1) (rk + 1) m

/- Whether the copies go through qsbuf; not where an element does not fit in. -/
def Qs.copies : Option Bool :=
  match q.qsbuf with
  | none => some false
  | some size => if MINCPY ≤ q.qses then if size < q.qses then none else some true else some false

def qsexc (ri rj : Nat) (m : Mem) : Option Mem :=
  if q.Inside ri ∧ q.Inside rj then do
    if ← q.copies then
      let qsbuf := elem q.qses m ri
      let m := memcpy ri (elem q.qses m rj) m
      some (memcpy rj qsbuf m)
    else some (excBytes q.qses ri rj m)
  else none

def qstexc (ri rj rk : Nat) (m : Mem) : Option Mem :=
  if q.Inside ri ∧ q.Inside rj ∧ q.Inside rk then do
    if ← q.copies then
      let qsbuf := elem q.qses m ri
      let m := memcpy ri (elem q.qses m rk) m
      let m := memcpy rk (elem q.qses m rj) m
      some (memcpy rj qsbuf m)
    else some (texcBytes q.qses ri rj rk m)
  else none

/- Where a turn of while(1) goes on. -/
inductive Label where
  | top
  | loop
deriving DecidableEq

/- while(1), from a label on; it ends where i == lp, with lp and hp. -/
def scan : Nat → Label → Nat → Nat → Nat → Nat → Mem → Option (Mem × Nat × Nat)
  | 0, _, _, _, _, _, _ => none
  | n + 1, .top, i, j, lp, hp, m =>
    if i < lp then do
      let c ← compare q m i lp
      if c = 0 then do
        let lp := lp - q.qses
        let m ← qsexc q i lp m
        scan n .top i j lp hp m
      else if c < 0 then scan n .top (i + q.qses) j lp hp m
      else scan n .loop i j lp hp m
    else scan n .loop i j lp hp m
  | n + 1, .loop, i, j, lp, hp, m =>
    if j > hp then do
      let c ← compare q m hp j
      if c = 0 then do
        let hp := hp + q.qses
        let m ← qsexc q hp j m
        scan n .loop i j lp hp m
      else if c > 0 then
        if i = lp then do
          let hp := hp + q.qses
          let m ← qstexc q i hp j m
          let lp := lp + q.qses
          scan n .loop lp j lp hp m
        else do
          let m ← qsexc q i j m
          scan n .top (i + q.qses) (j - q.qses) lp hp m
      else scan n .loop i (j - q.qses) lp hp m
    else if i = lp then some (m, lp, hp)
    else do
      let lp := lp - q.qses
      let m ← qstexc q j lp i m
      let hp := hp - q.qses
      scan n .top i hp lp hp m

def qs1 : Nat → Nat → Nat → Mem → Option Mem
  | 0, _, _, _ => none
  | fuel + 1, a, l, m => do
    let es := q.qses
    let n := l - a
    if n ≤ es then some m
    else do
      let n := es * (n / (2 * es))
      let (m, lp, hp) ← scan q fuel .top a (l - es) (a + n) (a + n) m
      if lp - a ≥ l - hp then do
        let m ← qs1 fuel (hp + es) l m
        qs1 fuel a lp m
      else do
        let m ← qs1 fuel a lp m
        qs1 fuel (hp + es) l m

/- The static qsbuf, with the size of its space; `core` is whether malloc or realloc finds it. -/
def grow (es : Nat) (core : Bool) : Option Nat → Option Nat
  | none => if es ≥ MINCPY ∧ core then some es else none
  | some size => if es ≥ MINCPY ∧ size < es then if core then some es else none else some size

def qsort (fuel : Nat) (qsbuf : Option Nat) (core : Bool) (a n es : Nat)
    (fc : List UInt8 → List UInt8 → Int) (m : Mem) : Option (Option Nat × Mem) := do
  let qsbuf := grow es core qsbuf
  let m ← qs1 ⟨a, n, es, fc, qsbuf⟩ fuel a (a + n * es) m
  some (qsbuf, m)

/-! Elements by their index. -/

section memory
variable {q} {m m' : Mem} {n es x y ri rj rk i j k t : Nat}

def Qs.addr (q : Qs) (k : Nat) : Nat := q.base + q.qses * k

/- The elements from the base of the array on. -/
def Qs.view (q : Qs) (m : Mem) (k : Nat) : List UInt8 := elem q.qses m (q.addr k)

theorem inside_addr (hk : k < q.nel) : q.Inside (q.addr k) := by
  have hle := Nat.mul_le_mul_left q.qses (Nat.succ_le_of_lt hk)
  rw [Nat.mul_succ, Nat.mul_comm q.qses q.nel] at hle
  refine ⟨Nat.le_add_right _ _, by unfold Qs.addr; omega, k, ?_⟩
  rw [Qs.addr, Nat.add_sub_cancel_left]

theorem addr_mono (h : i < j) : q.addr i + q.qses ≤ q.addr j := by
  have hle := Nat.mul_le_mul_left q.qses (Nat.succ_le_of_lt h)
  rw [Nat.mul_succ] at hle
  unfold Qs.addr
  omega

theorem addr_apart : q.addr i = q.addr j ∨ q.addr i + q.qses ≤ q.addr j ∨
    q.addr j + q.qses ≤ q.addr i := by
  rcases Nat.lt_trichotomy i j with h | rfl | h
  · exact .inr (.inl (addr_mono h))
  · exact .inl rfl
  · exact .inr (.inr (addr_mono h))

theorem memcpy_elem : memcpy x (elem n m' y) m k =
    if x ≤ k ∧ k < x + n then m' (y + (k - x)) else m k := by
  by_cases hx : x ≤ k
  · by_cases hk : k < x + n
    · have hlt : k - x < n := by omega
      simp [memcpy, elem, hx, hk, hlt]
    · have hge : ¬ k - x < n := by omega
      simp [memcpy, elem, hx, hk, hge]
  · simp [memcpy, hx]

theorem excBytes_apply (h : ri = rj ∨ ri + n ≤ rj ∨ rj + n ≤ ri) : excBytes n ri rj m x =
    if ri ≤ x ∧ x < ri + n then m (rj + (x - ri))
    else if rj ≤ x ∧ x < rj + n then m (ri + (x - rj)) else m x := by
  induction n generalizing ri rj m with
  | zero => rw [excBytes, if_neg (by omega), if_neg (by omega)]
  | succ n ih =>
    rw [excBytes, ih (by omega)]
    simp only [Function.update_apply]
    grind

theorem texcBytes_apply (hij : ri + n ≤ rj ∨ rj + n ≤ ri) (hik : ri + n ≤ rk ∨ rk + n ≤ ri)
    (hjk : rj = rk ∨ rj + n ≤ rk ∨ rk + n ≤ rj) : texcBytes n ri rj rk m x =
    if ri ≤ x ∧ x < ri + n then m (rk + (x - ri))
    else if rj ≤ x ∧ x < rj + n then m (ri + (x - rj))
    else if rk ≤ x ∧ x < rk + n then m (rj + (x - rk)) else m x := by
  induction n generalizing ri rj rk m with
  | zero => rw [texcBytes, if_neg (by omega), if_neg (by omega), if_neg (by omega)]
  | succ n ih =>
    rw [texcBytes, ih (by omega) (by omega) (by omega)]
    simp only [Function.update_apply]
    grind

/- Byte by byte it is as with copies. -/
theorem excBytes_eq (h : ri = rj ∨ ri + n ≤ rj ∨ rj + n ≤ ri) : excBytes n ri rj m =
    memcpy rj (elem n m ri) (memcpy ri (elem n m rj) m) := by
  funext x
  rw [excBytes_apply h, memcpy_elem, memcpy_elem]
  grind

theorem texcBytes_eq (hij : ri + n ≤ rj ∨ rj + n ≤ ri) (hik : ri + n ≤ rk ∨ rk + n ≤ ri)
    (hjk : rj = rk ∨ rj + n ≤ rk ∨ rk + n ≤ rj) : texcBytes n ri rj rk m =
    memcpy rj (elem n m ri) (memcpy rk (elem n (memcpy ri (elem n m rk) m) rj)
      (memcpy ri (elem n m rk) m)) := by
  funext x
  rw [texcBytes_apply hij hik hjk]
  simp only [memcpy_elem]
  grind

/- A copy of an element over another one. -/
theorem view_memcpy (i j : Nat) (m m' : Mem) :
    q.view (memcpy (q.addr i) (elem q.qses m' (q.addr j)) m) =
      Function.update (q.view m) i (q.view m' j) := by
  funext k
  rw [Function.update_apply]
  by_cases hk : k = i
  · rw [if_pos hk, hk]
    refine List.map_congr_left fun t ht => ?_
    have ht := List.mem_range.1 ht
    rw [memcpy_elem, if_pos (by omega), Nat.add_sub_cancel_left]
  · rw [if_neg hk]
    refine List.map_congr_left fun t ht => ?_
    have ht := List.mem_range.1 ht
    rcases Nat.lt_or_gt_of_ne hk with hlt | hgt
    · have hle := addr_mono (q := q) hlt
      rw [memcpy_elem, if_neg (by omega)]
    · have hle := addr_mono (q := q) hgt
      rw [memcpy_elem, if_neg (by omega)]

theorem memcpy_below (hx : x < q.base) (i : Nat) (bytes : List UInt8) (m : Mem) :
    memcpy (q.addr i) bytes m x = m x :=
  if_neg (by unfold Qs.addr; omega)

/- The space at qsbuf is large enough where it is used. -/
def Qs.Fits (q : Qs) : Prop :=
  ∀ size, q.qsbuf = some size → MINCPY ≤ q.qses → q.qses ≤ size

theorem Qs.Fits.copies (hb : q.Fits) : ∃ b, q.copies = some b := by
  unfold Qs.copies
  split
  · exact ⟨_, rfl⟩
  · rename_i size he
    split_ifs with h₁ h₂
    · exact (Nat.not_lt.2 (hb size he h₁) h₂).elim
    · exact ⟨_, rfl⟩
    · exact ⟨_, rfl⟩

/- An exchange of two elements of the array. -/
theorem qsexc_spec (hb : q.Fits) (hi : i < q.nel) (hj : j < q.nel) (m : Mem) :
    ∃ m', qsexc q (q.addr i) (q.addr j) m = some m' ∧ q.view m' = q.view m ∘ swap i j ∧
      ∀ x < q.base, m' x = m x := by
  obtain ⟨b, hcopies⟩ := hb.copies
  refine ⟨memcpy (q.addr j) (elem q.qses m (q.addr i))
    (memcpy (q.addr i) (elem q.qses m (q.addr j)) m), ?_, ?_, fun x hx => ?_⟩
  · rw [qsexc, if_pos ⟨inside_addr hi, inside_addr hj⟩, hcopies, excBytes_eq addr_apart]
    cases b <;> rfl
  · rw [view_memcpy, view_memcpy, update_swap]
  · rw [memcpy_below hx, memcpy_below hx]

theorem qstexc_spec (hb : q.Fits) (hi : i < q.nel) (hj : j < q.nel) (hk : k < q.nel)
    (hij : i ≠ j) (hik : i ≠ k) (m : Mem) :
    ∃ m', qstexc q (q.addr i) (q.addr j) (q.addr k) m = some m' ∧
      q.view m' = q.view m ∘ (swap k j).trans (swap i k) ∧ ∀ x < q.base, m' x = m x := by
  obtain ⟨b, hcopies⟩ := hb.copies
  have hne : ∀ {i j}, i ≠ j → q.addr i + q.qses ≤ q.addr j ∨ q.addr j + q.qses ≤ q.addr i :=
    fun hij => (Nat.lt_or_gt_of_ne hij).imp addr_mono addr_mono
  let m₁ := memcpy (q.addr i) (elem q.qses m (q.addr k)) m
  refine ⟨memcpy (q.addr j) (elem q.qses m (q.addr i))
    (memcpy (q.addr k) (elem q.qses m₁ (q.addr j)) m₁), ?_, ?_, fun x hx => ?_⟩
  · rw [qstexc, if_pos ⟨inside_addr hi, inside_addr hj, inside_addr hk⟩, hcopies,
      texcBytes_eq (hne hij) (hne hik) addr_apart]
    cases b <;> rfl
  · rw [view_memcpy, view_memcpy, view_memcpy, Function.update_of_ne hij.symm,
      update_rotate _ hij hik]
  · rw [memcpy_below hx, memcpy_below hx]
    exact memcpy_below hx _ _ _

end memory

/-! The partition. -/

section partition
variable {q} {p : List UInt8} {a l i j k : Nat} {m : Mem}

theorem addr_lt (hes : 0 < q.qses) : q.addr i < q.addr j ↔ i < j := by
  constructor
  · intro h
    by_contra hn
    have hle := Nat.mul_le_mul_left q.qses (Nat.not_lt.1 hn)
    unfold Qs.addr at h
    omega
  · intro h
    have hle := addr_mono (q := q) h
    omega

theorem addr_inj (hes : 0 < q.qses) : q.addr i = q.addr j ↔ i = j := by
  constructor
  · intro h
    have h₁ := addr_lt (i := i) (j := j) hes
    have h₂ := addr_lt (i := j) (j := i) hes
    omega
  · exact fun h => congrArg _ h

theorem addr_succ (k : Nat) : q.addr k + q.qses = q.addr (k + 1) := by
  rw [Qs.addr, Qs.addr, Nat.mul_succ, Nat.add_assoc]

theorem addr_pred (hk : 0 < k) : q.addr k - q.qses = q.addr (k - 1) := by
  obtain ⟨k, rfl⟩ : ∃ n, k = n + 1 := ⟨k - 1, by omega⟩
  rw [← addr_succ]
  exact Nat.add_sub_cancel _ _

theorem compare_addr (hi : i < q.nel) (hj : j < q.nel) :
    compare q m (q.addr i) (q.addr j) = some (q.qscmp (q.view m i) (q.view m j)) :=
  if_pos ⟨inside_addr hi, inside_addr hj⟩

/- A point of the scan, with the indices of what i, j, lp and hp point to. -/
structure Part where
  at_ : Label
  i : Nat
  j : Nat
  lp : Nat
  hp : Nat
  m : Mem

def Part.scan (q : Qs) (n : Nat) (s : Part) : Option (Mem × Nat × Nat) :=
  Qsort.scan q n s.at_ (q.addr s.i) (q.addr s.j) (q.addr s.lp) (q.addr s.hp) s.m

/- What is left to scan; a turn at the top may only go on to the loop. -/
def Part.size (s : Part) : Nat :=
  2 * ((s.lp - s.i) + (s.j - s.hp)) + if s.at_ = .top then 1 else 0

/- At the loop an element on the left waits to be exchanged, if there is one left. -/
structure Part.Inv (q : Qs) (p : List UInt8) (a l : Nat) (s : Part) : Prop where
  split : Split q.qscmp p (q.view s.m) a s.i s.lp s.hp s.j l
  le : l ≤ q.nel
  waits : s.at_ = .loop → s.i = s.lp ∨ 0 < q.qscmp (q.view s.m s.i) p

/- One turn of the scan. -/
structure Part.Turn (q : Qs) (p : List UInt8) (a l : Nat) (s t : Part) : Prop where
  scan : ∀ n, s.scan q (n + 1) = t.scan q n
  inv : t.Inv q p a l
  size : t.size < s.size
  shuffles : Shuffles a l (q.view s.m) (q.view t.m)
  below : ∀ x < q.base, t.m x = s.m x

variable (hc : TotalPreorder q.qscmp) (hes : 0 < q.qses) (hb : q.Fits)
include hc hes hb

theorem scan_top {i j lp hp : Nat} (h : Part.Inv q p a l ⟨.top, i, j, lp, hp, m⟩) :
    ∃ t, Part.Turn q p a l ⟨.top, i, j, lp, hp, m⟩ t := by
  obtain ⟨hs, hl, -⟩ := h
  obtain ⟨h₁, h₂, h₃, h₄, h₅, -, hmid, -⟩ := id hs
  simp only at h₁ h₂ h₃ h₄ h₅ hmid hs
  by_cases hi : i < lp
  · have hp0 : 0 < lp := by omega
    obtain ⟨hlt, heq⟩ := hc.congr (x := q.view m i) (hmid lp (Nat.le_refl _) h₃)
    have hcmp := compare_addr (m := m) (i := i) (j := lp) (q := q) (by omega) (by omega)
    by_cases h0 : q.qscmp (q.view m i) (q.view m lp) = 0
    · obtain ⟨m', he, hv, hbelow⟩ := qsexc_spec hb (i := i) (j := lp - 1) (by omega) (by omega) m
      refine ⟨⟨.top, i, j, lp - 1, hp, m'⟩, fun n => ?_, ⟨?_, hl, fun h => (nomatch h)⟩, ?_, ?_,
        hbelow⟩
      · simp [Part.scan, Qsort.scan, addr_lt hes, hi, hcmp, h0, addr_pred hp0, he]
      · exact hv ▸ hs.left_eq hi (heq.1 h0)
      · simp only [Part.size]
        omega
      · exact hv ▸ shuffles_swap (by omega) (by omega)
    · by_cases hn : q.qscmp (q.view m i) (q.view m lp) < 0
      · refine ⟨⟨.top, i + 1, j, lp, hp, m⟩, fun n => ?_,
          ⟨hs.left_lt hi (hlt.1 hn), hl, fun h => (nomatch h)⟩, ?_, .refl _ _ _, fun _ _ => rfl⟩
        · simp [Part.scan, Qsort.scan, addr_lt hes, hi, hcmp, h0, hn, addr_succ]
        · simp only [Part.size]
          omega
      · have hpos : 0 < q.qscmp (q.view m i) p := by omega
        refine ⟨⟨.loop, i, j, lp, hp, m⟩, fun n => ?_, ⟨hs, hl, fun _ => .inr hpos⟩, ?_,
          .refl _ _ _, fun _ _ => rfl⟩
        · simp [Part.scan, Qsort.scan, addr_lt hes, hi, hcmp, h0, hn]
        · simp [Part.size]
  · have hie : i = lp := by omega
    refine ⟨⟨.loop, i, j, lp, hp, m⟩, fun n => ?_, ⟨hs, hl, fun _ => .inl hie⟩, ?_,
      .refl _ _ _, fun _ _ => rfl⟩
    · simp [Part.scan, Qsort.scan, addr_lt hes, hi]
    · simp [Part.size]

theorem scan_loop {i j lp hp : Nat} (h : Part.Inv q p a l ⟨.loop, i, j, lp, hp, m⟩) :
    (i = lp ∧ j = hp ∧ ∀ n, Part.scan q (n + 1) ⟨.loop, i, j, lp, hp, m⟩ =
      some (m, q.addr lp, q.addr hp)) ∨ ∃ t, Part.Turn q p a l ⟨.loop, i, j, lp, hp, m⟩ t := by
  obtain ⟨hs, hl, hw⟩ := h
  obtain ⟨h₁, h₂, h₃, h₄, h₅, -, hmid, -⟩ := id hs
  simp only at h₁ h₂ h₃ h₄ h₅ hmid hs hw
  have hw := hw trivial
  by_cases hj : hp < j
  · right
    obtain ⟨hlt, heq⟩ := hc.congr (x := q.view m j) (hmid hp h₃ (Nat.le_refl _))
    have hcmp := compare_addr (m := m) (i := hp) (j := j) (q := q) (by omega) (by omega)
    have hsw := hc.swap (q.view m j) (q.view m hp)
    have hsw' := hc.swap (q.view m hp) (q.view m j)
    by_cases h0 : q.qscmp (q.view m hp) (q.view m j) = 0
    · obtain ⟨m', he, hv, hbelow⟩ := qsexc_spec hb (i := hp + 1) (j := j) (by omega) (by omega) m
      have hsp := hs.right_eq hj (heq.1 (by omega))
      refine ⟨⟨.loop, i, j, lp, hp + 1, m'⟩, fun n => ?_, ⟨hv ▸ hsp, hl, fun _ => ?_⟩, ?_,
        hv ▸ shuffles_swap (by omega) (by omega), hbelow⟩
      · simp [Part.scan, Qsort.scan, addr_lt hes, hj, hcmp, h0, addr_succ, he]
      · have hsame : i < lp → (q.view m ∘ swap (hp + 1) j) i = q.view m i := fun hi =>
          congrArg (q.view m) (Equiv.swap_apply_of_ne_of_ne (by omega) (by omega))
        by_cases hi : i < lp
        · exact .inr (by rw [hv, hsame hi]; exact hw.resolve_left (by omega))
        · exact .inl (by simp only; omega)
      · simp only [Part.size]
        omega
    · by_cases hn : 0 < q.qscmp (q.view m hp) (q.view m j)
      · have hjp : q.qscmp (q.view m j) p < 0 := hlt.1 (hsw.2 hn)
        by_cases hi : i = lp
        · obtain ⟨m', he, hv, hbelow⟩ := qstexc_spec hb (i := i) (j := hp + 1) (k := j) (by omega)
            (by omega) (by omega) (by omega) (by omega) m
          have hsp := hs.shift_up hi hj hjp
          refine ⟨⟨.loop, lp + 1, j, lp + 1, hp + 1, m'⟩, fun n => ?_,
            ⟨hv ▸ hsp, hl, fun _ => .inl rfl⟩, ?_,
            hv ▸ shuffles_rotate (by omega) (by omega) (by omega), hbelow⟩
          · simp [Part.scan, Qsort.scan, addr_lt hes, hj, hcmp, h0, hn, addr_succ, hi, hi ▸ he]
          · simp only [Part.size]
            omega
        · have hj0 : 0 < j := by omega
          obtain ⟨m', he, hv, hbelow⟩ := qsexc_spec hb (i := i) (j := j) (by omega) (by omega) m
          have hsp := hs.exchange (by omega) hj (hw.resolve_left hi) hjp
          refine ⟨⟨.top, i + 1, j - 1, lp, hp, m'⟩, fun n => ?_,
            ⟨hv ▸ hsp, hl, fun h => (nomatch h)⟩, ?_,
            hv ▸ shuffles_swap (by omega) (by omega), hbelow⟩
          · simp [Part.scan, Qsort.scan, addr_lt hes, hj, hcmp, h0, hn, addr_succ, addr_inj hes,
              hi, he, addr_pred hj0]
          · simp [Part.size]
            omega
      · have hj0 : 0 < j := by omega
        have hsp := hs.right_gt hj (by omega)
        refine ⟨⟨.loop, i, j - 1, lp, hp, m⟩, fun n => ?_, ⟨hsp, hl, fun _ => hw⟩, ?_,
          .refl _ _ _, fun _ _ => rfl⟩
        · simp [Part.scan, Qsort.scan, addr_lt hes, hj, hcmp, h0, hn, addr_pred hj0]
        · simp only [Part.size]
          omega
  · have hje : j = hp := by omega
    by_cases hi : i = lp
    · refine .inl ⟨hi, hje, fun n => ?_⟩
      simp [Part.scan, Qsort.scan, addr_lt hes, hj, hi]
    · right
      have hl0 : 0 < lp := by omega
      have hh0 : 0 < hp := by omega
      obtain ⟨m', he, hv, hbelow⟩ := qstexc_spec hb (i := j) (j := lp - 1) (k := i) (by omega)
        (by omega) (by omega) (by omega) (by omega) m
      have hsp := hs.shift_down (by omega) hje (hw.resolve_left hi)
      refine ⟨⟨.top, i, hp - 1, lp - 1, hp - 1, m'⟩, fun n => ?_,
        ⟨hv ▸ hsp, hl, fun h => (nomatch h)⟩, ?_,
        hv ▸ shuffles_rotate (by omega) (by omega) (by omega), hbelow⟩
      · simp [Part.scan, Qsort.scan, addr_lt hes, hj, addr_inj hes, hi, addr_pred hl0,
          addr_pred hh0, he]
      · simp [Part.size]
        omega

/- The scan ends, with the elements in three parts. -/
theorem scan_parts {s : Part} (h : s.Inv q p a l) : ∃ m' lp hp,
    (∀ n > s.size, s.scan q n = some (m', q.addr lp, q.addr hp)) ∧
      Split q.qscmp p (q.view m') a lp lp hp hp l ∧ Shuffles a l (q.view s.m) (q.view m') ∧
        ∀ x < q.base, m' x = s.m x := by
  obtain ⟨d, hd⟩ : ∃ d, d = s.size := ⟨_, rfl⟩
  induction d using Nat.strongRecOn generalizing s with
  | _ d ih =>
    have hturn : (s.i = s.lp ∧ s.j = s.hp ∧
        ∀ n, s.scan q (n + 1) = some (s.m, q.addr s.lp, q.addr s.hp)) ∨ ∃ t, s.Turn q p a l t := by
      obtain ⟨_ | _, i, j, lp, hp, m⟩ := s
      · exact .inr (scan_top hc hes hb h)
      · exact scan_loop hc hes hb h
    rcases hturn with ⟨hi, hj, he⟩ | ⟨t, ht⟩
    · refine ⟨s.m, s.lp, s.hp, ?_, ?_, .refl _ _ _, fun _ _ => rfl⟩
      · rintro (_ | n) hn
        · cases hn
        · exact he n
      · have hs := h.split
        rwa [hi, hj] at hs
    · obtain ⟨m', lp, hp, he, hs, hv, hbelow⟩ := ih t.size (hd ▸ ht.size) ht.inv rfl
      refine ⟨m', lp, hp, ?_, hs, ht.shuffles.trans hv, fun x hx => ?_⟩
      · rintro (_ | n) hn
        · cases hn
        · rw [ht.scan, he n (Nat.lt_of_lt_of_le ht.size (Nat.le_of_lt_succ hn))]
      · rw [hbelow x hx, ht.below x hx]

/- What sorting a range of the array leaves. -/
structure Sorts (q : Qs) (a l : Nat) (m m' : Mem) : Prop where
  run : ∃ N, ∀ n ≥ N, qs1 q n (q.addr a) (q.addr l) m = some m'
  shuffles : Shuffles a l (q.view m) (q.view m')
  sorted : Sorted q.qscmp (q.view m') a l
  below : ∀ x < q.base, m' x = m x

theorem qs1_sorts (ha : a ≤ l) (hl : l ≤ q.nel) (m : Mem) : ∃ m', Sorts q a l m m' := by
  obtain ⟨d, hd⟩ : ∃ d, d = l - a := ⟨_, rfl⟩
  induction d using Nat.strongRecOn generalizing a l m with
  | _ d ih =>
  have hlen : q.addr l - q.addr a = q.qses * (l - a) := by
    rw [Qs.addr, Qs.addr, Nat.add_sub_add_left, ← Nat.mul_sub]
  have hshort : q.qses * (l - a) ≤ q.qses ↔ l - a ≤ 1 := by
    have he := Nat.mul_le_mul_left_iff (n := l - a) (m := 1) hes
    rwa [Nat.mul_one] at he
  by_cases h1 : l - a ≤ 1
  · refine ⟨m, ⟨1, ?_⟩, .refl _ _ _, fun k k' _ _ _ => by omega, fun _ _ => rfl⟩
    rintro (_ | n) hn
    · cases hn
    · simp only [qs1, hlen, hshort, if_pos h1]
  obtain ⟨k, hk⟩ : ∃ k, k = a + (l - a) / 2 := ⟨_, rfl⟩
  have hmid : q.addr a + q.qses * (q.qses * (l - a) / (2 * q.qses)) = q.addr k := by
    rw [Nat.mul_comm 2, Nat.mul_div_mul_left _ _ hes, hk, Qs.addr, Qs.addr, Nat.mul_add,
      Nat.add_assoc]
  have hinv : Part.Inv q (q.view m k) a l ⟨.top, a, l - 1, k, k, m⟩ :=
    ⟨split_start hc (by omega) (by omega), hl, fun h => (nomatch h)⟩
  obtain ⟨m₁, lp, hp, hscan, hs, hv, hbelow⟩ := scan_parts hc hes hb hinv
  obtain ⟨hlp, -, hlh, -, hhp, -⟩ := id hs
  obtain ⟨N, hN⟩ : ∃ N, N = Part.size ⟨.top, a, l - 1, k, k, m⟩ + 1 := ⟨_, rfl⟩
  have hrun : ∀ n ≥ N, qs1 q (n + 1) (q.addr a) (q.addr l) m =
      if q.addr lp - q.addr a ≥ q.addr l - q.addr hp then
        (qs1 q n (q.addr (hp + 1)) (q.addr l) m₁).bind fun m =>
          qs1 q n (q.addr a) (q.addr lp) m
      else (qs1 q n (q.addr a) (q.addr lp) m₁).bind fun m =>
        qs1 q n (q.addr (hp + 1)) (q.addr l) m := by
    intro n hn
    have he : scan q n .top (q.addr a) (q.addr (l - 1)) (q.addr k) (q.addr k) m =
        some (m₁, q.addr lp, q.addr hp) := hscan n (by omega)
    have hl0 : 0 < l := by omega
    simp only [qs1, hlen, hshort, if_neg h1, hmid, addr_pred hl0, he, addr_succ,
      Option.bind_eq_bind, Option.bind_some]
  have hbound := Nat.le_of_lt (Nat.lt_of_le_of_lt hlh hhp)
  by_cases hside : q.addr lp - q.addr a ≥ q.addr l - q.addr hp
  · obtain ⟨m₂, ⟨N₂, h₂⟩, hv₂, hs₂, hb₂⟩ :=
      ih (l - (hp + 1)) (by omega) (by omega) hl m₁ rfl
    obtain ⟨m₃, ⟨N₃, h₃⟩, hv₃, hs₃, hb₃⟩ :=
      ih (lp - a) (by omega) hlp (by omega) m₂ rfl
    obtain ⟨hsorted, hshuf⟩ := hs.upper_lower hc hv₂ hs₂ hv₃ hs₃
    refine ⟨m₃, ⟨N + N₂ + N₃ + 1, ?_⟩, hv.trans hshuf, hsorted, fun x hx => ?_⟩
    · rintro (_ | n) hn
      · cases hn
      · rw [hrun n (by omega), if_pos hside, h₂ n (by omega), Option.bind_some, h₃ n (by omega)]
    · rw [hb₃ x hx, hb₂ x hx, hbelow x hx]
  · obtain ⟨m₂, ⟨N₂, h₂⟩, hv₂, hs₂, hb₂⟩ :=
      ih (lp - a) (by omega) hlp (by omega) m₁ rfl
    obtain ⟨m₃, ⟨N₃, h₃⟩, hv₃, hs₃, hb₃⟩ :=
      ih (l - (hp + 1)) (by omega) (by omega) hl m₂ rfl
    obtain ⟨hsorted, hshuf⟩ := hs.lower_upper hc hv₂ hs₂ hv₃ hs₃
    refine ⟨m₃, ⟨N + N₂ + N₃ + 1, ?_⟩, hv.trans hshuf, hsorted, fun x hx => ?_⟩
    · rintro (_ | n) hn
      · cases hn
      · rw [hrun n (by omega), if_neg hside, h₂ n (by omega), Option.bind_some, h₃ n (by omega)]
    · rw [hb₃ x hx, hb₂ x hx, hbelow x hx]

end partition

/-! The call. -/

section call
variable {fc : List UInt8 → List UInt8 → Int}

/- The elements of an array, in order. -/
def elements (es : Nat) (m : Mem) (a n : Nat) : List (List UInt8) :=
  (List.range n).map fun k => elem es m (a + es * k)

theorem grow_fits (es : Nat) (core : Bool) (qsbuf : Option Nat) (h : MINCPY ≤ es) :
    ∀ size, grow es core qsbuf = some size → es ≤ size := by
  intro size he
  unfold grow at he
  split at he
  · split_ifs at he
    · exact Nat.le_of_eq (Option.some.inj he)
  · split_ifs at he with h₁ h₂
    · exact Nat.le_of_eq (Option.some.inj he)
    · obtain rfl := Option.some.inj he
      exact Nat.not_lt.1 fun hlt => h₁ ⟨h, hlt⟩

/- A byte of an element is known by the element. -/
theorem elem_byte {es x y t : Nat} {m m' : Mem} (h : elem es m x = elem es m' y) (ht : t < es) :
    m (x + t) = m' (y + t) := by
  have he := congrArg (fun bytes => bytes.getD t 0) h
  simpa [elem, ht] using he

/-- Whatever the width and whether there is space for a buffer, qsort ends with the elements in
order, and has compared and exchanged elements of the array only. -/
theorem qsort_sorts (hc : TotalPreorder fc) (qsbuf : Option Nat) (core : Bool) (a n es : Nat)
    (m : Mem) : ∃ m',
      (∃ N, ∀ fuel ≥ N, qsort fuel qsbuf core a n es fc m = some (grow es core qsbuf, m')) ∧
        (elements es m' a n).Perm (elements es m a n) ∧
        (elements es m' a n).Pairwise (fun x y => fc x y ≤ 0) ∧
        ∀ x, x < a ∨ a + n * es ≤ x → m' x = m x := by
  by_cases hes : es = 0
  · subst hes
    refine ⟨m, ⟨1, ?_⟩, .refl _, ?_, fun _ _ => rfl⟩
    · rintro (_ | fuel) hn
      · cases hn
      · simp [qsort, qs1]
    · refine List.pairwise_map.2 (List.pairwise_of_forall fun _ _ => ?_)
      exact Int.le_of_eq (hc.refl [])
  have hes : 0 < es := Nat.pos_of_ne_zero hes
  let q : Qs := ⟨a, n, es, fc, grow es core qsbuf⟩
  have hb : q.Fits := fun size he h => grow_fits es core qsbuf h size he
  obtain ⟨m', ⟨N, hrun⟩, hshuf, hsort, hbelow⟩ :=
    qs1_sorts (q := q) hc hes hb (Nat.zero_le n) (Nat.le_refl n) m
  have h0 : q.addr 0 = a := rfl
  have hn : q.addr n = a + n * es := congrArg (a + ·) (Nat.mul_comm es n)
  refine ⟨m', ⟨N, fun fuel hf => ?_⟩, hshuf.perm, ?_, ?_⟩
  · have he := hrun fuel hf
    rw [h0, hn] at he
    simp only [qsort]
    rw [he]
    rfl
  · refine List.pairwise_map.2 (List.pairwise_iff_getElem.2 fun i j hi hj hij => ?_)
    rw [List.getElem_range, List.getElem_range]
    exact hsort i j (Nat.zero_le i) hij (by simpa using hj)
  · rintro x (hx | hx)
    · exact hbelow x hx
    · -- past the end the elements are as they were
      obtain ⟨k, t, ht, rfl⟩ : ∃ k t, t < es ∧ x = q.addr k + t :=
        ⟨(x - a) / es, (x - a) % es, Nat.mod_lt _ hes, by
          have := Nat.div_add_mod (x - a) es
          show x = a + es * ((x - a) / es) + (x - a) % es
          omega⟩
      have hk : n ≤ k := by
        by_contra hlt
        have hle := addr_mono (q := q) (Nat.not_le.1 hlt)
        have hq : q.qses = es := rfl
        omega
      exact elem_byte (hshuf.outside (.inr hk)) ht

/- Bytes by their value. -/
def byValue (x y : List UInt8) : Int := (x.headD 0).toNat - (y.headD 0).toNat

theorem byValue_total : TotalPreorder byValue :=
  ⟨fun x y => by unfold byValue; omega, fun x y z => by unfold byValue; omega⟩

theorem qsort_sorts_bytes : ∃ m',
    (∃ N, ∀ fuel ≥ N, qsort fuel none true 64 3 1 byValue (fun x => (200 - x).toUInt8) =
      some (none, m')) ∧
      (elements 1 m' 64 3).Perm (elements 1 (fun x => (200 - x).toUInt8) 64 3) ∧
      (elements 1 m' 64 3).Pairwise (fun x y => byValue x y ≤ 0) ∧
      ∀ x, x < 64 ∨ 64 + 3 * 1 ≤ x → m' x = (200 - x).toUInt8 :=
  qsort_sorts byValue_total none true 64 3 1 _

end call

end Svr32.Libc.Qsort
