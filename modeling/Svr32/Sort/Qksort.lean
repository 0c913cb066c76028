import Svr32.Lib.Partition

/-! qksort of cmd/sort/sort.c. An array of pointers to lines is a function of the index; the lines
are apart, so that a line that is clobbered through its pointer is an element that changes. A run
that does not end in its turns gives `none`. -/
namespace Svr32.Sort
open Svr32.Lib.Partition
open Equiv (swap)

abbrev Line := List UInt8

def MTHRESH : Nat := 8

/- **k = '\0' -/
def clobber (s : Line) : Line := 0 :: s.tail

/- *s == '\0' -/
def isNul (s : Line) : Bool := s.headD 0 = 0

def qsexc (p q : Nat) (v : Nat → Line) : Nat → Line :=
  let t := v p
  let v := Function.update v p (v q)
  Function.update v q t

def qstexc (p q r : Nat) (v : Nat → Line) : Nat → Line :=
  let t := v p
  let v := Function.update v p (v r)
  let v := Function.update v r (v q)
  Function.update v q t

variable (compare : Line → Line → Int)

/- delta, after one of the two comparisons with the middle. -/
def skew (c delta : Int) : Int := if c < 0 then delta - 1 else if c > 0 then delta + 1 else delta

/- The pivot: the middle, or beside it when the middle is no median of three. -/
def pivot (a l : Nat) (v : Nat → Line) : Nat :=
  let n := (l - a) / 2
  if n ≥ MTHRESH then
    let lp := a + n
    let i := lp - 1
    let j := lp + 1
    let delta := skew (compare (v lp) (v i)) 0
    let delta := (skew (compare (v lp) (v j)) delta).tdiv 2
    let c := compare (v i) (v j)
    if delta ≠ 0 ∧ c ≠ 0 then
      if c > 0 then ((a + n : Nat) - delta).toNat else ((a + n : Nat) + delta).toNat
    else a + n
  else a + n

/- Where a turn of for(;;) goes on. -/
inductive Label where
  | top
  | loop
deriving DecidableEq

/- for(;;), from a label on; it ends where i == lp, with lp and hp. -/
def scan : Nat → Label → Nat → Nat → Nat → Nat → (Nat → Line) →
    Option ((Nat → Line) × Nat × Nat)
  | 0, _, _, _, _, _, _ => none
  | n + 1, .top, i, j, lp, hp, v =>
    if i < lp then
      let c := compare (v i) (v lp)
      if c = 0 then
        let lp := lp - 1
        scan n .top i j lp hp (qsexc i lp v)
      else if c < 0 then scan n .top (i + 1) j lp hp v
      else scan n .loop i j lp hp v
    else scan n .loop i j lp hp v
  | n + 1, .loop, i, j, lp, hp, v =>
    if j > hp then
      let c := compare (v hp) (v j)
      if c = 0 then
        let hp := hp + 1
        scan n .loop i j lp hp (qsexc hp j v)
      else if c > 0 then
        if i = lp then
          let hp := hp + 1
          let v := qstexc i hp j v
          let lp := lp + 1
          scan n .loop lp j lp hp v
        else scan n .top (i + 1) (j - 1) lp hp (qsexc i j v)
      else scan n .loop i (j - 1) lp hp v
    else if i = lp then some (v, lp, hp)
    else
      let lp := lp - 1
      let v := qstexc j lp i v
      let hp := hp - 1
      scan n .top i hp lp hp v

/- for(k=lp; k<hp;) **k++ = '\0', over `n` pointers. -/
def nulls : Nat → Nat → (Nat → Line) → Nat → Line
  | 0, _, v => v
  | n + 1, k, v => nulls n (k + 1) (Function.update v k (clobber (v k)))

def qksort (uflg : Bool) : Nat → Nat → Nat → (Nat → Line) → Option (Nat → Line)
  | 0, _, _, _ => none
  | fuel + 1, a, l, v =>
    if l - a ≤ 1 then some v
    else do
      let p := pivot compare a l v
      let (v, lp, hp) ← scan compare fuel .top a (l - 1) p p v
      let v := if uflg then nulls (hp - lp) lp v else v
      if lp - a ≥ l - hp then do
        let v ← qksort uflg fuel (hp + 1) l v
        qksort uflg fuel a lp v
      else do
        let v ← qksort uflg fuel a lp v
        qksort uflg fuel (hp + 1) l v

end Svr32.Sort

/-! The partition. -/
namespace Svr32.Sort
open Svr32.Lib.Partition
open Equiv (swap)
variable {compare : Line → Line → Int} {p : Line} {a l i j k : Nat} {v : Nat → Line}

theorem qsexc_eq (i j : Nat) (v : Nat → Line) : qsexc i j v = v ∘ swap i j := update_swap v i j

theorem qstexc_eq (hij : i ≠ j) (hik : i ≠ k) (v : Nat → Line) :
    qstexc i j k v = v ∘ (swap k j).trans (swap i k) := by
  rw [← update_rotate v hij hik, qstexc, Function.update_of_ne hij.symm]

/-- The pivot lies in the array. -/
theorem pivot_mem (compare : Line → Line → Int) (v : Nat → Line) (h : 1 < l - a) :
    a ≤ pivot compare a l v ∧ pivot compare a l v < l := by
  have hskew : ∀ c d : Int, d - 1 ≤ skew c d ∧ skew c d ≤ d + 1 := by
    intro c d
    unfold skew
    split_ifs <;> omega
  rw [pivot]
  dsimp only
  by_cases hn : (l - a) / 2 ≥ MTHRESH
  · have hn' : (l - a) / 2 ≥ 8 := hn
    have h₁ := hskew (compare (v (a + (l - a) / 2)) (v (a + (l - a) / 2 - 1))) 0
    have h₂ := hskew (compare (v (a + (l - a) / 2)) (v (a + (l - a) / 2 + 1)))
      (skew (compare (v (a + (l - a) / 2)) (v (a + (l - a) / 2 - 1))) 0)
    rw [if_pos hn]
    generalize skew (compare (v (a + (l - a) / 2)) (v (a + (l - a) / 2 + 1)))
      (skew (compare (v (a + (l - a) / 2)) (v (a + (l - a) / 2 - 1))) 0) = d at h₂ ⊢
    have hd : -1 ≤ d.tdiv 2 ∧ d.tdiv 2 ≤ 1 := by
      have hcases : d = -2 ∨ d = -1 ∨ d = 0 ∨ d = 1 ∨ d = 2 := by omega
      rcases hcases with rfl | rfl | rfl | rfl | rfl <;> decide
    split_ifs <;> omega
  · rw [if_neg hn]
    omega

/- A point of the scan. -/
structure Part where
  at_ : Label
  i : Nat
  j : Nat
  lp : Nat
  hp : Nat
  v : Nat → Line

def Part.scan (compare : Line → Line → Int) (n : Nat) (s : Part) :
    Option ((Nat → Line) × Nat × Nat) :=
  Sort.scan compare n s.at_ s.i s.j s.lp s.hp s.v

/- What is left to scan; a turn at the top may only go on to the loop. -/
def Part.size (s : Part) : Nat :=
  2 * ((s.lp - s.i) + (s.j - s.hp)) + if s.at_ = .top then 1 else 0

/- At the loop an element on the left waits to be exchanged, if there is one left. -/
structure Part.Inv (compare : Line → Line → Int) (p : Line) (a l : Nat) (s : Part) : Prop where
  split : Split compare p s.v a s.i s.lp s.hp s.j l
  waits : s.at_ = .loop → s.i = s.lp ∨ 0 < compare (s.v s.i) p

/- One turn of the scan. -/
structure Part.Turn (compare : Line → Line → Int) (p : Line) (a l : Nat) (s t : Part) : Prop where
  scan : ∀ n, s.scan compare (n + 1) = t.scan compare n
  inv : t.Inv compare p a l
  size : t.size < s.size
  shuffles : Shuffles a l s.v t.v

variable (hc : TotalPreorder compare)
include hc

theorem scan_top {i j lp hp : Nat} (h : Part.Inv compare p a l ⟨.top, i, j, lp, hp, v⟩) :
    ∃ t, Part.Turn compare p a l ⟨.top, i, j, lp, hp, v⟩ t := by
  obtain ⟨hs, -⟩ := h
  obtain ⟨h₁, h₂, h₃, h₄, h₅, -, hmid, -⟩ := id hs
  simp only at h₁ h₂ h₃ h₄ h₅ hmid hs
  by_cases hi : i < lp
  · obtain ⟨hlt, heq⟩ := hc.congr (x := v i) (hmid lp (Nat.le_refl _) h₃)
    by_cases h0 : compare (v i) (v lp) = 0
    · refine ⟨⟨.top, i, j, lp - 1, hp, qsexc i (lp - 1) v⟩, fun n => ?_,
        ⟨?_, fun h => (nomatch h)⟩, ?_, ?_⟩
      · simp [Part.scan, Sort.scan, hi, h0]
      · rw [qsexc_eq]
        exact hs.left_eq hi (heq.1 h0)
      · simp only [Part.size]
        omega
      · rw [qsexc_eq]
        exact shuffles_swap (by omega) (by omega)
    · by_cases hn : compare (v i) (v lp) < 0
      · refine ⟨⟨.top, i + 1, j, lp, hp, v⟩, fun n => ?_,
          ⟨hs.left_lt hi (hlt.1 hn), fun h => (nomatch h)⟩, ?_, .refl _ _ _⟩
        · simp [Part.scan, Sort.scan, hi, h0, hn]
        · simp only [Part.size]
          omega
      · have hpos : 0 < compare (v i) p := by omega
        refine ⟨⟨.loop, i, j, lp, hp, v⟩, fun n => ?_, ⟨hs, fun _ => .inr hpos⟩, ?_,
          .refl _ _ _⟩
        · simp [Part.scan, Sort.scan, hi, h0, hn]
        · simp [Part.size]
  · have hie : i = lp := by omega
    refine ⟨⟨.loop, i, j, lp, hp, v⟩, fun n => ?_, ⟨hs, fun _ => .inl hie⟩, ?_, .refl _ _ _⟩
    · simp [Part.scan, Sort.scan, hi]
    · simp [Part.size]

theorem scan_loop {i j lp hp : Nat} (h : Part.Inv compare p a l ⟨.loop, i, j, lp, hp, v⟩) :
    (i = lp ∧ j = hp ∧ ∀ n, Part.scan compare (n + 1) ⟨.loop, i, j, lp, hp, v⟩ =
      some (v, lp, hp)) ∨ ∃ t, Part.Turn compare p a l ⟨.loop, i, j, lp, hp, v⟩ t := by
  obtain ⟨hs, hw⟩ := h
  obtain ⟨h₁, h₂, h₃, h₄, h₅, -, hmid, -⟩ := id hs
  simp only at h₁ h₂ h₃ h₄ h₅ hmid hs hw
  have hw := hw trivial
  by_cases hj : hp < j
  · right
    obtain ⟨hlt, heq⟩ := hc.congr (x := v j) (hmid hp h₃ (Nat.le_refl _))
    have hsw := hc.swap (v j) (v hp)
    have hsw' := hc.swap (v hp) (v j)
    by_cases h0 : compare (v hp) (v j) = 0
    · have hsp := hs.right_eq hj (heq.1 (by omega))
      rw [← qsexc_eq] at hsp
      refine ⟨⟨.loop, i, j, lp, hp + 1, qsexc (hp + 1) j v⟩, fun n => ?_, ⟨hsp, fun _ => ?_⟩,
        ?_, ?_⟩
      · simp [Part.scan, Sort.scan, hj, h0]
      · by_cases hi : i < lp
        · have hsame : qsexc (hp + 1) j v i = v i := by
            rw [qsexc_eq]
            exact congrArg v (Equiv.swap_apply_of_ne_of_ne (by omega) (by omega))
          exact .inr (by dsimp only; rw [hsame]; exact hw.resolve_left (by omega))
        · exact .inl (by simp only; omega)
      · simp only [Part.size]
        omega
      · rw [qsexc_eq]
        exact shuffles_swap (by omega) (by omega)
    · by_cases hn : 0 < compare (v hp) (v j)
      · have hjp : compare (v j) p < 0 := hlt.1 (hsw.2 hn)
        by_cases hi : i = lp
        · have hsp := hs.shift_up hi hj hjp
          rw [← qstexc_eq (by omega) (by omega)] at hsp
          refine ⟨⟨.loop, lp + 1, j, lp + 1, hp + 1, qstexc i (hp + 1) j v⟩, fun n => ?_,
            ⟨hsp, fun _ => .inl rfl⟩, ?_, ?_⟩
          · simp [Part.scan, Sort.scan, hj, h0, hn, hi]
          · simp only [Part.size]
            omega
          · rw [qstexc_eq (by omega) (by omega)]
            exact shuffles_rotate (by omega) (by omega) (by omega)
        · have hsp := hs.exchange (by omega) hj (hw.resolve_left hi) hjp
          rw [← qsexc_eq] at hsp
          refine ⟨⟨.top, i + 1, j - 1, lp, hp, qsexc i j v⟩, fun n => ?_,
            ⟨hsp, fun h => (nomatch h)⟩, ?_, ?_⟩
          · simp [Part.scan, Sort.scan, hj, h0, hn, hi]
          · simp [Part.size]
            omega
          · rw [qsexc_eq]
            exact shuffles_swap (by omega) (by omega)
      · have hsp := hs.right_gt hj (by omega)
        refine ⟨⟨.loop, i, j - 1, lp, hp, v⟩, fun n => ?_, ⟨hsp, fun _ => hw⟩, ?_, .refl _ _ _⟩
        · simp [Part.scan, Sort.scan, hj, h0, hn]
        · simp only [Part.size]
          omega
  · have hje : j = hp := by omega
    by_cases hi : i = lp
    · refine .inl ⟨hi, hje, fun n => ?_⟩
      simp [Part.scan, Sort.scan, hj, hi]
    · right
      have hsp := hs.shift_down (by omega) hje (hw.resolve_left hi)
      rw [← qstexc_eq (by omega) (by omega)] at hsp
      refine ⟨⟨.top, i, hp - 1, lp - 1, hp - 1, qstexc j (lp - 1) i v⟩, fun n => ?_,
        ⟨hsp, fun h => (nomatch h)⟩, ?_, ?_⟩
      · simp [Part.scan, Sort.scan, hj, hi]
      · simp [Part.size]
        omega
      · rw [qstexc_eq (by omega) (by omega)]
        exact shuffles_rotate (by omega) (by omega) (by omega)

/- The scan ends, with the elements in three parts. -/
theorem scan_parts {s : Part} (h : s.Inv compare p a l) : ∃ v' lp hp,
    (∀ n > s.size, s.scan compare n = some (v', lp, hp)) ∧
      Split compare p v' a lp lp hp hp l ∧ Shuffles a l s.v v' := by
  obtain ⟨d, hd⟩ : ∃ d, d = s.size := ⟨_, rfl⟩
  induction d using Nat.strongRecOn generalizing s with
  | _ d ih =>
    have hturn : (s.i = s.lp ∧ s.j = s.hp ∧
        ∀ n, s.scan compare (n + 1) = some (s.v, s.lp, s.hp)) ∨ ∃ t, s.Turn compare p a l t := by
      obtain ⟨_ | _, i, j, lp, hp, v⟩ := s
      · exact .inr (scan_top hc h)
      · exact scan_loop hc h
    rcases hturn with ⟨hi, hj, he⟩ | ⟨t, ht⟩
    · refine ⟨s.v, s.lp, s.hp, ?_, ?_, .refl _ _ _⟩
      · intro n hn
        cases n with
        | zero => cases hn
        | succ n => exact he n
      · have hs := h.split
        rwa [hi, hj] at hs
    · obtain ⟨v', lp, hp, he, hs, hv⟩ := ih t.size (hd ▸ ht.size) ht.inv rfl
      refine ⟨v', lp, hp, ?_, hs, ht.shuffles.trans hv⟩
      intro n hn
      cases n with
      | zero => cases hn
      | succ n => rw [ht.scan, he n (Nat.lt_of_lt_of_le ht.size (Nat.le_of_lt_succ hn))]

/-! The marks of -u. -/

omit hc in
theorem nulls_apply (n k : Nat) (v : Nat → Line) (m : Nat) :
    nulls n k v m = if k ≤ m ∧ m < k + n then clobber (v m) else v m := by
  induction n generalizing k v with
  | zero => rw [nulls, if_neg (by omega)]
  | succ n ih =>
    rw [nulls, ih]
    by_cases hm : m = k
    · rw [hm, if_neg (by omega), if_pos (by omega), Function.update_self]
    · rw [Function.update_of_ne hm]
      by_cases hin : k + 1 ≤ m ∧ m < k + 1 + n
      · rw [if_pos hin, if_pos (by omega)]
      · rw [if_neg hin, if_neg (by omega)]

/- Sorted as `w`, with every line marked that is equal to the next one. -/
def marked (compare : Line → Line → Int) (uflg : Bool) (a l : Nat) (w : Nat → Line) (k : Nat) :
    Line :=
  if uflg ∧ a ≤ k ∧ k + 1 < l ∧ compare (w k) (w (k + 1)) = 0 then clobber (w k) else w k

/- What qksort makes of the range from `a` to `l`. -/
structure Ordered (compare : Line → Line → Int) (uflg : Bool) (a l : Nat)
    (v v' w : Nat → Line) : Prop where
  shuffles : Shuffles a l v w
  sorted : Sorted compare w a l
  lines : ∀ k, a ≤ k → k < l → v' k = marked compare uflg a l w k
  outside : ∀ k, k < a ∨ l ≤ k → v' k = v k

omit hc in
/-- Only the range of an array matters. -/
theorem Ordered.congr {uflg : Bool} {v₁ v₂ v' w : Nat → Line}
    (h : Ordered compare uflg a l v₂ v' w) (he : ∀ k, a ≤ k → k < l → v₂ k = v₁ k) :
    ∃ w', Shuffles a l v₁ w' ∧ Sorted compare w' a l ∧
      ∀ k, a ≤ k → k < l → v' k = marked compare uflg a l w' k := by
  obtain ⟨⟨s, hs, rfl⟩, hsort, hlines, -⟩ := h
  have hrange : ∀ k, a ≤ k → k < l → (v₂ ∘ s) k = (v₁ ∘ s) k := by
    have hmem := Shuffles.forall (P := fun k => a ≤ k ∧ k < l) (v := id) ⟨s, hs, rfl⟩
      (fun _ h h' => ⟨h, h'⟩)
    intro k hk hkl
    have hm := hmem k hk hkl
    exact he (s k) hm.1 hm.2
  refine ⟨v₁ ∘ s, ⟨s, hs, rfl⟩, hsort.congr fun k hk hkl => (hrange k hk hkl).symm,
    fun k hk hkl => ?_⟩
  rw [hlines k hk hkl, marked, marked, hrange k hk hkl]
  by_cases hk1 : k + 1 < l
  · rw [hrange (k + 1) (by omega) hk1]
  · rw [if_neg (by omega), if_neg (by omega)]

/-- The two outer parts, each ordered, with the middle one marked. -/
theorem ordered_join {uflg : Bool} {v₁ v' wl wu : Nat → Line} {lp hp : Nat}
    (hs : Split compare p v₁ a lp lp hp hp l) (hv : Shuffles a l v v₁)
    (hl : Shuffles a lp v₁ wl) (hsl : Sorted compare wl a lp)
    (hll : ∀ k, a ≤ k → k < lp → v' k = marked compare uflg a lp wl k)
    (hm : ∀ k, lp ≤ k → k ≤ hp → v' k = if uflg ∧ k < hp then clobber (v₁ k) else v₁ k)
    (hu : Shuffles (hp + 1) l v₁ wu) (hsu : Sorted compare wu (hp + 1) l)
    (hlu : ∀ k, hp < k → k < l → v' k = marked compare uflg (hp + 1) l wu k)
    (hout : ∀ k, k < a ∨ l ≤ k → v' k = v k) : ∃ w, Ordered compare uflg a l v v' w := by
  obtain ⟨h₁, -, h₃, -, h₅, hlow, hmid, hhigh⟩ := id hs
  obtain ⟨su, hsu', rfl⟩ := hu
  have hhi : ∀ k, hp < k → k < l → (wl ∘ su) k = (v₁ ∘ su) k := by
    have hmem := Shuffles.forall (P := fun k => hp + 1 ≤ k ∧ k < l) (v := id) ⟨su, hsu', rfl⟩
      (fun _ h h' => ⟨h, h'⟩)
    intro k hk hkl
    have hin := (hmem k hk hkl).1
    exact hl.outside (.inr (by simp only [Function.comp, id] at hin; omega))
  have hlo : ∀ k, k ≤ hp → (wl ∘ su) k = wl k := fun k hk =>
    congrArg wl (hsu' k (.inl (by omega)))
  have hmi : ∀ k, lp ≤ k → k ≤ hp → (wl ∘ su) k = v₁ k := fun k hk hkh =>
    (hlo k hkh).trans (hl.outside (.inr hk))
  obtain ⟨hsort, hshuf⟩ := hs.lower_upper hc hl hsl ⟨su, hsu', rfl⟩
    (hsu.congr fun k hk hkl => hhi k hk hkl)
  have hbelow : ∀ k, a ≤ k → k < lp → compare ((wl ∘ su) k) p < 0 := by
    intro k hk hkl
    rw [hlo k (by omega)]
    exact hl.forall (P := fun x => compare x p < 0) hlow k hk hkl
  have habove : ∀ k, hp < k → k < l → 0 < compare ((wl ∘ su) k) p := by
    intro k hk hkl
    rw [hhi k hk hkl]
    exact Shuffles.forall (P := fun x => 0 < compare x p) ⟨su, hsu', rfl⟩
      (fun k hk hkl => hhigh k hk hkl) k hk hkl
  have heq : ∀ k, lp ≤ k → k ≤ hp → compare ((wl ∘ su) k) p = 0 := by
    intro k hk hkh
    rw [hmi k hk hkh]
    exact hmid k hk hkh
  refine ⟨wl ∘ su, hv.trans hshuf, hsort, fun k hk hkl => ?_, hout⟩
  rw [marked]
  by_cases hklp : k < lp
  · rw [hll k hk hklp, marked, ← hlo k (by omega)]
    by_cases hk1 : k + 1 < lp
    · rw [← hlo (k + 1) (by omega)]
      exact if_congr (and_congr_right fun _ => by omega) rfl rfl
    · -- the next line is equal to the pivot
      have hne := (hc.congr (x := (wl ∘ su) k) (heq (k + 1) (by omega) (by omega))).1
      have hlt := hbelow k hk hklp
      rw [if_neg (by omega), if_neg (by omega)]
  · by_cases hkhp : k ≤ hp
    · rw [hm k (by omega) hkhp, ← hmi k (by omega) hkhp]
      by_cases hk1 : k < hp
      · have hz := (hc.congr (x := (wl ∘ su) k) (heq (k + 1) (by omega) (by omega))).2
        have hke := heq k (by omega) hkhp
        exact if_congr (and_congr_right fun _ => by omega) rfl rfl
      · by_cases hk2 : k + 1 < l
        · have hpos := habove (k + 1) (by omega) hk2
          have hsw := hc.swap ((wl ∘ su) k) ((wl ∘ su) (k + 1))
          have hz := hc.congr (x := (wl ∘ su) (k + 1)) (heq k (by omega) hkhp)
          rw [if_neg (by omega), if_neg (by omega)]
        · rw [if_neg (by omega), if_neg (by omega)]
    · rw [hlu k (by omega) hkl, marked, ← hhi k (by omega) hkl]
      by_cases hk1 : k + 1 < l
      · rw [← hhi (k + 1) (by omega) hk1]
        exact if_congr (and_congr_right fun _ => by omega) rfl rfl
      · rw [if_neg (by omega), if_neg (by omega)]

theorem qksort_ordered (uflg : Bool) (ha : a ≤ l) (v : Nat → Line) :
    ∃ v' w, (∃ N, ∀ n ≥ N, qksort compare uflg n a l v = some v') ∧
      Ordered compare uflg a l v v' w := by
  obtain ⟨d, hd⟩ : ∃ d, d = l - a := ⟨_, rfl⟩
  induction d using Nat.strongRecOn generalizing a l v with
  | _ d ih =>
  by_cases h1 : l - a ≤ 1
  · refine ⟨v, v, ⟨1, fun n hn => ?_⟩, .refl _ _ _, fun k m _ _ _ => by omega, fun k hk hkl => ?_,
      fun _ _ => rfl⟩
    · obtain ⟨n, rfl⟩ : ∃ m, n = m + 1 := ⟨n - 1, by omega⟩
      rw [qksort, if_pos h1]
    · rw [marked, if_neg (by omega)]
  obtain ⟨hpa, hpl⟩ := pivot_mem compare v (show 1 < l - a by omega)
  have hinv : Part.Inv compare (v (pivot compare a l v)) a l
      ⟨.top, a, l - 1, pivot compare a l v, pivot compare a l v, v⟩ :=
    ⟨split_start hc hpa hpl, fun h => (nomatch h)⟩
  obtain ⟨v₁, lp, hp, hscan, hs, hv⟩ := scan_parts hc hinv
  obtain ⟨hlp, -, hlh, -, hhp, -⟩ := id hs
  obtain ⟨N, hN⟩ : ∃ N, N = Part.size
    ⟨.top, a, l - 1, pivot compare a l v, pivot compare a l v, v⟩ + 1 := ⟨_, rfl⟩
  obtain ⟨v₂, hv₂⟩ : ∃ v₂, v₂ = if uflg then nulls (hp - lp) lp v₁ else v₁ := ⟨_, rfl⟩
  have hmark : ∀ k, v₂ k = if uflg ∧ lp ≤ k ∧ k < hp then clobber (v₁ k) else v₁ k := by
    intro k
    rw [hv₂]
    cases uflg with
    | false => rfl
    | true =>
      rw [if_pos rfl, nulls_apply]
      exact if_congr (by simp only [true_and]; omega) rfl rfl
  have hrun : ∀ n ≥ N, qksort compare uflg (n + 1) a l v =
      if lp - a ≥ l - hp then
        (qksort compare uflg n (hp + 1) l v₂).bind fun v => qksort compare uflg n a lp v
      else (qksort compare uflg n a lp v₂).bind fun v => qksort compare uflg n (hp + 1) l v := by
    intro n hn
    have he : scan compare n .top a (l - 1) (pivot compare a l v) (pivot compare a l v) v =
        some (v₁, lp, hp) := hscan n (by omega)
    rw [qksort, if_neg h1]
    simp only [he, hv₂, Option.bind_eq_bind, Option.bind_some]
  have hrange : ∀ k, k < lp ∨ hp < k → v₂ k = v₁ k := by
    intro k hk
    rw [hmark k, if_neg (by omega)]
  have hmid : ∀ k, lp ≤ k → k ≤ hp →
      v₂ k = if uflg ∧ k < hp then clobber (v₁ k) else v₁ k := by
    intro k hk _
    rw [hmark k]
    exact if_congr (and_congr_right fun _ => by omega) rfl rfl
  by_cases hside : lp - a ≥ l - hp
  · obtain ⟨v₃, w₃, ⟨N₃, hrun₃⟩, ho₃⟩ :=
      ih (l - (hp + 1)) (by omega) (a := hp + 1) (l := l) (by omega) v₂ rfl
    obtain ⟨v₄, w₄, ⟨N₄, hrun₄⟩, ho₄⟩ := ih (lp - a) (by omega) hlp v₃ rfl
    obtain ⟨wu, hsu, hou, hlu⟩ := ho₃.congr fun k hk _ => hrange k (.inr (by omega))
    obtain ⟨wl, hsl, hol, hll⟩ := ho₄.congr fun k _ hk =>
      (ho₃.outside k (.inl (by omega))).trans (hrange k (.inl hk))
    have hmid₄ : ∀ k, lp ≤ k → k ≤ hp →
        v₄ k = if uflg ∧ k < hp then clobber (v₁ k) else v₁ k := by
      intro k hk hkh
      rw [ho₄.outside k (.inr hk), ho₃.outside k (.inl (by omega)), hmid k hk hkh]
    have hup : ∀ k, hp < k → k < l → v₄ k = marked compare uflg (hp + 1) l wu k := by
      intro k hk hkl
      rw [ho₄.outside k (.inr (by omega)), hlu k hk hkl]
    have hout : ∀ k, k < a ∨ l ≤ k → v₄ k = v k := by
      intro k hk
      rw [ho₄.outside k (by omega), ho₃.outside k (by omega), hrange k (by omega)]
      exact hv.outside hk
    obtain ⟨w, hw⟩ := ordered_join hc hs hv hsl hol hll hmid₄ hsu hou hup hout
    refine ⟨v₄, w, ⟨N + N₃ + N₄ + 1, fun n hn => ?_⟩, hw⟩
    obtain ⟨n, rfl⟩ : ∃ m, n = m + 1 := ⟨n - 1, by omega⟩
    rw [hrun n (by omega), if_pos hside, hrun₃ n (by omega), Option.bind_some,
      hrun₄ n (by omega)]
  · obtain ⟨v₃, w₃, ⟨N₃, hrun₃⟩, ho₃⟩ := ih (lp - a) (by omega) hlp v₂ rfl
    obtain ⟨v₄, w₄, ⟨N₄, hrun₄⟩, ho₄⟩ :=
      ih (l - (hp + 1)) (by omega) (a := hp + 1) (l := l) (by omega) v₃ rfl
    obtain ⟨wl, hsl, hol, hll⟩ := ho₃.congr fun k _ hk => hrange k (.inl hk)
    obtain ⟨wu, hsu, hou, hlu⟩ := ho₄.congr fun k hk _ =>
      (ho₃.outside k (.inr (by omega))).trans (hrange k (.inr (by omega)))
    have hlow : ∀ k, a ≤ k → k < lp → v₄ k = marked compare uflg a lp wl k := by
      intro k hk hkl
      rw [ho₄.outside k (.inl (by omega)), hll k hk hkl]
    have hmid₄ : ∀ k, lp ≤ k → k ≤ hp →
        v₄ k = if uflg ∧ k < hp then clobber (v₁ k) else v₁ k := by
      intro k hk hkh
      rw [ho₄.outside k (.inl (by omega)), ho₃.outside k (.inr hk), hmid k hk hkh]
    have hout : ∀ k, k < a ∨ l ≤ k → v₄ k = v k := by
      intro k hk
      rw [ho₄.outside k (by omega), ho₃.outside k (by omega), hrange k (by omega)]
      exact hv.outside hk
    obtain ⟨w, hw⟩ := ordered_join hc hs hv hsl hol hlow hmid₄ hsu hou hlu hout
    refine ⟨v₄, w, ⟨N + N₃ + N₄ + 1, fun n hn => ?_⟩, hw⟩
    obtain ⟨n, rfl⟩ : ∃ m, n = m + 1 := ⟨n - 1, by omega⟩
    rw [hrun n (by omega), if_neg hside, hrun₃ n (by omega), Option.bind_some,
      hrun₄ n (by omega)]

end Svr32.Sort
