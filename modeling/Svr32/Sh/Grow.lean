import Svr32.Sh.Scan

/-! A block that is taken, and the arena when it grows. -/
namespace Svr32.Sh
variable {s : State} {m : Mem} {l pre post : List Nat} {a b e p r n : Nat}

/-- The words of the chain, and what is at its two ends. -/
structure Arena (s : State) (l : List Nat) : Prop where
  linked : Linked s.mem l s.bloktop
  first : nxt l s.bloktop = s.brkbegin
  top : s.mem s.bloktop = s.brkbegin + 1
  topal : s.bloktop % 4 = 0
  begal : s.brkbegin % 4 = 0
  pos : 0 < s.brkbegin

theorem nxt_mem (l : List Nat) (e : Nat) : nxt l e ∈ l ∨ nxt l e = e := by
  cases l with
  | nil => exact Or.inr rfl
  | cons a l => exact Or.inl List.mem_cons_self

/-- What becomes of the chain when the free block at `p` is taken. -/
theorem carve_chain (h : Linked m (pre ++ p :: post) e) (hp : ¬ busy m p)
    (hr : r % 4 = 0) (hr0 : 0 < r) (hfit : p + r ≤ m p) :
    ∃ l', Linked (putw p (mark (p + r)) (if p + r < m p then putw (p + r) (m p) m else m)) l' e ∧
      nxt l' e = nxt (pre ++ p :: post) e ∧
      Keeps m (pre ++ p :: post)
        (putw p (mark (p + r)) (if p + r < m p then putw (p + r) (m p) m else m)) l' ∧
      p ∈ l' ∧ (p + r ∈ l' ∨ p + r = e) := by
  have hal := h.aligned
  have hp4 : p % 4 = 0 := hal p (by simp)
  have hbound := h.bounds p (by simp)
  rw [busy_not hp] at hbound
  have hdisj : ∀ a ∈ pre ++ p :: post, a ≠ p → clear (m a) ≤ p ∨ m p ≤ a := by
    intro a ha hne
    have hd := h.disjoint ha (b := p) (by simp) hne
    rwa [busy_not hp] at hd
  have hmark : mark (p + r) = p + r + 1 := mark_eq (by omega)
  have hnxt : m p = nxt post e := by
    rw [← busy_not hp]
    exact (Linked.append_iff.1 h).2.2.2.2.1
  generalize hm' : putw p (mark (p + r)) (if p + r < m p then putw (p + r) (m p) m else m) = m'
  have hmp : m' p = p + r + 1 := by rw [← hm', putw_self, hmark]
  -- outside the block nothing is written
  have hframe : ∀ b, b < p ∨ m p ≤ b → m' b = m b := by
    intro b hb
    rw [← hm', putw_out (by omega)]
    split
    · exact putw_out (by omega)
    · rfl
  have hword : ∀ a ∈ pre ++ p :: post, a ≠ p → m' a = m a := by
    intro a ha hne
    have hb := h.bounds a ha
    exact hframe a (by have hd := hdisj a ha hne; omega)
  have hkeep : ∀ a ∈ pre ++ p :: post, busy m a → m' a = m a := fun a ha hb =>
    hword a ha fun he => hp (he ▸ hb)
  have hout : ∀ b, ¬ InFree m (pre ++ p :: post) b → m' b = m b := by
    intro b hb
    apply hframe
    by_contra hno
    exact hb ⟨p, by simp, hp, by omega, by omega⟩
  have hpre : Linked m' pre p := by
    apply (Linked.append_iff.1 h).1.congr
    intro a ha
    have hne : a ≠ p := (List.nodup_append.1 h.nodup).2.2 a ha p List.mem_cons_self
    rw [hword a (List.mem_append_left _ ha) hne]
  have hpost : Linked m' post e := by
    apply (Linked.append_iff.1 h).2.2.2.2.2.congr
    intro a ha
    have hne : a ≠ p := fun he =>
      (List.nodup_cons.1 (List.nodup_append.1 h.nodup).2.1).1 (he ▸ ha)
    rw [hword a (List.mem_append_right _ (List.mem_cons_of_mem p ha)) hne]
  have hcl : clear (m' p) = p + r := by
    rw [hmp, clear]
    omega
  by_cases hrest : p + r < m p
  · have hq : m' (p + r) = m p := by
      rw [← hm', if_pos hrest, putw_out (by omega), putw_self]
    have hsub : pre ++ p :: post ⊆ pre ++ p :: (p + r) :: post := by
      intro a ha
      rw [List.mem_append, List.mem_cons] at ha
      rw [List.mem_append, List.mem_cons, List.mem_cons]
      exact ha.imp id fun h => h.imp id Or.inr
    refine ⟨pre ++ p :: (p + r) :: post, ?_, ?_, ⟨fun a ha hb => ⟨hsub ha, hkeep a ha hb⟩, hout, ?_⟩,
      by simp, Or.inl (by simp)⟩
    · rw [Linked.append_iff]
      refine ⟨hpre, hp4, ?_, ?_, hcl, ?_, ?_, ?_, ?_, hpost⟩
      · show p + 4 ≤ p + r
        omega
      · show (p + r) % 4 = 0
        omega
      · omega
      · rw [← hnxt]
        omega
      · rw [← hnxt]
        omega
      · rw [hq, clear_eq (by omega), hnxt]
    · rw [nxt_append, nxt_append]
      rfl
    · rintro b ⟨a, ha, hfree, hlo, hhi⟩
      by_cases hap : a = p
      · subst hap
        exact absurd (show busy m' a by rw [busy, hmp]; omega) hfree
      · by_cases haq : a = p + r
        · subst haq
          exact ⟨p, by simp, hp, by omega, by omega⟩
        · have ham : a ∈ pre ++ p :: post := by
            rw [List.mem_append, List.mem_cons, List.mem_cons] at ha
            rw [List.mem_append, List.mem_cons]
            exact ha.imp id fun h => h.imp id fun h => h.resolve_left haq
          have heq := hword a ham hap
          rw [busy, heq] at hfree
          rw [heq] at hhi
          exact ⟨a, ham, hfree, hlo, hhi⟩
  · have heq : p + r = nxt post e := by omega
    refine ⟨pre ++ p :: post, ?_, rfl, ⟨fun a ha hb => ⟨ha, hkeep a ha hb⟩, hout, ?_⟩, by simp, ?_⟩
    · rw [Linked.append_iff]
      refine ⟨hpre, hp4, by omega, by omega, by omega, hpost⟩
    · rintro b ⟨a, ha, hfree, hlo, hhi⟩
      by_cases hap : a = p
      · subst hap
        exact absurd (show busy m' a by rw [busy, hmp]; omega) hfree
      · have heq := hword a ha hap
        rw [busy, heq] at hfree
        rw [heq] at hhi
        exact ⟨a, ha, hfree, hlo, hhi⟩
    · rcases nxt_mem post e with hm | hm
      · exact Or.inl (List.mem_append_right _ (List.mem_cons_of_mem p (heq ▸ hm)))
      · exact Or.inr (heq.trans hm)

/-- The block at `p` is taken: it is busy, and was free. -/
theorem carve_spec (h : Arena s l) (hp : p ∈ l) (hfree : ¬ busy s.mem p) (hr : r % 4 = 0)
    (hr0 : 0 < r) (hfit : p + r ≤ s.mem p) :
    ∃ l', Arena (carve r p s) l' ∧ Keeps s.mem l (carve r p s).mem l' ∧ p ∈ l' ∧
      (p + r ∈ l' ∨ p + r = s.bloktop) ∧ (carve r p s).mem p = p + r + 1 ∧ ∀ b, p ≤ b → b < p + r → InFree s.mem l b := by
  have hp4 : p % 4 = 0 := h.linked.aligned p hp
  obtain ⟨pre, post, rfl⟩ := List.append_of_mem hp
  have hbound := h.linked.bounds p (by simp)
  rw [busy_not hfree] at hbound
  obtain ⟨l', hl', hn', hk, hp', hq'⟩ := carve_chain h.linked hfree hr hr0 hfit
  have htop : (carve r p s).mem s.bloktop = s.mem s.bloktop := by
    apply hk.frame
    rintro ⟨a, ha, hf, hlo, hhi⟩
    have hb := h.linked.bounds a ha
    rw [busy_not hf] at hb
    omega
  refine ⟨l', ⟨hl', hn'.trans h.first, htop.trans h.top, h.topal, h.begal, h.pos⟩, hk, hp',
    hq', ?_, ?_⟩
  · show putw p (mark (p + r)) _ p = _
    rw [putw_self, mark_eq (by omega)]
  · intro b hlo hhi
    exact ⟨p, by simp, hfree, hlo, by omega⟩

theorem Linked.below (h : Linked m l e) {m' : Mem} (hm : ∀ b, b < e → m' b = m b) : Linked m' l e := by
  apply h.congr
  intro a ha
  have hb := h.bounds a ha
  rw [hm a (by omega)]

theorem nxt_snoc : nxt (l ++ [a]) e = nxt l a := by
  rw [nxt_append]
  rfl

/- A word is put behind the last one. -/
theorem Linked.snoc (h : Linked m l e) {v : Nat} (he : e % 4 = 0) (hv : v % 4 = 0) (hle : e + 4 ≤ v)
    (hc : clear (m e) = v) : Linked m (l ++ [e]) v := by
  rw [Linked.append_iff]
  exact ⟨h, he, hle, hv, hc, trivial⟩

/- movstr writes from `b` on, and leaves the string where it is. -/
theorem movstr_frame (n a b : Nat) (m : Mem) :
    b ≤ (movstr n a b m).1 ∧ ∀ x, x < b → (movstr n a b m).2 x = m x := by
  induction n generalizing a b m with
  | zero => exact ⟨Nat.le_refl b, fun _ _ => rfl⟩
  | succ n ih =>
    rw [movstr]
    split
    · exact ⟨Nat.le_refl b, fun x hx => Function.update_of_ne (by omega) _ _⟩
    · obtain ⟨h1, h2⟩ := ih (a + 1) (b + 1) (Function.update m b (m a))
      refine ⟨by omega, fun x hx => ?_⟩
      rw [h2 x (by omega), Function.update_of_ne (by omega)]

/-- A string of `n` characters is copied whole. -/
theorem movstr_string (k n a b : Nat) (m : Mem) (hn : n < k) (hlt : a + n < b)
    (hs : ∀ i, i < n → m (a + i) ≠ 0) (h0 : m (a + n) = 0) :
    (movstr k a b m).1 = b + n ∧ ∀ i, i < n → (movstr k a b m).2 (b + i) = m (a + i) := by
  induction k generalizing n a b m with
  | zero => exact absurd hn (Nat.not_lt_zero n)
  | succ k ih =>
    rw [movstr]
    cases n with
    | zero =>
      rw [Nat.add_zero] at h0
      rw [if_pos h0]
      exact ⟨rfl, fun i hi => absurd hi (Nat.not_lt_zero i)⟩
    | succ n =>
      have ha : m a ≠ 0 := hs 0 (Nat.succ_pos n)
      rw [if_neg ha]
      have hkeep : ∀ i, i ≤ n → Function.update m b (m a) (a + 1 + i) = m (a + (i + 1)) := by
        intro i hi
        rw [Function.update_of_ne (by omega)]
        congr 1
        omega
      obtain ⟨h1, h2⟩ := ih n (a + 1) (b + 1) (Function.update m b (m a)) (by omega) (by omega)
        (fun i hi => by rw [hkeep i (by omega)]; exact hs (i + 1) (by omega))
        (by rw [hkeep n (Nat.le_refl n)]; exact h0)
      refine ⟨by omega, ?_⟩
      intro i hi
      cases i with
      | zero =>
        rw [(movstr_frame k (a + 1) (b + 1) _).2 _ (by omega), Nat.add_zero, Nat.add_zero,
          Function.update_self]
      | succ i =>
        have hi' := h2 i (by omega)
        rw [hkeep i (by omega)] at hi'
        have heq : b + (i + 1) = b + 1 + i := by omega
        rw [heq]
        exact hi'

/-- The stack segment is a busy block at the end of the chain. -/
theorem cover_spec (h : Linked s.mem l s.bloktop) (htop : s.bloktop % 4 = 0)
    (hbas : s.stakbas = s.bloktop + 8) (hlt : s.stakbas < s.staktop) :
    (cover s).bloktop = round (s.staktop + 1) ∧ s.staktop < (cover s).bloktop ∧
      (cover s).bloktop % 4 = 0 ∧ Linked (cover s).mem (l ++ [s.bloktop]) (cover s).bloktop ∧
      busy (cover s).mem s.bloktop ∧ clear ((cover s).mem s.bloktop) = (cover s).bloktop ∧
      (cover s).mem (s.bloktop + 4) = s.stakbsy ∧ (cover s).mem s.staktop = 0 ∧
      ∀ b, b < s.bloktop ∨ s.stakbas ≤ b ∧ b ≠ s.staktop → (cover s).mem b = s.mem b := by
  have hr : s.staktop < round (s.staktop + 1) ∧ round (s.staktop + 1) % 4 = 0 := by
    rw [round]
    omega
  have hmem : (cover s).mem = putw s.bloktop (mark (round (s.staktop + 1)))
      (putw (s.stakbas - 4) s.stakbsy (Function.update s.mem s.staktop 0)) := rfl
  have hblok : (cover s).mem s.bloktop = round (s.staktop + 1) + 1 := by
    rw [hmem, putw_self, mark_eq hr.2]
  have hframe : ∀ b, b < s.bloktop ∨ s.stakbas ≤ b ∧ b ≠ s.staktop → (cover s).mem b = s.mem b := by
    intro b hb
    rw [hmem, putw_out (by omega), putw_out (by omega), Function.update_of_ne (by omega)]
  have hcl : clear ((cover s).mem s.bloktop) = round (s.staktop + 1) := by
    rw [hblok, clear]
    omega
  refine ⟨rfl, hr.1, hr.2, ?_, ?_, hcl, ?_, ?_, hframe⟩
  · exact (h.below fun b hb => hframe b (Or.inl hb)).snoc htop hr.2
      (by show _ ≤ round _; omega) hcl
  · rw [busy, hblok]
    omega
  · rw [hmem, putw_out (by omega), hbas, Nat.add_sub_assoc (by omega)]
    exact putw_self
  · rw [hmem, putw_out (by omega), putw_out (by omega), Function.update_self]

/-- A free block of `r` bytes is put at the end of the chain, and an empty stack segment above it,
with the string that was at stakbot. -/
theorem extend_spec (h : Linked s.mem l s.bloktop) (hfirst : nxt l s.bloktop = s.brkbegin)
    (htop : s.bloktop % 4 = 0) (hbeg : s.brkbegin % 4 = 0) (hpos : 0 < s.brkbegin) (hr : r % 4 = 0)
    (hr0 : 0 < r) :
    Arena (extend r s) (l ++ [s.bloktop]) ∧ (extend r s).blokp = s.bloktop ∧
      (extend r s).bloktop = s.bloktop + r ∧ (extend r s).mem s.bloktop = s.bloktop + r ∧
      (∀ b, b < s.bloktop → (extend r s).mem b = s.mem b) ∧
      (extend r s).stakbas = s.bloktop + r + 8 ∧ (extend r s).stakbot = s.bloktop + r + 8 ∧
      (extend r s).stakbot ≤ (extend r s).staktop := by
  generalize hm : putw (s.bloktop + r) (s.brkbegin + 1) (putw s.bloktop (s.bloktop + r) s.mem) = m
  have hmem : ∀ b, b < s.bloktop + r + 8 → (extend r s).mem b = m b := by
    intro b hb
    rw [← hm]
    show (if _ then _ else _ : Nat × Mem).2 b = _
    split
    · exact (movstr_frame _ _ _ _).2 b hb
    · rfl
  have hstk : (extend r s).stakbot ≤ (extend r s).staktop := by
    show _ ≤ (if _ then _ else _ : Nat × Mem).1
    split
    · exact (movstr_frame _ _ _ _).1
    · exact Nat.le_refl _
  have hlow : ∀ b, b < s.bloktop → (extend r s).mem b = s.mem b := by
    intro b hb
    rw [hmem b (by omega), ← hm, putw_out (by omega), putw_out (by omega)]
  have hblok : (extend r s).mem s.bloktop = s.bloktop + r := by
    rw [hmem _ (by omega), ← hm, putw_out (by omega), putw_self]
  have hend : (extend r s).mem (s.bloktop + r) = s.brkbegin + 1 := by
    rw [hmem _ (by omega), ← hm, putw_self]
  have hlink : Linked (extend r s).mem (l ++ [s.bloktop]) (s.bloktop + r) :=
    (h.below hlow).snoc htop (by omega) (by omega) (by rw [hblok, clear_eq (by omega)])
  refine ⟨⟨hlink, ?_, hend, ?_, hbeg, hpos⟩, rfl, rfl, hblok, hlow, rfl, rfl, hstk⟩
  · rw [nxt_snoc]
    exact hfirst
  · show (s.bloktop + r) % 4 = 0
    omega

/-- The unfinished item is a string: extend copies it whole. -/
theorem extend_item {k : Nat} (hk : s.stakbot + k < s.staktop) (htop : s.staktop ≤ s.bloktop)
    (hs : ∀ i, i < k → s.mem (s.stakbot + i) ≠ 0) (h0 : s.mem (s.stakbot + k) = 0) :
    (extend r s).staktop = (extend r s).stakbot + k ∧
      ∀ i, i < k → (extend r s).mem ((extend r s).stakbot + i) = s.mem (s.stakbot + i) := by
  have hne : s.stakbot ≠ s.staktop := by omega
  have hlow : ∀ b, b < s.bloktop →
      putw (s.bloktop + r) (s.brkbegin + 1) (putw s.bloktop (s.bloktop + r) s.mem) b = s.mem b := by
    intro b hb
    rw [putw_out (by omega), putw_out (by omega)]
  obtain ⟨h1, h2⟩ := movstr_string (s.staktop - s.stakbot) k s.stakbot (s.bloktop + r + 8)
    (putw (s.bloktop + r) (s.brkbegin + 1) (putw s.bloktop (s.bloktop + r) s.mem)) (by omega)
    (by omega) (fun i hi => by rw [hlow _ (by omega)]; exact hs i hi)
    (by rw [hlow _ (by omega)]; exact h0)
  constructor
  · show (if _ then _ else _ : Nat × Mem).1 = _
    rw [if_pos hne]
    exact h1
  · intro i hi
    show (if _ then _ else _ : Nat × Mem).2 _ = _
    rw [if_pos hne, ← hlow _ (by omega)]
    exact h2 i hi

end Svr32.Sh
