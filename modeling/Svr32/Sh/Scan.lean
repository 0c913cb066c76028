import Svr32.Sh.Code

/-! The search for a block: free blocks are joined, and nothing else happens. -/
namespace Svr32.Sh
variable {α : Type*} {m m' m'' : Mem} {l l' l'' pre post suf : List Nat} {b e p r c : Nat}

/-- A loop ends, with `x`: so it does with any number of turns that is large enough. -/
def Ends (g : Nat → Option α) (x : α) : Prop := ∃ n, ∀ f, n ≤ f → g f = some x

theorem Ends.turn {g g' : Nat → Option α} {x : α} (h : Ends g x)
    (hg : ∃ n, ∀ f, n ≤ f → g' (f + 1) = g f) : Ends g' x := by
  obtain ⟨n, hn⟩ := h
  obtain ⟨k, hk⟩ := hg
  refine ⟨max n k + 1, ?_⟩
  intro f hf
  obtain ⟨d, rfl⟩ := Nat.exists_eq_add_of_le' (Nat.le_trans (Nat.le_add_left 1 _) hf)
  rw [hk d (by omega), hn d (by omega)]

theorem Ends.now {g : Nat → Option α} {x : α} (hg : ∃ n, ∀ f, n ≤ f → g (f + 1) = some x) : Ends g x :=
  @Ends.turn _ (fun _ => some x) g x ⟨0, fun _ _ => rfl⟩ hg

/-- Free blocks have been joined. -/
structure Joined (m : Mem) (l : List Nat) (m' : Mem) (l' : List Nat) : Prop extends
    Keeps m l m' l' where
  free' : ∀ b, InFree m l b → InFree m' l' b

theorem Joined.refl (m : Mem) (l : List Nat) : Joined m l m l := ⟨Keeps.refl m l, fun _ hb => hb⟩

theorem Joined.trans (h : Joined m l m' l') (h' : Joined m' l' m'' l'') : Joined m l m'' l'' :=
  ⟨h.toKeeps.trans h'.toKeeps, fun b hb => h'.free' b (h.free' b hb)⟩

/-- A free block takes in the free block behind it. -/
theorem join_one (h : Linked m (pre ++ p :: c :: post) e) (hp : ¬ busy m p) (hc : ¬ busy m c) :
    Linked (putw p (m c) m) (pre ++ p :: post) e ∧
      Joined m (pre ++ p :: c :: post) (putw p (m c) m) (pre ++ p :: post) ∧
      ∀ a, a % 4 = 0 → a ≠ p → putw p (m c) m a = m a := by
  have hal := h.aligned
  have hnd := h.nodup
  have hp4 : p % 4 = 0 := hal p (by simp)
  have hword : ∀ a, a % 4 = 0 → a ≠ p → putw p (m c) m a = m a := fun a ha hne =>
    putw_word hp4 ha hne
  rw [Linked.append_iff] at h
  obtain ⟨h1, h2⟩ := h
  have hpc := busy_not hp
  have hcc := busy_not hc
  have hnc : nxt (c :: post) e = c := rfl
  have hpn : p + 4 ≤ c ∧ m p = c := by
    have ha := h2.2.1
    have hb := h2.2.2.2.1
    omega
  have h3 := h2.2.2.2.2
  have hcn : c + 4 ≤ m c ∧ m c = nxt post e := by
    have ha := h3.2.1
    have hb := h3.2.2.2.1
    omega
  rw [List.nodup_append, List.nodup_cons, List.nodup_cons] at hnd
  obtain ⟨-, ⟨hpm, -⟩, hdis⟩ := hnd
  have hpre : ∀ a ∈ pre, a ≠ p := fun a ha => hdis a ha p List.mem_cons_self
  have hpost : ∀ a ∈ post, a ≠ p := fun a ha he => hpm (he ▸ List.mem_cons_of_mem c ha)
  have hsame : ∀ a ∈ pre ++ p :: post, a ≠ p → putw p (m c) m a = m a := by
    intro a ha hne
    apply hword a (hal a ?_) hne
    rw [List.mem_append, List.mem_cons] at ha ⊢
    rw [List.mem_cons]
    exact ha.imp id fun h => h.imp id Or.inr
  refine ⟨?_, ⟨⟨?_, ?_, ?_⟩, ?_⟩, hword⟩
  · rw [Linked.append_iff]
    constructor
    · apply h1.congr
      intro a ha
      rw [hsame a (List.mem_append_left _ ha) (hpre a ha)]
    · refine ⟨hp4, by omega, h3.2.2.1, ?_, ?_⟩
      · rw [putw_self]
        exact h3.2.2.2.1
      · apply h3.2.2.2.2.congr
        intro a ha
        rw [hsame a (List.mem_append_right _ (List.mem_cons_of_mem p ha)) (hpost a ha)]
  · intro a ha hb
    have hap : a ≠ p := fun he => hp (he ▸ hb)
    have hac : a ≠ c := fun he => hc (he ▸ hb)
    apply And.intro ?_ (hword a (hal a ha) hap)
    rw [List.mem_append, List.mem_cons, List.mem_cons] at ha
    rw [List.mem_append, List.mem_cons]
    exact ha.imp id fun h => Or.inr ((h.resolve_left hap).resolve_left hac)
  · intro b hb
    apply putw_out
    by_contra hno
    exact hb ⟨p, by simp, hp, by omega, by omega⟩
  · rintro b ⟨a, ha, hfree, hlo, hhi⟩
    by_cases hap : a = p
    · subst hap
      rw [putw_self] at hhi
      by_cases hbc : b < c
      · exact ⟨a, by simp, hp, hlo, by omega⟩
      · exact ⟨c, by simp, hc, by omega, hhi⟩
    · have heq := hsame a ha hap
      rw [busy, heq] at hfree
      rw [heq] at hhi
      refine ⟨a, ?_, hfree, hlo, hhi⟩
      rw [List.mem_append, List.mem_cons] at ha
      rw [List.mem_append, List.mem_cons, List.mem_cons]
      exact ha.imp id fun h => h.imp id Or.inr
  · rintro b ⟨a, ha, hfree, hlo, hhi⟩
    have hpfree : ¬ busy (putw p (m c) m) p := by
      rw [busy, putw_self]
      exact hc
    by_cases hap : a = p
    · subst hap
      refine ⟨a, by simp, hpfree, hlo, ?_⟩
      rw [putw_self]
      omega
    · by_cases hac : a = c
      · subst hac
        refine ⟨p, by simp, hpfree, by omega, ?_⟩
        rwa [putw_self]
      · have heq := hword a (hal a ha) hap
        refine ⟨a, ?_, ?_, hlo, ?_⟩
        · rw [List.mem_append, List.mem_cons, List.mem_cons] at ha
          rw [List.mem_append, List.mem_cons]
          exact ha.imp id fun h => Or.inr ((h.resolve_left hap).resolve_left hac)
        · rwa [busy, heq]
        · rwa [heq]

/-- The inner loop ends with a free block that has a busy one behind it. -/
theorem merge_spec (h : Linked m (pre ++ p :: post) e) (he : busy m e) (he4 : e % 4 = 0)
    (hp : ¬ busy m p) :
    ∃ m' post', Ends (fun f => merge f p m) m' ∧ Linked m' (pre ++ p :: post') e ∧
      Joined m (pre ++ p :: post) m' (pre ++ p :: post') ∧ post'.length ≤ post.length ∧
      ¬ busy m' p ∧ busy m' (m' p) ∧ ∀ a, a % 4 = 0 → a ≠ p → m' a = m a := by
  induction post generalizing m with
  | nil =>
    have hmp : m p = e := by
      rw [← busy_not hp]
      exact (Linked.append_iff.1 h).2.2.2.2.1
    refine ⟨m, [], Ends.now ⟨0, fun f _ => ?_⟩, h, Joined.refl m _, Nat.le_refl _, hp, ?_, fun _ _ _ => rfl⟩
    · rw [merge, hmp, if_pos he]
    · rwa [hmp]
  | cons c post ih =>
    have hmp : m p = c := by
      rw [← busy_not hp]
      exact (Linked.append_iff.1 h).2.2.2.2.1
    by_cases hc : busy m c
    · refine ⟨m, c :: post, Ends.now ⟨0, fun f _ => ?_⟩, h, Joined.refl m _, Nat.le_refl _, hp, ?_, fun _ _ _ => rfl⟩
      · rw [merge, hmp, if_pos hc]
      · rwa [hmp]
    · obtain ⟨hl, hj, hw⟩ := join_one h hp hc
      have hpe : e ≠ p := by
        have hb := h.bounds p (by simp)
        omega
      obtain ⟨m', post', hends, hl', hj', hlen, hp', hb', hw'⟩ := ih hl
        (by rw [busy, hw e he4 hpe]; exact he) (by rw [busy, putw_self]; exact hc)
      refine ⟨m', post', hends.turn ⟨0, fun f _ => ?_⟩, hl', hj.trans hj', by
        rw [List.length_cons]
        omega, hp', hb', fun a ha hne => (hw' a ha hne).trans (hw a ha hne)⟩
      rw [merge, hmp, if_neg hc]

/-- No free block is large enough, and a busy one is behind each. -/
def Tight (r : Nat) (m : Mem) (l : List Nat) : Prop :=
  ∀ a ∈ l, ¬ busy m a → busy m (m a) ∧ m a < a + r

def Outcome (r : Nat) (m : Mem) (l : List Nat) : Option Nat → Prop
  | some a => a ∈ l ∧ ¬ busy m a ∧ a + r ≤ m a
  | none => Tight r m l

/-- The search from `p` on ends, with a block or with the news that there is none. -/
def Searched (r : Nat) (m : Mem) (l : List Nat) (e c p : Nat) : Prop :=
  ∃ m' l' out, Ends (fun f => scan r f c p m) (out, m') ∧ Linked m' l' e ∧ Joined m l m' l' ∧
    nxt l' e = nxt l e ∧ m' e = m e ∧ Outcome r m' l' out

theorem Searched.after {m1 : Mem} {l1 : List Nat} {c' p' : Nat} (h : Searched r m1 l1 e c' p')
    (hj : Joined m l m1 l1) (hn : nxt l1 e = nxt l e) (he : m1 e = m e)
    (hg : ∃ n, ∀ f, n ≤ f → scan r (f + 1) c p m = scan r f c' p' m1) : Searched r m l e c p := by
  obtain ⟨m', l', out, hends, hl, hj', hn', he', ho⟩ := h
  exact ⟨m', l', out, hends.turn hg, hl, hj.trans hj', hn'.trans hn, he'.trans he, ho⟩

theorem Tight.snoc (ht : Tight r m pre) (hm : ∀ a, a % 4 = 0 → a ≠ p → m' a = m a)
    (hl : Linked m' (pre ++ p :: post) e) (hp : ¬ busy m p)
    (hbig : m' p < p + r) (hb : busy m' (m' p)) : Tight r m' (pre ++ [p]) := by
  have hnd := hl.nodup
  rw [List.nodup_append] at hnd
  intro a ha hfree
  rcases List.mem_append.1 ha with ha | ha
  · have hap : a ≠ p := hnd.2.2 a ha p List.mem_cons_self
    have ham : a ∈ pre ++ p :: post := List.mem_append_left _ ha
    have heq := hm a (hl.aligned a ham) hap
    have hword : m' a % 4 = 0 := by
      have hbd := (hl.bounds a ham).2.2.2
      rwa [busy_not hfree] at hbd
    rw [busy, heq] at hfree
    obtain ⟨h1, h2⟩ := ht a ha hfree
    have hne : m a ≠ p := fun he => hp (he ▸ h1)
    rw [heq] at hword
    rw [heq, busy, hm (m a) hword hne]
    exact ⟨h1, h2⟩
  · rw [List.mem_singleton] at ha
    subst ha
    exact ⟨hb, hbig⟩

theorem busy_top (htop : m e = nxt l e + 1) (hn : nxt l e % 4 = 0) : busy m e := by
  rw [busy]
  omega

/-- One pass over the words from `p` to the end of the chain. After the last word comes the first,
for another pass (`c = 0`) or as the end of the search. -/
theorem scan_pass (hend : ∀ m l, Linked m l e → m e = nxt l e + 1 → nxt l e % 4 = 0 →
      (c ≠ 0 → Tight r m l) → Searched r m l e c e)
    (he4 : e % 4 = 0) (h : Linked m (pre ++ suf) e) (htop : m e = nxt (pre ++ suf) e + 1)
    (hn : nxt (pre ++ suf) e % 4 = 0) (ht : c ≠ 0 → Tight r m pre) :
    Searched r m (pre ++ suf) e c (nxt suf e) := by
  induction hlen : suf.length using Nat.strong_induction_on generalizing m pre suf with
  | h n ih =>
    cases suf with
    | nil =>
      rw [List.append_nil] at h htop hn ⊢
      exact hend m pre h htop hn ht
    | cons p post =>
      rw [List.length_cons] at hlen
      have hbusy := busy_top htop hn
      have hp : nxt (p :: post) e = p := rfl
      rw [hp]
      have hlink := (Linked.append_iff.1 h).2
      by_cases hb : busy m p
      · have hstep : ∀ f, scan r (f + 1) c p m = scan r f c (nxt post e) m := by
          intro f
          have hlt : p < clear (m p) := by
            have h1 := hlink.2.1
            have h2 := hlink.2.2.2.1
            omega
          rw [scan, if_pos hb]
          dsimp only
          rw [if_neg fun hc => hc.1 hb, if_pos hlt, hlink.2.2.2.1]
        have happ : pre ++ p :: post = (pre ++ [p]) ++ post := by rw [List.append_assoc]; rfl
        have htight : c ≠ 0 → Tight r m (pre ++ [p]) := by
          intro hc a ha hfree
          rcases List.mem_append.1 ha with ha | ha
          · exact ht hc a ha hfree
          · rw [List.mem_singleton] at ha
            exact absurd hb (ha ▸ hfree)
        rw [happ] at h htop hn
        have hrest := ih _ (by omega) h htop hn htight rfl
        rw [← happ] at hrest
        exact hrest.after (Joined.refl m _) rfl rfl ⟨0, fun f _ => hstep f⟩
      · obtain ⟨m', post', ⟨k, hk⟩, hl', hj, hle, hp', hb', hw⟩ := merge_spec h hbusy he4 hb
        have hlink' := (Linked.append_iff.1 hl').2
        have hnx : nxt (pre ++ p :: post') e = nxt (pre ++ p :: post) e := by
          rw [nxt_append, nxt_append]
          rfl
        have hpe : e ≠ p := by
          have hbd := h.bounds p (by simp)
          omega
        have hme : m' e = m e := hw e he4 hpe
        by_cases hfit : p + r ≤ m' p
        · refine ⟨m', _, some p, Ends.now ⟨k, fun f hf => ?_⟩, hl', hj, hnx, hme, by simp, hp', hfit⟩
          have hmg : merge f p m = some m' := hk f hf
          rw [scan, if_neg hb, hmg]
          dsimp only
          rw [if_pos ⟨hp', by omega⟩]
        · have hstep : ∀ f, k ≤ f → scan r (f + 1) c p m = scan r f c (nxt post' e) m' := by
            intro f hf
            have hlt : p < clear (m' p) := by
              have h1 := hlink'.2.1
              have h2 := hlink'.2.2.2.1
              omega
            have hno : ¬ (¬ busy m' p ∧ r ≤ m' p - p) := by
              rintro ⟨-, hle⟩
              have hcl := busy_not hp'
              omega
            have hmg : merge f p m = some m' := hk f hf
            rw [scan, if_neg hb, hmg]
            dsimp only
            rw [if_neg hno, if_pos hlt, hlink'.2.2.2.1]
          have happ : pre ++ p :: post' = (pre ++ [p]) ++ post' := by rw [List.append_assoc]; rfl
          have htight : c ≠ 0 → Tight r m' (pre ++ [p]) := fun hc =>
            (ht hc).snoc hw hl' hb (by omega) hb'
          have htop' : m' e = nxt (pre ++ p :: post') e + 1 := by rw [hme, htop, hnx]
          have hn' : nxt (pre ++ p :: post') e % 4 = 0 := by rwa [hnx]
          rw [happ] at hl' htop' hn'
          have hrest := ih _ (by omega) hl' htop' hn' htight rfl
          rw [← happ] at hrest
          exact hrest.after hj hnx hme ⟨k, hstep⟩

theorem clear_top (htop : m e = nxt l e + 1) (hn : nxt l e % 4 = 0) : clear (m e) = nxt l e := by
  rw [htop, clear]
  omega

/-- The second pass is the last. -/
theorem scan_last (m : Mem) (l : List Nat) (h : Linked m l e) (htop : m e = nxt l e + 1)
    (hn : nxt l e % 4 = 0) (ht : 1 ≠ 0 → Tight r m l) : Searched r m l e 1 e := by
  have hbusy := busy_top htop hn
  have hle := h.nxt_le
  refine ⟨m, l, none, Ends.now ⟨0, fun f _ => ?_⟩, h, Joined.refl m l, rfl, rfl, ht Nat.one_ne_zero⟩
  rw [scan, if_pos hbusy]
  dsimp only
  rw [if_neg fun hc => hc.1 hbusy, clear_top htop hn, if_neg (by omega), if_neg Nat.one_ne_zero]

/-- After the first pass the search goes on at the first word. -/
theorem scan_wrap (he4 : e % 4 = 0) (m : Mem) (l : List Nat) (h : Linked m l e)
    (htop : m e = nxt l e + 1) (hn : nxt l e % 4 = 0) (_ : 0 ≠ 0 → Tight r m l) :
    Searched r m l e 0 e := by
  have hbusy := busy_top htop hn
  have hle := h.nxt_le
  have hpass : Searched r m ([] ++ l) e 1 (nxt l e) := scan_pass scan_last he4 h htop hn
    fun _ a ha => absurd ha List.not_mem_nil
  refine hpass.after (Joined.refl m l) rfl rfl ⟨0, fun f _ => ?_⟩
  rw [scan, if_pos hbusy]
  dsimp only
  rw [if_neg fun hc => hc.1 hbusy, clear_top htop hn, if_neg (by omega), if_pos rfl]

/-- The search of alloc, from any word of the chain on. -/
theorem scan_spec (he4 : e % 4 = 0) (h : Linked m l e) (htop : m e = nxt l e + 1)
    (hn : nxt l e % 4 = 0) (hp : p ∈ l ∨ p = e) (r : Nat) : Searched r m l e 0 p := by
  rcases hp with hp | rfl
  · obtain ⟨pre, post, rfl⟩ := List.append_of_mem hp
    exact scan_pass (scan_wrap he4) he4 h htop hn fun hc => absurd rfl hc
  · exact scan_wrap he4 m l h htop hn fun hc => absurd rfl hc

end Svr32.Sh
