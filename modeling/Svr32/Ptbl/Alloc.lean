import Svr32.Ptbl.Code
import Mathlib.Tactic.Linarith
import Mathlib.Tactic.Ring
import Mathlib.Tactic.Zify
import Svr32.Lib.System

/-! ptalloc of os/grow.c. -/
namespace Svr32.Ptbl
variable {R S : Int} {s : State} {L : Nat → Prop} {tune : Tune} {n pt page : Nat}
  {place : Option Nat} {junk : Nat → Nat}

/-- `t` is one of the `n` tables from `pt` on. -/
def InRun (pt n t : Nat) : Prop := pt ≤ t ∧ t < pt + n

theorem bzero_in {t : Nat} {tbl : Nat → Nat} (h : InRun pt n t) : bzero pt n tbl t = 0 := if_pos h

theorem bzero_out {t : Nat} {tbl : Nat → Nat} (h : ¬ InRun pt n t) : bzero pt n tbl t = tbl t :=
  if_neg h

/- What getcpages is for: pages that nobody else has, and no page 0. -/
def Got (s : State) (n : Nat) (place : Option Nat) : Prop :=
  ∀ page, place = some page →
    0 < page ∧ ∀ p ∈ s.held, p ∉ Finset.Ico page (page + pttopgs n)

/-- What ptalloc does if it hands out the tables from `pt` on. -/
structure Handed (R S : Int) (L : Nat → Prop) (n pt : Nat) (s s' : State) : Prop where
  sound : Sound R S s' (fun t => L t ∨ InRun pt n t)
  apart : ∀ t, InRun pt n t → ¬ L t
  zeroed : ∀ t, InRun pt n t → s'.tbl t = 0
  kept : ∀ t, L t → s'.tbl t = s.tbl t

theorem reuse_handed {pf j : Nat} (h : Sound R S s L) (hn : 0 < n) (hpf : pf ∈ s.ptfree)
    (hj : j + n ≤ NPTPP) (hsub : Finset.Ico j (j + n) ⊆ free (s.use pf)) :
    Handed R S L n (pf * NPTPP + j) s (reuse n pf j s) := by
  obtain ⟨hheld, -⟩ := (h.listed pf).1 hpf
  have hhigh := high_off (h.high pf hheld) hj
  have hfree : free (s.use pf &&& ~~~(setmask n <<< j)) = free (s.use pf) \ Finset.Ico j (j + n) :=
    free_off hj
  have hin : ∀ t, InRun (pf * NPTPP + j) n t → t / NPTPP = pf ∧ t % NPTPP ∈ Finset.Ico j (j + n) := by
    intro t ht
    rw [Finset.mem_Ico]
    rw [InRun, NPTPP] at *
    omega
  have hapart : ∀ t, InRun (pf * NPTPP + j) n t → ¬ L t := by
    intro t ht
    obtain ⟨hpg, hk⟩ := hin t ht
    have hm := (h.mask pf hheld (t % NPTPP) (Nat.mod_lt t (by decide))).1 (hsub hk)
    rwa [← hpg, table_eq] at hm
  have hcard : (free (s.use pf &&& ~~~(setmask n <<< j))).card + n = (free (s.use pf)).card := by
    have hsd := Finset.card_sdiff_add_card_eq_card hsub
    rw [Nat.card_Ico] at hsd
    rw [hfree]
    omega
  refine ⟨?_, hapart, fun t ht => bzero_in ht, fun t ht => bzero_out fun hr => hapart t hr ht⟩
  apply h.change hheld hhigh
  · intro t ht
    exact or_iff_left fun hr => ht (hin t hr).1
  · intro k hk
    rw [hfree, Finset.mem_sdiff, h.mask pf hheld k hk, Finset.mem_Ico, not_or]
    apply and_congr_right
    intro _
    rw [InRun]
    omega
  · intro hall
    have hmem : j ∈ Finset.range NPTPP := Finset.mem_range.2 (by omega)
    rw [← hall, hfree, Finset.mem_sdiff, Finset.mem_Ico] at hmem
    exact hmem.2 ⟨le_refl j, by omega⟩
  · intro p
    have hne := (h.listed p).1
    by_cases h0 : s.use pf &&& ~~~(setmask n <<< j) = 0
    · rw [if_pos h0, h.nodup.mem_erase_iff]
      have hempty := (use_eq_zero hhigh).1 h0
      exact ⟨fun hp => Or.inl hp, fun hp => hp.elim id fun hp => absurd hempty hp.2⟩
    · rw [if_neg h0]
      have hempty := mt (use_eq_zero hhigh).2 h0
      by_cases he : p = pf
      · rw [he]
        exact ⟨fun _ => Or.inr ⟨rfl, hempty⟩, fun _ => hpf⟩
      · exact ⟨fun hp => Or.inl ⟨he, hp⟩, fun hp => hp.elim And.right fun hp => absurd hp.1 he⟩
  · split
    · exact h.nodup.erase pf
    · exact h.nodup
  · omega

/- The pages that ptalloc gets. -/
theorem pages_cases (hn : 0 < n) :
    0 < pttopgs n ∧ (n % NPTPP = 0 ∧ n = pttopgs n * NPTPP ∨
      0 < n % NPTPP ∧ n = (pttopgs n - 1) * NPTPP + n % NPTPP) := by
  rw [pttopgs, NPTPP]
  omega

theorem fresh_high {p : Nat} (hp : p ∈ Finset.Ico page (page + pttopgs n)) :
    High ((fresh n page junk s).use p) := by
  simp only [fresh]
  rw [if_pos hp]
  split
  · exact high_last (Nat.mod_lt n (by decide))
  · intro k _
    simp

theorem fresh_old {p : Nat} (hp : p ∉ Finset.Ico page (page + pttopgs n)) :
    (fresh n page junk s).use p = s.use p := by
  simp only [fresh]
  rw [if_neg hp]

theorem fresh_free {p : Nat} (hp : p ∈ Finset.Ico page (page + pttopgs n)) :
    free ((fresh n page junk s).use p)
      = if 0 < n % NPTPP ∧ p = page + (pttopgs n - 1) then Finset.Ico (n % NPTPP) NPTPP else ∅ := by
  simp only [fresh]
  rw [if_pos hp]
  split
  · next hc => exact free_last hc.1 (Nat.mod_lt n (by decide))
  · rw [← use_eq_zero]
    intro k _
    simp

theorem fresh_mask {p k : Nat} (hn : 0 < n) (hp : p ∈ Finset.Ico page (page + pttopgs n))
    (hk : k < NPTPP) :
    k ∈ free ((fresh n page junk s).use p) ↔ ¬ InRun (page * NPTPP) n (p * NPTPP + k) := by
  have hcs := pages_cases hn
  rw [fresh_free hp]
  rw [Finset.mem_Ico] at hp
  rw [InRun]
  split
  · rw [Finset.mem_Ico]
    simp only [NPTPP] at *
    omega
  · have hno : k ∉ (∅ : Finset Nat) := Finset.notMem_empty k
    apply iff_of_false hno
    simp only [NPTPP] at *
    omega

theorem fresh_page {t : Nat} (hn : 0 < n) (ht : InRun (page * NPTPP) n t) :
    t / NPTPP ∈ Finset.Ico page (page + pttopgs n) := by
  have hcs := pages_cases hn
  rw [Finset.mem_Ico]
  simp only [InRun, NPTPP] at *
  omega

theorem fresh_sum (hn : 0 < n) :
    (∑ p ∈ Finset.Ico page (page + pttopgs n), (free ((fresh n page junk s).use p)).card) + n
      = pttopgs n * NPTPP := by
  obtain ⟨hi, hcs⟩ := pages_cases hn
  have hlast : page + (pttopgs n - 1) ∈ Finset.Ico page (page + pttopgs n) := by
    rw [Finset.mem_Ico]
    omega
  have hone := Finset.sum_eq_single_of_mem (f := fun p => (free ((fresh n page junk s).use p)).card)
    _ hlast fun p hp hne => by
      rw [fresh_free hp, if_neg fun hc => hne hc.2]
      rfl
  rw [hone, fresh_free hlast]
  simp only [and_true]
  split
  · rw [Nat.card_Ico]
    simp only [NPTPP] at *
    omega
  · rw [Finset.card_empty]
    omega

theorem mem_fresh_held (p : Nat) : p ∈ (fresh n page junk s).held ↔
    p ∈ s.held ∨ p ∈ Finset.Ico page (page + pttopgs n) := Finset.mem_union

theorem fresh_listed (h : Sound R S s L) (hn : 0 < n) (hgot : Got s n (some page)) (p : Nat) :
    p ∈ (fresh n page junk s).ptfree ↔
      p ∈ (fresh n page junk s).held ∧ free ((fresh n page junk s).use p) ≠ ∅ := by
  obtain ⟨-, hnew⟩ := hgot page rfl
  obtain ⟨hi, hcs⟩ := pages_cases hn
  have hl : p ∈ (fresh n page junk s).ptfree ↔
      0 < n % NPTPP ∧ p = page + (pttopgs n - 1) ∨ p ∈ s.ptfree := by
    simp only [fresh]
    split
    · next hj => rw [List.mem_cons, and_iff_right hj]
    · next hj => simp [hj]
  rw [hl, mem_fresh_held]
  by_cases hp : p ∈ Finset.Ico page (page + pttopgs n)
  · have hno : p ∉ s.ptfree := fun hm => hnew p ((h.listed p).1 hm).1 hp
    rw [or_iff_left hno, fresh_free hp, and_iff_right (Or.inr hp)]
    split
    · next hc =>
      have hmem : n % NPTPP ∈ Finset.Ico (n % NPTPP) NPTPP :=
        Finset.mem_Ico.2 ⟨le_refl _, Nat.mod_lt n (by decide)⟩
      exact iff_of_true hc (Finset.ne_empty_of_mem hmem)
    · next hc => exact iff_of_false hc fun hne => hne rfl
  · have hno : ¬ (0 < n % NPTPP ∧ p = page + (pttopgs n - 1)) := by
      rintro ⟨-, rfl⟩
      apply hp
      rw [Finset.mem_Ico]
      omega
    rw [or_iff_right hno, or_iff_left hp, fresh_old hp]
    exact h.listed p

theorem fresh_nodup (h : Sound R S s L) (hn : 0 < n) (hgot : Got s n (some page)) :
    (fresh n page junk s).ptfree.Nodup := by
  obtain ⟨-, hnew⟩ := hgot page rfl
  obtain ⟨hi, -⟩ := pages_cases hn
  simp only [fresh]
  split
  · rw [List.nodup_cons]
    apply And.intro ?_ h.nodup
    intro hm
    apply hnew _ ((h.listed _).1 hm).1
    rw [Finset.mem_Ico]
    omega
  · exact h.nodup

theorem fresh_nptfree (h : Sound R S s L) (hn : 0 < n) (hgot : Got s n (some page)) :
    (fresh n page junk s).nptfree
      = ((∑ p ∈ (fresh n page junk s).held, (free ((fresh n page junk s).use p)).card : Nat) : Int) := by
  obtain ⟨-, hnew⟩ := hgot page rfl
  have hdis : Disjoint s.held (Finset.Ico page (page + pttopgs n)) := Finset.disjoint_left.2 hnew
  have hold : ∑ p ∈ s.held, (free ((fresh n page junk s).use p)).card
      = ∑ p ∈ s.held, (free (s.use p)).card :=
    Finset.sum_congr rfl fun p hp => by rw [fresh_old (hnew p hp)]
  have hnewsum := @fresh_sum s n page junk hn
  have hsplit : ∑ p ∈ (fresh n page junk s).held, (free ((fresh n page junk s).use p)).card
      = ∑ p ∈ s.held, (free (s.use p)).card
        + ∑ p ∈ Finset.Ico page (page + pttopgs n), (free ((fresh n page junk s).use p)).card := by
    rw [← hold]
    exact Finset.sum_union hdis
  have hfr : (fresh n page junk s).nptfree = s.nptfree + pttopgs n * NPTPP - n := rfl
  have hnf := h.nptfree
  rw [hsplit, hfr]
  zify at hnewsum
  push_cast at hnf ⊢
  linarith

theorem fresh_sound (h : Sound R S s L) (hn : 0 < n) (hgot : Got s n (some page)) :
    Sound R S (fresh n page junk s) fun t => L t ∨ InRun (page * NPTPP) n t := by
  obtain ⟨-, hnew⟩ := hgot page rfl
  have hcard : (fresh n page junk s).held.card = s.held.card + pttopgs n := by
    have hc := Finset.card_union_of_disjoint (Finset.disjoint_left.2 hnew)
    rw [Nat.card_Ico] at hc
    calc (fresh n page junk s).held.card
        = s.held.card + (page + pttopgs n - page) := hc
      _ = s.held.card + pttopgs n := by omega
  constructor
  · intro p hp
    rcases (mem_fresh_held p).1 hp with hold | hfresh
    · rw [fresh_old (hnew p hold)]
      exact h.high p hold
    · exact fresh_high hfresh
  · intro p hp k hk
    rcases (mem_fresh_held p).1 hp with hold | hfresh
    · rw [fresh_old (hnew p hold), h.mask p hold k hk, not_or]
      apply (and_iff_left _).symm
      intro hr
      have hpg := fresh_page hn hr
      rw [table_page hk] at hpg
      exact hnew p hold hpg
    · rw [fresh_mask hn hfresh hk, not_or]
      apply (and_iff_right _).symm
      intro hL
      have hpg := h.home _ hL
      rw [table_page hk] at hpg
      exact hnew p hpg hfresh
  · intro t ht
    rw [mem_fresh_held]
    exact ht.imp (h.home t) (fresh_page hn)
  · intro p hp
    rcases (mem_fresh_held p).1 hp with hold | hfresh
    · rw [fresh_old (hnew p hold)]
      exact h.used p hold
    · rw [fresh_free hfresh]
      have h0 : 0 ∈ Finset.range NPTPP := Finset.mem_range.2 (by decide)
      intro heq
      rw [← heq] at h0
      split at h0
      · next hc => exact absurd (Finset.mem_Ico.1 h0).1 (by omega)
      · exact absurd h0 (Finset.notMem_empty 0)
  · exact fresh_listed h hn hgot
  · exact fresh_nodup h hn hgot
  · exact fresh_nptfree h hn hgot
  · have hold := h.nptalloced
    have hfr : (fresh n page junk s).nptalloced = s.nptalloced + pttopgs n * NPTPP := rfl
    rw [hcard, hfr, hold]
    push_cast
    ring
  · have hold := h.availrmem
    have hfr : (fresh n page junk s).availrmem = s.availrmem - pttopgs n := rfl
    omega
  · have hold := h.availsmem
    have hfr : (fresh n page junk s).availsmem = s.availsmem - pttopgs n := rfl
    omega

theorem fresh_tbl : (fresh n page junk s).tbl = bzero (page * NPTPP) n
    fun t => if t / NPTPP ∈ Finset.Ico page (page + pttopgs n) then junk t else s.tbl t := rfl

theorem fresh_handed (h : Sound R S s L) (hn : 0 < n) (hgot : Got s n (some page)) :
    Handed R S L n (page * NPTPP) s (fresh n page junk s) := by
  obtain ⟨-, hnew⟩ := hgot page rfl
  have hapart : ∀ t, InRun (page * NPTPP) n t → ¬ L t := fun t ht hL =>
    hnew _ (h.home t hL) (fresh_page hn ht)
  constructor
  · exact fresh_sound h hn hgot
  · exact hapart
  · intro t ht
    rw [fresh_tbl, bzero_in ht]
  · intro t ht
    rw [fresh_tbl, bzero_out fun hr => hapart t hr ht, if_neg (hnew _ (h.home t ht))]

/-- ptalloc hands out tables that are in no run and are zero, or it changes nothing. -/
theorem ptalloc_spec (tune : Tune) (junk : Nat → Nat) (h : Sound R S s L) (hgot : Got s n place) :
    match ptalloc tune n place junk s with
    | (none, s') => s' = s
    | (some pt, s') => 0 < n ∧ Handed R S L n pt s s' := by
  rw [ptalloc.eq_def]
  by_cases h0 : n = 0
  · rw [if_pos h0]
  rw [if_neg h0]
  have hn : 0 < n := by omega
  cases hs : if n < NPTPP then search n s else none with
  | some x =>
    obtain ⟨pf, j⟩ := x
    dsimp only
    apply And.intro hn
    split at hs
    · next hlt =>
      obtain ⟨hm, hj, hsub⟩ := search_spec (le_of_lt hlt) hs
      exact reuse_handed h hn hm hj hsub
    · cases hs
  | none =>
    dsimp only
    by_cases hlow : s.availrmem - pttopgs n < tune.minarmem ∨ s.availsmem - pttopgs n < tune.minasmem
    · rw [if_pos hlow]
    · rw [if_neg hlow]
      cases place with
      | none => rfl
      | some page => exact ⟨hn, fresh_handed h hn hgot⟩

end Svr32.Ptbl

/-! uptfree of os/grow.c. -/
namespace Svr32.Ptbl
variable {R S : Int} {s : State} {L : Nat → Prop} {n pt nfree : Nat}

/-- The tables that are freed in one turn are in the page of the first. -/
theorem inPage_spec (pt : Nat) (hn : 0 < n) :
    0 < inPage pt n ∧ inPage pt n ≤ n ∧ pt % NPTPP + inPage pt n ≤ NPTPP := by
  rw [inPage.eq_def]
  dsimp only
  by_cases h : (pt / NPTPP + 1) * NPTPP - pt < min n NPTPP
  · rw [if_pos h]
    rw [NPTPP] at *
    omega
  · rw [if_neg h]
    rw [NPTPP] at *
    omega

theorem run_page {t : Nat} (hin : pt % NPTPP + nfree ≤ NPTPP) (ht : InRun pt nfree t) :
    t / NPTPP = pt / NPTPP ∧ t % NPTPP ∈ Finset.Ico (pt % NPTPP) (pt % NPTPP + nfree) := by
  rw [Finset.mem_Ico]
  simp only [InRun, NPTPP] at *
  omega

theorem run_in_page {k : Nat} :
    InRun pt nfree (pt / NPTPP * NPTPP + k)
      ↔ k ∈ Finset.Ico (pt % NPTPP) (pt % NPTPP + nfree) := by
  rw [Finset.mem_Ico]
  simp only [InRun, NPTPP] at *
  omega

/-- None of the tables that are freed is free already. -/
theorem freed_disjoint (h : Sound R S s L) (hheld : pt / NPTPP ∈ s.held)
    (hL : ∀ t, InRun pt nfree t → L t) :
    Disjoint (free (s.use (pt / NPTPP))) (Finset.Ico (pt % NPTPP) (pt % NPTPP + nfree)) := by
  rw [Finset.disjoint_left]
  intro k hk hkr
  have hlt : k < NPTPP := (mem_free.1 hk).1
  apply (h.mask _ hheld k hlt).1 hk
  exact hL _ (run_in_page.2 hkr)

/- The list with a page put at its head that was not on it. -/
theorem push_nodup {pf : Nat} {c : Prop} [Decidable c] (h : Sound R S s L)
    (hlist : pf ∈ s.ptfree ↔ s.use pf ≠ 0) :
    (if s.use pf = 0 ∧ c then pf :: s.ptfree else s.ptfree).Nodup := by
  split
  · next hc =>
    rw [List.nodup_cons]
    exact ⟨fun hm => hlist.1 hm hc.1, h.nodup⟩
  · exact h.nodup

/- The list when the page is all free: a page that is freed in one turn was not on it, another was. -/
theorem full_list {pf : Nat} (h : Sound R S s L) (hheld : pf ∈ s.held)
    (hlist : pf ∈ s.ptfree ↔ s.use pf ≠ 0) (hcard : NPTPP = (free (s.use pf)).card + nfree) (p : Nat) :
    p ∈ (if nfree ≠ NPTPP then
          (if s.use pf = 0 ∧ nfree < NPTPP then pf :: s.ptfree else s.ptfree).erase pf
        else if s.use pf = 0 ∧ nfree < NPTPP then pf :: s.ptfree else s.ptfree)
      ↔ p ≠ pf ∧ p ∈ s.ptfree := by
  have hzero : s.use pf = 0 ↔ (free (s.use pf)).card = 0 := by
    rw [use_eq_zero (h.high pf hheld), Finset.card_eq_zero]
  have hcond : ¬ (s.use pf = 0 ∧ nfree < NPTPP) := by
    rintro ⟨h0, hlt⟩
    have hnone := hzero.1 h0
    omega
  rw [if_neg hcond]
  split
  · exact h.nodup.mem_erase_iff
  · have hoff : pf ∉ s.ptfree := fun hm => hlist.1 hm (hzero.2 (by omega))
    constructor
    · intro hm
      exact ⟨fun hp => hoff (hp ▸ hm), hm⟩
    · exact And.right

/-- The page has other tables in use, or it is given back. -/
theorem freeIn_sound (h : Sound R S s L) (hpos : 0 < nfree) (hin : pt % NPTPP + nfree ≤ NPTPP)
    (hL : ∀ t, InRun pt nfree t → L t) :
    Sound R S (freeIn pt nfree s) fun t => L t ∧ ¬ InRun pt nfree t := by
  have hheld : pt / NPTPP ∈ s.held := h.home pt (hL pt ⟨le_refl pt, by omega⟩)
  have hhigh := high_on (h.high _ hheld) hin
  have hfree := @free_on nfree (pt % NPTPP) (s.use (pt / NPTPP)) hin
  have hdis := freed_disjoint h hheld hL
  have hcard := Finset.card_union_of_disjoint hdis
  rw [Nat.card_Ico, ← hfree] at hcard
  have hin0 : pt % NPTPP ∈ Finset.Ico (pt % NPTPP) (pt % NPTPP + nfree) := by
    rw [Finset.mem_Ico]
    omega
  have hlist : pt / NPTPP ∈ s.ptfree ↔ s.use (pt / NPTPP) ≠ 0 := by
    rw [h.listed, and_iff_right hheld, Ne, Ne, use_eq_zero (h.high _ hheld)]
  simp only [freeIn]
  split
  · next hfull =>
    rw [use_eq_full hhigh] at hfull
    rw [hfull, Finset.card_range] at hcard
    apply h.drop hheld
    · intro t ht
      exact and_iff_left fun hr => ht (run_page hin hr).1
    · intro t ht hLt
      have hlt : t % NPTPP < NPTPP := Nat.mod_lt t (by decide)
      have hmem : t % NPTPP ∈ Finset.range NPTPP := Finset.mem_range.2 hlt
      have hat : L (pt / NPTPP * NPTPP + t % NPTPP) := by
        rw [← ht, table_eq]
        exact hLt.1
      rw [← hfull, hfree, Finset.mem_union, h.mask _ hheld _ hlt] at hmem
      rcases hmem with hm | hm
      · exact hm hat
      · rw [← run_in_page, ← ht, table_eq] at hm
        exact hLt.2 hm
    · exact full_list h hheld hlist (by omega)
    · split
      · exact (push_nodup h hlist).erase _
      · exact push_nodup h hlist
    · omega
  · next hnf =>
    rw [use_eq_full hhigh] at hnf
    apply h.change hheld hhigh
    · intro t ht
      exact and_iff_left fun hr => ht (run_page hin hr).1
    · intro k hk
      rw [hfree, Finset.mem_union, h.mask _ hheld k hk, run_in_page, not_and_not_right,
        or_iff_not_imp_left, not_not]
    · exact hnf
    · intro p
      have hne : free (s.use (pt / NPTPP) ||| (setmask nfree <<< (pt % NPTPP))) ≠ ∅ := by
        rw [hfree]
        exact Finset.ne_empty_of_mem (Finset.mem_union_right _ hin0)
      rw [and_iff_left hne]
      split
      · next hc =>
        rw [List.mem_cons]
        by_cases he : p = pt / NPTPP
        · simp [he]
        · simp [he]
      · next hc =>
        by_cases he : p = pt / NPTPP
        · rw [he]
          apply iff_of_true ?_ (Or.inr rfl)
          apply hlist.2
          intro h0
          have hge : NPTPP ≤ nfree := not_lt.1 fun hlt => hc ⟨h0, hlt⟩
          apply hnf
          apply Finset.eq_of_subset_of_card_le (free_sub _)
          rw [Finset.card_range]
          omega
        · simp [he]
    · exact push_nodup h hlist
    · omega

theorem freeIn_tbl : (freeIn pt nfree s).tbl = s.tbl := by
  simp only [freeIn]
  split <;> rfl

/-- The whole of a run that is in use is freed, a page at a time, and the tables keep what they
hold. -/
theorem freeLoop_spec (fuel : Nat) (hf : n ≤ fuel) (h : Sound R S s L)
    (hL : ∀ t, InRun pt n t → L t) :
    Sound R S (freeLoop fuel pt n s) (fun t => L t ∧ ¬ InRun pt n t) ∧
      (freeLoop fuel pt n s).tbl = s.tbl := by
  induction fuel generalizing pt n s L with
  | zero =>
    have hno : ∀ t, ¬ InRun pt n t := fun t ht => by
      rw [InRun] at ht
      omega
    exact ⟨h.congr fun t => and_iff_left (hno t), rfl⟩
  | succ fuel ih =>
    rw [freeLoop.eq_def]
    dsimp only
    by_cases h0 : n = 0
    · rw [if_pos h0]
      have hno : ∀ t, ¬ InRun pt n t := fun t ht => by
        rw [InRun] at ht
        omega
      exact ⟨h.congr fun t => and_iff_left (hno t), rfl⟩
    · rw [if_neg h0]
      obtain ⟨hpos, hle, hin⟩ := inPage_spec pt (Nat.pos_of_ne_zero h0)
      have hcut : ∀ t, InRun pt n t ↔
          InRun pt (inPage pt n) t ∨ InRun (pt + inPage pt n) (n - inPage pt n) t := by
        intro t
        simp only [InRun]
        omega
      have hone := freeIn_sound h hpos hin fun t ht => hL t ((hcut t).2 (Or.inl ht))
      have hrest := ih (by omega) hone fun t ht =>
        ⟨hL t ((hcut t).2 (Or.inr ht)), fun hr => by
          rw [InRun] at hr ht
          omega⟩
      apply And.intro
      · apply hrest.1.congr
        intro t
        rw [hcut t, not_or, and_assoc]
      · rw [hrest.2, freeIn_tbl]

end Svr32.Ptbl

/-! Any run of ptalloc and of uptfree for what ptalloc returned, with the tables written in
between. -/
namespace Svr32.Ptbl
open Svr32.Lib
variable {R S : Int} {tune : Tune} {live : List (Nat × Nat)}

/- `live` are the runs of tables that have been handed out and not been freed. -/
structure World where
  s : State
  live : List (Nat × Nat)

def InUse (live : List (Nat × Nat)) (t : Nat) : Prop := ∃ r ∈ live, InRun r.1 r.2 t

def Apart (live : List (Nat × Nat)) : Prop :=
  live.Pairwise fun a b => ∀ t, InRun a.1 a.2 t → ¬ InRun b.1 b.2 t

inductive Step (tune : Tune) : World → World → Prop
  | alloc {w : World} {n pt : Nat} {place : Option Nat} {junk : Nat → Nat} {s' : State} :
      Got w.s n place → ptalloc tune n place junk w.s = (some pt, s') →
      Step tune w ⟨s', (pt, n) :: w.live⟩
  | fail {w : World} {n : Nat} {place : Option Nat} {junk : Nat → Nat} {s' : State} :
      Got w.s n place → ptalloc tune n place junk w.s = (none, s') → Step tune w ⟨s', w.live⟩
  | free {w : World} {pt n : Nat} : (pt, n) ∈ w.live →
      Step tune w ⟨uptfree pt n w.s, w.live.erase (pt, n)⟩
  | write {w : World} {tbl : Nat → Nat} : Step tune w ⟨{ w.s with tbl := tbl }, w.live⟩

/- No page has been got yet. -/
structure Start (R S : Int) (w : World) : Prop where
  availrmem : w.s.availrmem = R
  availsmem : w.s.availsmem = S
  nptalloced : w.s.nptalloced = 0
  nptfree : w.s.nptfree = 0
  ptfree : w.s.ptfree = []
  held : w.s.held = ∅
  live : w.live = []

def allocator (R S : Int) (tune : Tune) : System World where
  init := Start R S
  step := Step tune

structure Inv (R S : Int) (w : World) : Prop where
  sound : Sound R S w.s (InUse w.live)
  apart : Apart w.live

theorem start_inv {w : World} (h : Start R S w) : Inv R S w := by
  have hno : ∀ t, ¬ InUse w.live t := by
    rintro t ⟨r, hr, -⟩
    rw [h.live] at hr
    exact absurd hr List.not_mem_nil
  have hnone : ∀ p, p ∉ w.s.held := fun p => by
    rw [h.held]
    exact Finset.notMem_empty p
  constructor
  · constructor
    · exact fun p hp => absurd hp (hnone p)
    · exact fun p hp => absurd hp (hnone p)
    · exact fun t ht => absurd ht (hno t)
    · exact fun p hp => absurd hp (hnone p)
    · intro p
      rw [h.ptfree]
      exact iff_of_false List.not_mem_nil fun hp => hnone p hp.1
    · rw [h.ptfree]
      exact List.nodup_nil
    · rw [h.nptfree, h.held]
      rfl
    · rw [h.nptalloced, h.held]
      rfl
    · rw [h.availrmem, h.held]
      simp
    · rw [h.availsmem, h.held]
      simp
  · rw [Apart, h.live]
    exact List.Pairwise.nil

theorem inUse_cons {r : Nat × Nat} {t : Nat} :
    InUse (r :: live) t ↔ InUse live t ∨ InRun r.1 r.2 t := by
  simp only [InUse, List.mem_cons, exists_eq_or_imp]
  exact or_comm

theorem inUse_perm {live' : List (Nat × Nat)} (h : live.Perm live') (t : Nat) :
    InUse live t ↔ InUse live' t :=
  exists_congr fun _ => and_congr_left fun _ => h.mem_iff

theorem apart_perm {live' : List (Nat × Nat)} (h : live.Perm live') (ha : Apart live) :
    Apart live' := by
  apply ha.perm h
  intro a b hab t hb hin
  exact hab t hin hb

theorem step_inv {w w' : World} (h : Inv R S w) (hst : Step tune w w') : Inv R S w' := by
  cases hst with
  | @alloc n pt place junk s' hgot heq =>
    have hspec := ptalloc_spec tune junk h.sound hgot
    rw [heq] at hspec
    obtain ⟨-, hh⟩ := hspec
    constructor
    · exact hh.sound.congr fun t => inUse_cons
    · apply List.Pairwise.cons ?_ h.apart
      intro r hr t ht hrt
      exact hh.apart t ht ⟨r, hr, hrt⟩
  | @fail n place junk s' hgot heq =>
    have hspec := ptalloc_spec tune junk h.sound hgot
    rw [heq] at hspec
    dsimp only at hspec
    rw [hspec]
    exact h
  | @free pt n hmem =>
    have hperm := List.perm_cons_erase hmem
    have hap := apart_perm hperm h.apart
    have hsp := (freeLoop_spec n (le_refl n) h.sound fun t ht => ⟨_, hmem, ht⟩).1
    constructor
    · apply hsp.congr
      intro t
      rw [inUse_perm hperm, inUse_cons, or_and_right, and_not_self_iff, or_false]
      apply (and_iff_left_of_imp _).symm
      rintro ⟨r, hr, hrt⟩ hin
      exact List.rel_of_pairwise_cons hap hr t hin hrt
    · exact (List.pairwise_cons.1 hap).2
  | write =>
    have hs := h.sound
    exact ⟨⟨hs.high, hs.mask, hs.home, hs.used, hs.listed, hs.nodup, hs.nptfree, hs.nptalloced,
      hs.availrmem, hs.availsmem⟩, h.apart⟩

theorem run_inv {w : World} (h : (allocator R S tune).Reachable w) : Inv R S w :=
  System.invariant (Inv R S) (fun _ => start_inv) (fun _ _ => step_inv) h

/-- In every run the tables that are handed out are apart from those in use and zero, the list is
of the pages that have a free table, the masks and counts are those of the free tables, and a page
with no table in use has been given back. -/
theorem page_tables {w : World} (h : (allocator R S tune).Reachable w) :
    Apart w.live ∧
    (∀ p, p ∈ w.s.ptfree ↔ (∃ k < NPTPP, InUse w.live (p * NPTPP + k)) ∧
      ∃ k < NPTPP, ¬ InUse w.live (p * NPTPP + k)) ∧
    w.s.ptfree.Nodup ∧
    (∀ p ∈ w.s.held, ∀ k, (w.s.use p).getLsbD k = true ↔
      k < NPTPP ∧ ¬ InUse w.live (p * NPTPP + k)) ∧
    w.s.nptfree = ((∑ p ∈ w.s.held, (free (w.s.use p)).card : Nat) : Int) ∧
    (∀ p, p ∈ w.s.held ↔ ∃ k < NPTPP, InUse w.live (p * NPTPP + k)) ∧
    w.s.availrmem = R - w.s.held.card ∧ w.s.availsmem = S - w.s.held.card ∧
    w.s.nptalloced = w.s.held.card * NPTPP ∧
    ∀ (n pt : Nat) (place : Option Nat) (junk : Nat → Nat) (s' : State), Got w.s n place →
      ptalloc tune n place junk w.s = (some pt, s') →
        (∀ t, InRun pt n t → ¬ InUse w.live t ∧ s'.tbl t = 0) ∧
        ∀ t, InUse w.live t → s'.tbl t = w.s.tbl t := by
  have hinv := run_inv h
  have hs := hinv.sound
  have hbit : ∀ p ∈ w.s.held, ∀ k, (w.s.use p).getLsbD k = true ↔
      k < NPTPP ∧ ¬ InUse w.live (p * NPTPP + k) := by
    intro p hp k
    by_cases hk : k < NPTPP
    · rw [← hs.mask p hp k hk, mem_free, and_iff_right hk, and_iff_right hk]
    · rw [hs.high p hp k (by omega)]
      exact iff_of_false Bool.false_ne_true fun hc => hk hc.1
  refine ⟨hinv.apart, ?_, hs.nodup, hbit, hs.nptfree, hs.held_iff, hs.availrmem, hs.availsmem,
    hs.nptalloced, ?_⟩
  · intro p
    rw [hs.listed, hs.held_iff]
    apply and_congr_right
    intro hused
    have hp := (hs.held_iff p).2 hused
    rw [← Finset.nonempty_iff_ne_empty]
    constructor
    · rintro ⟨k, hk⟩
      have hlt := (mem_free.1 hk).1
      exact ⟨k, hlt, (hs.mask p hp k hlt).1 hk⟩
    · rintro ⟨k, hlt, hk⟩
      exact ⟨k, (hs.mask p hp k hlt).2 hk⟩
  · intro n pt place junk s' hgot heq
    have hspec := ptalloc_spec tune junk hs hgot
    rw [heq] at hspec
    obtain ⟨-, hh⟩ := hspec
    exact ⟨fun t ht => ⟨hh.apart t ht, hh.zeroed t ht⟩, hh.kept⟩

/- Ten pages, and none of them got. -/
def bare : State where
  availrmem := 10
  availsmem := 10
  nptalloced := 0
  nptfree := 0
  use _ := 0
  ptfree := []
  tbl _ := 0
  held := ∅

/-- Three tables of a page. -/
theorem three_tables :
    (ptalloc ⟨0, 0⟩ 3 (some 5) (fun _ => 7) bare).2.nptfree = ((5 : Nat) : Int) ∧
      ∀ p, p ∈ (ptalloc ⟨0, 0⟩ 3 (some 5) (fun _ => 7) bare).2.ptfree ↔
        (∃ k < NPTPP, InUse [(40, 3)] (p * NPTPP + k)) ∧
          ∃ k < NPTPP, ¬ InUse [(40, 3)] (p * NPTPP + k) := by
  have hgot : Got bare 3 (some 5) := by
    intro page heq
    cases heq
    exact ⟨by decide, fun p hp => absurd hp (Finset.notMem_empty p)⟩
  have hst : Step ⟨0, 0⟩ ⟨bare, []⟩
      ⟨(ptalloc ⟨0, 0⟩ 3 (some 5) (fun _ => 7) bare).2, [(40, 3)]⟩ := Step.alloc hgot rfl
  have hr := System.reachable_step
    (@System.reachable_init _ (allocator 10 10 ⟨0, 0⟩) _ ⟨rfl, rfl, rfl, rfl, rfl, rfl, rfl⟩) hst
  exact ⟨rfl, (page_tables hr).2.1⟩

end Svr32.Ptbl
