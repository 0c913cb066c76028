import Svr32.Rfs.Heap
import Svr32.Lib.System
import Mathlib.Data.List.Perm.Basic
import Mathlib.Data.List.Pairwise

/-! Runs of h_alloc and h_free, and of their callers, who write into what they were given. -/
namespace Svr32.Rfs
open Svr32.Lib
variable {h : Words} {rfsize size o n p sz : Nat} {l : List Blk} {s t : Heap}

/-- Freeing a busy block takes it out of the busy ones. -/
theorem free_spec (hl : Laid h size o l) (ho : o % 4 = 0) (hp : (p, n) ∈ busyAt HSIZE o l) :
    o + HSIZE ≤ p ∧ isbusy (h (p - HSIZE)) ∧ 0 < h (p - HSIZE) ∧ h (p - HSIZE) < size + 1 ∧
      p % 4 = 0 ∧ ∃ l', l' ≠ [] ∧
        Laid (Function.update h (p - HSIZE) (mkfree (h (p - HSIZE)))) size o l' ∧
        ∃ pre post, busyAt HSIZE o l = pre ++ (p, n) :: post ∧
          busyAt HSIZE o l' = pre ++ post := by
  have hH : HSIZE = 4 := rfl
  induction l generalizing o with
  | nil => cases hp
  | cons c r ih =>
    obtain ⟨m, b⟩ := c
    have hword := hl.word ho
    have hrest : (p, n) ∈ busyAt HSIZE (o + HSIZE + m) r → _ := fun hp => by
      have hr : r ≠ [] := fun hr => by
        rw [hr] at hp
        cases hp
      exact ih hl.2.2 (hword.2.2.2 hr).2.1 hp
    have hin : ∀ l', l' ≠ [] → r ≠ [] → o + HSIZE + m + HSIZE ≤ p →
        Laid (Function.update h (p - HSIZE) (mkfree (h (p - HSIZE)))) size (o + HSIZE + m) l' →
        Laid (Function.update h (p - HSIZE) (mkfree (h (p - HSIZE)))) size o (⟨m, b⟩ :: l') :=
      fun l' _ hr hle hl' => by
        refine ⟨?_, fun _ => hl.2.1 hr, hl'⟩
        rw [Function.update_of_ne (by omega)]
        exact hl.1
    have hne : (p, n) ∈ busyAt HSIZE (o + HSIZE + m) r → r ≠ [] := fun hp hr => by
      rw [hr] at hp
      cases hp
    cases b with
    | false =>
      obtain ⟨hle, hbusy, hpos, hlt, hmod, l', hl'ne, hl', pre, post, hold, hnew⟩ := hrest hp
      exact ⟨by omega, hbusy, hpos, hlt, hmod, ⟨m, false⟩ :: l', List.cons_ne_nil _ _,
        hin l' hl'ne (hne hp) hle hl', pre, post, hold, hnew⟩
    | true =>
      rcases List.mem_cons.mp hp with heq | hp
      · cases heq
        have hsub : o + HSIZE - HSIZE = o := by omega
        have hspan := hl.span
        rw [span] at hspan
        simp only at hspan
        have hlink : h o = link size (o + HSIZE + n) + 1 := hl.1
        have hsmall : link size (o + HSIZE + n) < size := by
          rw [link]
          split
          · omega
          · have hr := hl.2.2.span
            simp only at hr
            omega
        rw [hsub, hword.2.1]
        refine ⟨Nat.le_refl _, hword.1.mpr rfl, by omega, by omega, by omega,
          ⟨n, false⟩ :: r, List.cons_ne_nil _ _, ⟨?_, hl.2.1, ?_⟩, [],
          busyAt HSIZE (o + HSIZE + n) r, rfl, rfl⟩
        · rw [Function.update_self]
          rfl
        · exact hl.2.2.congr fun x hx => Function.update_of_ne (by simp only at hx; omega) _ _
      · obtain ⟨hle, hbusy, hpos, hlt, hmod, l', hl'ne, hl', pre, post, hold, hnew⟩ := hrest hp
        refine ⟨by omega, hbusy, hpos, hlt, hmod, ⟨m, true⟩ :: l', List.cons_ne_nil _ _,
          hin l' hl'ne (hne hp) hle hl', (o + HSIZE, m) :: pre, post, ?_, ?_⟩
        · rw [busyAt, hold, List.cons_append]
        · rw [busyAt, hnew, List.cons_append]

inductive Act
  | alloc (size : Nat)
  | free (p : Nat)
  | write (p sz : Nat)

inductive Step (rfsize : Nat) : Act → Heap → Heap → Prop
  | alloc {s t : Heap} {size : Nat} {r : Option Nat} : hAlloc rfsize size s = some (r, t) →
    Step rfsize (.alloc size) s t
  | free {s t : Heap} {p sz : Nat} : (p, sz) ∈ s.live → hFree p s = some t →
    Step rfsize (.free p) s t
  | write {s : Heap} {p sz : Nat} {h : Words} : (p, sz) ∈ s.live →
    (∀ x, x + HSIZE ≤ p ∨ p + sz ≤ x → h x = s.words x) →
    Step rfsize (.write p sz) s { s with words := h }

/-- The heap before its first use. -/
structure Boot (s : Heap) : Prop where
  heap : s.heap = false
  live : s.live = []

def heaping (rfsize : Nat) : System Heap where
  init := Boot
  step s t := ∃ a, Step rfsize a s t

/- What the callers have are the busy blocks. -/
structure Owned (live : List (Nat × Nat)) (bl : List (Nat × Nat)) : Prop where
  perm : (live.map (·.1)).Perm (bl.map (·.1))
  large : ∀ p sz n, (p, sz) ∈ live → (p, n) ∈ bl → sz ≤ n

/- The blocks that the next call finds. -/
structure Divided (rfsize : Nat) (s : Heap) (l : List Blk) : Prop where
  pavail : (first rfsize s).pavail = rfsize
  ne : l ≠ []
  laid : Laid (first rfsize s).words rfsize 0 l
  owned : Owned s.live (busyAt HSIZE 0 l)

theorem first_idem (rfsize : Nat) (s : Heap) :
    first rfsize (first rfsize s) = first rfsize s := by
  rw [first]
  by_cases h : s.heap = true
  · rw [first, if_pos h, if_pos h]
  · rw [first, if_neg h, if_pos rfl]

theorem first_live (rfsize : Nat) (s : Heap) : (first rfsize s).live = s.live := by
  rw [first]
  split <;> rfl

theorem bump_mod (size : Nat) : bump size % 4 = 0 ∧ size ≤ bump size := by
  have hH : HSIZE = 4 := rfl
  rw [bump, hH]
  split <;> omega

theorem Owned.add (ho : Owned s.live (busyAt HSIZE 0 l)) {l' : List Blk} {pre post : List (Nat × Nat)}
    (hn : sz ≤ n) (hold : busyAt HSIZE 0 l = pre ++ post)
    (hnew : busyAt HSIZE 0 l' = pre ++ (p, n) :: post) :
    Owned ((p, sz) :: s.live) (busyAt HSIZE 0 l') := by
  have hsame := busyAt_once (by decide) hnew
  rw [hnew]
  constructor
  · have hperm := ho.perm
    rw [hold] at hperm
    rw [List.map_cons, List.map_append, List.map_cons]
    rw [List.map_append] at hperm
    exact (hperm.cons p).trans List.perm_middle.symm
  · intro q sz' m hq hm
    have hm' : (q, m) = (p, n) ∨ (q, m) ∈ pre ++ post := by
      rcases List.mem_append.mp hm with hm | hm
      · exact .inr (List.mem_append_left _ hm)
      · rcases List.mem_cons.mp hm with hm | hm
        · exact .inl hm
        · exact .inr (List.mem_append_right _ hm)
    rcases List.mem_cons.mp hq with hq | hq
    · cases hq
      rcases hm' with hm' | hm'
      · cases hm'
        exact hn
      · exact absurd rfl (hsame _ hm')
    · rcases hm' with hm' | hm'
      · cases hm'
        have hin := ho.perm.mem_iff.mp (List.mem_map_of_mem (f := (·.1)) hq)
        rw [hold] at hin
        obtain ⟨b, hb, hbp⟩ := List.mem_map.mp hin
        exact absurd hbp (hsame b hb)
      · exact ho.large q sz' m hq (hold ▸ hm')

theorem Owned.remove (ho : Owned s.live (busyAt HSIZE 0 l)) {l' : List Blk}
    {pre post : List (Nat × Nat)} (hold : busyAt HSIZE 0 l = pre ++ (p, n) :: post)
    (hnew : busyAt HSIZE 0 l' = pre ++ post) :
    Owned (s.live.filter (·.1 ≠ p)) (busyAt HSIZE 0 l') := by
  have hsame := busyAt_once (by decide) hold
  constructor
  · have hperm := ho.perm.filter (· ≠ p)
    rw [hold, List.map_append, List.map_cons, List.filter_append,
      List.filter_cons_of_neg (by simp), ← List.filter_append, ← List.map_append] at hperm
    have hkeep : ((pre ++ post).map (·.1)).filter (· ≠ p) = (pre ++ post).map (·.1) := by
      refine List.filter_eq_self.mpr fun q hq => ?_
      obtain ⟨b, hb, rfl⟩ := List.mem_map.mp hq
      exact decide_eq_true (hsame b hb)
    rw [hkeep, List.filter_map] at hperm
    rw [hnew]
    exact hperm
  · intro q sz' m hq hm
    rw [hnew] at hm
    refine ho.large q sz' m (List.mem_of_mem_filter hq) ?_
    rw [hold]
    rcases List.mem_append.mp hm with hm | hm
    · exact List.mem_append_left _ hm
    · exact List.mem_append_right _ (List.mem_cons_of_mem _ hm)

structure Inv (rfsize : Nat) (s : Heap) : Prop where
  unused : s.heap = false → s.live = []
  divided : ∃ l, Divided rfsize s l

theorem first_heap (rfsize : Nat) (s : Heap) : (first rfsize s).heap = true := by
  rw [first]
  by_cases h : s.heap = true
  · rw [if_pos h, h]
  · rw [if_neg h]

theorem first_of_heap (h : s.heap = true) : first rfsize s = s := if_pos h

theorem Divided.boot (h4 : HSIZE ≤ rfsize) (h : Boot s) :
    Divided rfsize s [⟨rfsize - HSIZE, false⟩] := by
  have hf : first rfsize s =
      { s with heap := true, pavail := rfsize, words := Function.update s.words 0 0 } := by
    rw [first, if_neg (by rw [h.heap]; exact nofun)]
  have hend : 0 + HSIZE + (rfsize - HSIZE) = rfsize := by omega
  refine ⟨?_, List.cons_ne_nil _ _, ?_, ?_⟩
  · rw [hf]
  · rw [hf]
    refine ⟨?_, fun hr => absurd rfl hr, hend⟩
    simp only [Function.update_self, hend, link]
    rfl
  · rw [h.live]
    exact ⟨List.Perm.nil, fun p sz n hp => by cases hp⟩

theorem Inv.boot (h4 : HSIZE ≤ rfsize) (h : Boot s) : Inv rfsize s :=
  ⟨fun _ => h.live, _, Divided.boot h4 h⟩

/- No sequence of adjacent free blocks has room for `sz` bytes. -/
def Tight (sz : Nat) (l : List Blk) : Prop :=
  ∀ pre run post, l = pre ++ (run ++ post) → run ≠ [] → (∀ b ∈ run, b.busy = false) →
    span HSIZE run < sz + HSIZE

theorem tight_of_place (h : (place HSIZE sz o l).1 = none) : Tight sz l := by
  intro pre run post hl hne hfree
  obtain ⟨⟨m, b⟩, run, rfl⟩ := List.exists_cons_of_ne_nil hne
  have hb : b = false := hfree _ List.mem_cons_self
  subst hb
  have hlt : (absorb HSIZE m (run ++ post)).1 < sz := place_none h hl
  have hle : m + span HSIZE run ≤ (absorb HSIZE m (run ++ post)).1 :=
    absorb_run fun b hb => hfree b (List.mem_cons_of_mem _ hb)
  rw [span]
  simp only
  omega

/-- What h_alloc does: a block more that is large enough, or none where there is no room. -/
theorem Inv.alloc (h : Inv rfsize s) (size : Nat) :
    ∃ r t, hAlloc rfsize size s = some (r, t) ∧ Inv rfsize t ∧
      (r = none → bump size + HSIZE ≤ MAXALLOC → ∀ l, Divided rfsize s l → Tight (bump size) l) := by
  obtain ⟨l, hl⟩ := h.divided
  have hheap := first_heap rfsize s
  have hlive := first_live rfsize s
  rw [hAlloc]
  by_cases hbig : MAXALLOC < bump size + HSIZE
  · refine ⟨none, first rfsize s, if_pos hbig, ⟨fun hf => ?_, l, ?_, hl.ne, ?_, ?_⟩,
      fun _ hle => by omega⟩
    · exact absurd (hheap.symm.trans hf) nofun
    · rw [first_idem]
      exact hl.pavail
    · rw [first_idem]
      exact hl.laid
    · rw [hlive]
      exact hl.owned
  · rw [if_neg hbig]
    have hfuel : ∀ l, Divided rfsize s l → l.length ≤ rfsize + 1 := fun l hl => by
      have hspan := hl.laid.span
      have hle := length_le_span (k := HSIZE) (by decide) l
      omega
    have hsearch := fun l (hl : Divided rfsize s l) =>
      search_spec hl.laid hl.ne rfl (bump_mod size).1 (hfuel l hl)
    obtain ⟨h', hs, hlaid, -⟩ := hsearch l hl
    have hbusy := place_busy HSIZE (bump size) 0 l
    have hspan := place_span HSIZE (bump size) 0 l
    have hne' : (place HSIZE (bump size) 0 l).2 ≠ [] := fun he => by
      have hpos := length_le_span (k := HSIZE) (by decide) l
      have hl0 := List.length_pos_iff.mpr hl.ne
      rw [he, span] at hspan
      omega
    have hs₁ : search (first rfsize s).pavail (bump size) ((first rfsize s).pavail + 1) 0
        (first rfsize s).words = some ((place HSIZE (bump size) 0 l).1, h') := by
      rw [hl.pavail]
      exact hs
    rcases hp : place HSIZE (bump size) 0 l with ⟨_ | p, l'⟩
    · rw [hp] at hs hs₁ hlaid hbusy hne'
      refine ⟨none, { first rfsize s with words := h' }, by simp only [hs₁],
        ⟨fun hf => absurd (hheap.symm.trans hf) nofun, l', ?_, hne', ?_, ?_⟩, fun _ _ l₂ hl₂ => ?_⟩
      · rw [first_of_heap (by exact hheap)]
        exact hl.pavail
      · rw [first_of_heap (by exact hheap)]
        exact hlaid
      · simp only [hlive]
        simp only at hbusy
        rw [hbusy]
        exact hl.owned
      · obtain ⟨h₂, hs₂, -, -⟩ := hsearch l₂ hl₂
        have hnone := congrArg Prod.fst (Option.some.inj (hs₂.symm.trans hs))
        exact tight_of_place hnone
    · rw [hp] at hs hs₁ hlaid hbusy hne'
      obtain ⟨n, pre, post, hn, hold, hnew⟩ := hbusy
      refine ⟨some p, { first rfsize s with
          words := h', live := (p, size) :: (first rfsize s).live }, by simp only [hs₁],
        ⟨fun hf => absurd (hheap.symm.trans hf) nofun, l', ?_, hne', ?_, ?_⟩, fun hr => by cases hr⟩
      · rw [first_of_heap (by exact hheap)]
        exact hl.pavail
      · rw [first_of_heap (by exact hheap)]
        exact hlaid
      · simp only [hlive]
        exact hl.owned.add ((bump_mod size).2.trans hn) hold hnew

/-- A live block is a busy block, which is as large as was asked for. -/
theorem Divided.block (h : Divided rfsize s l) (hp : (p, sz) ∈ s.live) :
    ∃ n, (p, n) ∈ busyAt HSIZE 0 l ∧ sz ≤ n := by
  have hin := h.owned.perm.mem_iff.mp (List.mem_map_of_mem (f := (·.1)) hp)
  obtain ⟨⟨q, n⟩, hb, rfl⟩ := List.mem_map.mp hin
  exact ⟨n, hb, h.owned.large q sz n hp hb⟩

theorem Inv.used (h : Inv rfsize s) (hp : (p, sz) ∈ s.live) : s.heap = true := by
  cases hheap : s.heap with
  | true => rfl
  | false =>
    rw [h.unused hheap] at hp
    cases hp

/-- The assertions of h_free hold for a live block. -/
theorem Inv.free (h : Inv rfsize s) (hp : (p, sz) ∈ s.live) :
    ∃ t, hFree p s = some t ∧ Inv rfsize t := by
  obtain ⟨l, hl⟩ := h.divided
  have hheap := h.used hp
  have hfirst := @first_of_heap rfsize s hheap
  obtain ⟨n, hb, -⟩ := hl.block hp
  have hlaid := hl.laid
  have hpav := hl.pavail
  rw [hfirst] at hlaid hpav
  obtain ⟨-, hbusy, hpos, hlt, -, l', hne', hl', pre, post, hold, hnew⟩ :=
    free_spec hlaid rfl hb
  refine ⟨_, if_pos ⟨hbusy, hpos, by rw [hpav]; exact hlt⟩,
    fun hf => absurd (hheap.symm.trans hf) nofun, l', ?_, hne', ?_, ?_⟩
  · rw [first_of_heap (by exact hheap)]
    exact hpav
  · rw [first_of_heap (by exact hheap)]
    exact hl'
  · exact hl.owned.remove hold hnew

/-- What a caller writes into its block leaves the headers alone. -/
theorem Inv.write (h : Inv rfsize s) (hp : (p, sz) ∈ s.live) {w : Words}
    (hw : ∀ x, x + HSIZE ≤ p ∨ p + sz ≤ x → w x = s.words x) :
    Inv rfsize { s with words := w } := by
  obtain ⟨l, hl⟩ := h.divided
  have hheap := h.used hp
  have hfirst := @first_of_heap rfsize s hheap
  obtain ⟨n, hb, hn⟩ := hl.block hp
  have hlaid := hl.laid
  have hpav := hl.pavail
  rw [hfirst] at hlaid hpav
  refine ⟨fun hf => absurd (hheap.symm.trans hf) nofun, l, ?_, hl.ne, ?_, hl.owned⟩
  · rw [first_of_heap (by exact hheap)]
    exact hpav
  · rw [first_of_heap (by exact hheap)]
    refine hlaid.headers fun x hx => hw x ?_
    rcases busyAt_apart hb hx with hle | hle
    · exact .inr (by simp only at hle; omega)
    · exact .inl hle

theorem inv_step {a : Act} (h : Inv rfsize s) (hst : Step rfsize a s t) : Inv rfsize t := by
  cases hst with
  | alloc heq =>
    obtain ⟨r, t', ht, hinv, -⟩ := h.alloc _
    cases heq.symm.trans ht
    exact hinv
  | free hp heq =>
    obtain ⟨t', ht, hinv⟩ := h.free hp
    cases heq.symm.trans ht
    exact hinv
  | write hp hw => exact h.write hp hw

structure Sound (rfsize : Nat) (s : Heap) : Prop where
  divided : ∃ l, Divided rfsize s l
  aligned : ∀ p sz, (p, sz) ∈ s.live → p % HSIZE = 0
  inside : ∀ l, Divided rfsize s l → ∀ p sz, (p, sz) ∈ s.live →
    (∃ n, (p, n) ∈ busyAt HSIZE 0 l ∧ sz ≤ n) ∧ p + sz ≤ rfsize ∧
    ∀ q ∈ headersAt HSIZE 0 l, p + sz ≤ q ∨ q + HSIZE ≤ p
  apart : s.live.Pairwise fun a b => a.1 + a.2 + HSIZE ≤ b.1 ∨ b.1 + b.2 + HSIZE ≤ a.1
  alloc : ∀ size, ∃ r t, hAlloc rfsize size s = some (r, t) ∧
    (r = none → bump size + HSIZE ≤ MAXALLOC → ∀ l, Divided rfsize s l → Tight (bump size) l)
  free : ∀ p sz, (p, sz) ∈ s.live → ∃ t, hFree p s = some t

theorem Divided.aligned (h : Divided rfsize s l) (hp : (p, sz) ∈ s.live) : p % HSIZE = 0 := by
  obtain ⟨n, hb, -⟩ := h.block hp
  exact (free_spec h.laid rfl hb).2.2.2.2.1

/-- Two live blocks lie apart, with a header between them. -/
theorem Divided.apart (h : Divided rfsize s l) :
    s.live.Pairwise fun a b => a.1 + a.2 + HSIZE ≤ b.1 ∨ b.1 + b.2 + HSIZE ≤ a.1 := by
  have hpair := busyAt_pairwise HSIZE 0 l
  have hmap : (s.live.map (·.1)).Nodup := by
    rw [h.owned.perm.nodup_iff]
    refine List.pairwise_map.mpr (hpair.imp fun {a b} hab => ?_)
    have hH : HSIZE = 4 := rfl
    omega
  refine (List.pairwise_map.mp hmap).imp_of_mem fun {a b} ha hb hne => ?_
  obtain ⟨n, hn, hle⟩ := @Divided.block _ _ a.2 _ _ h ha
  obtain ⟨m, hm, hle'⟩ := @Divided.block _ _ b.2 _ _ h hb
  have hany : ∀ x ∈ busyAt HSIZE 0 l, ∀ y ∈ busyAt HSIZE 0 l,
      x.1 = y.1 ∨ x.1 + x.2 + HSIZE ≤ y.1 ∨ y.1 + y.2 + HSIZE ≤ x.1 := fun x hx y hy =>
    List.Pairwise.forall_of_forall_of_flip
      (R := fun x y : Nat × Nat => x.1 = y.1 ∨ x.1 + x.2 + HSIZE ≤ y.1 ∨ y.1 + y.2 + HSIZE ≤ x.1)
      (fun z _ => Or.inl rfl) (hpair.imp fun h => Or.inr (Or.inl h))
      (hpair.imp fun h => Or.inr (Or.inr h)) hx hy
  rcases hany _ hn _ hm with he | hlt | hlt
  · exact absurd he hne
  · simp only at hlt
    omega
  · simp only at hlt
    omega

/-- Every run of h_alloc and h_free. -/
theorem heap_sound (h4 : HSIZE ≤ rfsize) (hr : (heaping rfsize).Reachable s) :
    Sound rfsize s := by
  have h : Inv rfsize s := (heaping rfsize).invariant (Inv rfsize) (fun _ => Inv.boot h4)
    (fun _ _ h hst => hst.elim fun _ ha => inv_step h ha) hr
  obtain ⟨l, hl⟩ := h.divided
  refine ⟨h.divided, fun p sz hp => hl.aligned hp, fun l hl p sz hp => ?_, hl.apart,
    fun size => ?_, fun p sz hp => ?_⟩
  · obtain ⟨n, hb, hn⟩ := hl.block hp
    have hbound := (busyAt_bounds hb).2
    have hspan := hl.laid.span
    refine ⟨⟨n, hb, hn⟩, ?_, fun q hq => ?_⟩
    · simp only at hbound
      omega
    · rcases busyAt_apart hb hq with hle | hle
      · exact .inl (by simp only at hle; omega)
      · exact .inr hle
  · obtain ⟨r, t, ht, -, htight⟩ := h.alloc size
    exact ⟨r, t, ht, htight⟩
  · obtain ⟨t, ht, -⟩ := h.free hp
    exact ⟨t, ht⟩

/- The heap of a system that has just started. -/
def cold : Heap := ⟨false, 0, fun _ => 0, []⟩

/-- One block of ten bytes. -/
theorem heap_sound_ten : ∃ t, hAlloc 3072 10 cold = some (some 4, t) ∧ Sound 3072 t := by
  have hboot : (heaping 3072).Reachable cold := System.reachable_init ⟨rfl, rfl⟩
  obtain ⟨r, t, ht⟩ : ∃ r t, hAlloc 3072 10 cold = some (r, t) := by
    have h : Inv 3072 cold := Inv.boot (by decide) ⟨rfl, rfl⟩
    obtain ⟨r, t, ht, -⟩ := h.alloc 10
    exact ⟨r, t, ht⟩
  have hr : r = some 4 := by
    have heval : (hAlloc 3072 10 cold).map (·.1) = some (some 4) := rfl
    rw [ht] at heval
    exact Option.some.inj heval
  subst hr
  exact ⟨t, ht, heap_sound (by decide) (System.reachable_step hboot ⟨_, .alloc ht⟩)⟩

/-- A request of MAXALLOC bytes fails where there is room. -/
theorem heap_maxalloc :
    ¬ ∀ s, (heaping 3072).Reachable s → ∀ size t, size ≤ MAXALLOC →
      hAlloc 3072 size s = some (none, t) → ∀ l, Divided 3072 s l → Tight size l := by
  intro h
  have hl : Divided 3072 cold [⟨3068, false⟩] := Divided.boot (by decide) ⟨rfl, rfl⟩
  have hfail : hAlloc 3072 2040 cold = some (none, first 3072 cold) := by
    rw [hAlloc]
    exact if_pos (by decide)
  have htight := h cold (System.reachable_init ⟨rfl, rfl⟩) 2040 _ (by decide) hfail _ hl
  exact absurd (htight [] [⟨3068, false⟩] [] rfl (List.cons_ne_nil _ _) (by simp)) (by decide)

end Svr32.Rfs
