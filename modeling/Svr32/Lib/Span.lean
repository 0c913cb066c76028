import Mathlib.Order.Interval.Set.LinearOrder
import Mathlib.Data.List.Pairwise
import Mathlib.Order.CompletePartialOrder
import Mathlib.Data.Set.Lattice

/-! Finite unions of half-open spans kept as separated lists: the general theory
of free lists with coalescing. Nothing here knows about any allocator's tables. -/
namespace Svr32.Lib
variable {α : Type*} [LinearOrder α]

/- A nonempty half-open span. -/
@[ext] structure Span (α : Type*) [LT α] where
  lo : α
  hi : α
  lt : lo < hi

namespace Span

def set (s : Span α) : Set α := Set.Ico s.lo s.hi

def join (t s : Span α) (h : t.hi = s.lo) : Span α := ⟨t.lo, s.hi, t.lt.trans (h ▸ s.lt)⟩

theorem lo_mem (s : Span α) : s.lo ∈ s.set := ⟨le_rfl, s.lt⟩

theorem join_set (t s : Span α) (h : t.hi = s.lo) : (t.join s h).set = t.set ∪ s.set := by
  have hs : t.hi ≤ s.hi := h ▸ s.lt.le
  simp only [set, join, ← h]
  exact (Set.Ico_union_Ico_eq_Ico t.lt.le hs).symm

/-- Spans that share no point lie one behind the other. -/
theorem le_or_le_of_disjoint {s t : Span α} (h : Disjoint s.set t.set) :
    s.hi ≤ t.lo ∨ t.hi ≤ s.lo := by
  by_contra hc
  push Not at hc
  have hm : max s.lo t.lo ∈ s.set ∩ t.set :=
    ⟨⟨le_max_left _ _, max_lt s.lt hc.1⟩, ⟨le_max_right _ _, max_lt hc.2 t.lt⟩⟩
  exact Set.disjoint_left.mp h hm.1 hm.2

end Span

/-- Increasing, disjoint and with a gap between neighbours. -/
def Separated (l : List (Span α)) : Prop := l.Pairwise fun s t => s.hi < t.lo

def cover (l : List (Span α)) : Set α := {x | ∃ s ∈ l, x ∈ s.set}

@[simp] theorem cover_nil : cover ([] : List (Span α)) = ∅ := by simp [cover]

@[simp] theorem cover_cons (s : Span α) (l : List (Span α)) :
    cover (s :: l) = s.set ∪ cover l := by
  ext x
  simp [cover]

@[simp] theorem cover_append (l m : List (Span α)) : cover (l ++ m) = cover l ∪ cover m := by
  induction l with
  | nil => simp
  | cons s l ih => simp [ih, Set.union_assoc]

theorem subset_cover {s : Span α} {l : List (Span α)} (h : s ∈ l) : s.set ⊆ cover l :=
  fun _ hx => ⟨s, h, hx⟩

/- Put `s` in front of a list that starts behind it, closing a zero gap. -/
def joinRight (s : Span α) : List (Span α) → List (Span α)
  | [] => [s]
  | u :: us => if h : s.hi = u.lo then s.join u h :: us else s :: u :: us

/- Add a span to a separated list. -/
def give (s : Span α) : List (Span α) → List (Span α)
  | [] => [s]
  | t :: ts =>
    if t.hi < s.lo then t :: give s ts
    else if h : t.hi = s.lo then joinRight (t.join s h) ts
    else joinRight s (t :: ts)

theorem joinRight_cover (s : Span α) (l : List (Span α)) :
    cover (joinRight s l) = s.set ∪ cover l := by
  cases l with
  | nil => simp [joinRight]
  | cons u us =>
    by_cases h : s.hi = u.lo
    · simp [joinRight, h, Span.join_set, Set.union_assoc]
    · simp [joinRight, h]

theorem joinRight_separated {s : Span α} {l : List (Span α)} (hl : Separated l)
    (hs : ∀ u ∈ l, s.hi ≤ u.lo) : Separated (joinRight s l) := by
  cases l with
  | nil => simp [joinRight, Separated]
  | cons u us =>
    obtain ⟨hu, hus⟩ := List.pairwise_cons.mp hl
    by_cases h : s.hi = u.lo
    · simp only [joinRight, h, dif_pos]
      exact List.pairwise_cons.mpr ⟨hu, hus⟩
    · simp only [joinRight, h, dif_neg, not_false_eq_true]
      have hlt : s.hi < u.lo := lt_of_le_of_ne (hs u (by simp)) h
      refine List.pairwise_cons.mpr ⟨?_, hl⟩
      intro v hv
      rcases List.mem_cons.mp hv with rfl | hv
      · exact hlt
      · exact (hlt.trans u.lt).trans (hu v hv)

/-- A span that meets no span of a separated list splits it in two. -/
theorem split_at {s : Span α} {l : List (Span α)} (hl : Separated l)
    (hd : Disjoint s.set (cover l)) :
    ∃ pre suf, l = pre ++ suf ∧ (∀ t ∈ pre, t.hi ≤ s.lo) ∧ ∀ t ∈ suf, s.hi ≤ t.lo := by
  induction l with
  | nil => exact ⟨[], [], rfl, by simp, by simp⟩
  | cons t ts ih =>
    obtain ⟨ht, hts⟩ := List.pairwise_cons.mp hl
    rw [cover_cons, Set.disjoint_union_right] at hd
    rcases Span.le_or_le_of_disjoint hd.1 with h | h
    · refine ⟨[], t :: ts, rfl, by simp, ?_⟩
      intro u hu
      rcases List.mem_cons.mp hu with rfl | hu
      · exact h
      · exact h.trans (t.lt.trans (ht u hu)).le
    · obtain ⟨pre, suf, rfl, hp, hs⟩ := ih hts hd.2
      refine ⟨t :: pre, suf, rfl, ?_, hs⟩
      intro u hu
      rcases List.mem_cons.mp hu with rfl | hu
      · exact h
      · exact hp u hu

/-- `give` walks over everything that ends before `s`. -/
theorem give_append {s : Span α} {pre : List (Span α)} (suf : List (Span α))
    (h : ∀ t ∈ pre, t.hi < s.lo) : give s (pre ++ suf) = pre ++ give s suf := by
  induction pre with
  | nil => rfl
  | cons t pre ih =>
    have ht : t.hi < s.lo := h t (by simp)
    simp only [List.cons_append, give, ht, if_true]
    rw [ih fun u hu => h u (by simp [hu])]

theorem give_behind {s : Span α} {suf : List (Span α)} (h : ∀ t ∈ suf, s.hi ≤ t.lo) :
    give s suf = joinRight s suf := by
  cases suf with
  | nil => rfl
  | cons t ts =>
    have ht : s.lo < t.hi := s.lt.trans_le ((h t (by simp)).trans t.lt.le)
    simp [give, ht.not_gt, ht.ne']

theorem give_touching {t s : Span α} (h : t.hi = s.lo) (suf : List (Span α)) :
    give s (t :: suf) = joinRight (t.join s h) suf := by
  simp [give, h]

theorem give_cover (s : Span α) (l : List (Span α)) : cover (give s l) = s.set ∪ cover l := by
  induction l with
  | nil => simp [give]
  | cons t ts ih =>
    by_cases h : t.hi < s.lo
    · simp only [give, h, if_true, cover_cons, ih]
      rw [Set.union_left_comm]
    · by_cases h' : t.hi = s.lo
      · rw [give_touching h', joinRight_cover, Span.join_set, cover_cons, ← Set.union_assoc,
          Set.union_comm t.set]
      · simp only [give, h, if_false, h', dif_neg, not_false_eq_true, joinRight_cover]

/-- Adding a disjoint span keeps the list separated. -/
theorem give_separated {s : Span α} {l : List (Span α)} (hl : Separated l)
    (hd : Disjoint s.set (cover l)) : Separated (give s l) := by
  induction l with
  | nil => simp [give, Separated]
  | cons t ts ih =>
    obtain ⟨ht, hts⟩ := List.pairwise_cons.mp hl
    rw [cover_cons, Set.disjoint_union_right] at hd
    rcases Span.le_or_le_of_disjoint hd.1 with h | h
    · rw [give_behind]
      · refine joinRight_separated hl ?_
        intro u hu
        rcases List.mem_cons.mp hu with rfl | hu
        · exact h
        · exact h.trans (t.lt.trans (ht u hu)).le
      · intro u hu
        rcases List.mem_cons.mp hu with rfl | hu
        · exact h
        · exact h.trans (t.lt.trans (ht u hu)).le
    · rcases h.lt_or_eq with h | h
      · simp only [give, h, if_true]
        refine List.pairwise_cons.mpr ⟨?_, ih hts hd.2⟩
        intro u hu
        have hu' : u.lo ∈ s.set ∪ cover ts := by
          rw [← give_cover]
          exact subset_cover hu u.lo_mem
        rcases hu' with hu' | ⟨v, hv, hu'⟩
        · exact h.trans_le hu'.1
        · exact (ht v hv).trans_le hu'.1
      · rw [give_touching h]
        refine joinRight_separated hts ?_
        intro u hu
        rcases Span.le_or_le_of_disjoint
          (hd.2.mono_right (subset_cover hu)) with h' | h'
        · exact h'
        · exact absurd ((ht u hu).trans (u.lt.trans_le (h' |>.trans h.ge))) (lt_irrefl _)

/-! Natural-number spans have a size; first fit takes from the first large one. -/

def Span.size (s : Span Nat) : Nat := s.hi - s.lo

theorem Span.size_pos (s : Span Nat) : 0 < s.size := Nat.sub_pos_of_lt s.lt

theorem Span.lo_add_size (s : Span Nat) : s.lo + s.size = s.hi :=
  Nat.add_sub_cancel' s.lt.le

/- What is left of `s` behind its first `n` points. -/
def Span.rest (s : Span Nat) (n : Nat) : List (Span Nat) :=
  if h : s.lo + n < s.hi then [⟨s.lo + n, s.hi, h⟩] else []

def firstFit (n : Nat) : List (Span Nat) → Option (Nat × List (Span Nat))
  | [] => none
  | s :: l =>
    if n ≤ s.size then some (s.lo, s.rest n ++ l)
    else (firstFit n l).map fun r => (r.1, s :: r.2)

theorem firstFit_none {n : Nat} {l : List (Span Nat)} (h : firstFit n l = none) :
    ∀ s ∈ l, s.size < n := by
  induction l with
  | nil => simp
  | cons s l ih =>
    by_cases hs : n ≤ s.size
    · simp [firstFit, hs] at h
    · simp only [firstFit, hs, if_false, Option.map_eq_none_iff] at h
      simpa using ⟨Nat.lt_of_not_le hs, ih h⟩

theorem firstFit_some {n a : Nat} {l l' : List (Span Nat)} (h : firstFit n l = some (a, l')) :
    ∃ pre s suf, l = pre ++ s :: suf ∧ l' = pre ++ (s.rest n ++ suf) ∧ a = s.lo ∧
      n ≤ s.size ∧ ∀ t ∈ pre, t.size < n := by
  induction l generalizing l' with
  | nil => simp [firstFit] at h
  | cons s l ih =>
    by_cases hs : n ≤ s.size
    · simp only [firstFit, hs, if_true, Option.some.injEq, Prod.mk.injEq] at h
      exact ⟨[], s, l, rfl, h.2.symm, h.1.symm, hs, by simp⟩
    · simp only [firstFit, hs, if_false, Option.map_eq_some_iff, Prod.mk.injEq] at h
      obtain ⟨⟨a', m⟩, hm, rfl, rfl⟩ := h
      obtain ⟨pre, t, suf, rfl, rfl, ha, hn, hp⟩ := ih hm
      refine ⟨s :: pre, t, suf, rfl, rfl, ha, hn, ?_⟩
      simpa using ⟨Nat.lt_of_not_le hs, hp⟩

theorem Span.rest_cover {s : Span Nat} {n : Nat} (h : n ≤ s.size) :
    cover (s.rest n) = s.set \ Set.Ico s.lo (s.lo + n) := by
  have hs := s.lo_add_size
  ext x
  by_cases hn : s.lo + n < s.hi
  · simp only [rest, hn, dif_pos, cover_cons, cover_nil, Set.union_empty, set, Set.mem_Ico,
      Set.mem_sdiff]
    omega
  · simp only [rest, hn, dif_neg, not_false_eq_true, cover_nil, Set.mem_empty_iff_false, set,
      Set.mem_sdiff, Set.mem_Ico, false_iff]
    omega

theorem rest_bounds {s t : Span Nat} {n : Nat} (h : t ∈ s.rest n) :
    s.lo ≤ t.lo ∧ t.hi = s.hi := by
  by_cases hn : s.lo + n < s.hi
  · simp only [Span.rest, hn, dif_pos, List.mem_singleton] at h
    exact ⟨by simp [h], by simp [h]⟩
  · simp [Span.rest, hn] at h

/-- Taking the front of one span keeps a list separated. -/
theorem rest_separated {s : Span Nat} {pre suf : List (Span Nat)} (n : Nat)
    (h : Separated (pre ++ s :: suf)) : Separated (pre ++ (s.rest n ++ suf)) := by
  obtain ⟨hp, hs, hps⟩ := List.pairwise_append.mp h
  obtain ⟨hs, hsuf⟩ := List.pairwise_cons.mp hs
  refine List.pairwise_append.mpr ⟨hp, List.pairwise_append.mpr ⟨?_, hsuf, ?_⟩, ?_⟩
  · by_cases hn : s.lo + n < s.hi <;> simp [Span.rest, hn]
  · intro t ht u hu
    rw [(rest_bounds ht).2]
    exact hs u hu
  · intro t ht u hu
    rcases List.mem_append.mp hu with hu | hu
    · exact (hps t ht s (by simp)).trans_le (rest_bounds hu).1
    · exact hps t ht u (by simp [hu])

/-- A span of a separated list meets no other span of it. -/
theorem separated_disjoint {s : Span α} {pre suf : List (Span α)}
    (h : Separated (pre ++ s :: suf)) : Disjoint s.set (cover (pre ++ suf)) := by
  obtain ⟨-, hs, hps⟩ := List.pairwise_append.mp h
  obtain ⟨hs, -⟩ := List.pairwise_cons.mp hs
  rw [Set.disjoint_left]
  rintro x ⟨hlo, hhi⟩ ⟨t, ht, htlo, hthi⟩
  rcases List.mem_append.mp ht with ht | ht
  · exact absurd (hthi.trans ((hps t ht s (by simp)).trans_le hlo)) (lt_irrefl _)
  · exact absurd (hhi.trans ((hs t ht).trans_le htlo)) (lt_irrefl _)

end Svr32.Lib
