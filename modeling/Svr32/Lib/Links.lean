import Mathlib.Logic.Function.Basic
import Mathlib.Data.List.Nodup

/-! Doubly linked lists in a heap. Several lists with their own head pointers share
the nodes; insertion and removal are the usual pointer assignments, and their effect
is stated on the list of nodes each head leads to. -/
namespace Svr32.Lib
variable {κ ι : Type*}

structure Links (κ ι : Type*) where
  head : κ → Option ι
  next : ι → Option ι
  prev : ι → Option ι

/- From `h` on, the nodes are `l`; the node in front of `h` is `p`. -/
def Chain (next prev : ι → Option ι) : Option ι → Option ι → List ι → Prop
  | _, h, [] => h = none
  | p, h, x :: xs => h = some x ∧ prev x = p ∧ Chain next prev (some x) (next x) xs

theorem Chain.head {next prev : ι → Option ι} {p h : Option ι} {l : List ι}
    (hc : Chain next prev p h l) : h = l.head? := by
  cases l with
  | nil => exact hc
  | cons x xs => exact hc.1

theorem Chain.next_prev {next prev : ι → Option ι} {p h : Option ι} {pre post : List ι} {x : ι}
    (hc : Chain next prev p h (pre ++ x :: post)) :
    next x = post.head? ∧ prev x = pre.getLast?.or p := by
  induction pre generalizing p h with
  | nil => exact ⟨hc.2.2.head, by simpa using hc.2.1⟩
  | cons y pre ih =>
    obtain ⟨hn, hp⟩ := ih hc.2.2
    refine ⟨hn, hp.trans ?_⟩
    cases hl : pre.getLast? <;> simp [List.getLast?_cons, hl]

theorem Chain.congr {next prev next' prev' : ι → Option ι} {p h : Option ι} {l : List ι}
    (hc : Chain next prev p h l) (hl : ∀ x ∈ l, next' x = next x ∧ prev' x = prev x) :
    Chain next' prev' p h l := by
  induction l generalizing p h with
  | nil => exact hc
  | cons x xs ih =>
    obtain ⟨hn, hp⟩ := hl x (by simp)
    refine ⟨hc.1, hp.trans hc.2.1, ?_⟩
    rw [hn]
    exact ih hc.2.2 fun y hy => hl y (by simp [hy])

theorem Chain.unique {next prev : ι → Option ι} {p h : Option ι} {l l' : List ι}
    (hc : Chain next prev p h l) (hc' : Chain next prev p h l') : l = l' := by
  induction l generalizing p h l' with
  | nil =>
    cases l' with
    | nil => rfl
    | cons y l' => exact absurd (hc.symm.trans hc'.1) nofun
  | cons x l ih =>
    cases l' with
    | nil => exact absurd (hc'.symm.trans hc.1) nofun
    | cons y l' =>
      cases Option.some.inj (hc.1.symm.trans hc'.1)
      rw [ih hc.2.2 hc'.2.2]

/- Each head leads to its own nodes, and no node is on two lists. -/
structure Lists (L : Links κ ι) (ls : κ → List ι) : Prop where
  chain : ∀ k, Chain L.next L.prev none (L.head k) (ls k)
  nodup : ∀ k, (ls k).Nodup
  disj : ∀ k k' x, x ∈ ls k → x ∈ ls k' → k = k'

namespace Lists

theorem unique {L : Links κ ι} {ls ls' : κ → List ι} (h : Lists L ls) (h' : Lists L ls') :
    ls = ls' := funext fun k => (h.chain k).unique (h'.chain k)

theorem head_eq {L : Links κ ι} {ls : κ → List ι} (h : Lists L ls) (k : κ) :
    L.head k = (ls k).head? := (h.chain k).head

theorem next_eq {L : Links κ ι} {ls : κ → List ι} (h : Lists L ls) {k : κ} {pre post : List ι}
    {x : ι} (hk : ls k = pre ++ x :: post) : L.next x = post.head? :=
  ((hk ▸ h.chain k).next_prev).1

theorem prev_eq {L : Links κ ι} {ls : κ → List ι} (h : Lists L ls) {k : κ} {pre post : List ι}
    {x : ι} (hk : ls k = pre ++ x :: post) : L.prev x = pre.getLast? := by
  have hp := ((hk ▸ h.chain k).next_prev).2
  rwa [Option.or_none] at hp

theorem ne_other {L : Links κ ι} {ls : κ → List ι} (h : Lists L ls) {k k' : κ} (hkk : k' ≠ k)
    {z x : ι} (hz : z ∈ ls k') (hx : x ∈ ls k) : z ≠ x :=
  fun he => hkk (h.disj k' k z hz (he ▸ hx))

end Lists

variable [DecidableEq κ] [DecidableEq ι]

/- if (y != NULL) y->prev = p -/
def setPrev (prev : ι → Option ι) (y p : Option ι) : ι → Option ι :=
  match y with
  | none => prev
  | some y => Function.update prev y p

theorem setPrev_of_ne {prev : ι → Option ι} {y p : Option ι} {x : ι} (h : y ≠ some x) :
    setPrev prev y p x = prev x := by
  cases y with
  | none => rfl
  | some y => exact Function.update_of_ne (fun he => h (congrArg some he.symm)) _ _

/- Put the node `n` behind `fl`, or in front of the list `k` when `fl` is NULL. -/
def Links.insert (L : Links κ ι) (k : κ) (fl : Option ι) (n : ι) : Links κ ι :=
  match fl with
  | none =>
    { head := Function.update L.head k (some n)
      next := Function.update L.next n (L.head k)
      prev := Function.update (setPrev L.prev (L.head k) (some n)) n none }
  | some x =>
    { head := L.head
      next := Function.update (Function.update L.next n (L.next x)) x (some n)
      prev := Function.update (setPrev L.prev (L.next x) (some n)) n (some x) }

/- Take the node `x` out of the list `k`. -/
def Links.remove (L : Links κ ι) (k : κ) (x : ι) : Links κ ι :=
  match L.prev x with
  | none =>
    { head := Function.update L.head k (L.next x)
      next := L.next
      prev := setPrev L.prev (L.next x) none }
  | some y =>
    { head := L.head
      next := Function.update L.next y (L.next x)
      prev := setPrev L.prev (L.next x) (some y) }

/- Take the first node `x` off the list `k`. -/
def Links.pop (L : Links κ ι) (k : κ) (x : ι) : Links κ ι :=
  { head := Function.update L.head k (L.next x)
    next := L.next
    prev := setPrev L.prev (L.next x) none }

/-- A new first node. -/
theorem Chain.push {next prev : ι → Option ι} {p h : Option ι} {l : List ι} {n : ι}
    (hc : Chain next prev p h l) (hl : l.Nodup) (hn : n ∉ l) (q : Option ι) :
    Chain (Function.update next n h) (Function.update (setPrev prev h (some n)) n q)
      q (some n) (n :: l) := by
  refine ⟨rfl, by simp, ?_⟩
  rw [Function.update_self]
  cases l with
  | nil => exact hc
  | cons y ys =>
    obtain ⟨rfl, -, ht⟩ := hc
    have hyn : y ≠ n := fun he => hn (by simp [he])
    refine ⟨rfl, by simp [hyn, setPrev], ?_⟩
    rw [Function.update_of_ne hyn]
    refine ht.congr fun z hz => ?_
    have hzn : z ≠ n := fun he => hn (by simp [← he, hz])
    have hzy : z ≠ y := fun he => (List.nodup_cons.mp hl).1 (he ▸ hz)
    simp [hzn, hzy, setPrev]

theorem Chain.insertAfter {next prev : ι → Option ι} {p h : Option ι} {pre post : List ι}
    {x n : ι} (hc : Chain next prev p h (pre ++ x :: post)) (hl : (pre ++ x :: post).Nodup)
    (hn : n ∉ pre ++ x :: post) :
    Chain (Function.update (Function.update next n (next x)) x (some n))
      (Function.update (setPrev prev (next x) (some n)) n (some x)) p h
      (pre ++ x :: n :: post) := by
  induction pre generalizing p h with
  | nil =>
    obtain ⟨rfl, hp, ht⟩ := hc
    obtain ⟨hx, hpost⟩ := List.nodup_cons.mp hl
    have hxn : x ≠ n := fun he => hn (by simp [he])
    have hnx : next x ≠ some x := fun he => hx (List.mem_of_mem_head? (ht.head ▸ he))
    refine ⟨rfl, by simp [hxn, setPrev_of_ne hnx, hp], ?_⟩
    rw [Function.update_self]
    refine (ht.push hpost (fun hm => hn (by simp [hm])) (some x)).congr fun z hz => ⟨?_, rfl⟩
    have hzx : z ≠ x := by
      rcases List.mem_cons.mp hz with rfl | hz
      · exact hxn.symm
      · exact fun he => hx (he ▸ hz)
    rw [Function.update_of_ne hzx]
  | cons y pre ih =>
    obtain ⟨rfl, hp, ht⟩ := hc
    obtain ⟨hy, hrest⟩ := List.nodup_cons.mp hl
    have hyx : y ≠ x := fun he => hy (by simp [he])
    have hyn : y ≠ n := fun he => hn (by simp [he])
    have hny : next x ≠ some y := fun he =>
      hy (by simp [List.mem_of_mem_head? (ht.next_prev.1 ▸ he)])
    refine ⟨rfl, by simp [hyn, setPrev_of_ne hny, hp], ?_⟩
    rw [Function.update_of_ne hyx, Function.update_of_ne hyn]
    exact ih ht hrest fun hm => hn (by simp [List.mem_cons_of_mem y hm])

theorem Chain.pop {next prev : ι → Option ι} {p h : Option ι} {post : List ι} {x : ι}
    (hc : Chain next prev p h (x :: post)) (hl : (x :: post).Nodup) (q : Option ι) :
    Chain next (setPrev prev (next x) q) q (next x) post := by
  obtain ⟨-, -, ht⟩ := hc
  obtain ⟨-, hpost⟩ := List.nodup_cons.mp hl
  cases post with
  | nil => exact ht
  | cons y ys =>
    obtain ⟨hy, -, ht⟩ := ht
    rw [hy]
    refine ⟨rfl, by simp [setPrev], ht.congr fun z hz => ⟨rfl, ?_⟩⟩
    have hzy : z ≠ y := fun he => (List.nodup_cons.mp hpost).1 (he ▸ hz)
    simp [setPrev, hzy]

theorem Chain.removeAfter {next prev : ι → Option ι} {p h : Option ι} {pre post : List ι}
    {y x : ι} (hc : Chain next prev p h (pre ++ y :: x :: post))
    (hl : (pre ++ y :: x :: post).Nodup) :
    Chain (Function.update next y (next x)) (setPrev prev (next x) (some y)) p h
      (pre ++ y :: post) := by
  induction pre generalizing p h with
  | nil =>
    obtain ⟨rfl, hp, ht⟩ := hc
    obtain ⟨hy, hrest⟩ := List.nodup_cons.mp hl
    have hny : next x ≠ some y := fun he =>
      hy (by simp [List.mem_of_mem_head? (ht.2.2.head ▸ he)])
    refine ⟨rfl, (setPrev_of_ne hny).trans hp, ?_⟩
    rw [Function.update_self]
    refine (ht.pop hrest (some y)).congr fun z hz => ⟨?_, rfl⟩
    have hzy : z ≠ y := fun he => hy (by simp [← he, hz])
    rw [Function.update_of_ne hzy]
  | cons a pre ih =>
    obtain ⟨rfl, hp, ht⟩ := hc
    obtain ⟨ha, hrest⟩ := List.nodup_cons.mp hl
    have hay : a ≠ y := fun he => ha (by simp [he])
    have hna : next x ≠ some a := by
      have hx := (show Chain next prev (some a) (next a) ((pre ++ [y]) ++ x :: post) by
        simpa using ht).next_prev.1
      exact fun he => ha (by simp [List.mem_of_mem_head? (hx ▸ he)])
    refine ⟨rfl, (setPrev_of_ne hna).trans hp, ?_⟩
    rw [Function.update_of_ne hay]
    exact ih ht hrest

namespace Lists

/-- Inserting a fresh node behind the nodes `pre` of one list. -/
theorem insert {L : Links κ ι} {ls : κ → List ι} (h : Lists L ls) {k : κ} {pre post : List ι}
    {n : ι} (hk : ls k = pre ++ post) (hn : ∀ k', n ∉ ls k') :
    Lists (L.insert k pre.getLast? n) (Function.update ls k (pre ++ n :: post)) := by
  have hc := h.chain k
  have hnd := h.nodup k
  have hnk := hn k
  rw [hk] at hc hnd hnk
  have hmem : ∀ x, x ∈ pre ++ n :: post ↔ x = n ∨ x ∈ ls k := by
    intro x
    simp only [hk, List.mem_append, List.mem_cons]
    tauto
  refine ⟨fun k' => ?_, fun k' => ?_, fun k₁ k₂ x h₁ h₂ => ?_⟩
  · by_cases hkk : k' = k
    · subst hkk
      rw [Function.update_self]
      rcases List.eq_nil_or_concat' pre with rfl | ⟨l, x, rfl⟩
      · simpa [Links.insert] using hc.push hnd hnk none
      · have hia := Chain.insertAfter (x := x) (by simpa using hc) (by simpa using hnd)
          (n := n) (by simpa using hnk)
        simpa [Links.insert] using hia
    · rw [Function.update_of_ne hkk]
      have hne : ∀ z ∈ ls k', z ≠ n ∧ z ∉ ls k := fun z hz =>
        ⟨fun he => hn k' (he ▸ hz), fun hz' => hkk (h.disj k' k z hz hz')⟩
      have hout : ∀ (z : ι) (l : List ι), z ∈ ls k' → (∀ y ∈ l, y ∈ ls k) → l.head? ≠ some z :=
        fun z l hz hl he => (hne z hz).2 (hl z (List.mem_of_mem_head? he))
      rcases List.eq_nil_or_concat' pre with rfl | ⟨l, x, rfl⟩
      · have hhead := h.head_eq k
        simp only [Links.insert, List.getLast?_nil, Function.update_of_ne hkk]
        refine (h.chain k').congr fun z hz => ?_
        rw [Function.update_of_ne (hne z hz).1, Function.update_of_ne (hne z hz).1,
          setPrev_of_ne (hhead ▸ hout z (ls k) hz fun _ hy => hy)]
        exact ⟨rfl, rfl⟩
      · have hnx := h.next_eq (x := x) (by simpa using hk)
        have hxk : x ∈ ls k := by simp [hk]
        simp only [Links.insert, List.getLast?_append, List.getLast?_singleton, Option.some_or]
        refine (h.chain k').congr fun z hz => ?_
        have hzx : z ≠ x := fun he => (hne z hz).2 (he ▸ hxk)
        rw [Function.update_of_ne hzx, Function.update_of_ne (hne z hz).1,
          Function.update_of_ne (hne z hz).1,
          setPrev_of_ne (hnx ▸ hout z post hz fun y hy => by simp [hk, hy])]
        exact ⟨rfl, rfl⟩
  · by_cases hkk : k' = k
    · subst hkk
      rw [Function.update_self]
      exact (List.perm_middle.nodup_iff).mpr (List.nodup_cons.mpr ⟨hnk, hnd⟩)
    · rw [Function.update_of_ne hkk]
      exact h.nodup k'
  · have hown : ∀ k', x ∈ Function.update ls k (pre ++ n :: post) k' → (x = n ∧ k' = k) ∨ x ∈ ls k' := by
      intro k' hx
      by_cases hkk : k' = k
      · subst hkk
        rw [Function.update_self] at hx
        rcases (hmem x).mp hx with rfl | hx
        · exact .inl ⟨rfl, rfl⟩
        · exact .inr hx
      · rw [Function.update_of_ne hkk] at hx
        exact .inr hx
    rcases hown k₁ h₁ with ⟨rfl, rfl⟩ | h₁'
    · rcases hown k₂ h₂ with ⟨-, rfl⟩ | h₂'
      · rfl
      · exact absurd h₂' (hn k₂)
    · rcases hown k₂ h₂ with ⟨rfl, -⟩ | h₂'
      · exact absurd h₁' (hn k₁)
      · exact h.disj k₁ k₂ x h₁' h₂'

/-- Taking a node out of its list. -/
theorem remove {L : Links κ ι} {ls : κ → List ι} (h : Lists L ls) {k : κ} {pre post : List ι}
    {x : ι} (hk : ls k = pre ++ x :: post) :
    Lists (L.remove k x) (Function.update ls k (pre ++ post)) := by
  have hc := h.chain k
  have hnd := h.nodup k
  have hnx := h.next_eq hk
  have hpx := h.prev_eq hk
  rw [hk] at hc hnd
  have hout : ∀ k', k' ≠ k → ∀ z ∈ ls k', post.head? ≠ some z := fun k' hkk z hz he =>
    h.ne_other hkk hz (show z ∈ ls k by simp [hk, List.mem_of_mem_head? he]) rfl
  refine ⟨fun k' => ?_, fun k' => ?_, fun k₁ k₂ y h₁ h₂ => ?_⟩
  · by_cases hkk : k' = k
    · subst hkk
      rw [Function.update_self]
      rcases List.eq_nil_or_concat' pre with rfl | ⟨l, y, rfl⟩
      · simpa [Links.remove, hpx] using hc.pop hnd none
      · have hra := Chain.removeAfter (y := y) (by simpa using hc) (by simpa using hnd)
        simpa [Links.remove, hpx] using hra
    · rw [Function.update_of_ne hkk]
      rcases List.eq_nil_or_concat' pre with rfl | ⟨l, y, rfl⟩
      · simp only [Links.remove, hpx, List.getLast?_nil, Function.update_of_ne hkk]
        refine (h.chain k').congr fun z hz => ?_
        rw [setPrev_of_ne (hnx ▸ hout k' hkk z hz)]
        exact ⟨rfl, rfl⟩
      · simp only [Links.remove, hpx, List.getLast?_append, List.getLast?_singleton,
          Option.some_or]
        refine (h.chain k').congr fun z hz => ?_
        rw [Function.update_of_ne (h.ne_other hkk hz (show y ∈ ls k by simp [hk])),
          setPrev_of_ne (hnx ▸ hout k' hkk z hz)]
        exact ⟨rfl, rfl⟩
  · by_cases hkk : k' = k
    · subst hkk
      rw [Function.update_self]
      exact (List.nodup_cons.mp (List.perm_middle.nodup_iff.mp hnd)).2
    · rw [Function.update_of_ne hkk]
      exact h.nodup k'
  · have hold : ∀ k', y ∈ Function.update ls k (pre ++ post) k' → y ∈ ls k' := by
      intro k' hy
      by_cases hkk : k' = k
      · subst hkk
        rw [Function.update_self] at hy
        rw [hk]
        exact (List.sublist_cons_self x post).append_left pre |>.subset hy
      · rwa [Function.update_of_ne hkk] at hy
    exact h.disj k₁ k₂ y (hold k₁ h₁) (hold k₂ h₂)

theorem pop {L : Links κ ι} {ls : κ → List ι} (h : Lists L ls) {k : κ} {post : List ι}
    {x : ι} (hk : ls k = x :: post) : Lists (L.pop k x) (Function.update ls k post) := by
  have hp := h.prev_eq (show ls k = [] ++ x :: post from hk)
  have hr := h.remove (show ls k = [] ++ x :: post from hk)
  rwa [Links.remove, hp] at hr

end Lists
end Svr32.Lib
