import Svr32.Lib.Links
import Svr32.Lib.Seg

/-! Doubly linked queues with a pointer to either end. Insertion and removal at any place are
stated by what every pointer is afterwards, in whatever order the code sets them. -/
namespace Svr32.Lib
variable {ι : Type*} {next prev next' prev' : ι → Option ι} {first last : Option ι} {l : List ι}

structure Deque (next prev : ι → Option ι) (first last : Option ι) (l : List ι) : Prop where
  chain : Chain next prev none first l
  last : last = l.getLast?
  nodup : l.Nodup

namespace Deque

theorem congr (h : Deque next prev first last l)
    (hl : ∀ x ∈ l, next' x = next x ∧ prev' x = prev x) : Deque next' prev' first last l :=
  ⟨h.chain.congr hl, h.last, h.nodup⟩

theorem first_eq (h : Deque next prev first last l) : first = l.head? := h.chain.head

theorem nil (next prev : ι → Option ι) : Deque next prev none none ([] : List ι) :=
  ⟨rfl, rfl, List.nodup_nil⟩

/-- Forward links alone. -/
theorem seg (h : Deque next prev first last l) : Seg next first l := by
  have hchain : ∀ {l : List ι} {p f : Option ι}, Chain next prev p f l → Seg next f l := by
    intro l
    induction l with
    | nil => exact fun hc => hc
    | cons x xs ih => exact fun hc => ⟨hc.1, ih hc.2.2⟩
  exact hchain h.chain

variable {pre post : List ι} {x : ι}

theorem next_eq (h : Deque next prev first last (pre ++ x :: post)) : next x = post.head? :=
  h.chain.next_prev.1

theorem prev_eq (h : Deque next prev first last (pre ++ x :: post)) :
    prev x = pre.getLast? := by
  rw [h.chain.next_prev.2, Option.or_none]

variable [DecidableEq ι]

/-- A new node between `pre` and `post`. -/
theorem insert {first' last' : Option ι} (h : Deque next prev first last (pre ++ post))
    (hx : x ∉ pre ++ post) (hnx : next' x = post.head?) (hpx : prev' x = pre.getLast?)
    (hn : ∀ y ∈ pre ++ post, next' y = if pre.getLast? = some y then some x else next y)
    (hp : ∀ y ∈ pre ++ post, prev' y = if post.head? = some y then some x else prev y)
    (hf : first' = if pre = [] then some x else first)
    (hl : last' = if post = [] then some x else last) :
    Deque next' prev' first' last' (pre ++ x :: post) := by
  have hnd : (pre ++ x :: post).Nodup := by
    rw [List.perm_middle.nodup_iff]
    exact List.nodup_cons.mpr ⟨hx, h.nodup⟩
  have hne : ∀ y ∈ pre ++ post, y ≠ x := fun y hy he => hx (he ▸ hy)
  refine ⟨?_, ?_, hnd⟩
  · rcases List.eq_nil_or_concat' pre with rfl | ⟨q, z, rfl⟩
    · rw [hf, if_pos rfl]
      have hpush := h.chain.push h.nodup hx none
      refine hpush.congr fun y hy => ?_
      rcases List.mem_cons.mp hy with rfl | hy
      · rw [Function.update_self, Function.update_self, hnx, hpx, h.first_eq]
        exact ⟨rfl, rfl⟩
      · rw [Function.update_of_ne (hne y hy), Function.update_of_ne (hne y hy), hn y hy, hp y hy,
          if_neg (by simp)]
        refine ⟨rfl, ?_⟩
        have hfirst : first = post.head? := h.first_eq
        by_cases he : post.head? = some y
        · rw [if_pos he, hfirst, he]
          simp [setPrev]
        · rw [if_neg he, setPrev_of_ne (hfirst ▸ he)]
    · have hsplit : q ++ [z] ++ post = q ++ z :: post := by simp
      rw [hsplit] at h hx hn hp hne
      have hafter := h.chain.insertAfter h.nodup hx
      have hfirst : first' = first := by simpa using hf
      rw [hfirst, List.append_assoc, List.singleton_append]
      have hz : z ≠ x := hne z (by simp)
      have hnz : next z = post.head? := h.next_eq
      refine hafter.congr fun y hy => ?_
      by_cases hyx : y = x
      · subst hyx
        rw [Function.update_of_ne hz.symm, Function.update_self, Function.update_self, hnx, hpx,
          hnz]
        simp
      · have hy' : y ∈ q ++ z :: post := by
          simp only [List.mem_append, List.mem_cons] at hy ⊢
          rcases hy with hy | hy | hy | hy
          · exact .inl hy
          · exact .inr (.inl hy)
          · exact absurd hy hyx
          · exact .inr (.inr hy)
        rw [Function.update_of_ne hyx, hn y hy', hp y hy', List.getLast?_concat]
        refine ⟨?_, ?_⟩
        · by_cases hyz : y = z
          · rw [hyz, if_pos rfl, Function.update_self]
          · rw [if_neg fun he => hyz (Option.some.inj he).symm, Function.update_of_ne hyz,
              Function.update_of_ne hyx]
        · by_cases he : post.head? = some y
          · rw [if_pos he, hnz, he]
            simp [setPrev]
          · rw [if_neg he, setPrev_of_ne (hnz ▸ he)]
  · rw [hl]
    by_cases hpost : post = []
    · simp [hpost]
    · obtain ⟨q, z, rfl⟩ := (List.eq_nil_or_concat' post).resolve_left hpost
      rw [if_neg hpost, h.last, ← List.append_assoc, List.getLast?_concat, ← List.cons_append,
        ← List.append_assoc, List.getLast?_concat]

/-- A node is taken from between `pre` and `post`. -/
theorem remove {first' last' : Option ι} (h : Deque next prev first last (pre ++ x :: post))
    (hn : ∀ y ∈ pre ++ post, next' y = if pre.getLast? = some y then post.head? else next y)
    (hp : ∀ y ∈ pre ++ post, prev' y = if post.head? = some y then pre.getLast? else prev y)
    (hf : first' = if pre = [] then post.head? else first)
    (hl : last' = if post = [] then pre.getLast? else last) :
    Deque next' prev' first' last' (pre ++ post) := by
  have hnd := List.nodup_cons.mp (List.perm_middle.nodup_iff.mp h.nodup)
  have hnx : next x = post.head? := h.next_eq
  refine ⟨?_, ?_, hnd.2⟩
  · rcases List.eq_nil_or_concat' pre with rfl | ⟨q, z, rfl⟩
    · rw [hf, if_pos rfl, ← hnx]
      refine (h.chain.pop h.nodup none).congr fun y hy => ?_
      rw [hn y hy, hp y hy, if_neg (by simp)]
      refine ⟨rfl, ?_⟩
      by_cases he : post.head? = some y
      · rw [if_pos he, hnx, he]
        simp [setPrev]
      · rw [if_neg he, setPrev_of_ne (hnx ▸ he)]
    · have hchain : Chain next prev none first (q ++ z :: x :: post) := by
        simpa using h.chain
      have hnd' : (q ++ z :: x :: post).Nodup := by simpa using h.nodup
      have hafter := hchain.removeAfter hnd'
      have hfirst : first' = first := by simpa using hf
      rw [hfirst, List.append_assoc, List.singleton_append]
      refine hafter.congr fun y hy => ?_
      rw [hn y (by simpa using hy), hp y (by simpa using hy), List.getLast?_concat]
      refine ⟨?_, ?_⟩
      · by_cases hyz : y = z
        · rw [hyz, if_pos rfl, Function.update_self, hnx]
        · rw [if_neg fun he => hyz (Option.some.inj he).symm, Function.update_of_ne hyz]
      · by_cases he : post.head? = some y
        · rw [if_pos he, hnx, he]
          simp [setPrev]
        · rw [if_neg he, setPrev_of_ne (hnx ▸ he)]
  · rw [hl]
    by_cases hpost : post = []
    · simp [hpost]
    · obtain ⟨q, z, rfl⟩ := (List.eq_nil_or_concat' post).resolve_left hpost
      rw [if_neg hpost, h.last, ← List.append_assoc, List.getLast?_concat, ← List.cons_append,
        ← List.append_assoc, List.getLast?_concat]

end Deque

end Svr32.Lib
