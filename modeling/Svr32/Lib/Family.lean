import Svr32.Lib.Seg

/-! Singly linked lists over one set of nodes: several heads, every node on one list at
most. Taking nodes off and putting them on, at either end. -/
namespace Svr32.Lib
variable {ι ν : Type*} {next : ν → Option ν} {head : ι → Option ν} {ls : ι → List ν}

structure Family (next : ν → Option ν) (head : ι → Option ν) (ls : ι → List ν) : Prop where
  seg : ∀ i, Seg next (head i) (ls i)
  nodup : ∀ i, (ls i).Nodup
  one : ∀ i j x, x ∈ ls i → x ∈ ls j → i = j

namespace Family

/-- The family depends on the links of its own nodes only. -/
theorem congr {next' : ν → Option ν} (h : Family next head ls)
    (hn : ∀ i, ∀ x ∈ ls i, next' x = next x) : Family next' head ls :=
  ⟨fun i => (h.seg i).congr (hn i), h.nodup, h.one⟩

/-- A node of one list is on no other. -/
theorem not_mem (h : Family next head ls) {i j : ι} {x : ν} (hx : x ∈ ls i) (hji : j ≠ i) :
    x ∉ ls j := fun hj => hji (h.one j i x hj hx)

/-- The link of a node that is on no list. -/
theorem set [DecidableEq ν] (h : Family next head ls) {x : ν} (hx : ∀ j, x ∉ ls j)
    (v : Option ν) : Family (Function.update next x v) head ls :=
  h.congr fun i y hy => Function.update_of_ne (fun he : y = x => hx i (he ▸ hy)) _ _

variable [DecidableEq ι]

/-- Replacing one of the lists; its nodes are its old ones or on no list. -/
theorem replace (h : Family next head ls) {i : ι} {next' : ν → Option ν} {head' : Option ν}
    {l : List ν} (hseg : Seg next' head' l) (hnd : l.Nodup)
    (hother : ∀ j, j ≠ i → ∀ x ∈ ls j, x ∉ l ∧ next' x = next x) :
    Family next' (Function.update head i head') (Function.update ls i l) := by
  refine ⟨fun j => ?_, fun j => ?_, fun j j' x hj hj' => ?_⟩
  · by_cases hji : j = i
    · rw [hji, Function.update_self, Function.update_self]
      exact hseg
    · rw [Function.update_of_ne hji, Function.update_of_ne hji]
      exact (h.seg j).congr fun x hx => (hother j hji x hx).2
  · by_cases hji : j = i
    · rw [hji, Function.update_self]
      exact hnd
    · rw [Function.update_of_ne hji]
      exact h.nodup j
  · by_cases hji : j = i
    · by_cases hji' : j' = i
      · rw [hji, hji']
      · rw [hji, Function.update_self] at hj
        rw [Function.update_of_ne hji'] at hj'
        exact absurd hj (hother j' hji' x hj').1
    · rw [Function.update_of_ne hji] at hj
      by_cases hji' : j' = i
      · rw [hji', Function.update_self] at hj'
        exact absurd hj' (hother j hji x hj).1
      · rw [Function.update_of_ne hji'] at hj'
        exact h.one j j' x hj hj'

theorem pop (h : Family next head ls) {i : ι} {x : ν} {xs : List ν} (hl : ls i = x :: xs) :
    Family next (Function.update head i (next x)) (Function.update ls i xs) := by
  have hs := h.seg i
  have hnd := h.nodup i
  rw [hl] at hs hnd
  refine h.replace hs.2 (List.nodup_cons.mp hnd).2 fun j hji y hy => ⟨fun hm => ?_, rfl⟩
  exact hji (h.one j i y hy (by rw [hl]; exact List.mem_cons_of_mem x hm))

variable [DecidableEq ν]

theorem push (h : Family next head ls) {x : ν} (hx : ∀ j, x ∉ ls j) (i : ι) :
    Family (Function.update next x (head i)) (Function.update head i (some x))
      (Function.update ls i (x :: ls i)) := by
  refine h.replace ((h.seg i).push (hx i)) (List.nodup_cons.mpr ⟨hx i, h.nodup i⟩)
    fun j hji y hy => ?_
  have hyx : y ≠ x := fun he => hx j (he ▸ hy)
  refine ⟨fun hm => ?_, Function.update_of_ne hyx _ _⟩
  cases List.mem_cons.mp hm with
  | inl he => exact hyx he
  | inr hm => exact hji (h.one j i y hy hm)

/-- A new last node, on an empty list or not. -/
theorem snoc (h : Family next head ls) {x : ν} (hx : ∀ j, x ∉ ls j) (hn : next x = none) (i : ι) :
    (ls i = [] → Family next (Function.update head i (some x)) (Function.update ls i [x])) ∧
      ∀ y, (ls i).getLast? = some y → Family (Function.update next y (some x)) head
        (Function.update ls i (ls i ++ [x])) := by
  constructor
  · intro _
    refine h.replace ⟨rfl, hn⟩ (List.nodup_singleton x) fun j _ y hy => ⟨fun hm => ?_, rfl⟩
    exact hx j (List.mem_singleton.mp hm ▸ hy)
  · intro y hy
    obtain ⟨pre, hpre⟩ := List.getLast?_eq_some_iff.mp hy
    have hs := h.seg i
    have hnd := h.nodup i
    rw [hpre] at hs hnd
    have hseg := hs.append hnd (hpre ▸ hx i) hn
    have hsplit : pre ++ [y, x] = ls i ++ [x] := by simp [hpre]
    have hr := @Family.replace _ _ _ _ _ _ h i _ (head i) (ls i ++ [x]) (hsplit ▸ hseg) ?_
      fun j hji z hz => ?_
    · rwa [Function.update_eq_self] at hr
    · rw [List.nodup_append']
      exact ⟨h.nodup i, List.nodup_singleton x, fun z hz hm =>
        hx i (List.mem_singleton.mp hm ▸ hz)⟩
    · have hzi : z ∉ ls i := h.not_mem hz hji.symm
      have hzy : z ≠ y := fun he => hzi (by rw [hpre, he]; simp)
      refine ⟨fun hm => ?_, Function.update_of_ne hzy _ _⟩
      cases List.mem_append.mp hm with
      | inl hm => exact hzi hm
      | inr hm => exact hx j (List.mem_singleton.mp hm ▸ hz)

end Family

end Svr32.Lib
