import Mathlib.Data.List.Nodup

/-! Doubly linked lists of records that are found by their address. The pointers to the left and
to the right of a record are its neighbours in the list. -/
namespace Svr32.Lib.Linked
variable {α : Type*} {a : Nat} {x y : α} {pre post xs : List α} {f : α → α}

class Node (α : Type*) where
  addr : α → Nat

export Node (addr)
variable [Node α]

def at? (a : Nat) (xs : List α) : Option α := xs.find? fun x => addr x == a

/- What is to the right of the record, the nearest first. -/
def rights (a : Nat) : List α → List α
  | [] => []
  | x :: xs => if addr x = a then xs else rights a xs

def lefts (a : Nat) (xs : List α) : List α := rights a xs.reverse

def change (a : Nat) (f : α → α) (xs : List α) : List α :=
  xs.map fun x => if addr x = a then f x else x

/- The record is taken out; it has a neighbour on each side. -/
def cut (a : Nat) (xs : List α) : Option (List α) :=
  if lefts a xs = [] ∨ rights a xs = [] then none
  else some (xs.filter fun x => addr x ≠ a)

/- A record that has a neighbour to the right gets another one. -/
def putAfter (a : Nat) (y : α) (xs : List α) : Option (List α) :=
  if rights a xs = [] then none
  else some (xs.flatMap fun x => if addr x = a then [x, y] else [x])

def putBefore (a : Nat) (y : α) (xs : List α) : Option (List α) :=
  if lefts a xs = [] then none
  else some (xs.flatMap fun x => if addr x = a then [y, x] else [x])

/-- No two records have the same address. -/
def Distinct (xs : List α) : Prop := (xs.map addr).Nodup

theorem Distinct.ne (h : Distinct (pre ++ x :: post)) :
    (∀ y ∈ pre, addr y ≠ addr x) ∧ ∀ y ∈ post, addr y ≠ addr x := by
  rw [Distinct, List.map_append, List.map_cons] at h
  obtain ⟨-, hx, hd⟩ := List.nodup_append.1 h
  rw [List.nodup_cons] at hx
  constructor
  · intro y hy he
    exact hd _ (List.mem_map_of_mem hy) _ List.mem_cons_self he
  · intro y hy he
    exact hx.1 (he ▸ List.mem_map_of_mem hy)

theorem Distinct.put (h : Distinct (pre ++ post)) (hy : ∀ z ∈ pre ++ post, addr z ≠ addr y) :
    Distinct (pre ++ y :: post) := by
  rw [Distinct, List.map_append, List.map_cons]
  rw [Distinct, List.map_append] at h
  refine List.nodup_middle.2 (List.nodup_cons.2 ⟨fun hm => ?_, h⟩)
  rw [← List.map_append] at hm
  obtain ⟨z, hz, he⟩ := List.mem_map.1 hm
  exact hy z hz he

theorem Distinct.swap (h : Distinct (pre ++ x :: post)) (hy : addr y = addr x) :
    Distinct (pre ++ y :: post) := by
  rw [Distinct, List.map_append, List.map_cons] at h ⊢
  rw [hy]
  exact h

theorem Distinct.drop (h : Distinct (pre ++ x :: post)) : Distinct (pre ++ post) := by
  rw [Distinct, List.map_append, List.map_cons] at h
  rw [Distinct, List.map_append]
  exact (List.nodup_cons.1 (List.nodup_middle.1 h)).2

theorem rights_skip (h : ∀ y ∈ pre, addr y ≠ a) : rights a (pre ++ xs) = rights a xs := by
  induction pre with
  | nil => rfl
  | cons y pre ih =>
    rw [List.cons_append, rights, if_neg (h y List.mem_cons_self),
      ih fun z hz => h z (List.mem_cons_of_mem y hz)]

theorem rights_at (h : Distinct (pre ++ x :: post)) : rights (addr x) (pre ++ x :: post) = post := by
  rw [rights_skip h.ne.1, rights, if_pos rfl]

theorem lefts_at (h : Distinct (pre ++ x :: post)) :
    lefts (addr x) (pre ++ x :: post) = pre.reverse := by
  rw [lefts, List.reverse_append, List.reverse_cons, List.append_assoc]
  rw [rights_skip fun y hy => h.ne.2 y (List.mem_reverse.1 hy), List.singleton_append, rights,
    if_pos rfl]

theorem split_unique {pre' post' : List α} (h : Distinct (pre ++ x :: post))
    (he : pre ++ x :: post = pre' ++ x :: post') : pre = pre' ∧ post = post' := by
  have hl := lefts_at h
  have hr := rights_at h
  rw [he] at h hl hr
  rw [lefts_at h] at hl
  rw [rights_at h] at hr
  exact ⟨List.reverse_injective hl.symm, hr.symm⟩

theorem at?_at (h : Distinct (pre ++ x :: post)) : at? (addr x) (pre ++ x :: post) = some x := by
  rw [at?, List.find?_append, List.find?_eq_none.2, Option.none_or, List.find?_cons_of_pos]
  · exact beq_self_eq_true _
  · intro y hy
    simpa using h.ne.1 y hy

/- A record that is looked for past another one. -/
theorem at?_past (h : addr x ≠ a) : at? a (pre ++ x :: post) = at? a (pre ++ post) := by
  rw [at?, at?, List.find?_append, List.find?_append, List.find?_cons_of_neg (by simpa using h)]

theorem change_append (a : Nat) (f : α → α) (xs ys : List α) :
    change a f (xs ++ ys) = change a f xs ++ change a f ys := List.map_append

theorem change_skip (h : ∀ y ∈ xs, addr y ≠ a) : change a f xs = xs := by
  rw [change]
  conv_rhs => rw [← List.map_id xs]
  refine List.map_congr_left fun y hy => ?_
  rw [if_neg (h y hy), id]

theorem change_at (h : Distinct (pre ++ x :: post)) :
    change (addr x) f (pre ++ x :: post) = pre ++ f x :: post := by
  have h1 : change (addr x) f pre = pre := change_skip h.ne.1
  have h2 : change (addr x) f post = post := change_skip h.ne.2
  rw [change] at h1 h2 ⊢
  rw [List.map_append, List.map_cons, h1, h2, if_pos rfl]

theorem change_past (h : addr x ≠ a) :
    change a f (pre ++ x :: post) = change a f pre ++ x :: change a f post := by
  rw [change, List.map_append, List.map_cons, if_neg h]
  rfl

theorem filter_skip (h : ∀ y ∈ xs, addr y ≠ a) : xs.filter (fun x => addr x ≠ a) = xs :=
  List.filter_eq_self.2 fun y hy => by simpa using h y hy

theorem cut_at (h : Distinct (pre ++ x :: post)) (h₁ : pre ≠ []) (h₂ : post ≠ []) :
    cut (addr x) (pre ++ x :: post) = some (pre ++ post) := by
  have hne : ¬ (pre.reverse = [] ∨ post = []) := by
    rw [List.reverse_eq_nil_iff]
    exact fun h => h.elim h₁ h₂
  rw [cut, lefts_at h, rights_at h, if_neg hne, List.filter_append, filter_skip h.ne.1,
    List.filter_cons_of_neg (by simp), filter_skip h.ne.2]

theorem flatMap_skip {g : α → List α} (h : ∀ y ∈ xs, addr y ≠ a) :
    (xs.flatMap fun x => if addr x = a then g x else [x]) = xs := by
  induction xs with
  | nil => rfl
  | cons y xs ih =>
    rw [List.flatMap_cons, if_neg (h y List.mem_cons_self),
      ih fun z hz => h z (List.mem_cons_of_mem y hz), List.singleton_append]

theorem putAfter_at (h : Distinct (pre ++ x :: post)) (h₂ : post ≠ []) :
    putAfter (addr x) y (pre ++ x :: post) = some (pre ++ x :: y :: post) := by
  rw [putAfter, rights_at h, if_neg h₂, List.flatMap_append, List.flatMap_cons,
    flatMap_skip h.ne.1, flatMap_skip h.ne.2, if_pos rfl]
  rfl

theorem putBefore_at (h : Distinct (pre ++ x :: post)) (h₁ : pre ≠ []) :
    putBefore (addr x) y (pre ++ x :: post) = some (pre ++ y :: x :: post) := by
  have hne : pre.reverse ≠ [] := fun h => h₁ (List.reverse_eq_nil_iff.1 h)
  rw [putBefore, lefts_at h, if_neg hne, List.flatMap_append, List.flatMap_cons,
    flatMap_skip h.ne.1, flatMap_skip h.ne.2, if_pos rfl]
  rfl

omit [Node α] in
/-- A loop to one side stops at the first record that the condition does not hold of. -/
theorem find?_stop {p : α → Bool} (h : ∀ y ∈ pre, p y = false) (hx : p x = true) :
    (pre ++ x :: post).find? p = some x := by
  rw [List.find?_append, List.find?_eq_none.2 fun y hy => by simp [h y hy], Option.none_or,
    List.find?_cons_of_pos hx]

omit [Node α] in
/-- The last record that has a property. -/
theorem exists_last {p : α → Prop} (h : ∃ x ∈ xs, p x) :
    ∃ l y r, xs = l ++ y :: r ∧ p y ∧ ∀ z ∈ r, ¬ p z := by
  induction xs with
  | nil =>
    obtain ⟨x, hx, -⟩ := h
    cases hx
  | cons w xs ih =>
    by_cases hw : ∃ y ∈ xs, p y
    · obtain ⟨l, z, r, rfl, hz, hr⟩ := ih hw
      exact ⟨w :: l, z, r, rfl, hz, hr⟩
    · obtain ⟨x, hx, hp⟩ := h
      have hxw : x = w := by
        cases hx with
        | head => rfl
        | tail _ h => exact (hw ⟨x, h, hp⟩).elim
      exact ⟨[], w, xs, rfl, hxw ▸ hp, fun z hz hpz => hw ⟨z, hz, hpz⟩⟩

omit [Node α] in
/-- The first record that has a property. -/
theorem exists_first {p : α → Prop} (h : ∃ x ∈ xs, p x) :
    ∃ l y r, xs = l ++ y :: r ∧ p y ∧ ∀ z ∈ l, ¬ p z := by
  induction xs with
  | nil =>
    obtain ⟨x, hx, -⟩ := h
    cases hx
  | cons w xs ih =>
    by_cases hw : p w
    · exact ⟨[], w, xs, rfl, hw, fun _ hz => (nomatch hz)⟩
    · obtain ⟨x, hx, hp⟩ := h
      have hx' : ∃ x ∈ xs, p x := by
        cases hx with
        | head => exact (hw hp).elim
        | tail _ hx => exact ⟨x, hx, hp⟩
      obtain ⟨l, y, r, rfl, hy, hl⟩ := ih hx'
      exact ⟨w :: l, y, r, rfl, hy, List.forall_mem_cons.2 ⟨hw, hl⟩⟩

end Svr32.Lib.Linked
