import Mathlib.Algebra.Order.Group.Defs
import Mathlib.Algebra.Order.Group.Int
import Mathlib.Tactic.Abel

/-! Difference-coded queues: each key is stored as its distance from the key before
it. `due` recovers the keys, and every edit is described by what it does to them. -/
namespace Svr32.Lib
variable {G β : Type*} [AddCommGroup G]

/- The running sums of the differences, from `b` on. -/
def due (b : G) : List (G × β) → List (G × β)
  | [] => []
  | (d, y) :: l => (b + d, y) :: due (b + d) l

/- Remove an element by adding its difference to its successor's. -/
def eraseDelta (p : β → Bool) : List (G × β) → List (G × β)
  | [] => []
  | [(d, y)] => if p y then [] else [(d, y)]
  | (d, y) :: (e, z) :: l =>
    if p y then (e + d, z) :: l else (d, y) :: eraseDelta p ((e, z) :: l)

/-- Removal shifts no other key. -/
theorem due_eraseDelta (b : G) (p : β → Bool) (l : List (G × β)) :
    due b (eraseDelta p l) = (due b l).eraseP fun e => p e.2 := by
  induction l generalizing b with
  | nil => rfl
  | cons a l ih =>
    obtain ⟨d, y⟩ := a
    cases l with
    | nil => cases h : p y <;> simp [eraseDelta, due, h]
    | cons c l =>
      obtain ⟨e, z⟩ := c
      cases h : p y with
      | true =>
        have hb : b + (e + d) = b + d + e := by abel
        simp [eraseDelta, due, h, hb]
      | false =>
        have hi := ih (b + d)
        simp only [due] at hi
        simp [eraseDelta, due, h, hi]

theorem due_shift (b u : G) (l : List (G × β)) :
    due (b - u) l = (due b l).map fun r => (r.1 - u, r.2) := by
  induction l generalizing b with
  | nil => rfl
  | cons a l ih =>
    obtain ⟨d, y⟩ := a
    have hb : b - u + d = b + d - u := by abel
    simp [due, hb, ih]

variable [LinearOrder G]

/- Insert behind every key that is at most `k`. -/
def insertLate (k : G) (x : β) : List (G × β) → List (G × β)
  | [] => [(k, x)]
  | (r, y) :: l => if r ≤ k then (r, y) :: insertLate k x l else (k, x) :: (r, y) :: l

def insertDelta (t : G) (x : β) : List (G × β) → List (G × β)
  | [] => [(t, x)]
  | (d, y) :: l =>
    if d ≤ t then (d, y) :: insertDelta (t - d) x l else (t, x) :: (d - t, y) :: l

variable [IsOrderedAddMonoid G]

/-- Insertion shifts no other key. -/
theorem due_insertDelta (b t : G) (x : β) (l : List (G × β)) :
    due b (insertDelta t x l) = insertLate (b + t) x (due b l) := by
  induction l generalizing b t with
  | nil => simp [insertDelta, insertLate, due]
  | cons p l ih =>
    obtain ⟨d, y⟩ := p
    by_cases h : d ≤ t
    · have hb : b + d + (t - d) = b + t := by abel
      simp [insertDelta, insertLate, due, h, ih, hb]
    · have hb : b + t + (d - t) = b + d := by abel
      simp [insertDelta, insertLate, due, h, hb]

theorem due_le (b : G) (l : List (G × β)) (h : ∀ a ∈ l, 0 ≤ a.1) : ∀ r ∈ due b l, b ≤ r.1 := by
  induction l generalizing b with
  | nil => simp [due]
  | cons a l ih =>
    obtain ⟨d, y⟩ := a
    have hd : b ≤ b + d := le_add_of_nonneg_right (h (d, y) (by simp))
    intro r hr
    rcases List.mem_cons.mp hr with rfl | hr
    · exact hd
    · exact hd.trans (ih (b + d) (fun a ha => h a (by simp [ha])) r hr)

theorem due_sorted (b : G) {l : List (G × β)} (h : ∀ a ∈ l, 0 ≤ a.1) :
    (due b l).Pairwise fun r r' => r.1 ≤ r'.1 := by
  induction l generalizing b with
  | nil => simp [due]
  | cons a l ih =>
    obtain ⟨d, y⟩ := a
    have hl : ∀ a ∈ l, 0 ≤ a.1 := fun a ha => h a (by simp [ha])
    exact List.pairwise_cons.mpr ⟨due_le (b + d) l hl, ih (b + d) hl⟩

/-- With nonnegative differences no single difference exceeds the largest key. -/
theorem diff_le_due {b : G} (hb : 0 ≤ b) {l : List (G × β)} (h : ∀ a ∈ l, 0 ≤ a.1) {a : G × β}
    (ha : a ∈ l) : ∃ r ∈ due b l, r.2 = a.2 ∧ a.1 ≤ r.1 := by
  induction l generalizing b with
  | nil => simp at ha
  | cons c l ih =>
    obtain ⟨d, y⟩ := c
    rcases List.mem_cons.mp ha with rfl | ha
    · exact ⟨(b + d, y), by simp [due], rfl, le_add_of_nonneg_left hb⟩
    · have hd : 0 ≤ b + d := add_nonneg hb (h (d, y) (by simp))
      obtain ⟨r, hr, h2, h1⟩ := ih hd (fun a ha => h a (by simp [ha])) ha
      exact ⟨r, by simp [due, hr], h2, h1⟩

omit [AddCommGroup G] [IsOrderedAddMonoid G] in
/-- In a sorted list the late insertion splits at the key. -/
theorem insertLate_split (k : G) (x : β) {l : List (G × β)}
    (h : l.Pairwise fun r r' => r.1 ≤ r'.1) :
    ∃ l₁ l₂, l = l₁ ++ l₂ ∧ insertLate k x l = l₁ ++ (k, x) :: l₂ ∧
      (∀ r ∈ l₁, r.1 ≤ k) ∧ ∀ r ∈ l₂, k < r.1 := by
  induction l with
  | nil => exact ⟨[], [], rfl, rfl, by simp, by simp⟩
  | cons a l ih =>
    obtain ⟨d, y⟩ := a
    obtain ⟨ha, hl⟩ := List.pairwise_cons.mp h
    by_cases hd : d ≤ k
    · obtain ⟨l₁, l₂, rfl, hi, h₁, h₂⟩ := ih hl
      exact ⟨(d, y) :: l₁, l₂, rfl, by simp [insertLate, hd, hi],
        List.forall_mem_cons.mpr ⟨hd, h₁⟩, h₂⟩
    · refine ⟨[], (d, y) :: l, rfl, by simp [insertLate, hd], by simp, ?_⟩
      have hlt : k < d := not_le.mp hd
      exact List.forall_mem_cons.mpr ⟨hlt, fun r hr => hlt.trans_le (ha r hr)⟩

theorem insertDelta_nonneg {t : G} (ht : 0 ≤ t) (x : β) {l : List (G × β)}
    (h : ∀ a ∈ l, 0 ≤ a.1) : ∀ a ∈ insertDelta t x l, 0 ≤ a.1 := by
  induction l generalizing t with
  | nil => simpa [insertDelta] using ht
  | cons c l ih =>
    obtain ⟨d, y⟩ := c
    by_cases hd : d ≤ t
    · have hi := ih (t := t - d) (sub_nonneg.mpr hd) fun a ha => h a (by simp [ha])
      simp only [insertDelta, hd, if_true]
      exact List.forall_mem_cons.mpr ⟨h (d, y) (by simp), hi⟩
    · have hdt : 0 ≤ d - t := (sub_pos.mpr (not_le.mp hd)).le
      simp only [insertDelta, hd, if_false, List.forall_mem_cons]
      exact ⟨ht, hdt, fun a ha => h a (by simp [ha])⟩

theorem eraseDelta_nonneg (p : β → Bool) {l : List (G × β)} (h : ∀ a ∈ l, 0 ≤ a.1) :
    ∀ a ∈ eraseDelta p l, 0 ≤ a.1 := by
  induction l with
  | nil => simp [eraseDelta]
  | cons c l ih =>
    obtain ⟨d, y⟩ := c
    have hd : 0 ≤ d := h (d, y) (by simp)
    cases l with
    | nil => cases hp : p y <;> simp [eraseDelta, hp, hd]
    | cons e l =>
      obtain ⟨e, z⟩ := e
      have hl : ∀ a ∈ (e, z) :: l, 0 ≤ a.1 := fun a ha => h a (List.mem_cons_of_mem _ ha)
      cases hp : p y with
      | true =>
        simp only [eraseDelta, hp, if_true, List.forall_mem_cons]
        exact ⟨add_nonneg (hl (e, z) (by simp)) hd, fun a ha => hl a (by simp [ha])⟩
      | false =>
        simp only [eraseDelta, hp, Bool.false_eq_true, if_false, List.forall_mem_cons]
        exact ⟨hd, ih hl⟩

/- Lower the first positive difference by one. -/
def tickDelta : List (Int × β) → List (Int × β)
  | [] => []
  | (d, y) :: l => if d ≤ 0 then (d, y) :: tickDelta l else (d - 1, y) :: l

/-- One tick lowers every positive key by one and leaves the zero keys. -/
theorem due_tickDelta {l : List (Int × β)} (h : ∀ a ∈ l, 0 ≤ a.1) :
    due 0 (tickDelta l) = (due 0 l).map fun r => (max 0 (r.1 - 1), r.2) := by
  induction l with
  | nil => rfl
  | cons a l ih =>
    obtain ⟨d, y⟩ := a
    have hd : 0 ≤ d := h (d, y) (by simp)
    have hl : ∀ a ∈ l, 0 ≤ a.1 := fun a ha => h a (by simp [ha])
    rcases hd.eq_or_lt with rfl | hd
    · simp [tickDelta, due, ih hl]
    · have hmax : ∀ r ∈ due d l, max 0 (r.1 - 1) = r.1 - 1 := by
        intro r hr
        have := due_le d l hl r hr
        omega
      have hhead : max 0 (d - 1) = d - 1 := by omega
      simp only [tickDelta, hd.not_ge, if_false, due, zero_add, List.map_cons, hhead,
        due_shift d 1 l]
      congr 1
      exact List.map_congr_left fun r hr => by rw [hmax r hr]

theorem tickDelta_nonneg {l : List (Int × β)} (h : ∀ a ∈ l, 0 ≤ a.1) :
    ∀ a ∈ tickDelta l, 0 ≤ a.1 := by
  induction l with
  | nil => simp [tickDelta]
  | cons c l ih =>
    obtain ⟨d, y⟩ := c
    have hl : ∀ a ∈ l, 0 ≤ a.1 := fun a ha => h a (by simp [ha])
    by_cases hd : d ≤ 0
    · simp only [tickDelta, hd, if_true]
      exact List.forall_mem_cons.mpr ⟨h (d, y) (by simp), ih hl⟩
    · simp only [tickDelta, hd, if_false, List.forall_mem_cons]
      exact ⟨by omega, hl⟩

end Svr32.Lib
