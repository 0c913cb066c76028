import Mathlib.Logic.Relation
import Mathlib.Data.List.Perm.Subperm

/-! Waits-for graphs. A graph without cycles stays so when an edge is added whose head
does not lead back to its tail; where each node has at most one edge, following the
edges decides what a node leads to. -/
namespace Svr32.Lib
open Relation
variable {α : Type*}

def Acyclic (E : α → α → Prop) : Prop := ∀ a, ¬ TransGen E a a

theorem Acyclic.mono {E E' : α → α → Prop} (h : Acyclic E) (hE : ∀ a b, E' a b → E a b) :
    Acyclic E' := fun a ha => h a (TransGen.mono hE _ _ ha)

/-- A path over one new edge either avoids it, or reaches its tail and leaves its head. -/
theorem transGen_insert {E E' : α → α → Prop} {p q a b : α}
    (hE : ∀ x y, E' x y → E x y ∨ (x = p ∧ y = q)) (h : TransGen E' a b) :
    TransGen E a b ∨ (ReflTransGen E a p ∧ ReflTransGen E q b) ∨ ReflTransGen E q p := by
  induction h with
  | single hs =>
    cases hE _ _ hs with
    | inl hs => exact .inl (.single hs)
    | inr hs => exact .inr (.inl ⟨hs.1 ▸ .refl, hs.2 ▸ .refl⟩)
  | tail _ hs ih =>
    cases hE _ _ hs with
    | inl hs =>
      cases ih with
      | inl ih => exact .inl (ih.tail hs)
      | inr ih => exact .inr (ih.imp_left fun ih => ⟨ih.1, ih.2.tail hs⟩)
    | inr hs =>
      obtain ⟨rfl, rfl⟩ := hs
      cases ih with
      | inl ih => exact .inr (.inl ⟨ih.to_reflTransGen, .refl⟩)
      | inr ih =>
        cases ih with
        | inl ih => exact .inr (.inr ih.2)
        | inr ih => exact .inr (.inr ih)

/-- An edge whose head does not lead to its tail closes no cycle. -/
theorem Acyclic.insert {E E' : α → α → Prop} (h : Acyclic E) {p q : α}
    (hE : ∀ x y, E' x y → E x y ∨ (x = p ∧ y = q)) (hqp : ¬ ReflTransGen E q p) :
    Acyclic E' := by
  intro a ha
  cases transGen_insert hE ha with
  | inl ha => exact h a ha
  | inr ha =>
    cases ha with
    | inl ha => exact hqp (ha.2.trans ha.1)
    | inr ha => exact hqp ha

variable [DecidableEq α]

/- Follow the edges from a node until `t` or the end, `n` nodes at most. -/
def follow (f : α → Option α) (t : α) : Nat → α → Option Bool
  | 0, _ => none
  | n + 1, a =>
    if a = t then some true
    else
      match f a with
      | none => some false
      | some b => follow f t n b

theorem follow_visited {E : α → α → Prop} {f : α → Option α} {t : α}
    (hE : ∀ a b, E a b ↔ f a = some b) (hac : Acyclic E) {dom : List α}
    (hdom : ∀ a b, E a b → a ∈ dom) (n : Nat) (a : α) (seen : List α) (hnd : seen.Nodup)
    (hsub : seen ⊆ dom) (hseen : ∀ x ∈ seen, TransGen E x a)
    (hlen : dom.length < seen.length + n) :
    ∃ b, follow f t n a = some b ∧ (b = true ↔ ReflTransGen E a t) := by
  induction n generalizing a seen with
  | zero =>
    have hle := (List.subperm_of_subset hnd hsub).length_le
    omega
  | succ n ih =>
    simp only [follow]
    by_cases ht : a = t
    · exact ⟨true, if_pos ht, by simp [ht, ReflTransGen.refl]⟩
    · rw [if_neg ht]
      cases hf : f a with
      | none =>
        refine ⟨false, rfl, ⟨fun hb => (Bool.false_ne_true hb).elim, fun hr => ?_⟩⟩
        cases hr.cases_head with
        | inl he => exact absurd he ht
        | inr he =>
          obtain ⟨c, hc, -⟩ := he
          rw [hE, hf] at hc
          cases hc
      | some b =>
        have hab : E a b := (hE a b).mpr hf
        have hna : a ∉ seen := fun hm => hac a (hseen a hm)
        have hsub' : a :: seen ⊆ dom := List.cons_subset.mpr ⟨hdom a b hab, hsub⟩
        have hseen' : ∀ x ∈ a :: seen, TransGen E x b := by
          intro x hx
          cases List.mem_cons.mp hx with
          | inl he => exact he ▸ .single hab
          | inr hx => exact (hseen x hx).tail hab
        obtain ⟨r, hr, hiff⟩ := ih b (a :: seen) (List.nodup_cons.mpr ⟨hna, hnd⟩) hsub' hseen'
          (by simp only [List.length_cons]; omega)
        refine ⟨r, hr, hiff.trans ⟨fun h => .head hab h, fun h => ?_⟩⟩
        cases h.cases_head with
        | inl he => exact absurd he ht
        | inr he =>
          obtain ⟨c, hc, hct⟩ := he
          have hbc : b = c := Option.some.inj (hf.symm.trans ((hE a c).mp hc))
          rwa [hbc]

/-- Following the edges ends, and finds `t` exactly when the node leads to it. -/
theorem follow_spec {E : α → α → Prop} {f : α → Option α} (t : α)
    (hE : ∀ a b, E a b ↔ f a = some b) (hac : Acyclic E) {dom : List α}
    (hdom : ∀ a b, E a b → a ∈ dom) {n : Nat} (hn : dom.length < n) (a : α) :
    ∃ b, follow f t n a = some b ∧ (b = true ↔ ReflTransGen E a t) :=
  follow_visited hE hac hdom n a [] List.nodup_nil (List.nil_subset dom) (by simp) (by simpa)

end Svr32.Lib
