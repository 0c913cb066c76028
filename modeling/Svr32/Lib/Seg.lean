import Mathlib.Logic.Function.Basic
import Mathlib.Data.List.Nodup

/-! Singly linked lists in a heap: the nodes from a pointer on, and what pushing,
appending and unlinking do to them. -/
namespace Svr32.Lib
variable {ι : Type*}

/- The nodes from `h` to NULL are `l`. -/
def Seg (next : ι → Option ι) : Option ι → List ι → Prop
  | h, [] => h = none
  | h, x :: xs => h = some x ∧ Seg next (next x) xs

theorem Seg.head {next : ι → Option ι} {h : Option ι} {l : List ι} (hs : Seg next h l) :
    h = l.head? := by
  cases l with
  | nil => exact hs
  | cons x xs => exact hs.1

theorem Seg.next_eq {next : ι → Option ι} {h : Option ι} {pre post : List ι} {x : ι}
    (hs : Seg next h (pre ++ x :: post)) : next x = post.head? := by
  induction pre generalizing h with
  | nil => exact hs.2.head
  | cons y pre ih => exact ih hs.2

theorem Seg.congr {next next' : ι → Option ι} {h : Option ι} {l : List ι} (hs : Seg next h l)
    (hl : ∀ x ∈ l, next' x = next x) : Seg next' h l := by
  induction l generalizing h with
  | nil => exact hs
  | cons x xs ih =>
    refine ⟨hs.1, ?_⟩
    rw [hl x (by simp)]
    exact ih hs.2 fun y hy => hl y (by simp [hy])

/-- A pointer leads to one list only. -/
theorem Seg.unique {next : ι → Option ι} {h : Option ι} {l l' : List ι} (hs : Seg next h l)
    (hs' : Seg next h l') : l = l' := by
  induction l generalizing h l' with
  | nil =>
    cases l' with
    | nil => rfl
    | cons y ys => cases hs.symm.trans hs'.1
  | cons x xs ih =>
    cases l' with
    | nil => cases hs.1.symm.trans hs'
    | cons y ys =>
      cases hs.1.symm.trans hs'.1
      rw [ih hs.2 hs'.2]

/-- The rest of the list from one of its nodes on. -/
theorem Seg.suffix {next : ι → Option ι} {h : Option ι} {pre post : List ι}
    (hs : Seg next h (pre ++ post)) : Seg next post.head? post := by
  induction pre generalizing h with
  | nil => exact hs.head ▸ hs
  | cons y pre ih => exact ih hs.2

/-- Another tail behind `y`, and the same list up to there. -/
theorem Seg.retail {next next' : ι → Option ι} {h : Option ι} {pre post l : List ι} {y : ι}
    (hs : Seg next h (pre ++ y :: post)) (hpre : ∀ x ∈ pre, next' x = next x)
    (hl : Seg next' (next' y) l) : Seg next' h (pre ++ y :: l) := by
  induction pre generalizing h with
  | nil => exact ⟨hs.1, hl⟩
  | cons a pre ih =>
    refine ⟨hs.1, ?_⟩
    rw [hpre a (by simp)]
    exact ih hs.2 fun x hx => hpre x (List.mem_cons_of_mem a hx)

theorem head_ne_of_nodup {pre post : List ι} {y x : ι} (hnd : (pre ++ y :: x :: post).Nodup) :
    (pre ++ y :: x :: post).head? ≠ some x := by
  cases pre with
  | nil =>
    intro he
    have hyx : y = x := by simpa using he
    simp [hyx] at hnd
  | cons b pre =>
    intro he
    have hbx : b = x := by simpa using he
    simp [hbx] at hnd

variable [DecidableEq ι]

theorem Seg.push {next : ι → Option ι} {h : Option ι} {l : List ι} {x : ι} (hs : Seg next h l)
    (hx : x ∉ l) : Seg (Function.update next x h) (some x) (x :: l) := by
  refine ⟨rfl, ?_⟩
  rw [Function.update_self]
  exact hs.congr fun y hy => Function.update_of_ne (fun he : y = x => hx (he ▸ hy)) _ _

/-- Bending the pointer of `y` over its successor. -/
theorem Seg.skip {next : ι → Option ι} {h : Option ι} {pre post : List ι} {y x : ι}
    (hs : Seg next h (pre ++ y :: x :: post)) (hnd : (pre ++ y :: x :: post).Nodup) :
    Seg (Function.update next y (next x)) h (pre ++ y :: post) := by
  induction pre generalizing h with
  | nil =>
    obtain ⟨hy, hrest⟩ := List.nodup_cons.mp hnd
    refine ⟨hs.1, ?_⟩
    rw [Function.update_self]
    refine hs.2.2.congr fun z hz => Function.update_of_ne (fun he : z = y => hy ?_) _ _
    simp [← he, hz]
  | cons a pre ih =>
    obtain ⟨ha, hrest⟩ := List.nodup_cons.mp hnd
    have hay : a ≠ y := fun he => ha (by simp [he])
    refine ⟨hs.1, ?_⟩
    rw [Function.update_of_ne hay]
    exact ih hs.2 hrest

/-- The pointer of `y` bent to a list without `y`. -/
theorem Seg.bend {next : ι → Option ι} {h : Option ι} {pre post l : List ι} {y : ι}
    (hs : Seg next h (pre ++ y :: post)) (hpre : y ∉ pre) (hl : Seg next l.head? l) (hy : y ∉ l) :
    Seg (Function.update next y l.head?) h (pre ++ y :: l) := by
  have hne : ∀ l' : List ι, y ∉ l' → ∀ x ∈ l', Function.update next y l.head? x = next x :=
    fun l' hl' x hx => Function.update_of_ne (fun he : x = y => hl' (he ▸ hx)) _ _
  refine hs.retail (hne pre hpre) ?_
  rw [Function.update_self]
  exact hl.congr (hne l hy)

/-- A new last node. -/
theorem Seg.append {next : ι → Option ι} {h : Option ι} {pre : List ι} {y x : ι}
    (hs : Seg next h (pre ++ [y])) (hnd : (pre ++ [y]).Nodup) (hx : x ∉ pre ++ [y])
    (hn : next x = none) : Seg (Function.update next y (some x)) h (pre ++ [y, x]) := by
  induction pre generalizing h with
  | nil =>
    have hxy : x ≠ y := fun he => hx (by simp [he])
    refine ⟨hs.1, ?_, ?_⟩
    · rw [Function.update_self]
    · rw [Function.update_of_ne hxy]
      exact hn
  | cons a pre ih =>
    obtain ⟨ha, hrest⟩ := List.nodup_cons.mp hnd
    have hay : a ≠ y := fun he => ha (by simp [he])
    refine ⟨hs.1, ?_⟩
    rw [Function.update_of_ne hay]
    exact ih hs.2 hrest fun hm => hx (List.mem_cons_of_mem a hm)

/- for (q = p; q != NULL; q = q->next) if (q->next == x) { q->next = x->next; break; } -/
def bendOver (x : ι) : Nat → Option ι → (ι → Option ι) → ι → Option ι
  | 0, _, next => next
  | _, none, next => next
  | fuel + 1, some q, next =>
    if next q = some x then Function.update next q (next x)
    else bendOver x fuel (next q) next

theorem bendOver_eq {next : ι → Option ι} {h : Option ι} {pre post : List ι} {y x : ι}
    (fuel : Nat) (hs : Seg next h (pre ++ y :: x :: post)) (hnd : (pre ++ y :: x :: post).Nodup)
    (hfuel : pre.length < fuel) : bendOver x fuel h next = Function.update next y (next x) := by
  induction pre generalizing h fuel with
  | nil =>
    obtain ⟨n, rfl⟩ := Nat.exists_eq_succ_of_ne_zero (Nat.ne_zero_of_lt hfuel)
    rw [hs.1, bendOver, if_pos hs.2.1]
  | cons a pre ih =>
    obtain ⟨n, rfl⟩ := Nat.exists_eq_succ_of_ne_zero (Nat.ne_zero_of_lt hfuel)
    obtain ⟨-, hrest⟩ := List.nodup_cons.mp hnd
    have hne : next a ≠ some x := hs.2.head ▸ head_ne_of_nodup hrest
    rw [hs.1, bendOver, if_neg hne]
    exact ih n hs.2 hrest (by simpa using hfuel)

/- Take `x` off the list with the head `h`: a new head, or the predecessor bent over. -/
def unlink (fuel : Nat) (x : ι) (h : Option ι) (next : ι → Option ι) :
    Option ι × (ι → Option ι) :=
  if h = some x then (next x, next) else (h, bendOver x fuel h next)

/-- Unlinking takes one node off the list and changes no pointer outside it. -/
theorem Seg.unlink {next : ι → Option ι} {h : Option ι} {pre post : List ι} {x : ι}
    (fuel : Nat) (hs : Seg next h (pre ++ x :: post)) (hnd : (pre ++ x :: post).Nodup)
    (hfuel : pre.length ≤ fuel) :
    Seg (unlink fuel x h next).2 (unlink fuel x h next).1 (pre ++ post) ∧
      ∀ z, z ∉ pre ++ x :: post → (unlink fuel x h next).2 z = next z := by
  rcases List.eq_nil_or_concat' pre with rfl | ⟨pre, y, rfl⟩
  · have hh : h = some x := hs.1
    simp only [Svr32.Lib.unlink, if_pos hh]
    exact ⟨hs.2, fun _ _ => trivial⟩
  · rw [List.append_assoc, List.singleton_append] at hs hnd
    have hne : h ≠ some x := hs.head ▸ head_ne_of_nodup hnd
    have hb := bendOver_eq fuel hs hnd (by rw [List.length_append, List.length_singleton] at hfuel; omega)
    simp only [Svr32.Lib.unlink, if_neg hne, hb]
    refine ⟨by simpa using hs.skip hnd, fun z hz => ?_⟩
    exact Function.update_of_ne (fun he : z = y => hz (by simp [he])) _ _

end Svr32.Lib
