import Mathlib.Data.List.Basic
import Mathlib.Data.Nat.ModEq
import Mathlib.Data.Int.GCD
import Mathlib.Logic.Function.Iterate
import Mathlib.Tactic.Ring

/-! Open addressing: an item is in the first free slot of the sequence of places of its key, and
is looked for along that sequence. -/
namespace Svr32.Lib.OpenAddr
variable {K E : Type} (key : E → K)

/- Where a search stops: at an item with the key, or at a free slot. -/
inductive Stop where
  | hit (i : Nat)
  | free (i : Nat)
  deriving DecidableEq

/- The search from place `i` on, where `next` is the place after a place. -/
def search [DecidableEq K] (t : List (Option E)) (next : Nat → Nat) (k : K) : Nat → Nat → Option Stop
  | 0, _ => none
  | fuel + 1, i =>
    match t[i]? with
    | none => none
    | some none => some (.free i)
    | some (some e) => if key e = k then some (.hit i) else search t next k fuel (next i)

/-- The first `j` places from `i` on have items with other keys. -/
def Passed (t : List (Option E)) (next : Nat → Nat) (k : K) (i j : Nat) : Prop :=
  ∀ j' < j, ∃ e, t[next^[j'] i]? = some (some e) ∧ key e ≠ k

/-- Every item is where the search for its key gets to. -/
def Placed (t : List (Option E)) (start : K → Nat) (next : K → Nat → Nat) : Prop :=
  ∀ s e, t[s]? = some (some e) →
    ∃ j, (next (key e))^[j] (start (key e)) = s ∧
      Passed key t (next (key e)) (key e) (start (key e)) j

/-- The places of every key are slots, and all of the `n` slots within `n` places. -/
structure Scheme (n : Nat) (start : K → Nat) (next : K → Nat → Nat) : Prop where
  inside : ∀ k j, (next k)^[j] (start k) < n
  cover : ∀ k s, s < n → ∃ j < n, (next k)^[j] (start k) = s

variable {key}

/-- The search goes on over what is passed. -/
theorem search_passed [DecidableEq K] {t : List (Option E)} {next : Nat → Nat} {k : K} (fuel j : Nat) {i : Nat}
    (h : Passed key t next k i j) :
    search key t next k (fuel + j) i = search key t next k fuel (next^[j] i) := by
  induction j generalizing i with
  | zero => rfl
  | succ j ih =>
    obtain ⟨e, he, hne⟩ := h 0 (Nat.succ_pos j)
    have htail : Passed key t next k (next i) j := by
      intro j' hj'
      exact h (j' + 1) (Nat.succ_lt_succ hj')
    have hstep : search key t next k (fuel + (j + 1)) i
        = search key t next k (fuel + j) (next i) := by
      change search key t next k (fuel + j + 1) i = _
      have he' : t[i]? = some (some e) := he
      rw [search, he']
      simp only [if_neg hne]
    rw [hstep, ih htail, Function.iterate_succ_apply]

section
variable {t : List (Option E)} {start : K → Nat} {next : K → Nat → Nat}

/-- At a free slot the key is nowhere. -/
theorem Placed.absent (h : Placed key t start next) {k : K} {j : Nat}
    (hpass : Passed key t (next k) k (start k) j)
    (hfree : t[(next k)^[j] (start k)]? = some none) {s : Nat} {e : E}
    (hs : t[s]? = some (some e)) : key e ≠ k := by
  intro hk
  obtain ⟨j', hj', hpass'⟩ := h s e hs
  rw [hk] at hj' hpass'
  rcases Nat.lt_trichotomy j' j with hlt | heq | hgt
  · obtain ⟨x, hx, hne⟩ := hpass j' hlt
    rw [hj', hs] at hx
    have hkey := congrArg key (Option.some.inj (Option.some.inj hx))
    exact hne (hkey.symm.trans hk)
  · rw [← heq, hj', hs] at hfree
    exact absurd (Option.some.inj hfree) (Option.some_ne_none e)
  · obtain ⟨x, hx, -⟩ := hpass' j hgt
    rw [hfree] at hx
    exact absurd (Option.some.inj hx) (Option.some_ne_none x).symm

/-- A new item goes to the free slot where the search for its key stopped. -/
theorem Placed.set (h : Placed key t start next) {e : E} {j : Nat}
    (hpass : Passed key t (next (key e)) (key e) (start (key e)) j)
    (hfree : t[(next (key e))^[j] (start (key e))]? = some none) :
    Placed key (t.set ((next (key e))^[j] (start (key e))) (some e)) start next := by
  set p := (next (key e))^[j] (start (key e)) with hp
  have hkeep : ∀ (s : Nat) (x : E), t[s]? = some (some x) → (t.set p (some e))[s]? = some (some x) := by
    intro s x hx
    have hne : p ≠ s := by
      intro heq
      rw [heq, hx] at hfree
      exact absurd (Option.some.inj hfree) (Option.some_ne_none x)
    rw [List.getElem?_set_ne hne, hx]
  have hmono : ∀ k i n, Passed key t (next k) k i n →
      Passed key (t.set p (some e)) (next k) k i n := by
    intro k i n hn j' hj'
    obtain ⟨x, hx, hne⟩ := hn j' hj'
    exact ⟨x, hkeep _ x hx, hne⟩
  intro s x hx
  by_cases hs : p = s
  · have hlt : p < t.length := List.getElem?_eq_some_iff.mp hfree |>.1
    rw [← hs, List.getElem?_set_self hlt] at hx
    have hxe : e = x := Option.some.inj (Option.some.inj hx)
    subst hxe
    exact ⟨j, hs, hmono _ _ _ hpass⟩
  · rw [List.getElem?_set_ne hs] at hx
    obtain ⟨j', hj', hpass'⟩ := h s x hx
    exact ⟨j', hj', hmono _ _ _ hpass'⟩

/-- While a slot is free the search for a key stops: at the item with the key, or where the item
belongs if there is none. -/
theorem search_spec [DecidableEq K] (hscheme : Scheme t.length start next)
    (hfree : ∃ s : Nat, t[s]? = some none) (k : K) (fuel : Nat) (hfuel : t.length ≤ fuel) :
    (∃ s e, search key t (next k) k fuel (start k) = some (.hit s) ∧ t[s]? = some (some e) ∧
      key e = k) ∨
    (∃ j, search key t (next k) k fuel (start k) = some (.free ((next k)^[j] (start k))) ∧
      t[(next k)^[j] (start k)]? = some none ∧ Passed key t (next k) k (start k) j) := by
  classical
  have hex : ∃ j, j < t.length ∧
      ¬ ∃ e, t[(next k)^[j] (start k)]? = some (some e) ∧ key e ≠ k := by
    obtain ⟨s, hs⟩ := hfree
    obtain ⟨j, hj, hplace⟩ := hscheme.cover k s (List.getElem?_eq_some_iff.mp hs).1
    refine ⟨j, hj, ?_⟩
    rintro ⟨e, he, -⟩
    rw [hplace, hs] at he
    exact absurd (Option.some.inj he) (Option.some_ne_none e).symm
  obtain ⟨hlt, hstop⟩ := Nat.find_spec hex
  have hpass : Passed key t (next k) k (start k) (Nat.find hex) := by
    intro j' hj'
    have hmin := Nat.find_min hex hj'
    by_contra hno
    exact hmin ⟨by omega, hno⟩
  set j := Nat.find hex
  have hsearch : search key t (next k) k fuel (start k)
      = search key t (next k) k (fuel - j - 1 + 1) ((next k)^[j] (start k)) := by
    rw [← search_passed _ j hpass]
    congr 1
    omega
  have hin := hscheme.inside k j
  cases hslot : t.get ⟨(next k)^[j] (start k), hin⟩ with
  | none =>
    have hget : t[(next k)^[j] (start k)]? = some none :=
      List.getElem?_eq_some_iff.mpr ⟨hin, hslot⟩
    right
    exact ⟨j, by rw [hsearch, search, hget], hget, hpass⟩
  | some e =>
    have hget : t[(next k)^[j] (start k)]? = some (some e) :=
      List.getElem?_eq_some_iff.mpr ⟨hin, hslot⟩
    have hk : key e = k := by
      by_contra hne
      exact hstop ⟨e, hget, hne⟩
    left
    refine ⟨(next k)^[j] (start k), e, ?_, hget, hk⟩
    rw [hsearch, search, hget]
    simp only [if_pos hk]

end

/- The slots in use. -/
def used (t : List (Option E)) : Nat := t.countP Option.isSome

theorem used_set {t : List (Option E)} {s : Nat} (h : t[s]? = some none) (e : E) :
    used (t.set s (some e)) = used t + 1 := by
  obtain ⟨hlt, hs⟩ := List.getElem?_eq_some_iff.mp h
  rw [used, List.countP_set hlt, hs]
  simp [used]

/-- Until all slots are in use one is free. -/
theorem exists_free {t : List (Option E)} (h : used t < t.length) : ∃ s : Nat, t[s]? = some none := by
  by_contra hno
  push Not at hno
  have hall : used t = t.length := by
    apply List.countP_eq_length.mpr
    intro x hx
    obtain ⟨s, hlt, hs⟩ := List.getElem_of_mem hx
    cases x with
    | none => exact absurd (List.getElem?_eq_some_iff.mpr ⟨hlt, hs⟩) (hno s)
    | some e => rfl
  omega

/-! Double hashing: the places of a key are `c` apart, round and round. -/

theorem iterate_stride (n c i j : Nat) (hi : i < n) :
    (fun i => (i + c) % n)^[j] i = (i + j * c) % n := by
  induction j with
  | zero => simp [Nat.mod_eq_of_lt hi]
  | succ j ih =>
    rw [Function.iterate_succ_apply', ih, Nat.mod_add_mod, Nat.succ_mul, Nat.add_assoc]

/-- A stride prime to the number of slots gets to all of them. -/
theorem stride_cover {n c : Nat} (hc : Nat.Coprime c n) {i s : Nat} (hi : i < n) (hs : s < n) :
    ∃ j < n, (i + j * c) % n = s := by
  rcases Nat.lt_or_ge 1 n with hn | hn
  · obtain ⟨u, -, hu⟩ := Nat.exists_mul_mod_eq_one_of_coprime hc hn
    refine ⟨(s + n - i) * u % n, Nat.mod_lt _ (by omega), ?_⟩
    have hone : c * u ≡ 1 [MOD n] := by
      rw [Nat.ModEq, hu, Nat.mod_eq_of_lt hn]
    have hback : (s + n - i) * u % n * c ≡ s + n - i [MOD n] := by
      calc (s + n - i) * u % n * c ≡ (s + n - i) * u * c [MOD n] :=
            (Nat.mod_modEq _ n).mul_right c
        _ = (s + n - i) * (c * u) := by ring
        _ ≡ (s + n - i) * 1 [MOD n] := hone.mul_left _
        _ = s + n - i := Nat.mul_one _
    have hsum : i + (s + n - i) * u % n * c ≡ i + (s + n - i) [MOD n] := hback.add_left i
    rw [hsum]
    have heq : i + (s + n - i) = s + n := by omega
    rw [heq, Nat.add_mod_right, Nat.mod_eq_of_lt hs]
  · exact ⟨0, by omega, by rw [Nat.zero_mul, Nat.add_zero, Nat.mod_eq_of_lt hi]; omega⟩

theorem Scheme.stride {n : Nat} {start : K → Nat} {c : K → Nat} (hstart : ∀ k, start k < n)
    (hc : ∀ k, Nat.Coprime (c k) n) : Scheme n start (fun k i => (i + c k) % n) where
  inside k j := by
    rw [iterate_stride n (c k) (start k) j (hstart k)]
    exact Nat.mod_lt _ (Nat.lt_of_le_of_lt (Nat.zero_le _) (hstart k))
  cover k s hs := by
    obtain ⟨j, hj, hplace⟩ := stride_cover (hc k) (hstart k) hs
    exact ⟨j, hj, by rw [iterate_stride n (c k) (start k) j (hstart k), hplace]⟩

end Svr32.Lib.OpenAddr
