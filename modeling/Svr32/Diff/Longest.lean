import Svr32.Diff.Candidates
import Svr32.Lib.Lcs
import Mathlib.Data.Finset.Range
import Mathlib.Data.Finset.Card

/-! stone finds the candidates of all lengths that the lines allow, and unravel pulls a longest
common subsequence out of them. -/
namespace Svr32.Diff
open Lib (Arr put put_self put_ne)
open Svr32.Lib.Lcs

theorem values_get (l : List Int) {i : Nat} (hi : 1 ≤ i) (hl : i ≤ l.length) :
    l[i - 1]? = some (values l i) := by
  have hlt : i - 1 < l.length := by omega
  unfold values
  rw [if_neg (by omega), List.getD_eq_getElem?_getD, List.getElem?_eq_getElem hlt]
  rfl

section
variable {A B : List Int}

/-- A candidate for length `l` in the first `i` lines: a match, and behind it one for a length
less. -/
def Chain (A B : List Int) (cl : Arr Cand) : Nat → Nat → Nat → Prop
  | 0, p, _ => (cl p).y = 0
  | l + 1, p, i => (1 ≤ (cl p).x ∧ (cl p).x ≤ i) ∧ (1 ≤ (cl p).y ∧ (cl p).y ≤ B.length) ∧
      values A (cl p).x = values B (cl p).y ∧ (cl (cl p).pred).y < (cl p).y ∧ (cl p).pred < p ∧
      Chain A B cl l (cl p).pred ((cl p).x - 1)

theorem Chain.grow {cl cl' : Arr Cand} {N l p i i' : Nat} (h : Chain A B cl l p i) (hi : i ≤ i')
    (hsame : ∀ q < N, cl' q = cl q) (hp : p < N) : Chain A B cl' l p i' := by
  induction l generalizing p i i' with
  | zero =>
    rw [Chain, hsame p hp]
    exact h
  | succ l ih =>
    obtain ⟨hx, hy, hv, hlt, hpred, hrest⟩ := h
    rw [Chain, hsame p hp, hsame _ (Nat.lt_trans hpred hp)]
    exact ⟨⟨hx.1, Nat.le_trans hx.2 hi⟩, hy, hv, hlt, hpred,
      ih hrest (Nat.le_refl _) (Nat.lt_trans hpred hp)⟩

/-- A candidate stands for a common subsequence. -/
theorem Chain.common {cl : Arr Cand} {l p i : Nat} (h : Chain A B cl l p i) (hi : i ≤ A.length) :
    Common (A.take i) (B.take (cl p).y) l := by
  induction l generalizing p i with
  | zero => exact common_zero _ _
  | succ l ih =>
    obtain ⟨hx, hy, hv, hlt, -, hrest⟩ := h
    have hA := values_get A hx.1 (Nat.le_trans hx.2 hi)
    have hB := values_get B hy.1 hy.2
    rw [← hv] at hB
    have hshort : Common (A.take ((cl p).x - 1)) (B.take ((cl p).y - 1)) l :=
      (ih hrest (by omega)).take_mono (Nat.le_refl _) (by omega)
    have hnext := hshort.next hA hB
    rw [Nat.sub_add_cancel hx.1, Nat.sub_add_cancel hy.1] at hnext
    exact hnext.take_mono hx.2 (Nat.le_refl _)

/-- After `i` lines the candidate for a length is at the first line that allows it. -/
structure Stone (A B : List Int) (i : Nat) (s : Cands) : Prop where
  inside : ∀ l ≤ s.k, s.c l < s.clen
  chain : ∀ l ≤ s.k, Chain A B s.clist l (s.c l) i
  least : ∀ l ≤ s.k, ∀ z, Common (A.take i) (B.take z) l → s.y l ≤ z
  longest : ¬ Common (A.take i) B (s.k + 1)

theorem Stone.rising {i : Nat} {s : Cands} (h : Stone A B i s) (hi : i ≤ A.length) : Rising s where
  zero := h.chain 0 (Nat.zero_le _)
  step l hl := by
    obtain ⟨hx, -, -, hlt, -, hrest⟩ := h.chain (l + 1) hl
    have hcommon := (hrest.common (by omega)).take_mono (show _ ≤ i by omega) (Nat.le_refl _)
    have hle := h.least l (Nat.le_of_lt hl) _ hcommon
    exact Nat.lt_of_le_of_lt hle hlt
  inside := h.inside

/-- One more line. -/
theorem Stone.row {i : Nat} {s s' : Cands} {ys : List Nat} (h : Stone A B i s) (hi : i < A.length)
    (hrow : Row s s' (i + 1) ys)
    (hys : ∀ z, z ∈ ys ↔ (1 ≤ z ∧ z ≤ B.length) ∧ values B z = values A (i + 1)) :
    Stone A B (i + 1) s' := by
  have hs := h.rising (Nat.le_of_lt hi)
  have hA : A[i]? = some (values A (i + 1)) := values_get A (Nat.le_add_left 1 i) hi
  -- a match of the new line, as a member
  have hmatch : ∀ z, B[z]? = some (values A (i + 1)) → z + 1 ∈ ys := by
    intro z hz
    have hlt := (List.getElem?_eq_some_iff.mp hz).1
    rw [hys]
    refine ⟨⟨by omega, hlt⟩, ?_⟩
    have hv := values_get B (Nat.le_add_left 1 z) hlt
    rw [Nat.add_sub_cancel, hz] at hv
    exact (Option.some.inj hv).symm
  refine ⟨hrow.inside, ?_, ?_, ?_⟩
  · intro l hl
    rcases hrow.cand l hl with ⟨hk, hc⟩ | ⟨hl1, hlk, y, hy, hcl, hlt, hold⟩
    · rw [hc]
      exact (h.chain l hk).grow (Nat.le_succ i) hrow.clist (h.inside l hk)
    · obtain ⟨l, rfl⟩ := Nat.exists_eq_succ_of_ne_zero (Nat.one_le_iff_ne_zero.mp hl1)
      rw [Nat.succ_sub_one] at hlk hcl hlt
      have hin := h.inside l hlk
      have hclen := hrow.clen
      rw [Chain, hcl]
      obtain ⟨hyin, hv⟩ := (hys y).mp hy
      refine ⟨⟨Nat.le_add_left 1 i, Nat.le_refl _⟩, hyin, hv.symm, ?_, ?_, ?_⟩
      · rw [hrow.clist _ hin]
        exact hlt
      · change s.c l < s'.c (l + 1)
        exact Nat.lt_of_lt_of_le hin hold
      · exact (h.chain l hlk).grow (Nat.le_refl i) hrow.clist hin
  · intro l hl z hz
    cases l with
    | zero =>
      have hdown := hrow.down 0 (Nat.zero_le _)
      rw [hs.zero] at hdown
      omega
    | succ l =>
      have hlk : l + 1 ≤ s.k + 1 := Nat.le_trans hl hrow.k_le
      rcases Common.cases hA hz with hold | ⟨z', hz', hB, hshort⟩
      · by_cases hk : l + 1 ≤ s.k
        · exact Nat.le_trans (hrow.down (l + 1) hk) (h.least (l + 1) hk z hold)
        · have heq : l + 1 = s.k + 1 := by omega
          rw [heq] at hold
          exact absurd (hold.mono (List.Sublist.refl _) (List.take_sublist z B)) h.longest
      · have hle := h.least l (by omega) z' hshort
        have hbest := (hrow.best (l + 1) (Nat.le_add_left 1 l) hlk (z' + 1) (hmatch z' hB) (by
          rw [Nat.add_sub_cancel]
          omega)).2
        omega
  · intro hlong
    have hlong' : Common (A.take (i + 1)) (B.take B.length) (s'.k + 1) := by
      rw [List.take_length]
      exact hlong
    rcases Common.cases hA hlong' with hold | ⟨z', hz', hB, hshort⟩
    · rw [List.take_length] at hold
      exact h.longest (hold.le (Nat.succ_le_succ hrow.k_ge))
    · rcases Nat.lt_or_eq_of_le hrow.k_ge with hlt | heq
      · have hk : s'.k = s.k + 1 := by
          have hle := hrow.k_le
          omega
        rw [hk] at hshort
        exact h.longest (hshort.mono (List.Sublist.refl _) (List.take_sublist z' B))
      · rw [← heq] at hshort
        have hle := h.least s.k (Nat.le_refl _) z' hshort
        have hbest := (hrow.best (s.k + 1) (Nat.le_add_left 1 _) (Nat.le_refl _) (z' + 1)
          (hmatch z' hB) (by
          rw [Nat.add_sub_cancel]
          omega)).1
        omega

/-- What equiv leaves of the mates of every line. -/
def Mates (A B : List Int) (a b : Arr Int) : Prop :=
  ∀ i, 1 ≤ i → i ≤ A.length → ∃ j : Nat, a i = j ∧
    (j = 0 ∧ (∀ z, 1 ≤ z → z ≤ B.length → values B z ≠ values A i) ∨
      j ≠ 0 ∧ ∃ (y : Nat) (ys : List Nat), b j = -(y : Int) ∧ Feeds b j ys ∧
        ys.length < B.length ∧ (y :: ys).Pairwise (· < ·) ∧
        ∀ z, z ∈ y :: ys ↔ (1 ≤ z ∧ z ≤ B.length) ∧ values B z = values A i)

theorem stoneLoop_spec {a b : Arr Int} (h : Mates A B a b) (i : Nat) (hi : i ≤ A.length) :
    ∃ s, stoneLoop a B.length b i = some s ∧ Stone A B i s := by
  induction i with
  | zero =>
    refine ⟨_, rfl, ?_, ?_, ?_, ?_⟩
    · intro l hl
      rw [Nat.le_zero.mp hl]
      exact Nat.one_pos
    · intro l hl
      rw [Nat.le_zero.mp hl]
      rfl
    · intro l hl z _
      rw [Nat.le_zero.mp hl]
      exact Nat.zero_le z
    · rintro ⟨t, htA, -, ht⟩
      rw [List.take_zero] at htA
      rw [List.sublist_nil.mp htA] at ht
      exact absurd ht (Nat.succ_ne_zero _).symm
  | succ i ih =>
    obtain ⟨s, hrun, hstone⟩ := ih (Nat.le_of_succ_le hi)
    have hs := hstone.rising (Nat.le_of_succ_le hi)
    obtain ⟨j, hj, hmates⟩ := h (i + 1) (Nat.le_add_left 1 i) hi
    have hnat : (a (i + 1)).toNat = j := by omega
    rw [stoneLoop, hrun]
    simp only [Option.bind_eq_bind, Option.bind_some, hnat]
    rcases hmates with ⟨hz, hno⟩ | ⟨hz, y, ys, hb, hfeeds, hlen, hsorted, hmem⟩
    · refine ⟨s, if_pos hz, hstone.row hi (Row.refl hs (i + 1)) ?_⟩
      intro z
      constructor
      · exact fun hmem => absurd hmem (List.not_mem_nil)
      · rintro ⟨⟨hz1, hzB⟩, hv⟩
        exact absurd hv (hno z hz1 hzB)
    · have hy : (-(b j)).toNat = y := by omega
      have hpos : 0 < y := ((hmem y).mp (by simp)).1.1
      obtain ⟨s', hrun', hrow⟩ := members_row hs ys (B.length + 1) (Walk.start hs (i + 1)) nofun hpos
        hsorted hfeeds (by omega)
      rw [List.nil_append] at hrow
      rw [if_neg hz, hy]
      exact ⟨s', hrun', hstone.row hi hrow hmem⟩

theorem Chain.length_le {cl : Arr Cand} {l p i : Nat} (h : Chain A B cl l p i) : l ≤ p := by
  induction l generalizing p i with
  | zero => exact Nat.zero_le p
  | succ l ih =>
    obtain ⟨-, -, -, -, hpred, hrest⟩ := h
    have hle := ih hrest
    omega

/-- The matches that a chain of candidates leaves in J: `f` gives the mate of a line, or 0. -/
structure Matched (A B : List Int) (i y l : Nat) (f : Nat → Nat) : Prop where
  line : ∀ x, f x ≠ 0 → (1 ≤ x ∧ x ≤ i) ∧ f x ≤ y ∧ f x ≤ B.length ∧ values A x = values B (f x)
  rising : ∀ x x', x < x' → f x ≠ 0 → f x' ≠ 0 → f x < f x'
  card : ((Finset.range i).filter fun q => f (q + 1) ≠ 0).card = l

theorem unravelLoop_spec {cl : Arr Cand} (pref : Nat) {l p i : Nat} (h : Chain A B cl l p i)
    (fuel : Nat) (hfuel : l < fuel) :
    ∃ f, Matched A B i (cl p).y l f ∧ ∀ J, ∃ J', unravelLoop cl pref fuel p J = some J' ∧
      ∀ q, J' q = if pref < q ∧ f (q - pref) ≠ 0 then f (q - pref) + pref else J q := by
  induction l generalizing p i fuel with
  | zero =>
    obtain ⟨fuel, rfl⟩ := Nat.exists_eq_succ_of_ne_zero (Nat.ne_of_gt hfuel)
    refine ⟨fun _ => 0, ⟨fun x hx => absurd rfl hx, fun x x' _ hx => absurd rfl hx, by simp⟩, ?_⟩
    intro J
    refine ⟨J, ?_, fun q => (if_neg fun hq => hq.2 rfl).symm⟩
    have hz : ¬ (cl p).y ≠ 0 := not_not_intro h
    rw [unravelLoop, if_neg hz]
  | succ l ih =>
    obtain ⟨fuel, rfl⟩ := Nat.exists_eq_succ_of_ne_zero
      (Nat.ne_of_gt (Nat.lt_of_le_of_lt (Nat.zero_le _) hfuel))
    obtain ⟨hx, hy, hv, hlt, -, hrest⟩ := h
    obtain ⟨f, hf, hrun⟩ := ih hrest fuel (Nat.lt_of_succ_lt_succ hfuel)
    have hfx : ∀ x, (cl p).x ≤ x → f x = 0 := by
      intro x hle
      by_contra hne
      have hin := (hf.line x hne).1
      omega
    refine ⟨Function.update f (cl p).x (cl p).y, ⟨?_, ?_, ?_⟩, ?_⟩
    · intro x hne
      by_cases hxe : x = (cl p).x
      · rw [hxe, Function.update_self]
        exact ⟨hx, Nat.le_refl _, hy.2, hv⟩
      · rw [Function.update_of_ne hxe] at hne ⊢
        obtain ⟨hin, hle, hB, hval⟩ := hf.line x hne
        exact ⟨⟨hin.1, by omega⟩, by omega, hB, hval⟩
    · intro x x' hxx' hne hne'
      by_cases hxe : x = (cl p).x
      · rw [Function.update_of_ne (by omega), hfx x' (by omega)] at hne'
        exact absurd rfl hne'
      · rw [Function.update_of_ne hxe] at hne ⊢
        by_cases hxe' : x' = (cl p).x
        · rw [hxe', Function.update_self]
          have hle := (hf.line x hne).2.1
          omega
        · rw [Function.update_of_ne hxe'] at hne' ⊢
          exact hf.rising x x' hxx' hne hne'
    · have hset : (Finset.range i).filter (fun q => Function.update f (cl p).x (cl p).y (q + 1) ≠ 0)
          = insert ((cl p).x - 1)
            ((Finset.range ((cl p).x - 1)).filter fun q => f (q + 1) ≠ 0) := by
        ext q
        rw [Finset.mem_filter, Finset.mem_insert, Finset.mem_filter, Finset.mem_range,
          Finset.mem_range]
        by_cases hq : q + 1 = (cl p).x
        · rw [hq, Function.update_self]
          constructor
          · exact fun _ => Or.inl (by omega)
          · exact fun _ => ⟨by omega, by omega⟩
        · rw [Function.update_of_ne hq]
          constructor
          · rintro ⟨hqi, hne⟩
            right
            refine ⟨?_, hne⟩
            have hin := (hf.line (q + 1) hne).1
            omega
          · rintro (heq | ⟨hqx, hne⟩)
            · omega
            · exact ⟨by omega, hne⟩
      rw [hset, Finset.card_insert_of_notMem, hf.card]
      rw [Finset.mem_filter, Finset.mem_range]
      omega
    · intro J
      obtain ⟨J', hJ', hval⟩ := hrun (put J ((cl p).x + pref) ((cl p).y + pref))
      have hgo : (cl p).y ≠ 0 := by omega
      refine ⟨J', ?_, ?_⟩
      · rw [unravelLoop, if_pos hgo, hJ']
      · intro q
        rw [hval q]
        by_cases hq : pref < q
        · by_cases hqx : q - pref = (cl p).x
          · have hq' : q = (cl p).x + pref := by omega
            rw [hqx, Function.update_self, if_neg (fun hn => hn.2 (hfx _ (Nat.le_refl _))),
              if_pos ⟨hq, hgo⟩, hq', put_self]
          · have hq' : q ≠ (cl p).x + pref := by omega
            rw [Function.update_of_ne hqx, put_ne _ _ hq']
        · have hq' : q ≠ (cl p).x + pref := by omega
          rw [if_neg (fun hn => hq hn.1), if_neg (fun hn => hq hn.1), put_ne _ _ hq']

end

/-! prune -/

theorem prefLoop_spec (l m : List Int) :
    prefLoop l m ≤ l.length ∧ prefLoop l m ≤ m.length ∧
      l.take (prefLoop l m) = m.take (prefLoop l m) := by
  induction l generalizing m with
  | nil => exact ⟨Nat.zero_le _, Nat.zero_le _, rfl⟩
  | cons a l ih =>
    cases m with
    | nil => exact ⟨Nat.zero_le _, Nat.zero_le _, rfl⟩
    | cons b m =>
      rw [prefLoop]
      by_cases hab : a = b
      · obtain ⟨hl, hm, htake⟩ := ih m
        rw [if_pos hab, hab, List.take_succ_cons, List.take_succ_cons, htake]
        exact ⟨Nat.succ_le_succ hl, Nat.succ_le_succ hm, rfl⟩
      · rw [if_neg hab]
        exact ⟨Nat.zero_le _, Nat.zero_le _, rfl⟩

/-- A file by its common prefix, what is between, and its common suffix. -/
theorem pruned_split {α : Type} {p s : Nat} (l : List α) (h : p + s ≤ l.length) :
    l = l.take p ++ pruned p s l ++ l.drop (l.length - s) := by
  unfold pruned
  have hdrop : l.drop (l.length - s) = (l.drop p).drop (l.length - p - s) := by
    rw [List.drop_drop]
    congr 1
    omega
  rw [hdrop, List.append_assoc, List.take_append_drop, List.take_append_drop]

/-- What both files begin and end with. -/
theorem prune_spec (l m : List Int) :
    pref l m + suff l m ≤ l.length ∧ pref l m + suff l m ≤ m.length ∧
      l.take (pref l m) = m.take (pref l m) ∧
      l.drop (l.length - suff l m) = m.drop (m.length - suff l m) := by
  obtain ⟨hl, hm, htake⟩ := prefLoop_spec l m
  obtain ⟨hl', hm', htake'⟩ := prefLoop_spec (l.drop (pref l m)).reverse (m.drop (pref l m)).reverse
  rw [List.length_reverse, List.length_drop] at hl' hm'
  change suff l m ≤ _ at hl' hm'
  change pref l m ≤ _ at hl hm
  refine ⟨by omega, by omega, htake, ?_⟩
  rw [List.take_reverse, List.take_reverse, List.length_drop, List.length_drop] at htake'
  have hdrop := List.reverse_injective htake'
  change (l.drop (pref l m)).drop (l.length - pref l m - suff l m)
    = (m.drop (pref l m)).drop (m.length - pref l m - suff l m) at hdrop
  rw [List.drop_drop, List.drop_drop] at hdrop
  have h₁ : pref l m + (l.length - pref l m - suff l m) = l.length - suff l m := by omega
  have h₂ : pref l m + (m.length - pref l m - suff l m) = m.length - suff l m := by omega
  rw [h₁, h₂] at hdrop
  exact hdrop

theorem pruned_length {α : Type} {p s : Nat} (l : List α) (h : p + s ≤ l.length) :
    (pruned p s l).length = l.length - p - s := by
  unfold pruned
  rw [List.length_take, List.length_drop]
  omega

theorem values_pruned {p s : Nat} (l : List Int) (h : p + s ≤ l.length) {x : Nat} (hx : 1 ≤ x)
    (hxl : x ≤ l.length - p - s) : values (pruned p s l) x = values l (p + x) := by
  have hlen := pruned_length l h
  have hget := values_get (pruned p s l) hx (by omega)
  have hget' := values_get l (show 1 ≤ p + x by omega) (by omega)
  have hidx : p + (x - 1) = p + x - 1 := by omega
  have hlt : x - 1 < l.length - p - s := by omega
  unfold pruned at hget
  rw [List.getElem?_take, if_pos hlt, List.getElem?_drop, hidx, hget'] at hget
  exact (Option.some.inj hget).symm

/-- Lines of the common prefix and of the common suffix are of one class. -/
theorem values_pref {l m : List Int} {p : Nat} (h : l.take p = m.take p) (hl : p ≤ l.length)
    (hm : p ≤ m.length) {q : Nat} (hq : 1 ≤ q) (hqp : q ≤ p) : values l q = values m q := by
  have hget := congrArg (·[q - 1]?) h
  simp only [List.getElem?_take, if_pos (show q - 1 < p by omega)] at hget
  rw [values_get l hq (by omega), values_get m hq (by omega)] at hget
  exact Option.some.inj hget

theorem values_suff {l m : List Int} {s : Nat} (h : l.drop (l.length - s) = m.drop (m.length - s))
    (hl : s ≤ l.length) (hm : s ≤ m.length) {q : Nat} (hq : l.length - s < q) (hql : q ≤ l.length) :
    values l q = values m (q + m.length - l.length) := by
  have hget := congrArg (·[q - 1 - (l.length - s)]?) h
  simp only [List.getElem?_drop] at hget
  have h₁ : l.length - s + (q - 1 - (l.length - s)) = q - 1 := by omega
  have h₂ : m.length - s + (q - 1 - (l.length - s)) = q + m.length - l.length - 1 := by omega
  rw [h₁, h₂, values_get l (by omega) hql, values_get m (by omega) (by omega)] at hget
  exact Option.some.inj hget

/-- What main has in J: `k` is the length of a longest common subsequence of the pruned files. -/
theorem findMatches_eq (L M : List Int) (hM : ∀ v ∈ M, v ≠ 0) :
    ∃ (J' : Arr Nat) (f : Nat → Nat) (k y : Nat),
      findMatches L M = some ((List.range L.length).map fun i => J' (i + 1)) ∧
      Matched (pruned (pref L M) (suff L M) L) (pruned (pref L M) (suff L M) M)
        (pruned (pref L M) (suff L M) L).length y k f ∧
      (∀ q, J' q = if pref L M < q ∧ f (q - pref L M) ≠ 0 then f (q - pref L M) + pref L M
        else if q ≤ pref L M then q
        else if q > L.length - suff L M then q + M.length - L.length else 0) ∧
      ¬ Common (pruned (pref L M) (suff L M) L) (pruned (pref L M) (suff L M) M) (k + 1) := by
  obtain ⟨-, hm, -, -⟩ := prune_spec L M
  set p := pref L M with hp
  set s := suff L M with hs
  obtain ⟨σ, hσ⟩ := sort_table (pruned p s L) (pruned p s L).length
  obtain ⟨τ, hτ⟩ := sort_table (pruned p s M) (pruned p s M).length
  have hne : ∀ q, 1 ≤ q → q ≤ (pruned p s M).length → values (pruned p s M) q ≠ 0 := by
    intro q hq hqm
    rw [pruned_length M hm] at hqm
    rw [values_pruned M hm hq hqm]
    have hget := values_get M (show 1 ≤ p + q by omega) (by omega)
    exact hM _ (List.mem_of_getElem? hget)
  have hmates : Mates (pruned p s L) (pruned p s M) _ _ :=
    fun i hi hin => equiv_spec hσ hτ hne hi hin
  obtain ⟨st, hrun, hstone⟩ := stoneLoop_spec hmates (pruned p s L).length (Nat.le_refl _)
  have hchain := hstone.chain st.k (Nat.le_refl _)
  have hfuel : st.k < st.clen + 1 := by
    have hle := hchain.length_le
    have hin := hstone.inside st.k (Nat.le_refl _)
    omega
  obtain ⟨f, hf, hJ⟩ := unravelLoop_spec p hchain (st.clen + 1) hfuel
  obtain ⟨J', hJ', hval⟩ := hJ ⟨fun i =>
    if i ≤ p then i else if i > L.length - s then i + M.length - L.length else 0⟩
  refine ⟨J', f, st.k, _, ?_, hf, hval, ?_⟩
  · unfold findMatches
    simp only [← hp, ← hs]
    rw [hrun]
    simp only [Option.bind_eq_bind, Option.bind_some, unravel, hJ']
  · have hlong := hstone.longest
    rw [List.take_length] at hlong
    exact hlong

theorem filter_range_length (n : Nat) (g : Nat → Nat) :
    (((List.range n).map g).filter (· ≠ 0)).length
      = ((Finset.range n).filter fun i => g i ≠ 0).card := by
  rw [List.filter_map, List.length_map]
  rfl

/-- The entries of J: those of the common prefix, those that stone found, and those of the common
suffix. -/
structure Entries (L M : List Int) (p s k : Nat) (J : Nat → Nat) : Prop where
  front : ∀ q ≤ p, J q = q
  middle : ∀ q, p < q → q ≤ L.length - s → J q ≠ 0 →
    p < J q ∧ J q ≤ M.length - s ∧ values L q = values M (J q)
  back : ∀ q, L.length - s < q → J q = q + M.length - L.length
  rising : ∀ q q', p < q → q < q' → q' ≤ L.length - s → J q ≠ 0 → J q' ≠ 0 → J q < J q'
  card : ((Finset.range (L.length - p - s)).filter fun x => J (p + (x + 1)) ≠ 0).card = k

theorem Matched.entries {L M : List Int} {p s k y : Nat} {f J : Nat → Nat}
    (hL : p + s ≤ L.length) (hM : p + s ≤ M.length)
    (hf : Matched (pruned p s L) (pruned p s M) (pruned p s L).length y k f)
    (hJ : ∀ q, J q = if p < q ∧ f (q - p) ≠ 0 then f (q - p) + p
        else if q ≤ p then q else if q > L.length - s then q + M.length - L.length else 0) :
    Entries L M p s k J := by
  rw [pruned_length L hL] at hf
  have hmid : ∀ q, p < q → q ≤ L.length - s → J q ≠ 0 → f (q - p) ≠ 0 ∧ J q = f (q - p) + p := by
    intro q hq hqs hne
    by_cases hfq : f (q - p) ≠ 0
    · rw [hJ, if_pos ⟨hq, hfq⟩]
      exact ⟨hfq, rfl⟩
    · rw [hJ, if_neg (fun hn => hfq hn.2), if_neg (by omega), if_neg (by omega)] at hne
      exact absurd rfl hne
  refine ⟨?_, ?_, ?_, ?_, ?_⟩
  · intro q hq
    rw [hJ, if_neg (fun hn => by omega), if_pos hq]
  · intro q hq hqs hne
    obtain ⟨hfq, heq⟩ := hmid q hq hqs hne
    obtain ⟨hin, -, hle, hv⟩ := hf.line (q - p) hfq
    rw [pruned_length M hM] at hle
    rw [values_pruned L hL hin.1 hin.2, values_pruned M hM (by omega) hle,
      Nat.add_sub_cancel' (Nat.le_of_lt hq), Nat.add_comm p, ← heq] at hv
    exact ⟨by omega, by omega, hv⟩
  · intro q hq
    have hno : ¬ (p < q ∧ f (q - p) ≠ 0) := by
      rintro ⟨-, hfq⟩
      have hin := (hf.line (q - p) hfq).1
      omega
    rw [hJ, if_neg hno, if_neg (by omega), if_pos hq]
  · intro q q' hq hqq' hqs hne hne'
    obtain ⟨hfq, heq⟩ := hmid q hq (by omega) hne
    obtain ⟨hfq', heq'⟩ := hmid q' (by omega) hqs hne'
    have hlt := hf.rising (q - p) (q' - p) (by omega) hfq hfq'
    omega
  · rw [← hf.card]
    congr 1
    apply Finset.filter_congr
    intro x hx
    rw [Finset.mem_range] at hx
    have hsub : p + (x + 1) - p = x + 1 := by omega
    rw [hJ, hsub]
    by_cases hfx : f (x + 1) ≠ 0
    · rw [if_pos ⟨by omega, hfx⟩]
      exact ⟨fun _ => hfx, fun _ => by omega⟩
    · rw [if_neg (fun hn => hfx hn.2), if_neg (by omega), if_neg (by omega)]
      exact ⟨fun hn => absurd rfl hn, fun hn => absurd hn hfx⟩

theorem Entries.lt {L M : List Int} {p s k : Nat} {J : Nat → Nat} (h : Entries L M p s k J)
    (hL : p + s ≤ L.length) (hM : p + s ≤ M.length) {q q' : Nat} (hqq' : q < q') (hne : J q ≠ 0)
    (hne' : J q' ≠ 0) : J q < J q' := by
  -- by the zones that the two lines are in
  rcases Nat.lt_or_ge p q' with hq' | hq'
  · rcases Nat.lt_or_ge (L.length - s) q' with hb' | hb'
    · have hback' := h.back q' hb'
      rcases Nat.lt_or_ge (L.length - s) q with hb | hb
      · have hback := h.back q hb
        omega
      · rcases Nat.lt_or_ge p q with hq | hq
        · have hmid := (h.middle q hq hb hne).2.1
          omega
        · have hfront := h.front q hq
          omega
    · rcases Nat.lt_or_ge p q with hq | hq
      · exact h.rising q q' hq hqq' hb' hne hne'
      · have hfront := h.front q hq
        have hmid := (h.middle q' hq' hb' hne').1
        omega
  · have hfront := h.front q (by omega)
    have hfront' := h.front q' hq'
    omega

/-- Mates are of one class. -/
theorem Entries.value {L M : List Int} {s k : Nat} {p : Nat} {J : Nat → Nat}
    (h : Entries L M p s k J) (hL : p + s ≤ L.length) (hM : p + s ≤ M.length)
    (htake : L.take p = M.take p) (hdrop : L.drop (L.length - s) = M.drop (M.length - s)) {q : Nat}
    (hq : 1 ≤ q) (hqL : q ≤ L.length) (hne : J q ≠ 0) :
    J q ≤ M.length ∧ values L q = values M (J q) := by
  rcases Nat.lt_or_ge p q with hpq | hpq
  · rcases Nat.lt_or_ge (L.length - s) q with hb | hb
    · rw [h.back q hb]
      exact ⟨by omega, values_suff hdrop (by omega) (by omega) hb hqL⟩
    · obtain ⟨-, hle, hv⟩ := h.middle q hpq hb hne
      exact ⟨by omega, hv⟩
  · rw [h.front q hpq]
    exact ⟨by omega, values_pref htake (by omega) (by omega) hq hpq⟩

/-- What J has for the pruned files, and for the whole files. -/
theorem Entries.count {L M : List Int} {p s k : Nat} {J : Nat → Nat} (h : Entries L M p s k J)
    (hL : p + s ≤ L.length) (hM : p + s ≤ M.length) :
    ((pruned p s ((List.range L.length).map fun i => J (i + 1))).filter (· ≠ 0)).length = k ∧
    (((List.range L.length).map fun i => J (i + 1)).filter (· ≠ 0)).length = p + k + s := by
  have hlen : L.length = p + (L.length - p - s) + s := by omega
  have hsplit : (List.range L.length).map (fun i => J (i + 1)) =
      (List.range p).map (fun i => J (i + 1)) ++
        (List.range (L.length - p - s)).map (fun x => J (p + (x + 1))) ++
        (List.range s).map (fun x => J (L.length - s + (x + 1))) := by
    have hback : p + (L.length - p - s) = L.length - s := by omega
    conv_lhs => rw [hlen]
    rw [List.range_add, List.range_add, List.map_append, List.map_append, List.map_map,
      List.map_map, hback]
    rfl
  have hfront : (((List.range p).map fun i => J (i + 1)).filter (· ≠ 0)).length = p := by
    rw [List.filter_eq_self.mpr, List.length_map, List.length_range]
    intro x hx
    obtain ⟨i, hi, rfl⟩ := List.mem_map.mp hx
    rw [List.mem_range] at hi
    rw [h.front (i + 1) hi]
    simp
  have hback : (((List.range s).map fun x => J (L.length - s + (x + 1))).filter (· ≠ 0)).length
      = s := by
    rw [List.filter_eq_self.mpr, List.length_map, List.length_range]
    intro x hx
    obtain ⟨i, hi, rfl⟩ := List.mem_map.mp hx
    rw [h.back _ (by omega)]
    simp only [decide_eq_true_eq]
    omega
  have hmid : (((List.range (L.length - p - s)).map fun x => J (p + (x + 1))).filter
      (· ≠ 0)).length = k := by
    rw [filter_range_length]
    exact h.card
  constructor
  · have hcut : pruned p s ((List.range L.length).map fun i => J (i + 1))
        = (List.range (L.length - p - s)).map fun x => J (p + (x + 1)) := by
      have hp : ((List.range p).map fun i => J (i + 1)).length = p := by simp
      have hm : ((List.range (L.length - p - s)).map fun x => J (p + (x + 1))).length
          = L.length - p - s := by simp
      unfold pruned
      rw [List.length_map, List.length_range, hsplit, List.append_assoc, List.drop_left' hp,
        List.take_left' hm]
    rw [hcut, hmid]
  · rw [hsplit, List.filter_append, List.filter_append, List.length_append, List.length_append,
      hfront, hmid, hback]

/-- What diff finds is a longest common subsequence: the mates go up, are of one class, and are as
many as any common subsequence of the pruned files, or of the whole files, has. -/
theorem findMatches_longest (L M : List Int) (hM : ∀ v ∈ M, v ≠ 0) :
    ∃ J, findMatches L M = some J ∧ J.length = L.length ∧
      (J.filter (· ≠ 0)).Pairwise (· < ·) ∧
      (∀ i j : Nat, J[i]? = some (j + 1) → ∃ v, L[i]? = some v ∧ M[j]? = some v) ∧
      (∀ t : List Int, t.Sublist (pruned (pref L M) (suff L M) L) →
        t.Sublist (pruned (pref L M) (suff L M) M) →
        t.length ≤ ((pruned (pref L M) (suff L M) J).filter (· ≠ 0)).length) ∧
      ∀ t : List Int, t.Sublist L → t.Sublist M → t.length ≤ (J.filter (· ≠ 0)).length := by
  obtain ⟨hL, hM', htake, hdrop⟩ := prune_spec L M
  obtain ⟨J', f, k, y, hrun, hf, hJ, hlong⟩ := findMatches_eq L M hM
  have hent : Entries L M (pref L M) (suff L M) k J'.get := hf.entries hL hM' hJ
  obtain ⟨hcount, hcount'⟩ := hent.count hL hM'
  refine ⟨_, hrun, by simp, ?_, ?_, ?_, ?_⟩
  · rw [List.pairwise_filter, List.pairwise_map]
    apply List.pairwise_lt_range.imp
    intro i j hij hi hj
    simp only [decide_eq_true_eq] at hi hj
    exact hent.lt hL hM' (by omega) hi hj
  · intro i j hij
    rw [List.getElem?_map] at hij
    obtain ⟨i', hi', hj⟩ := Option.map_eq_some_iff.mp hij
    obtain ⟨hlt, heq⟩ := List.getElem?_eq_some_iff.mp hi'
    rw [List.getElem_range] at heq
    rw [List.length_range] at hlt
    subst heq
    obtain ⟨hle, hv⟩ := hent.value hL hM' htake hdrop (Nat.le_add_left 1 i) hlt (by omega)
    rw [hj] at hle hv
    have hgetL := values_get L (Nat.le_add_left 1 i) hlt
    have hgetM := values_get M (Nat.le_add_left 1 j) hle
    rw [Nat.add_sub_cancel] at hgetL hgetM
    exact ⟨values L (i + 1), hgetL, hv ▸ hgetM⟩
  · intro t hA hB
    rw [hcount]
    by_contra hgt
    have hc : Common _ _ t.length := ⟨t, hA, hB, rfl⟩
    exact hlong (hc.le (by omega))
  · intro t hA hB
    rw [hcount']
    by_contra hgt
    have hc : Common L M t.length := ⟨t, hA, hB, rfl⟩
    have hcommon : Common L M (pref L M + (suff L M + (k + 1))) := hc.le (by omega)
    have hplen : (L.take (pref L M)).length = pref L M := by
      rw [List.length_take]
      omega
    have hslen : (L.drop (L.length - suff L M)).length = suff L M := by
      rw [List.length_drop]
      omega
    have hsplitL := pruned_split L hL
    have hsplitM := pruned_split M hM'
    rw [← htake, ← hdrop] at hsplitM
    rw [List.append_assoc] at hsplitL hsplitM
    have hwhole : Common
        (L.take (pref L M) ++ (pruned (pref L M) (suff L M) L ++ L.drop (L.length - suff L M)))
        (L.take (pref L M) ++ (pruned (pref L M) (suff L M) M ++ L.drop (L.length - suff L M)))
        ((L.take (pref L M)).length + ((L.drop (L.length - suff L M)).length + (k + 1))) := by
      rw [← hsplitL, ← hsplitM, hplen, hslen]
      exact hcommon
    exact hlong hwhole.behind.before

/-- Two files with a common prefix and suffix. -/
theorem findMatches_longest_six :
    ∃ J, findMatches [1, 2, 3, 4, 2, 5] [1, 3, 2, 4, 3, 5] = some J ∧
      ∀ t : List Int, t.Sublist [1, 2, 3, 4, 2, 5] → t.Sublist [1, 3, 2, 4, 3, 5] →
        t.length ≤ (J.filter (· ≠ 0)).length := by
  obtain ⟨J, hJ, -, -, -, -, hlong⟩ :=
    findMatches_longest [1, 2, 3, 4, 2, 5] [1, 3, 2, 4, 3, 5] (by decide)
  exact ⟨J, hJ, hlong⟩

end Svr32.Diff
