import Svr32.Diff.Stone
import Mathlib.Logic.Equiv.Basic
import Mathlib.Order.Basic
import Mathlib.Algebra.Ring.Nat
import Mathlib.Algebra.Ring.Int.Defs

/-! The tables of lines are sorted by value and serial number, and the classes of equiv and the
array member are read from them. -/
namespace Svr32.Diff
open Lib (Arr put put_self put_ne)

def Line.le (x y : Line) : Prop := x.value < y.value ∨ x.value = y.value ∧ x.serial ≤ y.serial

theorem after_iff (x y : Line) : after x y = true ↔ ¬ x.le y := by
  unfold after Line.le
  rw [decide_eq_true_eq]
  omega

theorem Line.le_of_after {x y : Line} (h : after x y = true) : y.le x := by
  rw [after_iff] at h
  unfold Line.le at h ⊢
  omega

theorem Line.le_trans {x y z : Line} (h : x.le y) (h' : y.le z) : x.le z := by
  unfold Line.le at h h' ⊢
  omega

theorem Line.le.value_le {x y : Line} (h : x.le y) : x.value ≤ y.value := by
  unfold Line.le at h
  omega

/-- The entries 1 to `n` are in order. -/
def Sorted (a : Arr Line) (n : Nat) : Prop := ∀ p q, 1 ≤ p → p < q → q ≤ n → (a p).le (a q)

/-- The entries 1 to `n` are the same in some order. -/
def Permuted (n : Nat) (a a' : Arr Line) : Prop :=
  ∃ σ : Equiv.Perm Nat, (∀ p, ¬ (1 ≤ p ∧ p ≤ n) → σ p = p) ∧ ∀ p, a' p = a (σ p)

theorem Permuted.refl (n : Nat) (a : Arr Line) : Permuted n a a :=
  ⟨Equiv.refl Nat, fun _ _ => rfl, fun _ => rfl⟩

theorem Permuted.trans {n : Nat} {a b c : Arr Line} (h : Permuted n a b) (h' : Permuted n b c) :
    Permuted n a c := by
  obtain ⟨σ, hσ, hb⟩ := h
  obtain ⟨τ, hτ, hc⟩ := h'
  refine ⟨τ.trans σ, ?_, ?_⟩
  · intro p hp
    rw [Equiv.trans_apply, hτ p hp, hσ p hp]
  · intro p
    rw [hc, hb, Equiv.trans_apply]

theorem swap_apply (a : Arr Line) {i j : Nat} (h : i ≠ j) (p : Nat) :
    swap a i j p = if p = i then a j else if p = j then a i else a p := by
  unfold swap
  by_cases hj : p = j
  · rw [hj, put_self, if_neg h.symm, if_pos rfl]
  · rw [put_ne _ _ hj]
    by_cases hi : p = i
    · rw [hi, put_self, if_pos rfl]
    · rw [put_ne _ _ hi, if_neg hi, if_neg hj]

theorem swap_permuted {n i j : Nat} (a : Arr Line) (h : i ≠ j) (hi : 1 ≤ i ∧ i ≤ n)
    (hj : 1 ≤ j ∧ j ≤ n) : Permuted n a (swap a i j) := by
  refine ⟨Equiv.swap i j, ?_, ?_⟩
  · intro p hp
    apply Equiv.swap_apply_of_ne_of_ne
    · exact fun heq => hp (heq ▸ hi)
    · exact fun heq => hp (heq ▸ hj)
  · intro p
    rw [swap_apply a h, Equiv.swap_apply_def]
    by_cases hpi : p = i
    · rw [if_pos hpi, if_pos hpi]
    · rw [if_neg hpi, if_neg hpi]
      by_cases hpj : p = j
      · rw [if_pos hpj, if_pos hpj]
      · rw [if_neg hpj, if_neg hpj]

theorem sink_permuted {n m : Nat} (hm : 1 ≤ m) (fuel : Nat) (a : Arr Line) (i : Nat)
    (hi : i + m ≤ n) : Permuted n a (sink m fuel a i) := by
  induction fuel generalizing a i with
  | zero => exact Permuted.refl n a
  | succ fuel ih =>
    rw [sink]
    by_cases hz : i = 0
    · rw [if_pos hz]
      exact Permuted.refl n a
    · rw [if_neg hz]
      by_cases haft : after (a (i + m)) (a i) = true
      · rw [if_pos haft]
        exact Permuted.refl n a
      · rw [if_neg haft]
        have hswap : Permuted n a (swap a i (i + m)) :=
          swap_permuted a (by omega) ⟨by omega, by omega⟩ ⟨by omega, by omega⟩
        exact hswap.trans (ih (swap a i (i + m)) (i - m) (by omega))

theorem pass_permuted {n m : Nat} (hm : 1 ≤ m) (k : Nat) (a : Arr Line) (hk : k = 0 ∨ k + m ≤ n) :
    Permuted n a (pass m k a) := by
  induction k with
  | zero => exact Permuted.refl n a
  | succ k ih =>
    have hstep := sink_permuted hm (k + 1) (pass m k a) (k + 1) (n := n) (by omega)
    exact (ih (by omega)).trans hstep

theorem passes_permuted (n fuel m : Nat) (a : Arr Line) : Permuted n a (passes n fuel m a) := by
  induction fuel generalizing m a with
  | zero => exact Permuted.refl n a
  | succ fuel ih =>
    rw [passes]
    by_cases hm : m = 0
    · rw [if_pos hm]
      exact Permuted.refl n a
    · rw [if_neg hm]
      have hpass := pass_permuted (Nat.one_le_iff_ne_zero.mpr hm) (n - m) a (n := n) (by omega)
      exact hpass.trans (ih (m / 2) (pass m (n - m) a))

/-- An entry goes down to its place among those in order before it. -/
theorem sink_sorted {n : Nat} (fuel : Nat) (a : Arr Line) (i : Nat) (hfuel : i ≤ fuel)
    (hi : i + 1 ≤ n)
    (hrest : ∀ p q, 1 ≤ p → p < q → q ≤ n → p ≠ i + 1 → q ≠ i + 1 → (a p).le (a q))
    (hnew : ∀ q, i + 1 < q → q ≤ n → (a (i + 1)).le (a q)) : Sorted (sink 1 fuel a i) n := by
  have hdone : (∀ p, 1 ≤ p → p ≤ i → (a p).le (a (i + 1))) → Sorted a n := by
    intro hlow p q hp hpq hq
    by_cases hpi : p = i + 1
    · rw [hpi] at hpq ⊢
      exact hnew q hpq hq
    · by_cases hqi : q = i + 1
      · rw [hqi] at hpq ⊢
        exact hlow p hp (by omega)
      · exact hrest p q hp hpq hq hpi hqi
  induction fuel generalizing a i with
  | zero =>
    rw [sink]
    exact hdone fun p hp hpi => by omega
  | succ fuel ih =>
    rw [sink]
    by_cases hz : i = 0
    · rw [if_pos hz]
      exact hdone fun p hp hpi => by omega
    · rw [if_neg hz]
      by_cases haft : after (a (i + 1)) (a i) = true
      · rw [if_pos haft]
        have hle := Line.le_of_after haft
        apply hdone
        intro p hp hpi
        by_cases heq : p = i
        · rw [heq]
          exact hle
        · exact Line.le_trans (hrest p i hp (by omega) (by omega) (by omega) (by omega)) hle
      · rw [if_neg haft]
        have hle : (a (i + 1)).le (a i) := by
          rw [after_iff, not_not] at haft
          exact haft
        have hi1 : i - 1 + 1 = i := by omega
        have hne : i ≠ i + 1 := by omega
        have hlow : swap a i (i + 1) i = a (i + 1) := by
          rw [swap_apply a hne, if_pos rfl]
        have hhigh : swap a i (i + 1) (i + 1) = a i := by
          rw [swap_apply a hne, if_neg hne.symm, if_pos rfl]
        have hother : ∀ p, p ≠ i → p ≠ i + 1 → swap a i (i + 1) p = a p := by
          intro p h₁ h₂
          rw [swap_apply a hne, if_neg h₁, if_neg h₂]
        have hrest' : ∀ p q, 1 ≤ p → p < q → q ≤ n → p ≠ i → q ≠ i →
            (swap a i (i + 1) p).le (swap a i (i + 1) q) := by
          intro p q hp hpq hq hpi hqi
          by_cases hp1 : p = i + 1
          · rw [hp1, hhigh, hother q hqi (by omega)]
            exact hrest i q (by omega) (by omega) hq (by omega) (by omega)
          · by_cases hq1 : q = i + 1
            · rw [hq1, hhigh, hother p hpi hp1]
              exact hrest p i hp (by omega) (by omega) hp1 (by omega)
            · rw [hother p hpi hp1, hother q hqi hq1]
              exact hrest p q hp hpq hq hp1 hq1
        have hnew' : ∀ q, i < q → q ≤ n → (swap a i (i + 1) i).le (swap a i (i + 1) q) := by
          intro q hlt hq
          rw [hlow]
          by_cases hq1 : q = i + 1
          · rw [hq1, hhigh]
            exact hle
          · rw [hother q (by omega) hq1]
            exact hnew q (by omega) hq
        apply ih (swap a i (i + 1)) (i - 1) (by omega) (by omega)
        · rw [hi1]
          exact hrest'
        · rw [hi1]
          exact hnew'
        · rw [hi1]
          intro hlow' p q hp hpq hq
          by_cases hpi : p = i
          · rw [hpi] at hpq ⊢
            exact hnew' q hpq hq
          · by_cases hqi : q = i
            · rw [hqi] at hpq ⊢
              exact hlow' p hp (by omega)
            · exact hrest' p q hp hpq hq hpi hqi

/-- The turns with neighbours put everything in order. -/
theorem pass_sorted (k : Nat) (a : Arr Line) : Sorted (pass 1 k a) (k + 1) := by
  induction k with
  | zero =>
    intro p q hp hpq hq
    omega
  | succ k ih =>
    apply sink_sorted (k + 1) (pass 1 k a) (k + 1) (Nat.le_refl _) (Nat.le_refl _)
    · intro p q hp hpq hq hp1 hq1
      exact ih p q hp hpq (by omega)
    · intro q hlt hq
      omega

/-- The last gap is 1, whatever the first one is. -/
theorem passes_sorted {n : Nat} (hn : 1 ≤ n) (fuel m : Nat) (a : Arr Line) (hm : 1 ≤ m)
    (hfuel : m < 2 ^ fuel) : Sorted (passes n fuel m a) n := by
  induction fuel generalizing m a with
  | zero => omega
  | succ fuel ih =>
    have hz : m ≠ 0 := Nat.one_le_iff_ne_zero.mp hm
    rw [passes, if_neg hz]
    by_cases hone : m = 1
    · subst hone
      have hstop : passes n fuel (1 / 2) (pass 1 (n - 1) a) = pass 1 (n - 1) a := by
        cases fuel <;> rfl
      have hsorted := pass_sorted (n - 1) a
      rw [Nat.sub_add_cancel hn] at hsorted
      rw [hstop]
      exact hsorted
    · apply ih (m / 2) (pass m (n - m) a) (by omega)
      rw [Nat.pow_succ] at hfuel
      omega

theorem gap_spec (n fuel j m : Nat) :
    (gap n fuel j m = m ∨ 2 * j - 1 ≤ gap n fuel j m) ∧ gap n fuel j m ≤ max m (2 * n - 1) := by
  induction fuel generalizing j m with
  | zero => exact ⟨Or.inl rfl, Nat.le_max_left m _⟩
  | succ fuel ih =>
    rw [gap]
    by_cases hj : j ≤ n
    · rw [if_pos hj]
      obtain ⟨hlow, hhigh⟩ := ih (j * 2) (2 * j - 1)
      constructor
      · right
        omega
      · omega
    · rw [if_neg hj]
      exact ⟨Or.inl rfl, Nat.le_max_left m _⟩

theorem sort_sorted (a : Arr Line) (n : Nat) : Sorted (sort a n) n := by
  rcases Nat.lt_or_ge n 2 with hn | hn
  · intro p q hp hpq hq
    omega
  · obtain ⟨n, rfl⟩ := Nat.exists_eq_add_of_le' hn
    have hfirst : gap (n + 2) (n + 2 + 1) 1 0 = gap (n + 2) (n + 1) 4 3 := by
      rw [gap, if_pos (by omega), gap, if_pos (by omega)]
    obtain ⟨hlow, hhigh⟩ := gap_spec (n + 2) (n + 1) 4 3
    apply passes_sorted (by omega)
    · rw [hfirst]
      omega
    · rw [hfirst]
      have hpow : n + 2 < 2 ^ (n + 2) := Nat.lt_two_pow_self
      omega

/-- What is known of a sorted table: line `p` is line `σ p` of the file. -/
structure Table (l : List Int) (n : Nat) (σ : Equiv.Perm Nat) (a : Arr Line) : Prop where
  inside : ∀ p, 1 ≤ p ∧ p ≤ n ↔ 1 ≤ σ p ∧ σ p ≤ n
  line : ∀ p, a p = ⟨σ p, values l (σ p)⟩
  sorted : Sorted a n

theorem sort_table (l : List Int) (n : Nat) : ∃ σ, Table l n σ (sort (serials l) n) := by
  obtain ⟨σ, hfix, hline⟩ := passes_permuted n n (gap n (n + 1) 1 0 / 2) (serials l)
  refine ⟨σ, ?_, hline, sort_sorted (serials l) n⟩
  intro p
  constructor
  · intro hp
    by_contra hno
    have heq : σ p = p := σ.injective (hfix (σ p) hno)
    rw [heq] at hno
    exact hno hp
  · intro hp
    by_contra hno
    rw [hfix p hno] at hp
    exact hno hp

/-! equiv -/

/-- The first of the lines with a value, or 0. -/
def IsClass (b : Arr Line) (m : Nat) (v : Int) (j : Nat) : Prop :=
  j = 0 ∧ (∀ q, 1 ≤ q → q ≤ m → (b q).value ≠ v) ∨
    1 ≤ j ∧ j ≤ m ∧ (b j).value = v ∧ ∀ q, 1 ≤ q → q < j → (b q).value < v

theorem equivLoop_before (b : Arr Line) (n m fuel i j : Nat) (a : Arr Line) {p : Nat} (hp : p < i) :
    equivLoop b n m fuel i j a p = a p := by
  induction fuel generalizing i j a with
  | zero => rfl
  | succ fuel ih =>
    have hput : ∀ x, put a i x p = a p := fun x => put_ne a x (Nat.ne_of_lt hp)
    rw [equivLoop]
    split
    · split
      · rw [ih (i + 1) j _ (by omega), hput]
      · split
        · rw [ih (i + 1) j _ (by omega), hput]
        · exact ih i (j + 1) a hp
    · split
      · rw [ih (i + 1) j _ (by omega), hput]
      · rfl

theorem Sorted.value_le {a : Arr Line} {n p q : Nat} (h : Sorted a n) (hp : 1 ≤ p) (hpq : p ≤ q)
    (hq : q ≤ n) : (a p).value ≤ (a q).value := by
  rcases Nat.lt_or_eq_of_le hpq with hlt | heq
  · exact (h p q hp hlt hq).value_le
  · exact heq ▸ Int.le_refl _

/-- Both tables are walked through once: a line of the first, `a₀`, gets the class of its value. -/
theorem equivLoop_spec {a₀ b : Arr Line} {n m : Nat} (ha : Sorted a₀ n) (hb : Sorted b m)
    (fuel i j : Nat) (a : Arr Line) (hi : 1 ≤ i) (hj : 1 ≤ j) (hjm : j ≤ m + 1)
    (hfuel : n + 1 - i + (m + 1 - j) < fuel) (hkeep : ∀ p, i ≤ p → a p = a₀ p)
    (hlow : ∀ p q, i ≤ p → p ≤ n → 1 ≤ q → q < j → (b q).value < (a₀ p).value)
    {p : Nat} (hip : i ≤ p) (hpn : p ≤ n) :
    ∃ c : Nat, equivLoop b n m fuel i j a p = ⟨(a₀ p).serial, c⟩ ∧
      IsClass b m (a₀ p).value c := by
  induction fuel generalizing i j a with
  | zero => omega
  | succ fuel ih =>
    have hin : i ≤ n := Nat.le_trans hip hpn
    have hai : a i = a₀ i := hkeep i (Nat.le_refl i)
    -- the class `c` is given to line `i`
    have hgive : ∀ c : Nat, IsClass b m (a₀ i).value c →
        ∃ c' : Nat, equivLoop b n m fuel (i + 1) j (put a i ⟨(a i).serial, c⟩) p
          = ⟨(a₀ p).serial, c'⟩ ∧ IsClass b m (a₀ p).value c' := by
      intro c hc
      by_cases hpi : p = i
      · refine ⟨c, ?_, hpi ▸ hc⟩
        rw [equivLoop_before b n m fuel (i + 1) j _ (by omega), hpi, put_self, hai]
      · apply ih (i + 1) j _ (by omega) hj hjm (by omega)
        · intro q hq
          rw [put_ne _ _ (by omega)]
          exact hkeep q (by omega)
        · exact fun q r hq hqn hr hrj => hlow q r (by omega) hqn hr hrj
        · omega
    rw [equivLoop]
    by_cases hjm' : j ≤ m
    · rw [if_pos ⟨hin, hjm'⟩]
      by_cases hlt : (a i).value < (b j).value
      · rw [if_pos hlt]
        apply hgive 0
        left
        refine ⟨rfl, ?_⟩
        intro q hq hqm
        rw [hai] at hlt
        rcases Nat.lt_or_ge q j with hqj | hqj
        · exact Int.ne_of_lt (hlow i q (Nat.le_refl i) hin hq hqj)
        · have hge := hb.value_le hj hqj hqm
          omega
      · rw [if_neg hlt]
        by_cases heq : (a i).value = (b j).value
        · rw [if_pos heq]
          apply hgive j
          right
          rw [hai] at heq
          exact ⟨hj, hjm', heq.symm, fun q hq hqj => hlow i q (Nat.le_refl i) hin hq hqj⟩
        · rw [if_neg heq]
          apply ih i (j + 1) a hi (by omega) (by omega) (by omega) hkeep
          · intro q r hq hqn hr hrj
            rcases Nat.lt_or_ge r j with hrj' | hrj'
            · exact hlow q r hq hqn hr hrj'
            · have hreq : r = j := by omega
              have hge := ha.value_le hi hq hqn
              rw [hai] at hlt heq
              rw [hreq]
              omega
          · exact hip
    · have hno : ¬ (i ≤ n ∧ j ≤ m) := fun h => hjm' h.2
      rw [if_neg hno, if_pos hin]
      apply hgive 0
      left
      exact ⟨rfl, fun q hq hqm => Int.ne_of_lt (hlow i q (Nat.le_refl i) hin hq (by omega))⟩

/-- The rest of a class in the array member. -/
theorem classLoop_spec {b : Arr Line} {m : Nat} (hend : ∀ q, 1 ≤ q → q ≤ m →
      (b q).value ≠ (b (m + 1)).value) (fuel j : Nat) (c : Arr Int) (hj : 1 ≤ j) (hjm : j ≤ m)
    (hfuel : m - j < fuel) :
    ∃ j' c', classLoop b fuel j c = (j', c') ∧ j ≤ j' ∧ j' ≤ m ∧
      (b (j' + 1)).value ≠ (b j').value ∧
      (∀ p, j < p → p ≤ j' → (b p).value = (b (p - 1)).value ∧ c' p = (b p).serial) ∧
      ∀ p, p ≤ j ∨ j' < p → c' p = c p := by
  induction fuel generalizing j c with
  | zero => omega
  | succ fuel ih =>
    rw [classLoop]
    by_cases heq : (b (j + 1)).value = (b j).value
    · have hlt : j < m := by
        rcases Nat.lt_or_eq_of_le hjm with hlt | hjm'
        · exact hlt
        · rw [hjm'] at heq
          exact absurd heq.symm (hend m (by omega) (Nat.le_refl m))
      obtain ⟨j', c', hrun, hle, hm, hne, hin, hout⟩ :=
        ih (j + 1) (put c (j + 1) (b (j + 1)).serial) (by omega) (by omega) (by omega)
      rw [if_pos heq]
      refine ⟨j', c', hrun, by omega, hm, hne, ?_, ?_⟩
      · intro p hjp hpj'
        by_cases hp : p = j + 1
        · rw [hp, hout (j + 1) (Or.inl (Nat.le_refl _)), put_self]
          exact ⟨heq, rfl⟩
        · exact hin p (by omega) hpj'
      · intro p hp
        rw [hout p (by omega), put_ne _ _ (by omega)]
    · rw [if_neg heq]
      exact ⟨j, c, rfl, Nat.le_refl j, hjm, heq, fun p h₁ h₂ => by omega, fun p _ => rfl⟩

/-- The first of a class is flagged. -/
theorem memberLoop_spec {b : Arr Line} {m : Nat} (hend : ∀ q, 1 ≤ q → q ≤ m →
      (b q).value ≠ (b (m + 1)).value) (fuel j : Nat) (c : Arr Int) (hjm : j ≤ m)
    (hfuel : m - j < fuel) (hfirst : j = 0 ∨ (b (j + 1)).value ≠ (b j).value) :
    memberLoop b m fuel j c (m + 1) = -1 ∧
    (∀ p, p ≤ j → memberLoop b m fuel j c p = c p) ∧
    ∀ p, j < p → p ≤ m → memberLoop b m fuel j c p =
      if p = 1 ∨ (b p).value ≠ (b (p - 1)).value then -((b p).serial : Int) else (b p).serial := by
  induction fuel generalizing j c with
  | zero => omega
  | succ fuel ih =>
    rw [memberLoop]
    by_cases hj : j + 1 ≤ m
    · obtain ⟨j', c', hrun, hle, hm, hne, hin, hout⟩ :=
        classLoop_spec hend m (j + 1) (put c (j + 1) (-(b (j + 1)).serial)) (by omega) hj (by omega)
      obtain ⟨hlast, hlow, hrest⟩ := ih j' c' hm (by omega) (Or.inr hne)
      rw [if_pos hj, hrun]
      refine ⟨hlast, ?_, ?_⟩
      · intro p hp
        change memberLoop b m fuel j' c' p = c p
        rw [hlow p (by omega), hout p (by omega), put_ne _ _ (by omega)]
      · intro p hjp hpm
        change memberLoop b m fuel j' c' p = _
        rcases Nat.lt_trichotomy p (j + 1) with hlt | heq | hgt
        · omega
        · have hflag : p = 1 ∨ (b p).value ≠ (b (p - 1)).value := by
            rcases hfirst with hz | hne'
            · left
              omega
            · right
              rw [heq]
              exact hne'
          rw [if_pos hflag, hlow p (by omega), hout p (Or.inl (by omega)), heq, put_self]
        · rcases Nat.lt_or_ge j' p with hj' | hj'
          · exact hrest p hj' hpm
          · obtain ⟨hval, hser⟩ := hin p hgt hj'
            have hno : ¬ (p = 1 ∨ (b p).value ≠ (b (p - 1)).value) := by
              rw [not_or]
              exact ⟨by omega, not_not_intro hval⟩
            rw [if_neg hno, hlow p hj', hser]
    · have hjm' : j = m := by omega
      subst hjm'
      rw [if_neg hj]
      refine ⟨put_self _ _ _, ?_, fun p h₁ h₂ => by omega⟩
      intro p hp
      rw [put_ne _ _ (by omega)]

/-! What stone reads: class and member. -/

/-- From `j` on the array has these members, and then the next class. -/
def Feeds (c : Arr Int) : Nat → List Nat → Prop
  | j, [] => ¬ c (j + 1) > 0
  | j, y :: ys => c (j + 1) = (y : Int) ∧ 0 < y ∧ Feeds c (j + 1) ys

theorem Table.value {l : List Int} {n : Nat} {σ : Equiv.Perm Nat} {a : Arr Line}
    (h : Table l n σ a) (p : Nat) : (a p).value = values l (σ p) := by
  rw [h.line]

theorem Table.serial {l : List Int} {n : Nat} {σ : Equiv.Perm Nat} {a : Arr Line}
    (h : Table l n σ a) (p : Nat) : (a p).serial = σ p := by
  rw [h.line]

/-- Lines of one value are in the order of the file. -/
theorem Table.serial_lt {l : List Int} {n : Nat} {σ : Equiv.Perm Nat} {a : Arr Line}
    (h : Table l n σ a) {p q : Nat} (hp : 1 ≤ p) (hpq : p < q) (hq : q ≤ n)
    (hv : (a q).value = (a p).value) : (a p).serial < (a q).serial := by
  have hle := h.sorted p q hp hpq hq
  have hne : (a p).serial ≠ (a q).serial := by
    rw [h.serial, h.serial]
    intro heq
    have hpq' := σ.injective heq
    omega
  unfold Line.le at hle
  omega

/- The array member of a sorted table. -/
def Flagged (b : Arr Line) (m : Nat) (c : Arr Int) : Prop :=
  c (m + 1) = -1 ∧ ∀ p, 1 ≤ p → p ≤ m → c p =
    if p = 1 ∨ (b p).value ≠ (b (p - 1)).value then -((b p).serial : Int) else (b p).serial

theorem feeds_rest {l : List Int} {m : Nat} {τ : Equiv.Perm Nat} {b : Arr Line} {c : Arr Int}
    (h : Table l m τ b) (hc : Flagged b m c) (d p : Nat) (hd : m - p ≤ d) (hp : 1 ≤ p)
    (hpm : p ≤ m) :
    ∃ ys, Feeds c p ys ∧ ys.length ≤ m - p ∧ ((b p).serial :: ys).Pairwise (· < ·) ∧
      ∀ z, z ∈ ys ↔ ∃ q, p < q ∧ q ≤ m ∧ (b q).value = (b p).value ∧ (b q).serial = z := by
  have hpos : ∀ q, 1 ≤ q → q ≤ m → 0 < (b q).serial := by
    intro q hq hqm
    rw [h.serial]
    exact ((h.inside q).mp ⟨hq, hqm⟩).1
  induction d generalizing p with
  | zero =>
    have hpm' : p = m := by omega
    refine ⟨[], ?_, Nat.zero_le _, List.pairwise_singleton _ _, ?_⟩
    · rw [hpm', Feeds, hc.1]
      decide
    · intro z
      constructor
      · exact fun hz => absurd hz (List.not_mem_nil)
      · rintro ⟨q, hpq, hqm, -⟩
        omega
  | succ d ih =>
    by_cases hnext : p + 1 ≤ m ∧ (b (p + 1)).value = (b p).value
    · obtain ⟨hp1, hv⟩ := hnext
      obtain ⟨ys, hfeeds, hlen, hsorted, hmem⟩ := ih (p + 1) (by omega) (by omega) hp1
      have hlt := h.serial_lt hp (Nat.lt_succ_self p) hp1 hv
      have hplain : c (p + 1) = ((b (p + 1)).serial : Int) := by
        rw [hc.2 (p + 1) (by omega) hp1, if_neg]
        rw [not_or]
        exact ⟨by omega, not_not_intro hv⟩
      refine ⟨(b (p + 1)).serial :: ys, ⟨hplain, hpos (p + 1) (by omega) hp1, hfeeds⟩, ?_, ?_, ?_⟩
      · rw [List.length_cons]
        omega
      · apply List.pairwise_cons.mpr
        refine ⟨?_, hsorted⟩
        intro z hz
        rcases List.mem_cons.mp hz with rfl | hz
        · exact hlt
        · exact Nat.lt_trans hlt ((List.pairwise_cons.mp hsorted).1 z hz)
      · intro z
        rw [List.mem_cons, hmem]
        constructor
        · rintro (rfl | ⟨q, hpq, hqm, hqv, hqz⟩)
          · exact ⟨p + 1, Nat.lt_succ_self p, hp1, hv, rfl⟩
          · exact ⟨q, by omega, hqm, hqv.trans hv, hqz⟩
        · rintro ⟨q, hpq, hqm, hqv, hqz⟩
          by_cases hq : q = p + 1
          · left
            rw [← hqz, hq]
          · right
            exact ⟨q, by omega, hqm, hqv.trans hv.symm, hqz⟩
    · refine ⟨[], ?_, Nat.zero_le _, List.pairwise_singleton _ _, ?_⟩
      · rw [Feeds]
        by_cases hp1 : p + 1 ≤ m
        · have hv : (b (p + 1)).value ≠ (b p).value := fun hv => hnext ⟨hp1, hv⟩
          rw [hc.2 (p + 1) (by omega) hp1, Nat.add_sub_cancel, if_pos (Or.inr hv)]
          have hser := hpos (p + 1) (by omega) hp1
          omega
        · have hpm' : p = m := by omega
          rw [hpm', hc.1]
          decide
      · intro z
        constructor
        · exact fun hz => absurd hz (List.not_mem_nil)
        · rintro ⟨q, hpq, hqm, hqv, -⟩
          have hv : (b (p + 1)).value ≠ (b p).value := fun hv => hnext ⟨by omega, hv⟩
          have h₁ := h.sorted.value_le hp (Nat.le_add_right p 1) (by omega)
          have h₂ := h.sorted.value_le (Nat.le_add_left 1 p) hpq hqm
          omega

/-- A class is all the lines with its value, in the order of the file. -/
theorem feeds_class {l : List Int} {m : Nat} {τ : Equiv.Perm Nat} {b : Arr Line} {c : Arr Int}
    (h : Table l m τ b) (hc : Flagged b m c) {v : Int} {j : Nat} (hj : IsClass b m v j)
    (hne : j ≠ 0) :
    ∃ (y : Nat) (ys : List Nat), c j = -(y : Int) ∧ Feeds c j ys ∧ ys.length < m ∧ (y :: ys).Pairwise (· < ·) ∧
      ∀ z, z ∈ y :: ys ↔ (1 ≤ z ∧ z ≤ m) ∧ values l z = v := by
  rcases hj with ⟨hz, -⟩ | ⟨hj1, hjm, hjv, hlow⟩
  · exact absurd hz hne
  · obtain ⟨ys, hfeeds, hlen, hsorted, hmem⟩ := feeds_rest h hc (m - j) j (Nat.le_refl _) hj1 hjm
    refine ⟨(b j).serial, ys, ?_, hfeeds, by omega, hsorted, ?_⟩
    · rw [hc.2 j hj1 hjm, if_pos]
      by_cases hone : j = 1
      · exact Or.inl hone
      · right
        have hlt := hlow (j - 1) (by omega) (by omega)
        omega
    · intro z
      rw [List.mem_cons, hmem]
      constructor
      · rintro (rfl | ⟨q, hjq, hqm, hqv, rfl⟩)
        · refine ⟨?_, ?_⟩
          · rw [h.serial]
            exact (h.inside j).mp ⟨hj1, hjm⟩
          · rw [h.serial, ← h.value, hjv]
        · refine ⟨?_, ?_⟩
          · rw [h.serial]
            exact (h.inside q).mp ⟨by omega, hqm⟩
          · rw [h.serial, ← h.value, hqv, hjv]
      · rintro ⟨hz, hzv⟩
        have hτ : τ (τ.symm z) = z := τ.apply_symm_apply z
        have hin : 1 ≤ τ.symm z ∧ τ.symm z ≤ m := by
          rw [h.inside, hτ]
          exact hz
        have hval : (b (τ.symm z)).value = v := by
          rw [h.value, hτ, hzv]
        have hser : (b (τ.symm z)).serial = z := by
          rw [h.serial, hτ]
        rcases Nat.lt_trichotomy (τ.symm z) j with hlt | heq | hgt
        · have hval' := hlow (τ.symm z) hin.1 hlt
          omega
        · left
          rw [← hser, heq]
        · right
          exact ⟨τ.symm z, hgt, hin.2, hval.trans hjv.symm, hser⟩

theorem unsort_apply {f : Arr Line} (n : Nat)
    (hinj : ∀ p q, 1 ≤ p → p ≤ n → 1 ≤ q → q ≤ n → (f p).serial = (f q).serial → p = q) {p : Nat}
    (hp : 1 ≤ p) (hpn : p ≤ n) : unsort f n (f p).serial = (f p).value := by
  induction n with
  | zero => omega
  | succ n ih =>
    rw [unsort]
    by_cases heq : p = n + 1
    · rw [heq, put_self]
    · have hne : (f p).serial ≠ (f (n + 1)).serial := by
        intro hser
        exact heq (hinj p (n + 1) hp hpn (Nat.succ_pos n) (Nat.le_refl _) hser)
      rw [put_ne _ _ hne]
      exact ih (fun p q hp hpn hq hqn => hinj p q hp (by omega) hq (by omega)) (by omega)

/-- The mates of every line: no class, or the lines of the other file with its value. -/
theorem equiv_spec {l l' : List Int} {n m : Nat} {σ τ : Equiv.Perm Nat} {a b : Arr Line}
    (ha : Table l n σ a) (hb : Table l' m τ b) (hne : ∀ q, 1 ≤ q → q ≤ m → values l' q ≠ 0) {i : Nat}
    (hi : 1 ≤ i) (hin : i ≤ n) :
    ∃ j : Nat, unsort (equiv a n b m).1 n i = j ∧
      (j = 0 ∧ (∀ z, 1 ≤ z → z ≤ m → values l' z ≠ values l i) ∨
        j ≠ 0 ∧ ∃ (y : Nat) (ys : List Nat), (equiv a n b m).2 j = -(y : Int) ∧ Feeds (equiv a n b m).2 j ys ∧
          ys.length < m ∧ (y :: ys).Pairwise (· < ·) ∧
          ∀ z, z ∈ y :: ys ↔ (1 ≤ z ∧ z ≤ m) ∧ values l' z = values l i) := by
  have hσ : σ (σ.symm i) = i := σ.apply_symm_apply i
  have hpin : 1 ≤ σ.symm i ∧ σ.symm i ≤ n := by
    rw [ha.inside, hσ]
    exact ⟨hi, hin⟩
  have hline : ∀ p, 1 ≤ p → p ≤ n → ∃ c : Nat, (equiv a n b m).1 p = ⟨(a p).serial, c⟩ ∧
      IsClass b m (a p).value c := by
    intro p hp hpn
    exact equivLoop_spec ha.sorted hb.sorted (n + m + 1) 1 1 a (Nat.le_refl 1) (Nat.le_refl 1)
      (by omega) (by omega) (fun _ _ => rfl) (fun _ _ _ _ _ _ => by omega) hp hpn
  obtain ⟨j, hj, hclass⟩ := hline (σ.symm i) hpin.1 hpin.2
  have hval : (a (σ.symm i)).value = values l i := by
    rw [ha.value, hσ]
  have hun : unsort (equiv a n b m).1 n i = j := by
    have happ := @unsort_apply (equiv a n b m).1 n ?_ (σ.symm i) hpin.1 hpin.2
    · rw [hj] at happ
      change unsort (equiv a n b m).1 n (a (σ.symm i)).serial = j at happ
      rw [ha.serial, hσ] at happ
      exact happ
    · intro p q hp hpn hq hqn hser
      obtain ⟨c, hc, -⟩ := hline p hp hpn
      obtain ⟨d, hd, -⟩ := hline q hq hqn
      rw [hc, hd] at hser
      change (a p).serial = (a q).serial at hser
      rw [ha.serial, ha.serial] at hser
      exact σ.injective hser
  rw [hval] at hclass
  have hflag : Flagged b m (equiv a n b m).2 := by
    have hsame : ∀ q, q ≤ m → put b (m + 1) { b (m + 1) with value := 0 } q = b q :=
      fun q hq => put_ne _ _ (by omega)
    have hend : ∀ q, 1 ≤ q → q ≤ m → (put b (m + 1) { b (m + 1) with value := 0 } q).value ≠
        (put b (m + 1) { b (m + 1) with value := 0 } (m + 1)).value := by
      intro q hq hqm
      have hin' := (hb.inside q).mp ⟨hq, hqm⟩
      rw [hsame q hqm, put_self, hb.value]
      exact hne (τ q) hin'.1 hin'.2
    obtain ⟨hlast, -, hmem⟩ := memberLoop_spec hend (m + 1) 0 ⟨fun _ => 0⟩ (Nat.zero_le m)
      (by omega) (Or.inl rfl)
    refine ⟨hlast, ?_⟩
    intro p hp hpm
    have hspec := hmem p hp hpm
    rw [hsame p hpm, hsame (p - 1) (by omega)] at hspec
    exact hspec
  refine ⟨j, hun, ?_⟩
  by_cases hz : j = 0
  · left
    refine ⟨hz, ?_⟩
    intro z hz1 hzm
    rcases hclass with ⟨-, hno⟩ | ⟨hj1, -⟩
    · have hτ : τ (τ.symm z) = z := τ.apply_symm_apply z
      have hin' : 1 ≤ τ.symm z ∧ τ.symm z ≤ m := by
        rw [hb.inside, hτ]
        exact ⟨hz1, hzm⟩
      have hno' := hno (τ.symm z) hin'.1 hin'.2
      rw [hb.value, hτ] at hno'
      exact hno'
    · omega
  · right
    exact ⟨hz, feeds_class hb hflag hclass hz⟩

end Svr32.Diff
