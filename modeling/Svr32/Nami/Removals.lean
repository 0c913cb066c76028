import Svr32.Nami.Calls

/-! NI_DEL and NI_RMDIR keep the invariant, the latter for a directory with one name in the tree. -/
namespace Svr32.Nami
open Errno ( EIO)
variable {m : Mount} {env : Env} {s t : State} {dp dip i j off : Nat} {nm : List Nat}

/-- An entry is cleared: what it named has one link too many. -/
theorem Off.clear {δ : Nat → Int} (h : Off m δ s) (hl : Linked s dp) (hc : 0 < s.count dp)
    (off : Nat) (name : List Nat) :
    Off m (fun j => δ j + if j = (s.dir dp off).ino then 1 else 0) (s.enter dp off ⟨0, name⟩) := by
  refine (h.enter hl hc (fun h0 => absurd rfl h0) fun h0 => absurd rfl h0).congr fun j hj => ?_
  rw [if_neg hj.symm, Int.sub_zero]
  simp only [eq_comm]

/-- How many entries name an inode, when it is those of one name. -/
theorem within_named (h : Off m (fun _ => 0) s) (hf : (s.core i).ftype = IFDIR) (hj : j ≠ 0)
    {flag : Bool} (hflag : flag = true ↔ Present nm (s.dir i) 0 (s.core i).size)
    (hnm : ∀ k < (s.core i).size, (s.dir i k).ino ≠ 0 → ((s.dir i k).ino = j ↔ (s.dir i k).name = nm)) :
    within s i j = if flag = true then 1 else 0 := by
  have hmem : ∀ k, (k < (s.core i).size ∧ (s.dir i k).ino = j) ↔
      (k < (s.core i).size ∧ (s.dir i k).ino ≠ 0 ∧ (s.dir i k).name = nm) := by
    intro k
    refine ⟨fun ⟨h1, h2⟩ => ?_, fun ⟨h1, h2, h3⟩ => ⟨h1, (hnm k h1 h2).mpr h3⟩⟩
    have h3 : (s.dir i k).ino ≠ 0 := fun h0 => hj (h2.symm.trans h0)
    exact ⟨h1, h3, (hnm k h1 h3).mp h2⟩
  rw [within]
  split
  · rename_i hp
    obtain ⟨k, -, hk, hino, hname⟩ := hflag.mp hp
    rw [Nat.zero_add] at hk
    refine Finset.card_eq_one.mpr ⟨k, ?_⟩
    ext l
    rw [Finset.mem_filter, Finset.mem_range, Finset.mem_singleton, hmem]
    constructor
    · rintro ⟨h1, h2, h3⟩
      exact h.unique i hf l k h1 hk h2 hino (h3.trans hname.symm)
    · rintro rfl
      exact ⟨hk, hino, hname⟩
  · rename_i hp
    refine Finset.card_eq_zero.mpr (Finset.filter_eq_empty_iff.mpr fun k hk hkj => hp (hflag.mpr ?_))
    obtain ⟨h1, h2, h3⟩ := (hmem k).mp ⟨Finset.mem_range.mp hk, hkj⟩
    exact ⟨k, Nat.zero_le k, by omega, h2, h3⟩

/- The directory `dip` has no other name than its entry in `dp` and its own ".", and its ".." names
`dp`, which keeps a name when that is gone; or there is nothing in it at all. -/
def Lone (m : Mount) (s : State) (dp dip : Nat) : Prop :=
  (∀ k < (s.core dip).size, (s.dir dip k).ino = 0) ∨
  names m s dip = 1 + within s dip dip ∧
    ∀ k < (s.core dip).size, (s.dir dip k).ino ≠ 0 →
      ((s.dir dip k).name = [46] → (s.dir dip k).ino = dip) ∧
      ((s.dir dip k).name = [46, 46] → (s.dir dip k).ino = dp ∧ 1 < (s.core dp).nlink)

/-- What the entries of such a directory name, if they are just "." and "..". -/
theorem Lone.within (h : Lone m s dp dip) (hoff : Off m (fun _ => 0) s)
    (hf : (s.core dip).ftype = IFDIR) (hne : dip ≠ dp) {flag : Bool × Bool}
    (hd : Dots (s.dir dip) 0 (s.core dip).size (false, false) flag) (hj : j ≠ 0) :
    Nami.within s dip j = (if j = dip ∧ flag.1 = true then 1 else 0) +
      if j = dp ∧ flag.2 = true then 1 else 0 := by
  obtain ⟨hnames, h1, h2⟩ := hd
  simp only [Nat.zero_add, Bool.false_eq_true, false_or] at hnames h1 h2
  rcases h with h0 | ⟨-, h0⟩
  · have hno : ∀ nm, ¬ Present nm (s.dir dip) 0 (s.core dip).size := by
      rintro nm ⟨k, -, hk, hino, -⟩
      exact hino (h0 k (by omega))
    rw [if_neg fun h => hno _ (h1.mp h.2), if_neg fun h => hno _ (h2.mp h.2), Nami.within]
    refine Finset.card_eq_zero.mpr (Finset.filter_eq_empty_iff.mpr fun k hk hkj => hj ?_)
    exact hkj.symm.trans (h0 k (Finset.mem_range.mp hk))
  · have hdots : ∀ k < (s.core dip).size, (s.dir dip k).ino ≠ 0 →
        ((s.dir dip k).name = [46] ∧ (s.dir dip k).ino = dip) ∨
        ((s.dir dip k).name = [46, 46] ∧ (s.dir dip k).ino = dp) := by
      intro k hk hino
      rcases hnames k (Nat.zero_le k) hk hino with h3 | h3
      · exact .inl ⟨h3, (h0 k hk hino).1 h3⟩
      · exact .inr ⟨h3, ((h0 k hk hino).2 h3).1⟩
    by_cases hjd : j = dip
    · subst hjd
      rw [within_named hoff hf hj h1]
      · simp only [true_and, hne, false_and, if_false, Nat.add_zero]
      · intro k hk hino
        rcases hdots k hk hino with ⟨h3, h4⟩ | ⟨h3, h4⟩
        · exact iff_of_true h4 h3
        · exact iff_of_false (by rw [h4]; exact hne.symm) (by rw [h3]; decide)
    · rw [if_neg fun h => hjd h.1, Nat.zero_add]
      by_cases hjp : j = dp
      · subst hjp
        rw [within_named hoff hf hj h2]
        · simp only [true_and]
        · intro k hk hino
          rcases hdots k hk hino with ⟨h3, h4⟩ | ⟨h3, h4⟩
          · exact iff_of_false (by rw [h4]; exact hne) (by rw [h3]; decide)
          · exact iff_of_true h4 h3
      · rw [if_neg fun h => hjp h.1, Nami.within]
        refine Finset.card_eq_zero.mpr (Finset.filter_eq_empty_iff.mpr fun k hk hkj => ?_)
        have hk' := Finset.mem_range.mp hk
        rcases hdots k hk' (fun h0 => hj (hkj.symm.trans h0)) with ⟨-, h4⟩ | ⟨-, h4⟩
        · exact hjd (hkj.symm.trans h4)
        · exact hjp (hkj.symm.trans h4)

end Svr32.Nami
