import Svr32.Nami.Code
import Svr32.Lib.Count
import Mathlib.Algebra.Order.BigOperators.Group.Finset

/-! How many entries name an inode, and how the number moves with each change of a directory. -/
namespace Svr32.Nami
variable {m : Mount} {s s' : State} {d i x off : Nat} {name : List Nat}

/- A directory that has a name. What is left in one that has none is out of the tree. -/
def Linked (s : State) (d : Nat) : Prop := (s.core d).ftype = IFDIR ∧ 0 < (s.core d).nlink

instance : DecidablePred (Linked s) := fun d =>
  inferInstanceAs (Decidable ((s.core d).ftype = IFDIR ∧ 0 < (s.core d).nlink))

/- The entries of a directory that name the inode. -/
def within (s : State) (d i : Nat) : Nat :=
  ((Finset.range (s.core d).size).filter fun k => (s.dir d k).ino = i).card

def entries (s : State) (d i : Nat) : Nat := if Linked s d then within s d i else 0

/- How many directory entries name the inode. -/
def names (m : Mount) (s : State) (i : Nat) : Nat :=
  ∑ d ∈ Finset.range m.ninode, entries s d i

theorem entries_congr (hl : Linked s' d ↔ Linked s d)
    (h : Linked s d → (s'.core d).size = (s.core d).size ∧ s'.dir d = s.dir d) :
    entries s' d i = entries s d i := by
  by_cases hd : Linked s d
  · obtain ⟨h1, h2⟩ := h hd
    rw [entries, entries, if_pos hd, if_pos (hl.mpr hd), within, within, h1, h2]
  · rw [entries, entries, if_neg hd, if_neg (mt hl.mp hd)]

/-- What is said of the entries of each directory is said of the names. -/
theorem names_congr (h : ∀ d, entries s' d i = entries s d i) : names m s' i = names m s i :=
  Finset.sum_congr rfl fun d _ => h d

/-- Just one directory changes. -/
theorem names_change (hd : d < m.ninode) (h : ∀ e, e ≠ d → entries s' e i = entries s e i) :
    names m s' i + entries s d i = names m s i + entries s' d i :=
  Lib.sum_change (Finset.mem_range.mpr hd) fun e _ he => h e he

/-- An entry is replaced, at the end of the directory at most. -/
theorem within_write {e : Direct} (hi : i ≠ 0)
    (hbeyond : ∀ k, (s.core d).size ≤ k → (s.dir d k).ino = 0)
    (hsize : (s'.core d).size = max (s.core d).size (off + 1))
    (hdir : s'.dir d = Function.update (s.dir d) off e) :
    within s' d i + (if (s.dir d off).ino = i then 1 else 0) =
      within s d i + (if e.ino = i then 1 else 0) := by
  have hgrow : within s d i =
      ((Finset.range (max (s.core d).size (off + 1))).filter fun k => (s.dir d k).ino = i).card := by
    rw [within]
    congr 1
    ext k
    simp only [Finset.mem_filter, Finset.mem_range]
    refine ⟨fun h => ⟨by omega, h.2⟩, fun h => ⟨?_, h.2⟩⟩
    by_contra hk
    exact hi (h.2.symm.trans (hbeyond k (by omega)))
  have hoff : off ∈ Finset.range (max (s.core d).size (off + 1)) := by
    rw [Finset.mem_range]
    omega
  rw [hgrow, within, hsize, hdir]
  have h := @Lib.card_filter_change _ _ _ (fun k => (s.dir d k).ino = i)
    (fun k => (Function.update (s.dir d) off e k).ino = i) _ _ _ hoff fun k _ hk => by
      rw [Function.update_of_ne hk]
  simpa using h

end Svr32.Nami

/-! The invariant of the file system, with link counts that are off by `δ` in the middle of an
operation, and what each part of an operation does to it. -/
namespace Svr32.Nami
variable {m : Mount} {s s' : State} {δ δ' : Nat → Int} {d i off : Nat} {bad : Bool}

structure Off (m : Mount) (δ : Nat → Int) (s : State) : Prop where
  range : ∀ i, (s.core i).mode ≠ 0 → 0 < i ∧ i < m.ninode
  links : ∀ i, (s.core i).mode ≠ 0 → (s.core i).nlink = names m s i + δ i
  free : ∀ i, i ≠ 0 → (s.core i).mode = 0 → names m s i = 0
  idle : ∀ i, (s.core i).mode = 0 → s.count i = 0
  used : ∀ i, 0 ≤ s.count i
  unnamed : ∀ i, (s.core i).mode ≠ 0 → (s.core i).nlink ≤ 0 → 0 < s.count i
  unique : ∀ d, (s.core d).ftype = IFDIR → ∀ k l, k < (s.core d).size → l < (s.core d).size →
    (s.dir d k).ino ≠ 0 → (s.dir d l).ino ≠ 0 → (s.dir d k).name = (s.dir d l).name → k = l
  beyond : ∀ d, (s.core d).ftype = IFDIR → ∀ k, (s.core d).size ≤ k → (s.dir d k).ino = 0
  saved : ∀ i, s.count i = 0 → s.disk i = s.core i ∨ ((s.disk i).mode = 0 ∧ (s.core i).mode = 0)

theorem mode_of_ftype {x : Inode} (h : x.ftype = IFDIR) : x.mode ≠ 0 := by
  intro h0
  rw [Inode.ftype, h0] at h
  exact absurd h (by decide)

theorem Off.congr (h : Off m δ s) (hδ : ∀ i, i ≠ 0 → δ' i = δ i) : Off m δ' s :=
  have hlinks : ∀ i, (s.core i).mode ≠ 0 → (s.core i).nlink = names m s i + δ' i := fun i hi => by
    rw [hδ i (Nat.pos_iff_ne_zero.mp (h.range i hi).1)]
    exact h.links i hi
  ⟨h.range, hlinks, h.free, h.idle, h.used, h.unnamed, h.unique, h.beyond, h.saved⟩

/-- Changes that leave the directories, the modes and the counts of links alone. -/
theorem Off.frame (h : Off m δ s) (hcore : s'.core = s.core) (hdir : s'.dir = s.dir)
    (hidle : ∀ i, (s.core i).mode = 0 → s'.count i = 0) (hused : ∀ i, 0 ≤ s'.count i)
    (hun : ∀ i, (s.core i).mode ≠ 0 → (s.core i).nlink ≤ 0 → 0 < s'.count i)
    (hsaved : ∀ i, s'.count i = 0 →
      s'.disk i = s.core i ∨ ((s'.disk i).mode = 0 ∧ (s.core i).mode = 0)) : Off m δ s' := by
  have hn : ∀ i, names m s' i = names m s i := fun i => names_congr fun d =>
    entries_congr (by rw [Linked, Linked, hcore]) fun _ => ⟨by rw [hcore], by rw [hdir]⟩
  refine ⟨?_, ?_, ?_, ?_, hused, ?_, ?_, ?_, ?_⟩
  · rw [hcore]
    exact h.range
  · intro i
    rw [hcore, hn]
    exact h.links i
  · intro i
    rw [hcore, hn]
    exact h.free i
  · rw [hcore]
    exact hidle
  · rw [hcore]
    exact hun
  · rw [hcore, hdir]
    exact h.unique
  · rw [hcore, hdir]
    exact h.beyond
  · rw [hcore]
    exact hsaved

theorem Off.error (h : Off m δ s) (e : Option Errno) : Off m δ { s with err := e } :=
  h.frame rfl rfl h.idle h.used h.unnamed h.saved

theorem Off.setCount (h : Off m δ s) {c : Int} (ha : (s.core i).mode ≠ 0) (hc : 0 < c) :
    Off m δ (s.setCount i c) := by
  have hcount : ∀ j, j ≠ i → (s.setCount i c).count j = s.count j := fun j hj =>
    Function.update_of_ne hj ..
  have hself : (s.setCount i c).count i = c := Function.update_self ..
  refine h.frame rfl rfl ?_ ?_ ?_ ?_
  · intro j hj
    rw [hcount j (fun e => ha (e ▸ hj))]
    exact h.idle j hj
  · intro j
    by_cases hji : j = i
    · rw [hji, hself]
      omega
    · rw [hcount j hji]
      exact h.used j
  · intro j hj hn
    by_cases hji : j = i
    · rw [hji, hself]
      exact hc
    · rw [hcount j hji]
      exact h.unnamed j hj hn
  · intro j hj
    have hji : j ≠ i := by
      rintro rfl
      rw [hself] at hj
      omega
    rw [hcount j hji] at hj
    exact h.saved j hj

theorem Off.iget (h : Off m δ s) (ha : (s.core i).mode ≠ 0) : Off m δ (iget i s) := by
  have := h.used i
  exact h.setCount ha (by omega)

theorem not_linked_of_mode (h : (s.core d).mode = 0) : ¬ Linked s d := fun hl =>
  mode_of_ftype hl.1 h

/-- An inode that nothing names any more is freed. -/
theorem Off.gone (h : Off m δ s) {x : Inode} (ha : (s.core i).mode ≠ 0)
    (hn : (s.core i).nlink ≤ 0) (hδ : δ i = 0) (hx : x.mode = 0)
    (hcore : s'.core = Function.update s.core i x) (hdir : ∀ j, j ≠ i → s'.dir j = s.dir j)
    (hcount : s'.count = Function.update s.count i 0) (hdisk : ∀ j, j ≠ i → s'.disk j = s.disk j)
    (hself : s'.disk i = x ∨ (s'.disk i).mode = 0) : Off m δ s' := by
  have hi : s'.core i = x := by rw [hcore, Function.update_self]
  have hj : ∀ j, j ≠ i → s'.core j = s.core j := fun j hj => by
    rw [hcore, Function.update_of_ne hj]
  have hci : s'.count i = 0 := by rw [hcount, Function.update_self]
  have hcj : ∀ j, j ≠ i → s'.count j = s.count j := fun j hj => by
    rw [hcount, Function.update_of_ne hj]
  have hnames : ∀ k, names m s' k = names m s k := fun k => names_congr fun d => by
    by_cases hd : d = i
    · have h1 : ¬ Linked s' d := not_linked_of_mode (by rw [hd, hi, hx])
      have h2 : ¬ Linked s d := fun hl => absurd hl.2 (by rw [hd]; omega)
      rw [entries, entries, if_neg h1, if_neg h2]
    · exact entries_congr (by rw [Linked, Linked, hj d hd])
        fun _ => ⟨by rw [hj d hd], hdir d hd⟩
  have hzero : names m s i = 0 := by
    have := h.links i ha
    omega
  have hne : ∀ j, (s'.core j).mode ≠ 0 → j ≠ i := by
    rintro j hm rfl
    exact hm (by rw [hi, hx])
  have hned : ∀ j, (s'.core j).ftype = IFDIR → j ≠ i := fun j hf => hne j (mode_of_ftype hf)
  refine ⟨?_, ?_, ?_, ?_, ?_, ?_, ?_, ?_, ?_⟩
  · intro j hm
    rw [hj j (hne j hm)] at hm
    exact h.range j hm
  · intro j hm
    have hji := hne j hm
    rw [hj j hji] at hm ⊢
    rw [hnames]
    exact h.links j hm
  · intro j h0 hm
    rw [hnames]
    by_cases hji : j = i
    · rw [hji, hzero]
    · rw [hj j hji] at hm
      exact h.free j h0 hm
  · intro j hm
    by_cases hji : j = i
    · rw [hji, hci]
    · rw [hj j hji] at hm
      rw [hcj j hji]
      exact h.idle j hm
  · intro j
    by_cases hji : j = i
    · rw [hji, hci]
    · rw [hcj j hji]
      exact h.used j
  · intro j hm hnl
    have hji := hne j hm
    rw [hj j hji] at hm hnl
    rw [hcj j hji]
    exact h.unnamed j hm hnl
  · intro d hf
    have hd := hned d hf
    rw [hj d hd] at hf ⊢
    rw [hdir d hd]
    exact h.unique d hf
  · intro d hf
    have hd := hned d hf
    rw [hj d hd] at hf ⊢
    rw [hdir d hd]
    exact h.beyond d hf
  · intro j hc
    by_cases hji : j = i
    · rw [hji, hi]
      exact hself.imp id fun h0 => ⟨h0, hx⟩
    · rw [hcj j hji] at hc
      rw [hj j hji, hdisk j hji]
      exact h.saved j hc

/- What iput does to an inode without links. -/
theorem s5iput_gone (ha : (s.core i).mode ≠ 0) (hn : (s.core i).nlink ≤ 0) :
    ∃ x : Inode, x.mode = 0 ∧ (s5iput bad i s).core = Function.update s.core i x ∧
      (∀ j, j ≠ i → (s5iput bad i s).dir j = s.dir j) ∧ (s5iput bad i s).count = s.count ∧
      (∀ j, j ≠ i → (s5iput bad i s).disk j = s.disk j) ∧
      (s5iput bad i s).disk i = if bad then s.disk i else x := by
  rw [s5iput, if_pos hn]
  have htrunc : ∃ y : Inode, y.mode = (s.core i).mode ∧
      (s5itrunc bad i s).core = Function.update s.core i y ∧
      (∀ j, j ≠ i → (s5itrunc bad i s).dir j = s.dir j) ∧ (s5itrunc bad i s).count = s.count ∧
      (∀ j, j ≠ i → (s5itrunc bad i s).disk j = s.disk j) ∧
      (bad = true → (s5itrunc bad i s).disk i = s.disk i) := by
    rw [s5itrunc]
    split
    · exact ⟨s.core i, rfl, (Function.update_eq_self ..).symm, fun _ _ => rfl, rfl, fun _ _ => rfl,
        fun _ => rfl⟩
    · refine ⟨{ s.core i with size := 0 }, rfl, ?_, ?_, ?_, ?_, ?_⟩
      · cases bad <;> rfl
      · intro j hj
        cases bad <;> exact Function.update_of_ne hj ..
      · cases bad <;> rfl
      · intro j hj
        cases bad
        · exact Function.update_of_ne hj ..
        · rfl
      · rintro rfl
        rfl
  obtain ⟨y, hy, hcore, hdir, hcount, hdisk, hbad⟩ := htrunc
  have hyi : (s5itrunc bad i s).core i = y := by rw [hcore, Function.update_self]
  rw [s5ifree, if_neg (by rw [hyi, hy]; exact ha), hyi]
  refine ⟨{ y with mode := 0 }, rfl, ?_, ?_, ?_, ?_, ?_⟩
  · have : Function.update (s5itrunc bad i s).core i { y with mode := 0 } =
        Function.update s.core i { y with mode := 0 } := by rw [hcore, Function.update_idem]
    cases bad <;> exact this
  · intro j hj
    cases bad <;> exact hdir j hj
  · cases bad <;> exact hcount
  · intro j hj
    cases bad
    · exact (Function.update_of_ne hj ..).trans ((Function.update_of_ne hj ..).trans (hdisk j hj))
    · exact hdisk j hj
  · cases bad
    · refine (Function.update_self ..).trans ?_
      exact Function.update_self ..
    · exact hbad rfl

/-- One user less. The last one writes the inode, and frees it if it has no links. -/
theorem Off.iput (h : Off m δ s) (ha : (s.core i).mode ≠ 0) (hc : 0 < s.count i)
    (hδ : (s.core i).nlink ≤ 0 → δ i = 0)
    (hbad : bad = true → s.count i ≠ 1 ∨ ((s.core i).nlink ≤ 0 ∧ (s.disk i).mode = 0)) :
    Off m δ (iput bad i s) := by
  rw [Nami.iput]
  split
  · rename_i hone
    by_cases hn : (s.core i).nlink ≤ 0
    · obtain ⟨x, hx, hcore, hdir, hcount, hdisk, hself⟩ := @s5iput_gone s i bad ha hn
      refine h.gone ha hn (hδ hn) hx hcore hdir ?_ hdisk ?_
      · change Function.update (s5iput bad i s).count i 0 = _
        rw [hcount]
      · change (s5iput bad i s).disk i = x ∨ ((s5iput bad i s).disk i).mode = 0
        rw [hself]
        cases bad with
        | false => exact .inl rfl
        | true =>
          rcases hbad rfl with h1 | h1
          · exact absurd hone h1
          · exact .inr h1.2
    · have hgood : bad = false := by
        cases bad with
        | false => rfl
        | true => exact ((hbad rfl).elim (fun h1 => h1 hone) fun h1 => hn h1.1).elim
      subst hgood
      rw [s5iput, if_neg hn]
      have hcj : ∀ j, j ≠ i → Function.update s.count i (0 : Int) j = s.count j := fun j hj =>
        Function.update_of_ne hj ..
      refine h.frame rfl rfl ?_ ?_ ?_ ?_
      · intro j hj
        refine (hcj j fun e => ha (e ▸ hj)).trans (h.idle j hj)
      · intro j
        by_cases hji : j = i
        · subst hji
          exact (Function.update_self j (0 : Int) s.count).ge
        · exact (h.used j).trans_eq (hcj j hji).symm
      · intro j hj hnl
        exact (h.unnamed j hj hnl).trans_eq (hcj j fun e => hn (e ▸ hnl)).symm
      · intro j hj
        by_cases hji : j = i
        · subst hji
          exact .inl (Function.update_self ..)
        · have hdisk : ((s5iupdat false i s).setCount i 0).disk j = s.disk j :=
            Function.update_of_ne hji ..
          rw [hdisk]
          exact h.saved j ((hcj j hji).symm.trans hj)
  · have := h.used i
    exact h.setCount ha (by omega)

theorem setNlink_self (i : Nat) (v : Int) (s : State) :
    (s.setNlink i v).core i = { s.core i with nlink := v } := Function.update_self ..

theorem setNlink_ne {j : Nat} (h : j ≠ i) (v : Int) (s : State) :
    (s.setNlink i v).core j = s.core j := Function.update_of_ne h ..

@[simp] theorem mode_setNlink (i j : Nat) (v : Int) (s : State) :
    ((s.setNlink i v).core j).mode = (s.core j).mode := by
  by_cases hji : j = i
  · rw [hji, setNlink_self]
  · rw [setNlink_ne hji]

@[simp] theorem size_setNlink (i j : Nat) (v : Int) (s : State) :
    ((s.setNlink i v).core j).size = (s.core j).size := by
  by_cases hji : j = i
  · rw [hji, setNlink_self]
  · rw [setNlink_ne hji]

@[simp] theorem ftype_setNlink (i j : Nat) (v : Int) (s : State) :
    ((s.setNlink i v).core j).ftype = (s.core j).ftype := by
  rw [Inode.ftype, Inode.ftype, mode_setNlink]

/-- A count of links is set, and `g` says how many names have gone with it. -/
theorem Off.relink (h : Off m δ s) {v : Int} {g : Nat → Nat} (ha : (s.core i).mode ≠ 0)
    (hc : 0 < s.count i) (hn : ∀ j, names m (s.setNlink i v) j + g j = names m s j) :
    Off m (fun j => δ j + g j + if j = i then v - (s.core i).nlink else 0) (s.setNlink i v) := by
  refine ⟨?_, ?_, ?_, ?_, h.used, ?_, ?_, ?_, ?_⟩
  · intro j
    rw [mode_setNlink]
    exact h.range j
  · intro j
    rw [mode_setNlink]
    intro hm
    have h1 := h.links j hm
    have h2 := hn j
    by_cases hji : j = i
    · subst hji
      rw [setNlink_self, if_pos rfl]
      dsimp only
      omega
    · rw [setNlink_ne hji, if_neg hji]
      omega
  · intro j
    rw [mode_setNlink]
    intro h0 hm
    have h1 := h.free j h0 hm
    have h2 := hn j
    omega
  · intro j
    rw [mode_setNlink]
    exact h.idle j
  · intro j
    rw [mode_setNlink]
    intro hm hnl
    by_cases hji : j = i
    · rw [hji]
      exact hc
    · rw [setNlink_ne hji] at hnl
      exact h.unnamed j hm hnl
  · intro d
    rw [ftype_setNlink, size_setNlink]
    exact h.unique d
  · intro d
    rw [ftype_setNlink, size_setNlink]
    exact h.beyond d
  · intro j hcj
    have hji : j ≠ i := by
      rintro rfl
      exact absurd hcj hc.ne'
    rw [setNlink_ne hji]
    exact h.saved j hcj

/-- A count of links moves. A directory stays in the tree, or out of it. -/
theorem Off.setNlink (h : Off m δ s) (c : Int) (ha : (s.core i).mode ≠ 0) (hc : 0 < s.count i)
    (hl : (s.core i).ftype = IFDIR → (0 < (s.core i).nlink + c ↔ 0 < (s.core i).nlink)) :
    Off m (fun j => δ j + if j = i then c else 0) (s.setNlink i ((s.core i).nlink + c)) := by
  have hn : ∀ j, names m (s.setNlink i ((s.core i).nlink + c)) j + 0 = names m s j := fun j =>
    names_congr fun d => entries_congr
      (by
        rw [Linked, Linked, ftype_setNlink]
        by_cases hd : d = i
        · subst hd
          rw [setNlink_self]
          exact and_congr_right hl
        · rw [setNlink_ne hd])
      fun _ => ⟨size_setNlink .., rfl⟩
  refine (h.relink ha hc hn).congr fun j _ => ?_
  split <;> simp

/-- A directory leaves the tree, with the entries in it. -/
theorem Off.unlink (h : Off m δ s) {v : Int} (hl : Linked s i) (hv : v ≤ 0) (hc : 0 < s.count i) :
    Off m (fun j => δ j + within s i j + if j = i then v - (s.core i).nlink else 0)
      (s.setNlink i v) := by
  have ha : (s.core i).mode ≠ 0 := mode_of_ftype hl.1
  refine h.relink ha hc fun j => ?_
  have hout : ¬ Linked (s.setNlink i v) i := fun h' => by
    rw [Linked, setNlink_self] at h'
    exact absurd h'.2 (by dsimp only; omega)
  have hsame : ∀ e, e ≠ i → entries (s.setNlink i v) e j = entries s e j := fun e he =>
    entries_congr (by rw [Linked, Linked, setNlink_ne he]) fun _ => ⟨size_setNlink .., rfl⟩
  have := names_change (s := s) (h.range i ha).2 hsame
  rw [entries, entries, if_pos hl, if_neg hout] at this
  omega

end Svr32.Nami
