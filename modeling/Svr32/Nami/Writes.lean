import Svr32.Nami.Kept

/-! Directory writes and new inodes: what they do to the invariant. -/
namespace Svr32.Nami
open Errno ( EIO)
variable {m : Mount} {s : State} {δ : Nat → Int} {d i off n : Nat} {e : Direct} {bad : Bool}

/- The directory is made longer. -/
def State.grow (d n : Nat) (s : State) : State :=
  s.setInode d { s.core d with size := max (s.core d).size n }

/- An entry is put at its place. -/
def State.enter (d off : Nat) (e : Direct) (s : State) : State :=
  { s.grow d (off + 1) with dir := Function.update s.dir d (Function.update (s.dir d) off e) }

theorem grow_self (d n : Nat) (s : State) :
    (s.grow d n).core d = { s.core d with size := max (s.core d).size n } :=
  Function.update_self ..

theorem grow_ne {j : Nat} (h : j ≠ d) (n : Nat) (s : State) : (s.grow d n).core j = s.core j :=
  Function.update_of_ne h ..

@[simp] theorem mode_grow (d n j : Nat) (s : State) :
    ((s.grow d n).core j).mode = (s.core j).mode := by
  by_cases hj : j = d
  · rw [hj, grow_self]
  · rw [grow_ne hj]

@[simp] theorem nlink_grow (d n j : Nat) (s : State) :
    ((s.grow d n).core j).nlink = (s.core j).nlink := by
  by_cases hj : j = d
  · rw [hj, grow_self]
  · rw [grow_ne hj]

@[simp] theorem ftype_grow (d n j : Nat) (s : State) :
    ((s.grow d n).core j).ftype = (s.core j).ftype := by
  rw [Inode.ftype, Inode.ftype, mode_grow]

theorem linked_grow (d n j : Nat) (s : State) : Linked (s.grow d n) j ↔ Linked s j := by
  rw [Linked, Linked, ftype_grow, nlink_grow]

theorem dir_enter_self (d off : Nat) (e : Direct) (s : State) :
    (s.enter d off e).dir d = Function.update (s.dir d) off e := Function.update_self ..

theorem dir_enter_ne {j : Nat} (h : j ≠ d) (off : Nat) (e : Direct) (s : State) :
    (s.enter d off e).dir j = s.dir j := Function.update_of_ne h ..

theorem Off.grow (h : Off m δ s) (hl : Linked s d) (hc : 0 < s.count d) :
    Off m δ (s.grow d n) := by
  have hn : ∀ j, j ≠ 0 → names m (s.grow d n) j = names m s j := fun j hj => names_congr fun f => by
    by_cases hf : f = d
    · subst hf
      rw [entries, entries, if_pos hl, if_pos ((linked_grow ..).mpr hl), within, within]
      congr 1
      ext k
      simp only [grow_self, Finset.mem_filter, Finset.mem_range]
      change _ ∧ (s.dir f k).ino = j ↔ _
      refine ⟨fun hk => ⟨?_, hk.2⟩, fun hk => ⟨by omega, hk.2⟩⟩
      by_contra hlt
      exact hj (hk.2.symm.trans (h.beyond f hl.1 k (by omega)))
    · exact entries_congr (linked_grow ..) fun _ => ⟨by rw [grow_ne hf], rfl⟩
  refine ⟨?_, ?_, ?_, ?_, h.used, ?_, ?_, ?_, ?_⟩
  · intro j
    rw [mode_grow]
    exact h.range j
  · intro j
    rw [mode_grow, nlink_grow]
    intro hm
    rw [hn j (h.range j hm).1.ne']
    exact h.links j hm
  · intro j
    rw [mode_grow]
    intro h0
    rw [hn j h0]
    exact h.free j h0
  · intro j
    rw [mode_grow]
    exact h.idle j
  · intro j
    rw [mode_grow, nlink_grow]
    exact h.unnamed j
  · intro f
    rw [ftype_grow]
    intro hf k l hk hl' hik hil
    refine h.unique f hf k l ?_ ?_ hik hil
    · by_contra hlt
      exact hik (h.beyond f hf k (by omega))
    · by_contra hlt
      exact hil (h.beyond f hf l (by omega))
  · intro f
    rw [ftype_grow]
    intro hf k hk
    refine h.beyond f hf k (le_trans ?_ hk)
    by_cases hfd : f = d
    · subst hfd
      rw [grow_self]
      exact le_max_left ..
    · rw [grow_ne hfd]
  · intro j hcj
    have hjd : j ≠ d := by
      rintro rfl
      exact absurd hcj hc.ne'
    rw [grow_ne hjd]
    exact h.saved j hcj

/-- An entry of a directory in the tree is written, in the place of another or of none. -/
theorem Off.enter (h : Off m δ s) (hl : Linked s d) (hc : 0 < s.count d)
    (he : e.ino ≠ 0 → (s.core e.ino).mode ≠ 0)
    (hnew : e.ino ≠ 0 → ∀ k < (s.core d).size, k ≠ off → (s.dir d k).ino ≠ 0 →
      (s.dir d k).name ≠ e.name) :
    Off m (fun j => δ j + (if (s.dir d off).ino = j then 1 else 0) - if e.ino = j then 1 else 0)
      (s.enter d off e) := by
  have hd := h.range d (mode_of_ftype hl.1)
  have hl' : Linked (s.enter d off e) d := (linked_grow d (off + 1) d s).mpr hl
  have hn : ∀ j, j ≠ 0 → names m (s.enter d off e) j + (if (s.dir d off).ino = j then 1 else 0) =
      names m s j + if e.ino = j then 1 else 0 := by
    intro j hj
    have h1 := @within_write s (s.enter d off e) d j off e hj (h.beyond d hl.1)
      (by rw [State.enter]; dsimp only; rw [grow_self]) (dir_enter_self ..)
    have h2 := @names_change m s (s.enter d off e) d j hd.2 fun f hf =>
      entries_congr (linked_grow ..) fun _ => ⟨by
        rw [State.enter]
        dsimp only
        rw [grow_ne hf], dir_enter_ne hf ..⟩
    rw [entries, entries, if_pos hl, if_pos hl'] at h2
    omega
  have hplace : ∀ f k, ((s.enter d off e).dir f k).ino ≠ 0 → (s.core f).ftype = IFDIR →
      (f = d ∧ k = off ∧ (s.enter d off e).dir f k = e) ∨
      (¬ (f = d ∧ k = off) ∧ k < (s.core f).size ∧ (s.enter d off e).dir f k = s.dir f k) := by
    intro f k hi hf
    by_cases hfk : f = d ∧ k = off
    · obtain ⟨rfl, rfl⟩ := hfk
      exact .inl ⟨rfl, rfl, by rw [dir_enter_self, Function.update_self]⟩
    · have hsame : (s.enter d off e).dir f k = s.dir f k := by
        by_cases hfd : f = d
        · subst hfd
          rw [dir_enter_self, Function.update_of_ne fun hk => hfk ⟨rfl, hk⟩]
        · rw [dir_enter_ne hfd]
      refine .inr ⟨hfk, ?_, hsame⟩
      by_contra hlt
      rw [hsame] at hi
      exact hi (h.beyond f hf k (by omega))
  have hcore : ∀ j, (s.enter d off e).core j = (s.grow d (off + 1)).core j := fun _ => rfl
  refine ⟨?_, ?_, ?_, ?_, h.used, ?_, ?_, ?_, ?_⟩
  · intro j
    rw [hcore, mode_grow]
    exact h.range j
  · intro j
    rw [hcore, mode_grow, nlink_grow]
    intro hm
    have h1 := hn j (h.range j hm).1.ne'
    have h2 := h.links j hm
    split_ifs at h1 ⊢ <;> omega
  · intro j h0
    rw [hcore, mode_grow]
    intro hm
    have h1 := hn j h0
    have h2 := h.free j h0 hm
    have hne : e.ino ≠ j := by
      rintro rfl
      exact he h0 hm
    rw [if_neg hne] at h1
    omega
  · intro j
    rw [hcore, mode_grow]
    exact h.idle j
  · intro j
    rw [hcore, mode_grow, nlink_grow]
    exact h.unnamed j
  · intro f
    rw [hcore, ftype_grow]
    intro hf k l _ _ hik hil hname
    rcases hplace f k hik hf with ⟨rfl, rfl, hk⟩ | ⟨hk, hks, hkd⟩ <;>
      rcases hplace _ l hil hf with ⟨hld, hlo, hl'⟩ | ⟨hl', hls, hld⟩
    · exact hlo.symm
    · rw [hk] at hik hname
      rw [hld] at hil hname
      exact absurd hname.symm (hnew hik l hls (fun hlo => hl' ⟨rfl, hlo⟩) hil)
    · subst hld hlo
      rw [hl'] at hil hname
      rw [hkd] at hik hname
      exact absurd hname (hnew hil k hks (fun hko => hk ⟨rfl, hko⟩) hik)
    · rw [hkd] at hik hname
      rw [hld] at hil hname
      exact h.unique f hf k l hks hls hik hil hname
  · intro f
    rw [hcore, ftype_grow]
    intro hf k hk
    by_contra hi
    rcases hplace f k hi hf with ⟨rfl, rfl, -⟩ | ⟨-, hks, -⟩
    · rw [grow_self] at hk
      dsimp only at hk
      omega
    · by_cases hfd : f = d
      · subst hfd
        rw [grow_self] at hk
        dsimp only at hk
        omega
      · rw [grow_ne hfd] at hk
        omega
  · intro j hcj
    have hjd : j ≠ d := by
      rintro rfl
      exact absurd hcj hc.ne'
    rw [hcore, grow_ne hjd]
    exact h.saved j hcj

end Svr32.Nami
