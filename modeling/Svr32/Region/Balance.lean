import Svr32.Region.Code

/-! region.c: what is available, with the pages of the regions and of the page tables, is the same
after each routine, except after a dupreg that fails when it has page tables already. -/
namespace Svr32.Region
variable {tune : Tune} {s s' t : State} {r : Nat}

/-- The pages of the active regions, and of those that are locked in memory. -/
def pages (s : State) : Int := (s.ractive.map fun q => ((s.reg q).pgsz : Int)).sum

def lockedPages (s : State) : Int :=
  (s.ractive.map fun q => if (s.reg q).noswapcnt ≠ 0 then ((s.reg q).pgsz : Int) else 0).sum

def smem (s : State) : Int := s.mem.smem + pages s
def rmem (s : State) : Int := s.mem.rmem + lockedPages s

/-- The region table: each entry is in one of the lists, and a free one has been cleared. -/
structure Table (s : State) : Prop where
  nodup : (s.ractive ++ s.rfree).Nodup
  free : ∀ q ∈ s.rfree, (s.reg q).pgsz = 0 ∧ (s.reg q).noswapcnt = 0 ∧ (s.reg q).wanted = false
  held : s.mem.Held

/-- What happens inside the routines: pages and page tables come and go, with what is available. -/
structure Frame (s s' : State) : Prop where
  ractive : s'.ractive = s.ractive
  rfree : s'.rfree = s.rfree
  reg : ∀ q, (s'.reg q).pgsz = (s.reg q).pgsz ∧ (s'.reg q).noswapcnt = (s.reg q).noswapcnt ∧
    (s'.reg q).wanted = (s.reg q).wanted
  smem : s'.mem.smem = s.mem.smem
  rmem : s'.mem.rmem = s.mem.rmem
  held : s.mem.Held → s'.mem.Held

theorem Frame.refl (s : State) : Frame s s :=
  ⟨rfl, rfl, fun _ => ⟨rfl, rfl, rfl⟩, rfl, rfl, id⟩

theorem Frame.trans (h : Frame s t) (h' : Frame t s') : Frame s s' :=
  ⟨h'.ractive.trans h.ractive, h'.rfree.trans h.rfree, fun q =>
    ⟨(h'.reg q).1.trans (h.reg q).1, (h'.reg q).2.1.trans (h.reg q).2.1,
      (h'.reg q).2.2.trans (h.reg q).2.2⟩, h'.smem.trans h.smem, h'.rmem.trans h.rmem,
    fun hs => h'.held (h.held hs)⟩

theorem Frame.pages (h : Frame s s') : pages s' = pages s := by
  rw [Region.pages, Region.pages, h.ractive]
  simp only [(h.reg _).1]

theorem Frame.lockedPages (h : Frame s s') : lockedPages s' = lockedPages s := by
  rw [Region.lockedPages, Region.lockedPages, h.ractive]
  simp only [(h.reg _).1, (h.reg _).2.1]

theorem Frame.table (h : Frame s s') (ht : Table s) : Table s' := by
  refine ⟨by rw [h.ractive, h.rfree]; exact ht.nodup, fun q hq => ?_, h.held ht.held⟩
  rw [h.rfree] at hq
  obtain ⟨h1, h2, h3⟩ := ht.free q hq
  exact ⟨(h.reg q).1.trans h1, (h.reg q).2.1.trans h2, (h.reg q).2.2.trans h3⟩

theorem Frame.balance (h : Frame s s') : Region.smem s' = Region.smem s ∧
    Region.rmem s' = Region.rmem s := by
  rw [Region.smem, Region.smem, Region.rmem, Region.rmem, h.pages, h.lockedPages, h.smem, h.rmem]
  exact ⟨rfl, rfl⟩

/- The sum over a list when one entry is changed. -/
theorem sum_change {f : Reg → Int} {reg : Nat → Reg} {x : Reg} {l : List Nat} (hl : l.Nodup)
    (hr : r ∈ l) : (l.map fun q => f (change reg r x q)).sum =
      (l.map fun q => f (reg q)).sum - f (reg r) + f x := by
  induction l with
  | nil => cases hr
  | cons q l ih =>
    rw [List.nodup_cons] at hl
    rw [List.map_cons, List.map_cons, List.sum_cons, List.sum_cons]
    by_cases hq : q = r
    · subst hq
      have hrest : (l.map fun p => f (change reg q x p)) = l.map fun p => f (reg p) := by
        apply List.map_congr_left
        intro p hp
        have hne : p ≠ q := fun h => hl.1 (h ▸ hp)
        rw [change_ne hne]
      rw [hrest, change_self]
      ring
    · have hr' : r ∈ l := (List.mem_cons.mp hr).resolve_left (Ne.symm hq)
      rw [ih hl.2 hr', change_ne hq]
      ring

theorem sum_change_out {f : Reg → Int} {reg : Nat → Reg} {x : Reg} {l : List Nat} (hr : r ∉ l) :
    (l.map fun q => f (change reg r x q)).sum = (l.map fun q => f (reg q)).sum := by
  congr 1
  apply List.map_congr_left
  intro p hp
  have hne : p ≠ r := fun h => hr (h ▸ hp)
  rw [change_ne hne]

theorem Table.active (ht : Table s) : s.ractive.Nodup := (List.nodup_append.mp ht.nodup).1

theorem Table.not_free (ht : Table s) (hr : r ∈ s.ractive) : r ∉ s.rfree := fun h =>
  (List.nodup_append.mp ht.nodup).2.2 r hr r h rfl

theorem Table.setReg {x : Reg} (ht : Table s) (hr : r ∈ s.ractive) : Table (s.setReg r x) := by
  refine ⟨ht.nodup, fun q hq => ?_, ht.held⟩
  have hne : q ≠ r := fun h => ht.not_free hr (h ▸ hq)
  have hreg : (s.setReg r x).reg q = s.reg q := change_ne hne
  rw [hreg]
  exact ht.free q hq

theorem unlink_spec (ht : Table s) (hr : r ∈ s.ractive) : Table (unlink r s) ∧
    pages (unlink r s) = pages s - (s.reg r).pgsz ∧ lockedPages (unlink r s) = lockedPages s -
      (if (s.reg r).noswapcnt ≠ 0 then ((s.reg r).pgsz : Int) else 0) := by
  have hout : r ∉ s.ractive.erase r := fun h => (List.Nodup.mem_erase_iff ht.active).mp h |>.1 rfl
  have hsum : ∀ f : Reg → Int, ((s.ractive.erase r).map fun q =>
      f (change s.reg r (cleared (s.reg r)) q)).sum =
      (s.ractive.map fun q => f (s.reg q)).sum - f (s.reg r) := by
    intro f
    rw [sum_change_out hout, ← List.sum_map_erase (fun q => f (s.reg q)) hr]
    ring
  refine ⟨⟨?_, fun q hq => ?_, ht.held⟩, hsum fun q => (q.pgsz : Int),
    hsum fun q => if q.noswapcnt ≠ 0 then (q.pgsz : Int) else 0⟩
  · obtain ⟨h1, h2, h3⟩ := List.nodup_append.mp ht.nodup
    rw [unlink, List.nodup_append]
    refine ⟨h1.erase r, List.nodup_cons.mpr ⟨ht.not_free hr, h2⟩, fun a ha b hb => ?_⟩
    rcases List.mem_cons.mp hb with rfl | hb
    · exact fun h => hout (h ▸ ha)
    · exact h3 a (List.mem_of_mem_erase ha) b hb
  · rw [unlink]
    rcases List.mem_cons.mp hq with rfl | hq
    · simp only [change_self]
      exact ⟨rfl, rfl, rfl⟩
    · have hne : q ≠ r := fun h => ht.not_free hr (h ▸ hq)
      simp only [change_ne hne]
      exact ht.free q hq

end Svr32.Region

/-! region.c: what growreg and dupreg leave available, and the page tables that dupreg gives back
twice when it cannot have all. -/
namespace Svr32.Region
variable {tune : Tune} {s s' t : State} {r : Nat}

/- What the loop of dupreg leaves: a copy, or, from the table `i` that it cannot have, too much. -/
def Leaves (s : State) (x : DupEnd × State) : Prop :=
  Table x.2 ∧ rmem x.2 = rmem s ∧
    match x.1 with
    | .noTable i => smem x.2 = smem s + stoc i
    | .overflow => True
    | _ => smem x.2 = smem s

theorem Leaves.congr {x : DupEnd × State} (h : Leaves t x) (hs : smem t = smem s)
    (hr : rmem t = rmem s) : Leaves s x := by
  obtain ⟨h1, h2, h3⟩ := h
  refine ⟨h1, h2.trans hr, ?_⟩
  rw [← hs]
  exact h3

end Svr32.Region
