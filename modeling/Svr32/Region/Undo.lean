import Svr32.Region.Balance

/-! region.c: a dupreg that fails before it has a page table, and a growreg that fails before
anything has been allocated for it, leave everything as it was. -/
namespace Svr32.Region
variable {tune : Tune} {s s' t : State} {r : Nat}

/- A page table that has been given to someone. -/
def Mem.InUse (m : Mem) (pt : Pt) : Prop :=
  pt.index < NPTPP ∧ ∃ bits, m.use pt.page = some bits ∧ bits pt.index = false

/-- The same region: all fields, and the page tables that it has. -/
structure SameReg (x y : Reg) : Prop where
  fields : { x with tables := y.tables } = y
  tables : ∀ i < ctos x.pgsz, y.tables i = x.tables i

/-- Nothing has changed, except in page tables that nobody has and in free regions. -/
structure Restored (s s' : State) : Prop where
  mem : s'.mem = s.mem
  ractive : s'.ractive = s.ractive
  rfree : s'.rfree = s.rfree
  reg : ∀ q ∈ s.ractive, SameReg (s.reg q) (s'.reg q)
  counts : s'.pfuse = s.pfuse ∧ s'.freemem = s.freemem ∧ s'.swpuse = s.swpuse ∧ s'.icount = s.icount
  proc : s'.sdt = s.sdt ∧ s'.sdtsz = s.sdtsz ∧ s'.psize = s.psize
  tables : ∀ pt, s.mem.InUse pt → s'.pde pt = s.pde pt ∧ s'.dbd pt = s.dbd pt

theorem SameReg.refl (x : Reg) : SameReg x x := ⟨rfl, fun _ _ => rfl⟩

theorem Restored.refl (s : State) : Restored s s :=
  ⟨rfl, rfl, rfl, fun _ _ => SameReg.refl _, ⟨rfl, rfl, rfl, rfl⟩, ⟨rfl, rfl, rfl⟩,
    fun _ _ => ⟨rfl, rfl⟩⟩

/- The page tables that are allocated were not in use. -/
theorem ptalloc_free {n : Nat} {place : Option Place} {m m' : Mem} {pt u : Pt}
    (h : m.ptalloc tune n place = some (pt, m')) (hu : m.InUse u)
    (h1 : pt.page * NPTPP + pt.index ≤ u.page * NPTPP + u.index)
    (h2 : u.page * NPTPP + u.index < pt.page * NPTPP + pt.index + n) : False := by
  obtain ⟨hi, b, hb, hfalse⟩ := hu
  rw [Mem.ptalloc.eq_def] at h
  split at h
  · cases h
  split at h
  · cases h
  · rename_i page index
    split at h
    · cases h
    rename_i bits hbits
    split at h
    · rename_i hok
      cases h
      dsimp only at h1 h2
      simp only [NPTPP] at hi h1 h2 hok
      have hpage : u.page = page := by omega
      rw [hpage, hbits] at hb
      have hall := hok.2.2.2 (u.index - index) (by omega)
      rw [show index + (u.index - index) = u.index by omega] at hall
      rw [Option.some.inj hb, hfalse] at hall
      cases hall
    · cases h
  · rename_i page
    dsimp only at h
    split at h
    · cases h
    split at h
    · rename_i hok
      cases h
      dsimp only at h1 h2
      have hin : u.page - page < pttopgs n ∧ page ≤ u.page := by
        simp only [NPTPP, pttopgs] at hi h1 h2 ⊢
        omega
      have hnone := hok.2 (u.page - page) hin.1
      rw [Nat.add_sub_cancel' hin.2, hb] at hnone
      cases hnone
    · cases h

/- What ptalloc changes. -/
theorem State.ptalloc_spec {n : Nat} {place : Option Place} {pt : Pt}
    (h : s.ptalloc tune n place = some (pt, s')) :
    s.mem.ptalloc tune n place = some (pt, s'.mem) ∧
      s' = { s with mem := s'.mem, pde := s'.pde, dbd := s'.dbd } ∧
      ∀ u, s.mem.InUse u → s'.pde u = s.pde u ∧ s'.dbd u = s.dbd u := by
  rw [State.ptalloc] at h
  split at h
  · cases h
  · rename_i p m hm
    cases h
    refine ⟨hm, rfl, fun u hu => ?_⟩
    have hno : ¬ (pt.page * NPTPP + pt.index ≤ u.page * NPTPP + u.index ∧
        u.page * NPTPP + u.index < pt.page * NPTPP + pt.index + n) := fun hin =>
      ptalloc_free hm hu hin.1 hin.2
    simp [hno]

end Svr32.Region
