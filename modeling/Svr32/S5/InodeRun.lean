import Svr32.S5.InodeCache
import Svr32.Lib.System
import Mathlib.Data.List.TakeWhile

/-! Runs of s5ialloc and s5ifree. A free inode that is not remembered is at or above the block
where the search starts; s5ifree breaks this when it is the first to fill the array. -/
namespace Svr32.S5
open Svr32.Lib
variable {s s' : Ifs} {fp : Filsys} {a : Iargs} {x y n : Nat} {l L : List Nat}
  {ok : Nat → Bool}

/- Only the count of the numbers that are remembered changes. -/
def Ifs.keep (s : Ifs) (n : Nat) : Ifs := { s with fp := { s.fp with sNinode := n } }

theorem sInode_some (hn : s.fp.sNinode.toNat = n + 1) (hle : s.fp.sNinode ≤ NICINOD) :
    ∃ z, s.fp.sInode[n]? = some z ∧
      s.fp.cached = if z = 0 then [] else z :: (s.keep n).fp.cached := by
  have hlt : n < NICINOD := by omega
  refine ⟨_, Vector.getElem?_eq_getElem hlt, ?_⟩
  rw [Filsys.cached, hn, top_succ (by rw [Vector.getElem?_toList, Vector.getElem?_eq_getElem hlt])]
  rfl

/-- s5ialloc takes the last number of the array. -/
theorem iallocPop_cons (h : s.fp.cached = x :: l) (hfree : x ∈ s.frees)
    (hle : s.fp.sNinode ≤ NICINOD) : ∃ n, s.fp.sNinode.toNat = n + 1 ∧ (s.keep n).fp.cached = l ∧
      iallocPop ok a s.fp.sNinode.toNat s =
        some (if ok x then (some (.got x), claim x a (s.keep n))
          else (some .enfile, s.keep n)) := by
  cases hn : s.fp.sNinode.toNat with
  | zero =>
    rw [Filsys.cached, hn, top_zero] at h
    cases h
  | succ n =>
    obtain ⟨z, hz, hc⟩ := sInode_some hn hle
    rw [hc] at h
    by_cases h0 : z = 0
    · rw [if_pos h0] at h
      cases h
    · rw [if_neg h0] at h
      obtain ⟨rfl, hl⟩ := List.cons.inj h
      have hmode : ((s.keep n).dinode z).diMode = 0 := (mem_frees.mp hfree).2
      refine ⟨n, rfl, hl, ?_⟩
      rw [iallocPop]
      simp only [hz, Option.bind_eq_bind, Option.bind_some, if_neg h0]
      cases hok : ok z with
      | true => exact if_pos hmode
      | false => rfl

/-- There is no number, or a 0. -/
theorem iallocPop_nil (h : s.fp.cached = [])
    (hc : 0 ≤ s.fp.sNinode ∧ s.fp.sNinode ≤ NICINOD) :
    ∃ n, n ≤ s.fp.sNinode.toNat ∧
      iallocPop ok a s.fp.sNinode.toNat s = some (none, s.keep n) := by
  cases hn : s.fp.sNinode.toNat with
  | zero =>
    have hz : s.keep 0 = s := by
      have hz : s.fp.sNinode = (0 : Nat) := by omega
      rw [Ifs.keep, ← hz]
    exact ⟨0, le_rfl, by rw [hz]; rfl⟩
  | succ n =>
    obtain ⟨z, hz, hcz⟩ := sInode_some hn hc.2
    have h0 : z = 0 := by
      by_contra h0
      rw [hcz, if_neg h0] at h
      cases h
    refine ⟨n, n.le_succ, ?_⟩
    rw [iallocPop]
    simp only [hz, Option.bind_eq_bind, Option.bind_some, if_pos h0]
    rfl

theorem claim_dinode (s : Ifs) (x y : Nat) (a : Iargs) :
    (claim x a s).dinode y = if y = x then a.dinode else s.dinode y := s5iupdat_dinode s x y _

theorem claim_fp (s : Ifs) (x : Nat) (a : Iargs) :
    (claim x a s).fp.cached = s.fp.cached ∧ (claim x a s).fp.start = s.fp.start ∧
    (claim x a s).fp.sNinode = s.fp.sNinode ∧ (claim x a s).ninodes = s.ninodes ∧
    (claim x a s).fp.sTinode = s.fp.sTinode - 1 := by
  have hs : (s.s5iupdat x a.dinode).fp = s.fp := rfl
  simp only [claim, hs]
  split
  · exact ⟨rfl, rfl, rfl, rfl, rfl⟩
  · rename_i hz
    exact ⟨rfl, rfl, rfl, rfl, by omega⟩

/-- An inode is taken from those that are remembered. -/
theorem Icache.claim {m : Nat} (h : Icache s) (hc : s.fp.cached = x :: l)
    (hm : s.fp.sNinode.toNat = m + 1) (hl : (s.keep m).fp.cached = l) (ha : a.mode ≠ 0) :
    Icache (claim x a (s.keep m)) := by
  obtain ⟨hcached, hstart, hnum, hsize, htin⟩ := claim_fp (s.keep m) x a
  have hx : x ∈ s.frees := h.mem x (by simp [hc])
  have hnd := h.nodup
  rw [hc, List.nodup_cons] at hnd
  have hfrees : (S5.claim x a (s.keep m)).frees = s.frees.erase x := by
    ext y
    rw [Finset.mem_erase, mem_frees, mem_frees, hsize, claim_dinode]
    by_cases hy : y = x
    · rw [if_pos hy]
      exact ⟨fun hm => absurd hm.2 ha, fun hm => absurd hy hm.1⟩
    · rw [if_neg hy]
      exact ⟨fun hy' => ⟨hy, hy'⟩, fun hy' => hy'.2⟩
  refine ⟨hsize ▸ h.small, ?_, fun y hy => ?_, ?_, fun h0 => ?_, fun y hy => ?_, ?_⟩
  · have hcount := h.count
    rw [hnum]
    exact ⟨Int.natCast_nonneg m, by simp only [Ifs.keep]; omega⟩
  · rw [hcached, hl] at hy
    rw [hfrees, Finset.mem_erase]
    exact ⟨fun he => hnd.1 (he ▸ hy), h.mem y (by rw [hc]; exact List.mem_cons_of_mem x hy)⟩
  · rw [hcached, hl]
    exact hnd.2
  · have hfull := h.full (by rw [hstart] at h0; exact h0)
    rw [hc, hm, List.length_cons] at hfull
    rw [hcached, hl, hnum]
    exact Nat.succ.inj hfull
  · rw [hfrees, Finset.mem_erase] at hy
    rw [hcached, hl, hstart]
    refine (h.found y hy.2).imp_left fun hm => ?_
    rw [hc] at hm
    exact (List.mem_cons.mp hm).resolve_left hy.1
  · rw [htin, hfrees, Finset.card_erase_of_mem hx]
    exact congrArg (· - 1) h.tinode

theorem scanLoop_keep (s : Ifs) (m r adr ino : Nat) (fp : Filsys) :
    scanLoop (s.keep m) r adr ino fp = scanLoop s r adr ino fp := by
  induction r generalizing adr ino fp with
  | zero => rfl
  | succ r ih =>
    rw [scanLoop, scanLoop]
    simp only [ih]
    rfl

theorem scan_keep (s : Ifs) (m : Nat) : scan (s.keep m) = scan s := by
  unfold scan
  simp only [scanLoop_keep]
  rfl

/- Where s5ialloc tries again. -/
def rescan (s : Ifs) : Ifs := { s with fp := { scan s with sNinode := NICINOD } }

theorem rescan_ninodes (hsmall : s.ninodes < 65536) : (rescan s).ninodes = s.ninodes := by
  show ((scan s).sIsize - 2) * FsINOPB s.bsize = _
  rw [(scan_spec hsmall).2.2.2.1]
  rfl

theorem rescan_frees (hsmall : s.ninodes < 65536) : (rescan s).frees = s.frees := by
  ext x
  rw [mem_frees, mem_frees, rescan_ninodes hsmall]
  rfl

/-- The search fills the array. -/
theorem Icache.rescan (h : Icache s) (hc : s.fp.cached = []) : Icache (rescan s) := by
  obtain ⟨-, hcached, hstart, -, htin⟩ := scan_spec h.small
  have hcached' : (S5.rescan s).fp.cached = scanned s := hcached
  have hn := rescan_ninodes h.small
  have hfrees := rescan_frees h.small
  refine ⟨hn ▸ h.small, ⟨Int.natCast_nonneg NICINOD, le_rfl⟩, fun x hx => ?_, ?_, fun h0 => ?_,
    fun x hx => ?_, ?_⟩
  · rw [hcached'] at hx
    rw [hfrees]
    exact (mem_scanned hx).1
  · rw [hcached']
    exact scanned_nodup s
  · rw [hcached']
    exact (hstart h0).1
  · rw [hfrees] at hx
    rw [hcached']
    by_cases hm : x ∈ scanned s
    · exact .inl hm
    · have hge := (h.found x hx).resolve_left (by simp [hc])
      obtain ⟨-, habove⟩ := scanned_above hx hge hm
      by_cases h0 : (scan s).start = 0
      · have hstart0 : (S5.rescan s).fp.start = 0 := h0
        have hle := FsINOS_le (S5.rescan s).bsize 0
        have hpos := (mem_frees.mp hx).1.1
        rw [hstart0]
        exact .inr (by omega)
      · have hlt := habove _ (hstart h0).2
        exact .inr ((FsINOS_le _ _).trans hlt)
  · rw [hfrees, ← h.tinode]
    exact htin

/-- There is none. -/
theorem Icache.noInode (hsmall : s.ninodes < 65536) (h0 : s.frees = ∅)
    (hsize : fp.sIsize = s.fp.sIsize) :
    Icache (noInode fp s).2 := by
  have hn : (S5.noInode fp s).2.ninodes = s.ninodes := by
    show (fp.sIsize - 2) * FsINOPB s.bsize = _
    rw [hsize]
    rfl
  have hfrees : (S5.noInode fp s).2.frees = ∅ := by
    rw [← h0]
    ext x
    rw [mem_frees, mem_frees, hn]
    rfl
  have hcached : (S5.noInode fp s).2.fp.cached = [] := top_zero _
  refine ⟨hn ▸ hsmall, ⟨le_rfl, Int.natCast_nonneg NICINOD⟩, fun x hx => ?_, ?_, fun _ => ?_,
    fun x hx => ?_, ?_⟩
  · rw [hcached] at hx
    cases hx
  · rw [hcached]
    exact List.nodup_nil
  · rw [hcached]
    rfl
  · rw [hfrees] at hx
    exact absurd hx (Finset.notMem_empty x)
  · rw [hfrees]
    rfl

/- An inode that was free, or none was. -/
def Ires.right (r : Ires) (s : Ifs) : Prop :=
  match r with
  | .got x => x ∈ s.frees
  | .enfile => True
  | .enospc => s.frees = ∅

theorem iallocLoop_cons {fuel : Nat} (h : Icache s) (hc : s.fp.cached = x :: l)
    (ha : a.mode ≠ 0) : ∃ r s', iallocLoop ok a (fuel + 1) s = some (r, s') ∧ r.right s ∧
      ((∀ x, ok x = true) → Icache s') ∧ r ≠ .enospc := by
  have hx : x ∈ s.frees := h.mem x (by simp [hc])
  obtain ⟨m, hm, hl, hpop⟩ := (@iallocPop_cons _ a _ _ ok) hc hx h.count.2
  rw [iallocLoop, hpop]
  cases hok : ok x with
  | true => exact ⟨_, _, rfl, hx, fun _ => h.claim hc hm hl ha, nofun⟩
  | false => exact ⟨_, _, rfl, trivial, fun hall => absurd (hall x) (by simp [hok]), nofun⟩

/-- s5ialloc returns an inode that was free, or none was. -/
theorem s5ialloc_spec (h : Icache s) (ha : a.mode ≠ 0) :
    ∃ r s', s5ialloc ok a s = some (r, s') ∧ r.right s ∧ ((∀ x, ok x = true) → Icache s') := by
  cases hc : s.fp.cached with
  | cons x l =>
    obtain ⟨r, s', heq, hr, hs', -⟩ := (@iallocLoop_cons _ _ _ _ ok 1) h hc ha
    exact ⟨r, s', heq, hr, hs'⟩
  | nil =>
    obtain ⟨m, hm, hpop⟩ := (@iallocPop_nil _ a ok) hc h.count
    obtain ⟨hnum, hcached, -, hsize, -⟩ := scan_spec h.small
    have hloop : s5ialloc ok a s =
        if 0 < s.fp.sTinode then
          if (scan s).sNinode ≠ (NICINOD : Int) then iallocLoop ok a 1 (rescan s)
          else some (noInode (scan s) (s.keep m))
        else some (noInode (s.keep m).fp (s.keep m)) := by
      rw [s5ialloc, iallocLoop, hpop]
      simp only [Option.bind_eq_bind, Option.bind_some, scan_keep]
      rfl
    rw [hloop]
    by_cases ht : 0 < s.fp.sTinode
    · rw [if_pos ht]
      cases hfs : scanned s with
      | cons x l =>
        have hne : (scan s).sNinode ≠ (NICINOD : Int) := by
          rw [hnum, hfs, List.length_cons]
          omega
        obtain ⟨r, s', heq, hr, hs', hno⟩ := (@iallocLoop_cons _ _ _ _ ok 0) (h.rescan hc)
          (hcached.trans hfs) ha
        rw [if_pos hne]
        refine ⟨r, s', heq, ?_, hs'⟩
        cases r with
        | got y =>
          have hy : y ∈ (rescan s).frees := hr
          rwa [rescan_frees h.small] at hy
        | enfile => trivial
        | enospc => exact absurd rfl hno
      | nil =>
        have hno : ¬ (scan s).sNinode ≠ (NICINOD : Int) := by simp [hnum, hfs]
        have h0 : s.frees = ∅ := Finset.eq_empty_of_forall_notMem fun x hx => by
          have hge := (h.found x hx).resolve_left (by simp [hc])
          have hlen := (scanned_above hx hge (by simp [hfs])).1
          rw [hfs] at hlen
          exact absurd hlen (by decide)
        rw [if_neg hno]
        exact ⟨_, _, rfl, h0, fun _ => Icache.noInode h.small h0 hsize⟩
    · have h0 : s.frees = ∅ := Finset.card_eq_zero.mp (by rw [← h.tinode]; omega)
      rw [if_neg ht]
      exact ⟨_, _, rfl, h0, fun _ => Icache.noInode h.small h0 rfl⟩

/- The first number that is put into the array is where the search starts. -/
def Suited (x : Nat) (s : Ifs) : Prop :=
  s.fp.sNinode = 0 → ∀ y ∈ s.frees, FsINOS s.bsize x ≤ y

theorem Vector.toList_cons (v : Vector Nat NICINOD) : ∃ l, v.toList = v.toList.getD 0 0 :: l := by
  cases hv : v.toList with
  | nil =>
    have hlen : v.toList.length = NICINOD := Vector.length_toList
    rw [hv] at hlen
    cases hlen
  | cons z l => exact ⟨l, rfl⟩

theorem top_all (hlen : L.length = n) (h : ∀ y ∈ L, y ≠ 0) : top L n = L.reverse := by
  have hnz : ∀ y ∈ L.reverse, (y != 0) = true := fun y hy => by
    simpa using h y (List.mem_reverse.mp hy)
  have htw := @List.takeWhile_append_of_pos _ _ _ [] hnz
  rw [List.append_nil] at htw
  rw [top, ← hlen, List.take_length, htw]
  simp

/- What is remembered, as a list and a count. -/
structure Holds (L : List Nat) (n bsize : Nat) (F : Finset Nat) : Prop where
  mem : ∀ y ∈ top L n, y ∈ F
  nodup : (top L n).Nodup
  full : L.getD 0 0 ≠ 0 → (top L n).length = n
  found : ∀ y ∈ F, y ∈ top L n ∨ FsINOS bsize (L.getD 0 0) ≤ y

theorem Icache.holds (h : Icache s) :
    Holds s.fp.sInode.toList s.fp.sNinode.toNat s.bsize s.frees :=
  ⟨h.mem, h.nodup, h.full, h.found⟩

theorem top_ne_zero (h : y ∈ top L n) : y ≠ 0 := by
  simpa using List.mem_takeWhile_imp h

theorem Holds.all {F : Finset Nat} {bsize : Nat} (h : Holds L n bsize F) (hlen : L.length = n)
    (h0 : L.getD 0 0 ≠ 0) : top L n = L.reverse := by
  have hsub : List.Sublist (top L n) (L.take n).reverse := List.takeWhile_sublist _
  rw [List.take_of_length_le (le_of_eq hlen)] at hsub
  refine hsub.eq_of_length ?_
  rw [h.full h0, List.length_reverse, hlen]

/-- A lower number takes the first place of a full array. -/
theorem Holds.lower {F : Finset Nat} {bsize : Nat} {z : Nat} (h : Holds (z :: l) n bsize F)
    (hlen : (z :: l).length = n) (hx : x ∉ F) (hpos : 1 ≤ x) (hlt : x < z) :
    Holds (x :: l) n bsize (insert x F) := by
  have hcached := h.all hlen (by simp only [List.getD_cons_zero]; omega)
  have hmem : ∀ y ∈ l, y ∈ F := fun y hy =>
    h.mem y (by rw [hcached]; simp [hy])
  have hnz : ∀ y ∈ x :: l, y ≠ 0 := fun y hy => by
    rcases List.mem_cons.mp hy with rfl | hy
    · omega
    · exact top_ne_zero (L := z :: l) (n := n) (by rw [hcached]; simp [hy])
  have htop : top (x :: l) n = (x :: l).reverse := top_all hlen hnz
  have hnd := h.nodup
  rw [hcached, List.nodup_reverse, List.nodup_cons] at hnd
  refine ⟨fun y hy => ?_, ?_, fun _ => ?_, fun y hy => ?_⟩
  · rw [htop, List.mem_reverse, List.mem_cons] at hy
    exact Finset.mem_insert.mpr (hy.imp_right (hmem y))
  · rw [htop, List.nodup_reverse, List.nodup_cons]
    exact ⟨fun hxl => hx (hmem x hxl), hnd.2⟩
  · rw [htop, List.length_reverse, ← hlen]
    rfl
  · rw [htop, List.mem_reverse]
    rcases Finset.mem_insert.mp hy with rfl | hy
    · exact .inl List.mem_cons_self
    · rcases h.found y hy with hm | hge
      · rw [hcached, List.mem_reverse] at hm
        rcases List.mem_cons.mp hm with rfl | hm
        · exact .inr ((FsINOS_le _ _).trans hlt)
        · exact .inl (List.mem_cons_of_mem x hm)
      · exact .inr ((FsINOS_mono (by exact hlt.le)).trans hge)

/-- A number that is not lower is found from where the search starts. -/
theorem Holds.higher {F : Finset Nat} {bsize : Nat} (h : Holds L n bsize F)
    (hlen : L.length = n) (hx : x ∉ F) (hpos : 1 ≤ x) (hge : L.getD 0 0 ≤ x) :
    Holds L n bsize (insert x F) := by
  refine ⟨fun y hy => Finset.mem_insert_of_mem (h.mem y hy), h.nodup, h.full, fun y hy => ?_⟩
  rcases Finset.mem_insert.mp hy with rfl | hy
  · have hne : L.getD 0 0 ≠ y ∨ L.getD 0 0 = 0 := by
      by_cases h0 : L.getD 0 0 = 0
      · exact .inr h0
      · refine .inl fun he => hx ?_
        have hmem : L.getD 0 0 ∈ L := by
          cases L with
          | nil => exact absurd rfl h0
          | cons z l => exact List.mem_cons_self
        exact h.mem y (by rw [h.all hlen h0, List.mem_reverse, ← he]; exact hmem)
    have hle := FsINOS_le bsize (L.getD 0 0)
    exact .inr (by omega)
  · exact h.found y hy

/-- There is room for the number. -/
theorem Holds.push {F : Finset Nat} {bsize : Nat} (h : Holds L n bsize F) (hlt : n < L.length)
    (hx : x ∉ F) (hpos : 1 ≤ x) (hs : n = 0 → ∀ y ∈ F, FsINOS bsize x ≤ y) :
    Holds (L.set n x) (n + 1) bsize (insert x F) := by
  have htop : top (L.set n x) (n + 1) = x :: top L n := by
    rw [top_succ (List.getElem?_set_self hlt), if_neg (by omega),
      top_congr (List.take_set_of_le le_rfl)]
  have hstart : n ≠ 0 → (L.set n x).getD 0 0 = L.getD 0 0 := fun hn => by
    rw [List.getD_eq_getElem?_getD, List.getD_eq_getElem?_getD, List.getElem?_set_ne hn]
  refine ⟨fun y hy => ?_, ?_, fun h0 => ?_, fun y hy => ?_⟩
  · rw [htop, List.mem_cons] at hy
    exact Finset.mem_insert.mpr (hy.imp_right (h.mem y))
  · rw [htop, List.nodup_cons]
    exact ⟨fun hm => hx (h.mem x hm), h.nodup⟩
  · rw [htop, List.length_cons]
    by_cases hn : n = 0
    · subst hn
      rw [top_zero]
      rfl
    · rw [hstart hn] at h0
      rw [h.full h0]
  · rw [htop]
    rcases Finset.mem_insert.mp hy with rfl | hy
    · exact .inl List.mem_cons_self
    · by_cases hn : n = 0
      · subst hn
        have h0 : (L.set 0 x).getD 0 0 = x := by
          rw [List.getD_eq_getElem?_getD, List.getElem?_set_self hlt]
          rfl
        rw [h0]
        exact .inr (hs rfl y hy)
      · rw [hstart hn]
        exact (h.found y hy).imp_left (List.mem_cons_of_mem x)

theorem ifree_dinode (hmode : (s.dinode x).diMode ≠ 0) (y : Nat) :
    (s5ifree x s).dinode y =
      if y = x then { s.dinode x with diMode := 0 } else s.dinode y := by
  rw [← s5iupdat_dinode]
  simp only [s5ifree, if_neg hmode]
  split
  · split <;> rfl
  · rfl

theorem ifree_size (x : Nat) (s : Ifs) :
    (s5ifree x s).ninodes = s.ninodes ∧ (s5ifree x s).bsize = s.bsize := by
  unfold s5ifree
  split
  · exact ⟨rfl, rfl⟩
  · simp only
    split
    · split <;> exact ⟨rfl, rfl⟩
    · exact ⟨rfl, rfl⟩

theorem ifree_tinode (hmode : (s.dinode x).diMode ≠ 0) :
    (s5ifree x s).fp.sTinode = (s.fp.sTinode + 1) % 65536 := by
  simp only [s5ifree, if_neg hmode]
  split
  · split <;> rfl
  · rfl

/-- s5ifree keeps what is remembered. -/
theorem ifree_holds (h : Icache s) (hx : 1 ≤ x) (hmode : (s.dinode x).diMode ≠ 0)
    (hs : Suited x s) :
    (0 ≤ (s5ifree x s).fp.sNinode ∧ (s5ifree x s).fp.sNinode ≤ NICINOD) ∧
    Holds (s5ifree x s).fp.sInode.toList (s5ifree x s).fp.sNinode.toNat s.bsize
      (insert x s.frees) := by
  have hcount := h.count
  have hno : x ∉ s.frees := fun hm => hmode (mem_frees.mp hm).2
  have hlen : s.fp.sInode.toList.length = NICINOD := Vector.length_toList
  have hup : (s.s5iupdat x { s.dinode x with diMode := 0 }).fp = s.fp := rfl
  simp only [s5ifree, if_neg hmode, hup]
  by_cases hfull : (NICINOD : Int) ≤ s.fp.sNinode
  · have hn : s.fp.sNinode.toNat = NICINOD := by omega
    have hold := h.holds
    rw [if_pos hfull]
    by_cases hlt : x < s.fp.sInode.toList.getD 0 0
    · rw [if_pos hlt]
      refine ⟨hcount, ?_⟩
      obtain ⟨l, hl⟩ := Vector.toList_cons s.fp.sInode
      simp only [Vector.toList_setIfInBounds]
      rw [hl] at hlen hold ⊢
      exact hold.lower (hlen.trans hn.symm) hno hx hlt
    · rw [if_neg hlt]
      exact ⟨hcount, hold.higher (hlen.trans hn.symm) hno hx (Nat.not_lt.mp hlt)⟩
  · rw [if_neg hfull]
    have hto : (s.fp.sNinode + 1).toNat = s.fp.sNinode.toNat + 1 := by omega
    refine ⟨by simp only; omega, ?_⟩
    simp only [Vector.toList_setIfInBounds, hto]
    exact h.holds.push (by omega) hno hx fun hz => hs (by omega)

/-- s5ifree keeps the invariant. -/
theorem s5ifree_spec (h : Icache s) (hx : 1 ≤ x ∧ x ≤ s.ninodes) (hs : Suited x s) :
    Icache (s5ifree x s) := by
  by_cases hmode : (s.dinode x).diMode = 0
  · rwa [s5ifree, if_pos hmode]
  · obtain ⟨hcount, hholds⟩ := ifree_holds h hx.1 hmode hs
    obtain ⟨hn, hb⟩ := ifree_size x s
    have hfrees : (s5ifree x s).frees = insert x s.frees := by
      ext y
      rw [Finset.mem_insert, mem_frees, mem_frees, hn, ifree_dinode hmode]
      by_cases hy : y = x
      · subst hy
        rw [if_pos rfl]
        exact ⟨fun _ => .inl rfl, fun _ => ⟨hx, rfl⟩⟩
      · rw [if_neg hy]
        exact ⟨.inr, fun hm => hm.resolve_left hy⟩
    have hcard : (insert x s.frees).card = s.frees.card + 1 :=
      Finset.card_insert_of_notMem fun hm => hmode (mem_frees.mp hm).2
    have hle : (insert x s.frees).card ≤ s.ninodes := by
      rw [← hfrees, ← hn]
      refine (Finset.card_filter_le _ _).trans ?_
      rw [Nat.card_Icc]
      omega
    have hsmall := h.small
    rw [← hfrees] at hholds
    refine ⟨hn ▸ h.small, hcount, hholds.mem, hholds.nodup, hholds.full, hb ▸ hholds.found, ?_⟩
    rw [ifree_tinode hmode, h.tinode, hfrees, hcard]
    omega

/- A call, and a write to an inode in use. -/
inductive Icall
  | alloc (ok : Nat → Bool) (a : Iargs)
  | free (x : Nat)
  | write (x : Nat) (d : Dinode)

inductive InodeStep : Icall → Ifs → Ifs → Prop
  | alloc {ok : Nat → Bool} {a : Iargs} {s s' : Ifs} {r : Ires} : a.mode ≠ 0 →
    s5ialloc ok a s = some (r, s') → InodeStep (.alloc ok a) s s'
  | free {x : Nat} {s : Ifs} : 1 ≤ x ∧ x ≤ s.ninodes → InodeStep (.free x) s (s5ifree x s)
  | write {x : Nat} {d : Dinode} {s : Ifs} : (s.dinode x).diMode ≠ 0 → d.diMode ≠ 0 →
    InodeStep (.write x d) s (s.s5iupdat x d)

/- The super block that s5mount leaves. -/
structure Mounted (s : Ifs) : Prop where
  small : s.ninodes < 65536
  empty : s.fp.sNinode = 0
  start : s.fp.start = 0
  tinode : s.fp.sTinode = s.frees.card

/- iget has room; the search will start at a number below which no inode is free. -/
def Met : Icall → Ifs → Prop
  | .alloc ok _, _ => ∀ x, ok x = true
  | .free x, s => Suited x s
  | .write _ _, _ => True

/- The runs whose calls meet a condition. -/
def inodes (C : Icall → Ifs → Prop) : System Ifs where
  init := Mounted
  step s t := ∃ c, InodeStep c s t ∧ C c s

theorem Mounted.icache (h : Mounted s) : Icache s := by
  have hcached : s.fp.cached = [] := by
    rw [Filsys.cached, h.empty]
    exact top_zero _
  refine ⟨h.small, by rw [h.empty]; decide, ?_, ?_, fun h0 => absurd h.start h0, fun x hx => ?_,
    h.tinode⟩
  · rw [hcached]
    exact fun x hx => nomatch hx
  · rw [hcached]
    exact List.nodup_nil
  · have hle := FsINOS_le s.bsize 0
    have hpos := (mem_frees.mp hx).1.1
    rw [h.start]
    exact .inr (by omega)

theorem inode_step {c : Icall} (h : Icache s) (hst : InodeStep c s s') (hc : Met c s) :
    Icache s' := by
  cases hst with
  | @alloc ok a _ _ r ha heq =>
    obtain ⟨r', t, ht, -, hkeep⟩ := (@s5ialloc_spec _ _ ok) h ha
    cases heq.symm.trans ht
    exact hkeep hc
  | free hx => exact s5ifree_spec h hx hc
  | @write x d _ hx hd =>
    have hfrees : (s.s5iupdat x d).frees = s.frees := by
      ext y
      rw [mem_frees, mem_frees, s5iupdat_dinode]
      by_cases hy : y = x
      · subst hy
        rw [if_pos rfl]
        exact ⟨fun hm => absurd hm.2 hd, fun hm => absurd hm.2 hx⟩
      · rw [if_neg hy]
        rfl
    have hold := h.holds
    rw [← hfrees] at hold
    exact ⟨h.small, h.count, hold.mem, hold.nodup, hold.full, hold.found, hfrees ▸ h.tinode⟩

/-- In a run that meets the condition s5ialloc returns a free inode, unless there is none. -/
theorem ialloc_run (hr : (inodes Met).Reachable s) (ok : Nat → Bool) (ha : a.mode ≠ 0) :
    ∃ r s', s5ialloc ok a s = some (r, s') ∧ r.right s := by
  have h : Icache s := System.invariant Icache (fun _ h => Mounted.icache h)
    (fun _ _ h hst => by
      obtain ⟨c, hst, hc⟩ := hst
      exact inode_step h hst hc) hr
  obtain ⟨r, s', heq, hright, -⟩ := (@s5ialloc_spec _ _ ok) h ha
  exact ⟨r, s', heq, hright⟩

/- An i-list of three blocks of which one inode is free. -/
def oneInode (x : Nat) : Ifs where
  fp := { sIsize := 5, sFsize := 100, sNfree := 0, sFree := Vector.replicate NICFREE 0
          sNinode := 0, sInode := Vector.replicate NICINOD 0, sFmod := false, sTfree := 0
          sTinode := 1 }
  bsize := 512
  dino adr i := ⟨if adr = FsITOD 512 x ∧ i = FsITOO 512 x then 0 else 1, 0, 0, 0, 0,
    Vector.replicate 13 0⟩

theorem oneInode_six : Mounted (oneInode 6) := ⟨by decide, rfl, by decide, by decide⟩

/- The arguments for a directory. -/
def mkdirArgs : Iargs := ⟨0x4000, 2, 0, 0, 0⟩

theorem ialloc_run_one :
    ∃ r s', s5ialloc (fun _ => true) mkdirArgs (s5ifree 5 (oneInode 6)) = some (r, s') ∧
      r.right (s5ifree 5 (oneInode 6)) :=
  ialloc_run (System.reachable_step (System.reachable_init oneInode_six)
    ⟨.free 5, .free (by decide), fun _ => by decide⟩) _ (by decide)

/- The state after inode 24 is freed, and taken again. -/
def forgot : Ifs :=
  claim 24 mkdirArgs ((s5ifree 24 (oneInode 6)).keep 0)

theorem forgot_alloc :
    s5ialloc (fun _ => true) mkdirArgs (s5ifree 24 (oneInode 6)) = some (.got 24, forgot) := rfl

/-- Inode 6 is free, and s5ialloc says that there is none: the search starts at 24. -/
theorem ialloc_forgets : ¬ ∀ s, (inodes fun _ _ => True).Reachable s →
    ∃ r s', s5ialloc (fun _ => true) mkdirArgs s = some (r, s') ∧ r.right s := fun hall => by
  have hrun : (inodes fun _ _ => True).Reachable forgot :=
    System.reachable_step (System.reachable_step (System.reachable_init oneInode_six)
      ⟨.free 24, .free (by decide), trivial⟩)
      ⟨.alloc _ mkdirArgs, .alloc (by decide) forgot_alloc, trivial⟩
  obtain ⟨r, s', heq, hr⟩ := hall forgot hrun
  have hno : (s5ialloc (fun _ => true) mkdirArgs forgot).map (·.1) = some .enospc := by decide
  rw [heq] at hno
  cases hno
  have hfree : (6 : Nat) ∈ forgot.frees := by decide
  rw [hr] at hfree
  exact Finset.notMem_empty 6 hfree

end Svr32.S5
