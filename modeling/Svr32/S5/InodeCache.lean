import Svr32.S5.Ialloc
import Mathlib.Data.Finset.Card
import Mathlib.Order.Interval.Finset.Nat

/-! The inode numbers that the super block remembers, and where the search starts. -/
namespace Svr32.S5
variable {s s' : Ifs} {fp : Filsys} {a : Iargs} {x y n : Nat} {l L : List Nat} {d : Dinode}

/- The numbers below a place of s_inode, the last first, up to a 0. -/
def top (L : List Nat) (n : Nat) : List Nat := ((L.take n).reverse).takeWhile (· != 0)

theorem top_zero (L : List Nat) : top L 0 = [] := by simp [top]

theorem top_succ (h : L[n]? = some x) :
    top L (n + 1) = if x = 0 then [] else x :: top L n := by
  have htake : (L.take (n + 1)).reverse = x :: (L.take n).reverse := by
    rw [List.take_add_one, h]
    simp
  rw [top, htake, List.takeWhile_cons]
  by_cases hx : x = 0
  · simp [hx]
  · simp [hx, top]

theorem top_congr {L' : List Nat} (h : L'.take n = L.take n) : top L' n = top L n := by
  rw [top, top, h]

/- The numbers that s5ialloc tries before it searches. -/
def Filsys.cached (fp : Filsys) : List Nat := top fp.sInode.toList fp.sNinode.toNat

/- s_inode[0] -/
def Filsys.start (fp : Filsys) : Nat := fp.sInode.toList.getD 0 0

/-- Different numbers have different places on disk. -/
theorem FsIT_inj {bsize : Nat} (hd : FsITOD bsize x = FsITOD bsize y)
    (ho : FsITOO bsize x = FsITOO bsize y) : x = y := by
  have h15 : ∀ z : Nat, z &&& 15 = z % 16 := fun z => Nat.and_two_pow_sub_one_eq_mod z 4
  have h7 : ∀ z : Nat, z &&& 7 = z % 8 := fun z => Nat.and_two_pow_sub_one_eq_mod z 3
  unfold FsITOD at hd
  unfold FsITOO at ho
  by_cases h : FsLRG bsize <;> simp only [h, if_true, Bool.false_eq_true, if_false, h15, h7,
    Nat.shiftRight_eq_div_pow] at * <;> omega

theorem s5iupdat_dinode (s : Ifs) (x y : Nat) (d : Dinode) :
    (s.s5iupdat x d).dinode y = if y = x then d else s.dinode y := by
  simp only [Ifs.dinode, Ifs.s5iupdat]
  by_cases hy : y = x
  · rw [if_pos hy, hy, Function.update_self, Function.update_self]
  · rw [if_neg hy]
    by_cases hd : FsITOD s.bsize y = FsITOD s.bsize x
    · rw [hd, Function.update_self,
        Function.update_of_ne (fun ho => hy (FsIT_inj hd ho))]
    · rw [Function.update_of_ne hd]

/- The free inodes. -/
def Ifs.frees (s : Ifs) : Finset Nat := (Finset.Icc 1 s.ninodes).filter fun x => s.free x

theorem mem_frees : x ∈ s.frees ↔ (1 ≤ x ∧ x ≤ s.ninodes) ∧ (s.dinode x).diMode = 0 := by
  simp [Ifs.frees, Ifs.free]

/- Every free inode is remembered, or the search will find it. -/
structure Icache (s : Ifs) : Prop where
  small : s.ninodes < 65536
  count : 0 ≤ s.fp.sNinode ∧ s.fp.sNinode ≤ NICINOD
  mem : ∀ x ∈ s.fp.cached, x ∈ s.frees
  nodup : s.fp.cached.Nodup
  full : s.fp.start ≠ 0 → s.fp.cached.length = s.fp.sNinode.toNat
  found : ∀ x ∈ s.frees, x ∈ s.fp.cached ∨ FsINOS s.bsize s.fp.start ≤ x
  tinode : s.fp.sTinode = s.frees.card

/- The numbers that the search keeps. -/
def scanned (s : Ifs) : List Nat :=
  let ino := FsINOS s.bsize s.fp.start
  ((List.range' ino (s.ninodes + 1 - ino)).filter s.free).take NICINOD

theorem mem_scanned (h : x ∈ scanned s) : x ∈ s.frees ∧ FsINOS s.bsize s.fp.start ≤ x := by
  have hx := List.mem_of_mem_take h
  rw [List.mem_filter, List.mem_range'_1] at hx
  have hpos : 1 ≤ FsINOS s.bsize s.fp.start := by
    rw [FsINOS_eq]
    omega
  refine ⟨mem_frees.mpr ⟨by omega, by simpa [Ifs.free] using hx.2⟩, hx.1.1⟩

theorem scanned_nodup (s : Ifs) : (scanned s).Nodup :=
  List.Nodup.sublist ((List.take_sublist _ _).trans List.filter_sublist) List.nodup_range'

/-- What the search leaves out is above what it keeps. -/
theorem scanned_above (hx : x ∈ s.frees) (hle : FsINOS s.bsize s.fp.start ≤ x)
    (hno : x ∉ scanned s) : (scanned s).length = NICINOD ∧ ∀ y ∈ scanned s, y < x := by
  have hmem : x ∈ (List.range' (FsINOS s.bsize s.fp.start)
      (s.ninodes + 1 - FsINOS s.bsize s.fp.start)).filter s.free := by
    obtain ⟨hr, hf⟩ := mem_frees.mp hx
    rw [List.mem_filter, List.mem_range'_1]
    exact ⟨by omega, by simpa [Ifs.free] using hf⟩
  have hsorted : ((List.range' (FsINOS s.bsize s.fp.start)
      (s.ninodes + 1 - FsINOS s.bsize s.fp.start)).filter s.free).Pairwise (· < ·) :=
    (List.pairwise_lt_range' (s := _) (n := _)).filter _
  rw [← List.take_append_drop NICINOD (List.filter _ _), List.mem_append] at hmem
  have hdrop := hmem.resolve_left hno
  rw [← List.take_append_drop NICINOD (List.filter _ _), List.pairwise_append] at hsorted
  refine ⟨?_, fun y hy => hsorted.2.2 y hy x hdrop⟩
  have hpos := List.length_pos_of_mem hdrop
  rw [List.length_drop] at hpos
  rw [scanned, List.length_take]
  omega

theorem ninodes_lt (h : s.ninodes < 65536) : s.ninodes + 1 < 65536 := by
  unfold Ifs.ninodes FsINOPB at *
  by_cases hl : FsLRG s.bsize <;> simp only [hl, if_true, Bool.false_eq_true, if_false] at * <;>
    omega

theorem scan_kept (hsmall : s.ninodes < 65536) :
    scanLoop s (s.fp.sIsize - FsITOD s.bsize (FsINOS s.bsize s.fp.start))
        (FsITOD s.bsize (FsINOS s.bsize s.fp.start)) (FsINOS s.bsize s.fp.start)
        { s.fp with sNinode := NICINOD } =
      scanList s.free (List.range' (FsINOS s.bsize s.fp.start)
        (s.ninodes + 1 - FsINOS s.bsize s.fp.start)) { s.fp with sNinode := NICINOD } := by
  have hitod : FsITOD s.bsize (FsINOS s.bsize s.fp.start) =
      s.fp.start / FsINOPB s.bsize + 2 := by
    rw [FsINOS_eq]
    exact FsITOD_eq (FsINOPB_pos s.bsize)
  rw [hitod, FsINOS_eq]
  generalize s.fp.start / FsINOPB s.bsize = q
  have hlen : s.ninodes + 1 - (q * FsINOPB s.bsize + 1) =
      (s.fp.sIsize - (q + 2)) * FsINOPB s.bsize := by
    have hsub : s.fp.sIsize - (q + 2) = (s.fp.sIsize - 2) - q := by omega
    rw [hsub, Nat.sub_mul, Nat.add_sub_add_right]
    rfl
  rw [hlen]
  by_cases hq : s.fp.sIsize - (q + 2) = 0
  · rw [hq]
    simp [scanLoop, scanList]
  · have hsum : q + (s.fp.sIsize - (q + 2)) = s.fp.sIsize - 2 := by omega
    have hlt := ninodes_lt hsmall
    exact scanLoop_eq (by rwa [hsum])

theorem top_keep {len : Nat} (hlen : L.length = len) (h : L.drop n = l.reverse)
    (hl : ∀ x ∈ l, x ≠ 0) (hz : 0 < n → L[n - 1]? = some 0) : top L len = l := by
  subst hlen
  have hsplit : L = L.take n ++ l.reverse := by rw [← h, List.take_append_drop]
  have hnz : ∀ x ∈ l, (x != 0) = true := fun x hx => by simpa using hl x hx
  have hrev : (L.take L.length).reverse = l ++ (L.take n).reverse := by
    conv_lhs => rw [List.take_length, hsplit]
    simp
  rw [top, hrev, List.takeWhile_append_of_pos hnz]
  change l ++ top L n = l
  cases n with
  | zero => rw [top_zero, List.append_nil]
  | succ n =>
    have h0 : L[n]? = some 0 := hz n.succ_pos
    rw [top_succ h0, if_pos rfl, List.append_nil]

/- The end of the search. -/
def finish (fp : Filsys) : Filsys :=
  if 0 < fp.sNinode then
    { fp with sInode := (fp.sInode.setIfInBounds (fp.sNinode - 1).toNat 0).setIfInBounds 0 0 }
  else fp

@[simp] theorem finish_sNinode (fp : Filsys) : (finish fp).sNinode = fp.sNinode := by
  unfold finish
  split <;> rfl

theorem finish_size (fp : Filsys) :
    (finish fp).sIsize = fp.sIsize ∧ (finish fp).sTinode = fp.sTinode := by
  unfold finish
  split <;> exact ⟨rfl, rfl⟩

theorem finish_spec (hle : fp.sNinode ≤ NICINOD)
    (hdrop : fp.sInode.toList.drop fp.sNinode.toNat = l.reverse) (hl : ∀ x ∈ l, x ≠ 0) :
    top (finish fp).sInode.toList NICINOD = l ∧
    ((finish fp).start ≠ 0 → fp.sNinode ≤ 0 ∧ (finish fp).start ∈ l) := by
  have hlen : (finish fp).sInode.toList.length = NICINOD := Vector.length_toList
  by_cases hn : 0 < fp.sNinode
  · obtain ⟨m, hm⟩ : ∃ m : Nat, fp.sNinode = m + 1 := ⟨(fp.sNinode - 1).toNat, by omega⟩
    have hto : fp.sNinode.toNat = m + 1 := by omega
    have hmlt : m < fp.sInode.toList.length := by
      rw [Vector.length_toList]
      omega
    have hlist : (finish fp).sInode.toList = (fp.sInode.toList.set m 0).set 0 0 := by
      have hto' : (fp.sNinode - 1).toNat = m := by omega
      simp only [finish, if_pos hn, hto', Vector.toList_setIfInBounds]
    rw [hlist] at hlen ⊢
    refine ⟨top_keep (n := m + 1) hlen ?_ hl fun _ => ?_, fun h => absurd ?_ h⟩
    · rw [hto] at hdrop
      rw [List.drop_set_of_lt m.succ_pos, List.drop_set_of_lt m.lt_succ_self]
      exact hdrop
    · have hset : (fp.sInode.toList.set m 0)[m]? = some 0 := List.getElem?_set_self hmlt
      rw [Nat.add_sub_cancel, List.getElem?_set]
      split
      · rw [if_pos (by rw [List.length_set]; omega)]
      · exact hset
    · rw [Filsys.start, hlist]
      cases hc : fp.sInode.toList.set m 0 with
      | nil => rfl
      | cons x xs => rfl
  · have hto : fp.sNinode.toNat = 0 := by omega
    have hfin : finish fp = fp := by rw [finish, if_neg hn]
    rw [hto] at hdrop
    rw [hfin] at hlen ⊢
    refine ⟨top_keep hlen hdrop hl fun h => absurd h (lt_irrefl 0), fun _ => ⟨by omega, ?_⟩⟩
    have hpos : 0 < fp.sInode.toList.length := by
      rw [Vector.length_toList]
      decide
    have hmem : fp.start ∈ fp.sInode.toList := by
      rw [Filsys.start, List.getD_eq_getElem _ _ hpos]
      exact List.getElem_mem hpos
    rw [List.drop_zero] at hdrop
    rw [hdrop] at hmem
    exact List.mem_reverse.mp hmem

/-- What the search leaves in the super block. -/
theorem scan_spec (hsmall : s.ninodes < 65536) :
    (scan s).sNinode = NICINOD - (scanned s).length ∧
    ({ scan s with sNinode := NICINOD } : Filsys).cached = scanned s ∧
    ((scan s).start ≠ 0 → (scanned s).length = NICINOD ∧ (scan s).start ∈ scanned s) ∧
    (scan s).sIsize = s.fp.sIsize ∧ (scan s).sTinode = s.fp.sTinode := by
  have hkept := scan_kept hsmall
  obtain ⟨hnum, hdrop⟩ := @scanList_spec { s.fp with sNinode := NICINOD }
    (List.range' (FsINOS s.bsize s.fp.start) (s.ninodes + 1 - FsINOS s.bsize s.fp.start)) s.free
    (Int.natCast_nonneg NICINOD) le_rfl
  have hsize := scanList_size s.free (List.range' (FsINOS s.bsize s.fp.start)
      (s.ninodes + 1 - FsINOS s.bsize s.fp.start)) { s.fp with sNinode := NICINOD }
  rw [← hkept] at hnum hdrop hsize
  have hlong : List.drop NICINOD s.fp.sInode.toList = [] :=
    List.drop_eq_nil_of_le (le_of_eq Vector.length_toList)
  have hscanned : ((List.range' (FsINOS s.bsize s.fp.start)
      (s.ninodes + 1 - FsINOS s.bsize s.fp.start)).filter s.free).take NICINOD = scanned s := rfl
  simp only [Int.toNat_natCast, hscanned, hlong, List.append_nil] at hnum hdrop
  have hlen : (scanned s).length ≤ NICINOD := List.length_take_le _ _
  have hnz : ∀ x ∈ scanned s, x ≠ 0 := fun x hx =>
    Nat.one_le_iff_ne_zero.mp (mem_frees.mp (mem_scanned hx).1).1.1
  obtain ⟨htop, hstart⟩ := finish_spec (by omega) hdrop hnz
  refine ⟨(finish_sNinode _).trans hnum, htop, fun h => ?_, ?_⟩
  · obtain ⟨hle, hmem⟩ := hstart h
    exact ⟨by omega, hmem⟩
  · have hfin := finish_size (scanLoop s (s.fp.sIsize - FsITOD s.bsize (FsINOS s.bsize s.fp.start))
      (FsITOD s.bsize (FsINOS s.bsize s.fp.start)) (FsINOS s.bsize s.fp.start)
      { s.fp with sNinode := NICINOD })
    exact ⟨hfin.1.trans hsize.1, hfin.2.trans hsize.2⟩

end Svr32.S5
