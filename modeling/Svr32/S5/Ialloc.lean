import Svr32.S5.Alloc
import Mathlib.Data.Nat.Bitwise
import Mathlib.Data.List.Range
import Mathlib.Tactic.Linarith
import Mathlib.Tactic.Ring

/-! s5ialloc and s5ifree of fs/s5/s5alloc.c. The inodes on disk are given by their block and
their place in it; the copy in core has the same mode, and reads and writes do not fail. -/
namespace Svr32.S5

structure Dinode where
  diMode : BitVec 16
  diNlink : Nat
  diUid : Nat
  diGid : Nat
  diSize : Nat
  diAddr : Vector Int 13

structure Ifs where
  fp : Filsys
  bsize : Nat
  dino : Nat → Nat → Dinode

/- The inode of a number. -/
def Ifs.dinode (s : Ifs) (ino : Nat) : Dinode := s.dino (FsITOD s.bsize ino) (FsITOO s.bsize ino)

/- s5iupdat -/
def Ifs.s5iupdat (ino : Nat) (d : Dinode) (s : Ifs) : Ifs :=
  let adr := FsITOD s.bsize ino
  let dp := Function.update (s.dino adr) (FsITOO s.bsize ino) d
  { s with dino := Function.update s.dino adr dp }

def IFMT : BitVec 16 := 0xF000
def IFCHR : BitVec 16 := 0x2000
def IFBLK : BitVec 16 := 0x6000

/- The arguments of s5ialloc, and the user. -/
structure Iargs where
  mode : BitVec 16
  nlink : Nat
  rdev : Int
  uid : Nat
  gid : Nat

def Iargs.dinode (a : Iargs) : Dinode where
  diMode := a.mode
  diNlink := a.nlink
  diUid := a.uid
  diGid := a.gid
  diSize := 0
  diAddr :=
    if a.mode &&& IFMT = IFCHR ∨ a.mode &&& IFMT = IFBLK then
      (Vector.replicate 13 0).setIfInBounds 0 a.rdev
    else Vector.replicate 13 0

/- An inode, NULL from iget, or ENOSPC. -/
inductive Ires
  | got (ino : Nat)
  | enfile
  | enospc
deriving DecidableEq, Repr

/- Found inode: update now to avoid races. -/
def claim (ino : Nat) (a : Iargs) (s : Ifs) : Ifs :=
  let s := s.s5iupdat ino a.dinode
  let fp := if s.fp.sTinode ≠ 0 then { s.fp with sTinode := s.fp.sTinode - 1 } else s.fp
  { s with fp := { fp with sFmod := true } }

/- The numbers in the super block, the last first; `ok` says for which iget has room. Nothing
   comes of it when there is none, or a 0. -/
def iallocPop (ok : Nat → Bool) (a : Iargs) : Nat → Ifs → Option (Option Ires × Ifs)
  | 0, s => some (none, s)
  | n + 1, s => do
    let ino ← s.fp.sInode[n]?
    let s := { s with fp := { s.fp with sNinode := n } }
    if ino = 0 then return (none, s)
    else if !ok ino then return (some .enfile, s)
    else if (s.dinode ino).diMode = 0 then return (some (.got ino), claim ino a s)
    else iallocPop ok a n s

/- fp->s_inode[--fp->s_ninode] = ino -/
def keepIno (ino : Nat) (fp : Filsys) : Filsys :=
  { fp with
    sNinode := fp.sNinode - 1
    sInode := fp.sInode.setIfInBounds (fp.sNinode - 1).toNat ino }

/- The inodes of a block from the place `i` on; `ino` is unsigned short. -/
def scanBlock (blk : Nat → Dinode) : Nat → Nat → Nat → Filsys → Nat × Filsys
  | 0, _, ino, fp => (ino, fp)
  | r + 1, i, ino, fp =>
    if fp.sNinode ≤ 0 then (ino, fp)
    else scanBlock blk r (i + 1) ((ino + 1) % 65536)
      (if (blk i).diMode = 0 then keepIno ino fp else fp)

/- for (adr = FsITOD(mp->m_bsize, ino); adr < fp->s_isize; adr++) -/
def scanLoop (s : Ifs) : Nat → Nat → Nat → Filsys → Filsys
  | 0, _, _, fp => fp
  | r + 1, adr, ino, fp =>
    let (ino, fp) := scanBlock (s.dino adr) (FsINOPB s.bsize) 0 ino fp
    if fp.sNinode ≤ 0 then fp else scanLoop s r (adr + 1) ino fp

/- The linear search through the i-list. -/
def scan (s : Ifs) : Filsys :=
  let ino := FsINOS s.bsize (s.fp.sInode.toList.getD 0 0)
  let adr := FsITOD s.bsize ino
  let fp := scanLoop s (s.fp.sIsize - adr) adr ino { s.fp with sNinode := NICINOD }
  if 0 < fp.sNinode then
    { fp with sInode := (fp.sInode.setIfInBounds (fp.sNinode - 1).toNat 0).setIfInBounds 0 0 }
  else fp

/- Out of inodes. -/
def noInode (fp : Filsys) (s : Ifs) : Ires × Ifs :=
  (.enospc, { s with fp := { fp with sNinode := 0, sTinode := 0 } })

/- s5ialloc, and how often it may start again. -/
def iallocLoop (ok : Nat → Bool) (a : Iargs) : Nat → Ifs → Option (Ires × Ifs)
  | 0, _ => none
  | fuel + 1, s => do
    let (r, s) ← iallocPop ok a s.fp.sNinode.toNat s
    match r with
    | some r => return (r, s)
    | none =>
      if 0 < s.fp.sTinode then
        let fp := scan s
        if fp.sNinode ≠ (NICINOD : Int) then
          iallocLoop ok a fuel { s with fp := { fp with sNinode := NICINOD } }
        else return noInode fp s
      else return noInode s.fp s

/-- s5ialloc -/
def s5ialloc (ok : Nat → Bool) (a : Iargs) (s : Ifs) : Option (Ires × Ifs) := iallocLoop ok a 2 s

/-- s5ifree: the number is remembered if there is room, or if the search is to start there. -/
def s5ifree (ino : Nat) (s : Ifs) : Ifs :=
  if (s.dinode ino).diMode = 0 then s
  else
    let s := s.s5iupdat ino { s.dinode ino with diMode := 0 }
    let fp := { s.fp with sTinode := (s.fp.sTinode + 1) % 65536, sFmod := true }
    if (NICINOD : Int) ≤ fp.sNinode then
      if ino < fp.sInode.toList.getD 0 0 then
        { s with fp := { fp with sInode := fp.sInode.setIfInBounds 0 ino } }
      else { s with fp := fp }
    else
      { s with fp := { fp with
        sInode := fp.sInode.setIfInBounds fp.sNinode.toNat ino, sNinode := fp.sNinode + 1 } }

end Svr32.S5

/-! The linear search through the i-list finds the free inodes from its start on, in order. -/
namespace Svr32.S5
variable {s : Ifs} {fp : Filsys} {bsize adr i r x n : Nat} {xs ys L : List Nat} {p : Nat → Bool}

/- The number of inodes. -/
def Ifs.ninodes (s : Ifs) : Nat := (s.fp.sIsize - 2) * FsINOPB s.bsize

theorem FsINOPB_pos (bsize : Nat) : 0 < FsINOPB bsize := by
  unfold FsINOPB
  split <;> omega

/-- The inodes of the block `adr`. -/
theorem FsITOD_eq (hi : i < FsINOPB bsize) :
    FsITOD bsize (adr * FsINOPB bsize + i + 1) = adr + 2 := by
  unfold FsITOD
  unfold FsINOPB at *
  by_cases h : FsLRG bsize <;> simp only [h, if_true, Bool.false_eq_true, if_false,
    Nat.shiftRight_eq_div_pow] at * <;> omega

theorem FsITOO_eq (hi : i < FsINOPB bsize) :
    FsITOO bsize (adr * FsINOPB bsize + i + 1) = i := by
  have h15 : ∀ y : Nat, y &&& 15 = y % 16 := fun y => Nat.and_two_pow_sub_one_eq_mod y 4
  have h7 : ∀ y : Nat, y &&& 7 = y % 8 := fun y => Nat.and_two_pow_sub_one_eq_mod y 3
  unfold FsITOO
  unfold FsINOPB at *
  by_cases h : FsLRG bsize <;> simp only [h, if_true, Bool.false_eq_true, if_false, h15,
    h7] at * <;> omega

/-- The search starts with the first inode of a block. -/
theorem FsINOS_eq (bsize x : Nat) :
    FsINOS bsize x = x / FsINOPB bsize * FsINOPB bsize + 1 := by
  unfold FsINOS FsINOPB
  split <;> omega

theorem FsINOS_le (bsize x : Nat) : FsINOS bsize x ≤ x + 1 := by
  rw [FsINOS_eq]
  have h := Nat.div_mul_le_self x (FsINOPB bsize)
  omega

theorem FsINOS_mono {y : Nat} (h : x ≤ y) : FsINOS bsize x ≤ FsINOS bsize y := by
  rw [FsINOS_eq, FsINOS_eq]
  exact Nat.succ_le_succ (Nat.mul_le_mul_right _ (Nat.div_le_div_right h))

/- The search over a list of numbers. -/
def scanList (p : Nat → Bool) : List Nat → Filsys → Filsys
  | [], fp => fp
  | x :: xs, fp =>
    if fp.sNinode ≤ 0 then fp else scanList p xs (if p x then keepIno x fp else fp)

theorem scanList_done (h : fp.sNinode ≤ 0) : scanList p xs fp = fp := by
  cases xs with
  | nil => rfl
  | cons x xs => rw [scanList, if_pos h]

theorem scanList_append : scanList p (xs ++ ys) fp = scanList p ys (scanList p xs fp) := by
  induction xs generalizing fp with
  | nil => rfl
  | cons x xs ih =>
    rw [List.cons_append, scanList, scanList]
    by_cases h : fp.sNinode ≤ 0
    · rw [if_pos h, if_pos h, scanList_done h]
    · rw [if_neg h, if_neg h, ih]

@[simp] theorem keepIno_size (x : Nat) (fp : Filsys) :
    (keepIno x fp).sIsize = fp.sIsize ∧ (keepIno x fp).sTinode = fp.sTinode := ⟨rfl, rfl⟩

theorem scanList_size (p : Nat → Bool) (xs : List Nat) (fp : Filsys) :
    (scanList p xs fp).sIsize = fp.sIsize ∧ (scanList p xs fp).sTinode = fp.sTinode := by
  induction xs generalizing fp with
  | nil => exact ⟨rfl, rfl⟩
  | cons x xs ih =>
    rw [scanList]
    split
    · exact ⟨rfl, rfl⟩
    · rw [(ih _).1, (ih _).2]
      split <;> exact ⟨rfl, rfl⟩

theorem keepIno_drop (h : 0 < fp.sNinode) (hle : fp.sNinode ≤ NICINOD) :
    (keepIno x fp).sInode.toList.drop (keepIno x fp).sNinode.toNat =
      x :: fp.sInode.toList.drop fp.sNinode.toNat := by
  have hle' : fp.sNinode ≤ 100 := hle
  obtain ⟨k, hk⟩ : ∃ k : Nat, fp.sNinode = k + 1 := ⟨(fp.sNinode - 1).toNat, by omega⟩
  have hlen : k < fp.sInode.toList.length := by
    rw [Vector.length_toList]
    exact (by omega : k < 100)
  have hto : fp.sNinode.toNat = k + 1 := by omega
  have hto' : (fp.sNinode - 1).toNat = k := by omega
  simp only [keepIno, hto, hto', Vector.toList_setIfInBounds]
  rw [List.drop_eq_getElem_cons (by simpa using hlen), List.getElem_set_self,
    List.drop_set_of_lt (Nat.lt_succ_self k)]

/-- The search keeps the first numbers that it finds. -/
theorem scanList_spec (h : 0 ≤ fp.sNinode) (hle : fp.sNinode ≤ NICINOD) :
    (scanList p xs fp).sNinode = fp.sNinode - ((xs.filter p).take fp.sNinode.toNat).length ∧
    (scanList p xs fp).sInode.toList.drop (scanList p xs fp).sNinode.toNat =
      ((xs.filter p).take fp.sNinode.toNat).reverse ++
        fp.sInode.toList.drop fp.sNinode.toNat := by
  induction xs generalizing fp with
  | nil => simp [scanList]
  | cons x xs ih =>
    rw [scanList]
    by_cases hn : fp.sNinode ≤ 0
    · have hz : fp.sNinode.toNat = 0 := by omega
      rw [if_pos hn, hz]
      simp
    · rw [if_neg hn]
      by_cases hx : p x
      · obtain ⟨k, hk⟩ : ∃ k : Nat, fp.sNinode = k + 1 := ⟨(fp.sNinode - 1).toNat, by omega⟩
        have hkeep : (keepIno x fp).sNinode = k := by
          simp only [keepIno]
          omega
        obtain ⟨hnum, hdrop⟩ := @ih (keepIno x fp) (by omega) (by omega)
        have hto : fp.sNinode.toNat = k + 1 := by omega
        have hto' : (keepIno x fp).sNinode.toNat = k := by omega
        have hfirst := keepIno_drop (x := x) (by omega) hle
        rw [hto', hto] at hfirst
        rw [if_pos hx, hdrop, hnum, hto', hto, hfirst, List.filter_cons_of_pos hx,
          List.take_succ_cons, hkeep, hk]
        refine ⟨?_, by simp⟩
        rw [List.length_cons]
        omega
      · rw [if_neg hx, List.filter_cons_of_neg hx]
        exact ih h hle

/- Which inodes are free on disk. -/
def Ifs.free (s : Ifs) (x : Nat) : Bool := (s.dinode x).diMode = 0

theorem dinode_eq (s : Ifs) (hi : i < FsINOPB s.bsize) :
    s.dinode (adr * FsINOPB s.bsize + i + 1) = s.dino (adr + 2) i := by
  rw [Ifs.dinode, FsITOD_eq hi, FsITOO_eq hi]

/-- One block is searched. -/
theorem scanBlock_eq (hr : i + r = FsINOPB s.bsize)
    (hlt : adr * FsINOPB s.bsize + FsINOPB s.bsize + 1 < 65536) :
    (scanBlock (s.dino (adr + 2)) r i (adr * FsINOPB s.bsize + i + 1) fp).2 =
      scanList s.free (List.range' (adr * FsINOPB s.bsize + i + 1) r) fp ∧
    (0 < (scanBlock (s.dino (adr + 2)) r i (adr * FsINOPB s.bsize + i + 1) fp).2.sNinode →
      (scanBlock (s.dino (adr + 2)) r i (adr * FsINOPB s.bsize + i + 1) fp).1 =
        adr * FsINOPB s.bsize + FsINOPB s.bsize + 1) := by
  induction r generalizing i fp with
  | zero =>
    refine ⟨rfl, fun _ => ?_⟩
    rw [scanBlock]
    omega
  | succ r ih =>
    rw [scanBlock, List.range'_succ, scanList]
    by_cases hn : fp.sNinode ≤ 0
    · rw [if_pos hn, if_pos hn]
      exact ⟨rfl, fun h => absurd h (Int.not_lt.mpr hn)⟩
    · have hmod : (adr * FsINOPB s.bsize + i + 1 + 1) % 65536 =
          adr * FsINOPB s.bsize + (i + 1) + 1 := by omega
      have hfree : s.free (adr * FsINOPB s.bsize + i + 1) =
          decide ((s.dino (adr + 2) i).diMode = 0) := by
        rw [Ifs.free, dinode_eq s (by omega)]
      rw [if_neg hn, if_neg hn, hmod, hfree]
      simp only [decide_eq_true_eq]
      exact ih (by omega)

/-- The search over the blocks is one over the numbers. -/
theorem scanLoop_eq (hlt : (adr + r) * FsINOPB s.bsize + 1 < 65536) :
    scanLoop s r (adr + 2) (adr * FsINOPB s.bsize + 1) fp =
      scanList s.free (List.range' (adr * FsINOPB s.bsize + 1) (r * FsINOPB s.bsize)) fp := by
  induction r generalizing adr fp with
  | zero => simp [scanLoop, scanList]
  | succ r ih =>
    have hmul : (adr + (r + 1)) * FsINOPB s.bsize =
        adr * FsINOPB s.bsize + FsINOPB s.bsize + r * FsINOPB s.bsize := by ring
    obtain ⟨hfp, hino⟩ := (@scanBlock_eq s fp adr 0 (FsINOPB s.bsize)) (by omega) (by omega)
    simp only [Nat.add_zero] at hfp hino
    have hsplit : List.range' (adr * FsINOPB s.bsize + 1) ((r + 1) * FsINOPB s.bsize) =
        List.range' (adr * FsINOPB s.bsize + 1) (FsINOPB s.bsize) ++
          List.range' ((adr + 1) * FsINOPB s.bsize + 1) (r * FsINOPB s.bsize) := by
      rw [show (r + 1) * FsINOPB s.bsize = FsINOPB s.bsize + r * FsINOPB s.bsize by ring,
        ← List.range'_append_1, show (adr + 1) * FsINOPB s.bsize + 1 =
          adr * FsINOPB s.bsize + 1 + FsINOPB s.bsize by ring]
    rw [hsplit, scanList_append, ← hfp, scanLoop]
    simp only
    by_cases hn : (scanBlock (s.dino (adr + 2)) (FsINOPB s.bsize) 0
        (adr * FsINOPB s.bsize + 1) fp).2.sNinode ≤ 0
    · rw [if_pos hn, scanList_done hn]
    · have hnext := hino (by omega)
      have hone : adr * FsINOPB s.bsize + FsINOPB s.bsize = (adr + 1) * FsINOPB s.bsize := by ring
      rw [if_neg hn, hnext, hone]
      exact @ih _ (adr + 1) (by rw [hmul] at hlt; linarith)

end Svr32.S5
