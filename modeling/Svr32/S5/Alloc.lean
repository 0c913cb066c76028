import Mathlib.Logic.Function.Basic
import Mathlib.Data.List.Nodup

/-! The super block of fs/s5, and the macros of sys/fs/s5macros.h for both block sizes. -/
namespace Svr32.S5

def NICFREE : Nat := 50
def NICINOD : Nat := 100

/- What allocation keeps in the super block. -/
structure Filsys where
  sIsize : Nat
  sFsize : Int
  sNfree : Int
  sFree : Vector Int NICFREE
  sNinode : Int
  sInode : Vector Nat NICINOD
  sFmod : Bool
  sTfree : Int
  sTinode : Nat

/- Conversion to short. -/
def toShort (n : Int) : Int := (BitVec.ofInt 16 n).toInt

def FsLRG (bsize : Nat) : Bool := bsize = 1024

def FsNINDIR (bsize : Nat) : Nat := if FsLRG bsize then 256 else 128

def FsNMASK (bsize : Nat) : Nat := if FsLRG bsize then 255 else 127

def FsNSHIFT (bsize : Nat) : Nat := if FsLRG bsize then 8 else 7

def FsINOPB (bsize : Nat) : Nat := if FsLRG bsize then 16 else 8

/- The block of an inode. -/
def FsITOD (bsize x : Nat) : Nat := if FsLRG bsize then (x + 31) >>> 4 else (x + 15) >>> 3

/- The place of an inode in its block. -/
def FsITOO (bsize x : Nat) : Nat := if FsLRG bsize then (x + 31) &&& 15 else (x + 15) &&& 7

/- (x & ~017) + 1, and (x & ~07) + 1. -/
def FsINOS (bsize x : Nat) : Nat := if FsLRG bsize then x - x % 16 + 1 else x - x % 8 + 1

/-- s5badblock -/
def s5badblock (fp : Filsys) (bn : Int) : Bool := bn < fp.sIsize || bn ≥ fp.sFsize

end Svr32.S5

/-! s5alloc and s5free of fs/s5/s5alloc.c. A file system is its super block and, for each block
number, what the block has as a part of the free list; reads and writes of blocks do not fail. -/
namespace Svr32.S5

structure Fblk where
  dfNfree : Int
  dfFree : Vector Int NICFREE

structure Fs where
  fp : Filsys
  blk : Int → Fblk

/- A cleared block. -/
def clrbuf : Fblk := ⟨0, Vector.replicate NICFREE 0⟩

/- do { bno = fp->s_free[--fp->s_nfree]; } while (s5badblock(fp, bno, dev)); -/
def takeFree : Nat → Filsys → Option (Option Int × Filsys)
  | 0, fp => some (none, fp)
  | n + 1, fp => do
    let bno ← fp.sFree[n]?
    let fp := { fp with sNfree := n }
    if bno = 0 then return (none, fp)
    else if s5badblock fp bno then takeFree n fp
    else return (some bno, fp)

/- fp->s_nfree = 0; fp->s_tfree = 0; -/
def nospace (fp : Filsys) (s : Fs) : Option Int × Fs :=
  (none, { s with fp := { fp with sNfree := 0, sTfree := 0 } })

/- The next part of the list is in the block that is taken. -/
def refill (bno : Int) (fp : Filsys) (s : Fs) : Filsys :=
  if fp.sNfree ≤ 0 then
    { fp with sNfree := toShort (s.blk bno).dfNfree, sFree := (s.blk bno).dfFree }
  else fp

/-- s5alloc: a block, or ENOSPC. -/
def s5alloc (s : Fs) : Option (Option Int × Fs) := do
  let (r, fp) ← takeFree s.fp.sNfree.toNat s.fp
  match r with
  | none => return nospace fp s
  | some bno =>
    let fp := refill bno fp s
    if fp.sNfree ≤ 0 ∨ NICFREE < fp.sNfree then return nospace fp s
    else
      let fp := if fp.sTfree ≠ 0 then { fp with sTfree := fp.sTfree - 1 } else fp
      return (some bno,
        { s with fp := { fp with sFmod := true }, blk := Function.update s.blk bno clrbuf })

/- An empty array gets the 0 that ends the list. -/
def startFree (fp : Filsys) : Filsys :=
  if fp.sNfree ≤ 0 then { fp with sNfree := 1, sFree := fp.sFree.setIfInBounds 0 0 } else fp

/- A full array goes into the block that is freed. -/
def spill (bno : Int) (s : Fs) : Fs :=
  if NICFREE ≤ s.fp.sNfree then
    { s with
      fp := { s.fp with sNfree := 0 }
      blk := Function.update s.blk bno ⟨s.fp.sNfree, s.fp.sFree⟩ }
  else s

/-- s5free -/
def s5free (bno : Int) (s : Fs) : Fs :=
  if s5badblock s.fp bno then { s with fp := { s.fp with sFmod := true } }
  else
    let s := spill bno { s with fp := startFree s.fp }
    { s with fp := { s.fp with
      sFree := s.fp.sFree.setIfInBounds s.fp.sNfree.toNat bno
      sNfree := s.fp.sNfree + 1
      sTfree := s.fp.sTfree + 1
      sFmod := true } }

end Svr32.S5

/-! The free list is a stack: s_free has its top, and each part of it that did not fit is in the
block under that part. -/
namespace Svr32.S5
variable {blk blk' : Int → Fblk} {fp : Filsys} {s : Fs} {v : Vector Int NICFREE} {l : List Int}
  {b c m : Int} {n : Nat}

/- The blocks that the array with `m` entries and the chain of df_free lead to. -/
inductive OnList (blk : Int → Fblk) : Int → Vector Int NICFREE → Int → Prop
  | here {m : Int} {v : Vector Int NICFREE} {i : Nat} {b : Int} : (i : Int) < m → v[i]? = some b →
    b ≠ 0 → OnList blk m v b
  | next {m : Int} {v : Vector Int NICFREE} {c b : Int} : 0 < m → v[0]? = some c → c ≠ 0 →
    OnList blk (blk c).dfNfree (blk c).dfFree b → OnList blk m v b

def Fs.OnList (s : Fs) (b : Int) : Prop := S5.OnList s.blk s.fp.sNfree s.fp.sFree b

/- The entries above the lowest one, the last first. -/
def above (v : Vector Int NICFREE) (n : Nat) : List Int := (v.toList.tail.take n).reverse

/- An array with `m` entries, and the blocks it leads to, in the order of allocation. -/
inductive Chunk (blk : Int → Fblk) : Int → Vector Int NICFREE → List Int → Prop
  | last {v : Vector Int NICFREE} {n : Nat} : n < NICFREE → v[0]? = some 0 →
    Chunk blk (n + 1) v (above v n)
  | more {v : Vector Int NICFREE} {n : Nat} {c : Int} {l : List Int} : n < NICFREE →
    v[0]? = some c → c ≠ 0 → Chunk blk (blk c).dfNfree (blk c).dfFree l →
    Chunk blk (n + 1) v (above v n ++ c :: l)

theorem Chunk.count (h : Chunk blk m v l) : 0 < m ∧ m ≤ NICFREE := by
  cases h with
  | last hn _ => omega
  | more hn _ _ _ => omega

theorem Chunk.inv (h : Chunk blk m v l) : ∃ n : Nat, n < NICFREE ∧ m = n + 1 ∧
    ((v[0]? = some 0 ∧ l = above v n) ∨ ∃ c l', v[0]? = some c ∧ c ≠ 0 ∧
      Chunk blk (blk c).dfNfree (blk c).dfFree l' ∧ l = above v n ++ c :: l') := by
  cases h with
  | @last v n hn h0 => exact ⟨n, hn, rfl, .inl ⟨h0, rfl⟩⟩
  | @more v n c l hn h0 hc hrest => exact ⟨n, hn, rfl, .inr ⟨c, l, h0, hc, hrest, rfl⟩⟩

theorem Chunk.congr (h : Chunk blk m v l) (hb : ∀ b ∈ l, blk' b = blk b) : Chunk blk' m v l := by
  induction h with
  | last hn h0 => exact .last hn h0
  | @more v n c l hn h0 hc _ ih =>
    refine .more hn h0 hc ?_
    rw [hb c (by simp)]
    exact ih fun b hm => hb b (by simp [hm])

theorem tail_getElem? (v : Vector Int NICFREE) (n : Nat) : v.toList.tail[n]? = v[n + 1]? := by
  rw [List.getElem?_tail, Vector.getElem?_toList]

theorem above_succ (h : v[n + 1]? = some b) : above v (n + 1) = b :: above v n := by
  have hb : v.toList.tail[n]? = some b := (tail_getElem? v n).trans h
  rw [above, List.take_add_one, hb, List.reverse_append]
  rfl

theorem mem_above : b ∈ above v n ↔ ∃ i, i < n ∧ v[i + 1]? = some b := by
  rw [above, List.mem_reverse, List.mem_iff_getElem?]
  constructor
  · intro hb
    obtain ⟨i, hi⟩ := hb
    by_cases hin : i < n
    · rw [List.getElem?_take_of_lt hin, tail_getElem?] at hi
      exact ⟨i, hin, hi⟩
    · rw [List.getElem?_take_eq_none (Nat.le_of_not_lt hin)] at hi
      cases hi
  · intro hb
    obtain ⟨i, hin, hi⟩ := hb
    exact ⟨i, by rw [List.getElem?_take_of_lt hin, tail_getElem?, hi]⟩

theorem above_congr {v' : Vector Int NICFREE} (h : ∀ i, i < n → v'[i + 1]? = v[i + 1]?) :
    above v' n = above v n := by
  have htake : v'.toList.tail.take n = v.toList.tail.take n := by
    apply List.ext_getElem?
    intro i
    by_cases hi : i < n
    · rw [List.getElem?_take_of_lt hi, List.getElem?_take_of_lt hi, tail_getElem?, tail_getElem?,
        h i hi]
    · rw [List.getElem?_take_eq_none (Nat.le_of_not_lt hi),
        List.getElem?_take_eq_none (Nat.le_of_not_lt hi)]
  rw [above, above, htake]

/-- What the array leads to are the blocks of the list. -/
theorem Chunk.onList (h : Chunk blk m v l) (hl : ∀ b ∈ l, b ≠ 0) : OnList blk m v b ↔ b ∈ l := by
  induction h with
  | @last v n hn h0 =>
    constructor
    · intro hb
      cases hb with
      | @here m v i b hi hv hb =>
        cases i with
        | zero =>
          cases h0.symm.trans hv
          exact absurd rfl hb
        | succ i => exact mem_above.mpr ⟨i, by omega, hv⟩
      | next _ hc hne _ =>
        cases h0.symm.trans hc
        exact absurd rfl hne
    · intro hb
      obtain ⟨i, hi, hv⟩ := mem_above.mp hb
      exact .here (by omega) hv (hl b hb)
  | @more v n c l hn h0 hc hrest ih =>
    have hrest' := ih fun b hb => hl b (by simp [hb])
    constructor
    · intro hb
      cases hb with
      | @here m v i b hi hv hb =>
        cases i with
        | zero =>
          cases h0.symm.trans hv
          simp
        | succ i => exact List.mem_append_left _ (mem_above.mpr ⟨i, by omega, hv⟩)
      | next _ hc' _ hb =>
        cases h0.symm.trans hc'
        simp [hrest'.mp hb]
    · intro hb
      rcases List.mem_append.mp hb with hb | hb
      · obtain ⟨i, hi, hv⟩ := mem_above.mp hb
        exact .here (by omega) hv (hl b (by simp [hb]))
      · rcases List.mem_cons.mp hb with rfl | hb
        · exact .here (i := 0) (by omega) h0 hc
        · exact .next (by omega) h0 hc (hrest'.mpr hb)

/- The free list has the blocks `l`, and all of them are between the i-list and the end. -/
structure FreeList (s : Fs) (l : List Int) : Prop where
  array : (s.fp.sNfree = 0 ∧ l = []) ∨ Chunk s.blk s.fp.sNfree s.fp.sFree l
  nodup : l.Nodup
  range : ∀ b ∈ l, s5badblock s.fp b = false
  isize : 0 < s.fp.sIsize

theorem range_pos (h : s5badblock fp b = false) : (fp.sIsize : Int) ≤ b := by
  simp only [s5badblock, Bool.or_eq_false_iff, decide_eq_false_iff_not] at h
  omega

theorem FreeList.ne_zero (h : FreeList s l) : ∀ b ∈ l, b ≠ 0 := by
  intro b hb
  have hle := range_pos (h.range b hb)
  have hpos := h.isize
  omega

theorem FreeList.onList (h : FreeList s l) : s.OnList b ↔ b ∈ l := by
  rcases h.array with ⟨hn, rfl⟩ | hc
  · constructor
    · intro hb
      rw [Fs.OnList, hn] at hb
      cases hb with
      | here hi _ _ => omega
      | next hi _ _ _ => omega
    · nofun
  · exact hc.onList h.ne_zero

theorem FreeList.count (h : FreeList s l) : 0 ≤ s.fp.sNfree ∧ s.fp.sNfree ≤ NICFREE := by
  rcases h.array with ⟨hn, -⟩ | hc
  · simp [hn]
  · have hcount := hc.count
    omega

end Svr32.S5
