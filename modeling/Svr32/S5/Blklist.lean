import Svr32.S5.Alloc
import Svr32.Lib.Word
import Mathlib.Data.List.Range

/-! The two ways to the blocks of a file: the block number list of fs/s5/s5blklist.c, and s5bmap of
fs/s5/s5subr.c when it reads. Reads of blocks do not fail, and memory for a list is there. What is
kept for read-ahead only is left out. -/
namespace Svr32.S5.Blklist
open Svr32.Lib

def NADDR : Nat := 13
def NBPP : Nat := 2048

def FsBSHIFT (bsize : Nat) : Nat := if FsLRG bsize then 10 else 9

/- A regular file, and the blocks of its device. -/
structure File where
  bsize : Nat
  iSize : Int
  s5iAddr : Nat → Int
  byte : Int → Nat → BitVec 8
  bsize_eq : bsize = 512 ∨ bsize = 1024
  size_nonneg : 0 ≤ iSize
  size_lt : iSize < 2 ^ 31

/- b_words of a buffer. -/
def File.words (f : File) (b : Int) (i : Nat) : Int :=
  i32 ((f.byte b (4 * i)).toNat * 2 ^ 24 + (f.byte b (4 * i + 1)).toNat * 2 ^ 16 +
    (f.byte b (4 * i + 2)).toNat * 2 ^ 8 + (f.byte b (4 * i + 3)).toNat)

/- while (cnt-- && lp < eptr), from the word `i` on; `room` is eptr - lp, and `entry` what is put
down for a word. -/
def bldLoop (entry : Int → Nat → List Int) (bnptr : Nat → Int) : Nat → Nat → Nat → List Int
  | 0, _, _ => []
  | cnt + 1, i, room =>
    if room = 0 then []
    else
      let got := entry (bnptr i) room
      got ++ bldLoop entry bnptr cnt (i + 1) (room - got.length)

/- What s5bldindr puts at lp. -/
def s5bldindr (f : File) : Nat → Int → Nat → List Int
  | 0, blknbr, room => bldLoop (fun bn _ => [bn]) (f.words blknbr) (FsNINDIR f.bsize) 0 room
  | indlvl + 1, blknbr, room =>
    bldLoop (s5bldindr f indlvl) (f.words blknbr) (FsNINDIR f.bsize) 0 room

/- while (lp < eptr); each turn puts at least one number down. -/
def bldblkLoop (f : File) : Nat → Nat → Nat → List Int
  | 0, _, _ => []
  | fuel + 1, i, room =>
    if room = 0 then []
    else
      let got := s5bldindr f (i - 10) (f.s5iAddr i) room
      got ++ bldblkLoop f fuel (i + 1) (room - got.length)

/- What s5bldblklst puts at lp. -/
def s5bldblklst (f : File) (nblks : Int) : List Int :=
  let lim := if nblks < 10 then nblks else 10
  (List.range lim.toNat).map f.s5iAddr ++ bldblkLoop f nblks.toNat 10 (nblks - 10).toNat

/- ctos: page tables for `x` words. -/
def ctos (x : Int) : Int := (x + 63) / 64

/- uptalloc: page tables of 64 words, cleared. -/
def uptalloc (npgtbls : Int) : Option (List Int) :=
  if npgtbls ≤ 0 then none else some (List.replicate (npgtbls.toNat * 64) 0)

/- while (i%blkspp != 0) -/
def padLoop (blkspp : Int) : Nat → Int → Nat → List Int → List Int
  | 0, _, _, l => l
  | fuel + 1, i, bnptr, l =>
    if i.tmod blkspp ≠ 0 then padLoop blkspp fuel (i + 1) (bnptr + 1) (l.set bnptr (-1)) else l

def File.blkspp (f : File) : Int := (NBPP / f.bsize : Nat)

/- s5allocmap; s5bldblklst leaves bnptr where it is. -/
def s5allocmap (f : File) : Option (List Int) :=
  let nblks := (i32 (f.iSize + f.bsize - 1)).tdiv f.bsize
  let i := (nblks + f.blkspp - 1).tdiv f.blkspp * f.blkspp
  (uptalloc (ctos i)).map fun l =>
    let put := s5bldblklst f nblks
    padLoop f.blkspp f.blkspp.toNat i 0 (put ++ l.drop put.length)

inductive Errno where
  | einval
  | efbig
deriving DecidableEq, Repr

/- The levels of indirection: for (j = 3; j > 0; j--), with what is left of j, sh and bn. -/
def bmapLevel (nshift : Nat) : Nat → Nat → Nat → Nat → Nat × Nat × Nat
  | 0, sh, _, bn => (0, sh, bn)
  | j + 1, sh, nb, bn =>
    let sh := sh + nshift
    let nb := nb <<< nshift
    if bn < nb then (j + 1, sh, bn) else bmapLevel nshift j sh nb (bn - nb)

/- for (; j <= 3; j++), through as many indirect blocks. -/
def bmapIndir (f : File) : Nat → Nat → Nat → Int → Int
  | 0, _, _, nb => nb
  | n + 1, sh, bn, nb =>
    let sh := sh - FsNSHIFT f.bsize
    let i := (bn >>> sh) &&& FsNMASK f.bsize
    let nb := f.words nb i
    if nb = 0 then -1 else bmapIndir f n sh bn nb

/- s5bmap from the block `bn` on. -/
def bmapBlock (f : File) (bn : Nat) : Except Errno Int :=
  if bn < NADDR - 3 then
    let nb := f.s5iAddr bn
    if nb = 0 then .ok (-1) else .ok nb
  else
    match bmapLevel (FsNSHIFT f.bsize) 3 0 1 (bn - (NADDR - 3)) with
    | (0, _, _) => .error .efbig
    | (j + 1, sh, bn) =>
      let nb := f.s5iAddr (NADDR - (j + 1))
      if nb = 0 then .ok (-1) else .ok (bmapIndir f (3 - j) sh bn nb)

structure Bmap where
  nb : Int
  pboff : Int
  pbsize : Int
deriving DecidableEq, Repr

/- s5bmap(ip, B_READ) with u_offset and u_count. -/
def s5bmap (f : File) (offset count : Int) : Except Errno Bmap :=
  let bn := offset >>> FsBSHIFT f.bsize
  if bn < 0 then .error .efbig
  else
    let pboff := offset % 2 ^ FsBSHIFT f.bsize
    let sz := f.bsize - pboff
    let sz := if count < sz then count else sz
    let rem := f.iSize - offset
    let rem := if rem < 0 then 0 else rem
    let sz := if rem < sz then rem else sz
    if sz = 0 then .ok ⟨-1, pboff, sz⟩
    else do
      let nb ← bmapBlock f bn.toNat
      pure ⟨nb, pboff, sz⟩

/- `n` bytes of a block, from `on`; a cleared buffer where there is no block. -/
def File.bytes (f : File) (bn : Option Int) (on n : Nat) : List (BitVec 8) :=
  (List.range n).map fun t =>
    match bn with
    | none => 0
    | some b => f.byte b (on + t)

/- The loop of s5readi for a regular file; each turn reads at least one byte. -/
def readiLoop (f : File) : Nat → Int → Int → List (BitVec 8) × Option Errno
  | 0, _, _ => ([], none)
  | fuel + 1, offset, count =>
    match s5bmap f offset count with
    | .error e => ([], some e)
    | .ok m =>
      if m.pbsize = 0 then ([], none)
      else
        let got := f.bytes (if m.nb < 0 then none else some m.nb) m.pboff.toNat m.pbsize.toNat
        if count - m.pbsize = 0 then (got, none)
        else
          let r := readiLoop f fuel (offset + m.pbsize) (count - m.pbsize)
          (got ++ r.1, r.2)

/- s5readi on a file without mandatory locks: the bytes at u_base, and u_error. -/
def s5readi (f : File) (offset count : Int) : List (BitVec 8) × Option Errno :=
  if count = 0 then ([], none)
  else if offset < 0 then ([], some .einval)
  else readiLoop f count.toNat offset count

/- while (size > 0), at the entry `i` of the list; none when it leaves the list. -/
def readmapLoop (f : File) (l : List Int) : Nat → Nat → Nat → Nat → Option (List (BitVec 8))
  | 0, _, _, _ => some []
  | fuel + 1, i, on, size =>
    if size = 0 then some []
    else
      l[i]?.bind fun bn =>
        if bn = -1 then some []
        else
          let n := if f.bsize - on > size then size else f.bsize - on
          (readmapLoop f l fuel (i + 1) 0 (size - n)).map
            (f.bytes (if bn = 0 then none else some bn) on n ++ ·)

/- s5readmap: the bytes at vaddr, and what it returns. -/
def s5readmap (f : File) (l : List Int) (offset size : Int) :
    Option (List (BitVec 8) × Int) :=
  if offset > f.iSize then some ([], -1)
  else
    let size := if i32 (offset + size) > f.iSize then f.iSize - offset else size
    let i := offset.tdiv f.bsize
    let on := offset - i * f.bsize
    (readmapLoop f l size.toNat i.toNat on.toNat size.toNat).map (·, size)

end Svr32.S5.Blklist

/-! The block tree: what each of the two comes to on the way to a block. -/
namespace Svr32.S5.Blklist
open Svr32.Lib
variable {f : File} {w : Int → Nat → Int} {n : Nat}

/- Through `l` indirect blocks with `n` words to the data block `e`, whatever is on the way. -/
def walk (w : Int → Nat → Int) (n : Nat) : Nat → Int → Nat → Int
  | 0, nb, _ => nb
  | l + 1, nb, e => walk w n l (w nb (e / n ^ l)) (e % n ^ l)

/- The same way, as far as there are blocks. -/
def follow (w : Int → Nat → Int) (n : Nat) : Nat → Int → Nat → Option Int
  | 0, nb, _ => if nb = 0 then none else some nb
  | l + 1, nb, e => if nb = 0 then none else follow w n l (w nb (e / n ^ l)) (e % n ^ l)

/- Which of `k` trees of growing depth has the data block `e`, the first of them of depth `l + 1`,
and where. -/
def far (n : Nat) : Nat → Nat → Nat → Option (Nat × Nat)
  | 0, _, _ => none
  | k + 1, l, e => if e < n ^ (l + 1) then some (l, e) else far n k (l + 1) (e - n ^ (l + 1))

end Svr32.S5.Blklist

/-! When mapped and ordinary reads see the same file. -/
namespace Svr32.S5.Blklist
open Svr32.Lib

/- The way to the logical block `bn`: how many indirect blocks, where it begins, and which block of
the tree it leads to. -/
def File.path (f : File) (bn : Nat) : Option (Nat × Int × Nat) :=
  if bn < 10 then some (0, f.s5iAddr bn, 0)
  else
    match far (FsNINDIR f.bsize) 3 0 (bn - 10) with
    | none => none
    | some (l, e) => some (l + 1, f.s5iAddr (10 + l), e)

/- The block at the end of the way. -/
def File.block (f : File) (bn : Nat) : Option Int :=
  match f.path bn with
  | none => none
  | some (l, nb, e) => follow f.words (FsNINDIR f.bsize) l nb e

/- What the walk comes to that does not look for holes. -/
def File.stray (f : File) (bn : Nat) : Int :=
  match f.path bn with
  | none => 0
  | some (l, nb, e) => walk f.words (FsNINDIR f.bsize) l nb e

/- The number of blocks of the file, and of its pages. -/
def File.blocks (f : File) : Nat := (f.iSize.toNat + f.bsize - 1) / f.bsize

def File.pageBlocks (f : File) : Nat :=
  (f.blocks + NBPP / f.bsize - 1) / (NBPP / f.bsize) * (NBPP / f.bsize)

variable {f : File} {bn : Nat} {b : Int}

/- s5i_map. -/
def File.map (f : File) : List Int := (s5allocmap f).getD []

/- The numbers of the file's blocks are not 0, and s5alloc gives out none below. -/
def File.Sound (f : File) : Prop := ∀ bn b, f.block bn = some b → 0 < b

/- The byte of the file at `t`. -/
def File.data (f : File) (t : Nat) : BitVec 8 :=
  match f.block (t / f.bsize) with
  | none => 0
  | some b => f.byte b (t % f.bsize)

/- Mapped and ordinary reads see one file: the list has the numbers s5bmap gives for the blocks of
the file, and -1 up to the end of the page; and the bytes are the same. -/
structure Agrees (f : File) : Prop where
  block : ∀ offset count : Int, 0 ≤ offset → offset < f.iSize → 0 < count →
    ∃ m, s5bmap f offset count = .ok m ∧
      f.map[(offset / f.bsize).toNat]? = some (if m.nb = -1 then 0 else m.nb)
  pad : ∀ bn, f.blocks ≤ bn → bn < f.pageBlocks → f.map[bn]? = some (-1)
  read : ∀ offset size : Int, 0 ≤ offset → offset ≤ f.iSize → 0 ≤ size → offset + size < 2 ^ 31 →
    ∃ bytes : List (BitVec 8), s5readmap f f.map offset size = some (bytes, (bytes.length : Int)) ∧
      s5readi f offset size = (bytes, none)

end Svr32.S5.Blklist
