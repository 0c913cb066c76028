import Mathlib.Logic.Function.Basic
import Mathlib.Algebra.Ring.Nat
import Mathlib.Algebra.Ring.Int.Defs

/-! Message blocks and data blocks of io/stream.c. Both are named by their number; a function
gives `none` when it follows a null pointer or does not return. -/
namespace Svr32.Stream

structure Mblk where
  bNext : Option Nat
  bPrev : Option Nat
  bCont : Option Nat
  bRptr : Int
  bWptr : Int
  bDatap : Option Nat
deriving DecidableEq, Repr

structure Dblk where
  dbFreep : Option Nat
  dbBase : Int
  dbLim : Int
  dbRef : BitVec 8
  dbType : BitVec 8
  dbClass : Nat
deriving DecidableEq, Repr

/- `mem` is the memory that the buffers are in. -/
structure Pool where
  mb : Nat → Mblk
  db : Nat → Dblk
  mbfreelist : Option Nat
  dbfreelist : Nat → Option Nat
  dbaCnt : Nat → Int
  dbaLo : Nat → Int
  dbaMed : Nat → Int
  nmblock : Nat
  mem : Int → BitVec 8

namespace Pool

def setMb (bp : Nat) (m : Mblk) (k : Pool) : Pool := { k with mb := Function.update k.mb bp m }

def setDb (dp : Nat) (d : Dblk) (k : Pool) : Pool := { k with db := Function.update k.db dp d }

/- The links of the messages and of the free list. -/
def cont (k : Pool) (bp : Nat) : Option Nat := (k.mb bp).bCont

def next (k : Pool) (bp : Nat) : Option Nat := (k.mb bp).bNext

def setCont (bp : Nat) (c : Option Nat) (k : Pool) : Pool :=
  k.setMb bp { k.mb bp with bCont := c }

end Pool

def nclass : Nat := 9

def rbsize : List Nat := [4, 16, 64, 128, 256, 512, 1024, 2048, 4096]

def BPRI_LO : Nat := 1
def BPRI_MED : Nat := 2
def BPRI_HI : Nat := 3

/-- getclass: the first class that is large enough, NCLASS if there is none. -/
def getclass (size : Int) : Nat := rbsize.findIdx fun (r : Nat) => size ≤ r

def bcmax (c pri : Nat) (k : Pool) : Int :=
  if pri = BPRI_LO then k.dbaLo c else if pri = BPRI_HI then k.nmblock else k.dbaMed c

/- The data block of class `c` that a request may take. -/
def room (c pri : Nat) (k : Pool) : Option Nat :=
  if k.dbaCnt c < bcmax c pri k then k.dbfreelist c else none

/- allocb from gotdp on. -/
def gotdp (c dp : Nat) (k : Pool) : Option Nat × Pool :=
  match k.mbfreelist with
  | none => (none, k)
  | some bp =>
    let d := k.db dp
    let k := { k with
      dbfreelist := Function.update k.dbfreelist c d.dbFreep
      dbaCnt := Function.update k.dbaCnt c (k.dbaCnt c + 1)
      mbfreelist := k.next bp }
    (some bp, (k.setMb bp ⟨none, none, none, d.dbBase, d.dbBase, some dp⟩).setDb dp
      { d with dbFreep := none, dbType := 0, dbRef := 1 })

/-- allocb: a message block with a data block of the class, or of the next one. -/
def allocb (size : Int) (pri : Nat) (k : Pool) : Option Nat × Pool :=
  let c := getclass size
  if nclass ≤ c then (none, k)
  else match room c pri k with
    | some dp => gotdp c dp k
    | none =>
      if c = nclass - 1 then (none, k)
      else match room (c + 1) pri k with
        | some dp => gotdp (c + 1) dp k
        | none => (none, k)

/-- testb -/
def testb (size : Int) (pri : Nat) (k : Pool) : Bool :=
  let c := getclass size
  decide (c < nclass) &&
    ((room c pri k).isSome || (decide (c ≠ nclass - 1) && (room (c + 1) pri k).isSome))

/- A message block without data goes to the free list. -/
def mbfree (bp : Nat) (k : Pool) : Pool :=
  { k.setMb bp { k.mb bp with bNext := k.mbfreelist } with mbfreelist := some bp }

/- One reference less; the data block goes to its free list with the last. -/
def unref (dp : Nat) (k : Pool) : Pool :=
  let d := { k.db dp with dbRef := (k.db dp).dbRef - 1 }
  let c := d.dbClass
  if d.dbRef = 0 then
    { k.setDb dp { d with dbFreep := k.dbfreelist c } with
      dbfreelist := Function.update k.dbfreelist c (some dp)
      dbaCnt := Function.update k.dbaCnt c (k.dbaCnt c - 1) }
  else k.setDb dp d

/-- freeb -/
def freeb (bp : Nat) (k : Pool) : Option Pool := do
  let dp ← (k.mb bp).bDatap
  let k := unref dp k
  return mbfree bp (k.setMb bp { k.mb bp with bDatap := none })

/- The loop of freemsg, and how often it may go round. -/
def freemsgLoop : Nat → Option Nat → Pool → Option Pool
  | _, none, k => some k
  | 0, some _, _ => none
  | fuel + 1, some bp, k => do
    let tp := k.cont bp
    let k ← freeb bp k
    freemsgLoop fuel tp k

/-- freemsg -/
def freemsg (bp : Option Nat) (k : Pool) : Option Pool := freemsgLoop k.nmblock bp k

/-- dupb: a second message block for the same data. -/
def dupb (bp : Nat) (k : Pool) : Option (Option Nat × Pool) :=
  match k.mbfreelist with
  | none => some (none, k)
  | some nbp => do
    let m := k.mb bp
    let dp ← m.bDatap
    let d := k.db dp
    let k := { k with mbfreelist := k.next nbp }.setDb dp { d with dbRef := d.dbRef + 1 }
    return (some nbp, k.setMb nbp ⟨none, none, none, m.bRptr, m.bWptr, some dp⟩)

/- dupmsg and copymsg: `f` for each block, and the copies linked. -/
def eachbLoop (f : Nat → Pool → Option (Option Nat × Pool)) :
    Nat → Nat → Nat → Nat → Pool → Option (Option Nat × Pool)
  | 0, _, _, _, _ => none
  | fuel + 1, head, nbp, bp, k =>
    match k.cont bp with
    | none => some (some head, k)
    | some b => do
      let (r, k) ← f b k
      let k := k.setCont nbp r
      match r with
      | none => do
        let k ← freemsg (some head) k
        return (none, k)
      | some n => eachbLoop f fuel head n b k

def eachb (f : Nat → Pool → Option (Option Nat × Pool)) (bp : Option Nat) (k : Pool) :
    Option (Option Nat × Pool) :=
  match bp with
  | none => some (none, k)
  | some bp => do
    let (r, k) ← f bp k
    match r with
    | none => return (none, k)
    | some head => eachbLoop f k.nmblock head head bp k

/-- dupmsg -/
def dupmsg (bp : Option Nat) (k : Pool) : Option (Option Nat × Pool) := eachb dupb bp k

def bcopy (src dst n : Int) (mem : Int → BitVec 8) : Int → BitVec 8 := fun a =>
  if dst ≤ a ∧ a < dst + n then mem (src + (a - dst)) else mem a

/- The word that an address is in. -/
def straln (a : Int) : Int := a - a % 4

/- The block `nbp`, with the data block `ndp`, gets a copy of the data of a block. -/
def fillb (m : Mblk) (d : Dblk) (nbp ndp : Nat) (k : Pool) : Pool :=
  let nd := k.db ndp
  let r := nd.dbBase + (m.bRptr - d.dbBase)
  let w := nd.dbBase + (m.bWptr - d.dbBase)
  let k := k.setDb ndp { nd with dbType := d.dbType }
  { k.setMb nbp { k.mb nbp with bRptr := r, bWptr := w } with
    mem := bcopy (straln m.bRptr) (straln r) (straln (w + 3) - straln r) k.mem }

/-- copyb: a block of the size of the old one, with a copy of its data. -/
def copyb (bp : Nat) (k : Pool) : Option (Option Nat × Pool) := do
  let m := k.mb bp
  let dp ← m.bDatap
  let d := k.db dp
  match allocb (d.dbLim - d.dbBase) BPRI_MED k with
  | (none, k) => return (none, k)
  | (some nbp, k) =>
    let ndp ← (k.mb nbp).bDatap
    return (some nbp, fillb m d nbp ndp k)

/-- copymsg -/
def copymsg (bp : Option Nat) (k : Pool) : Option (Option Nat × Pool) := eachb copyb bp k

/- The last block of a message. -/
def lastb : Nat → Nat → Pool → Option Nat
  | 0, _, _ => none
  | fuel + 1, mp, k =>
    match k.cont mp with
    | none => some mp
    | some b => lastb fuel b k

/-- linkb -/
def linkb (mp : Nat) (bp : Option Nat) (k : Pool) : Option Pool := do
  let l ← lastb k.nmblock mp k
  return k.setCont l bp

/-- unlinkb -/
def unlinkb (bp : Nat) (k : Pool) : Option Nat × Pool := (k.cont bp, k.setCont bp none)

/- The result of rmvb: `none` is (mblk_t *)-1. -/
def rmvbLoop (mp : Option Nat) (bp : Nat) :
    Nat → Option Nat → Option Nat → Pool → Option (Option (Option Nat) × Pool)
  | _, none, _, k => some (none, k)
  | 0, some _, _, _ => none
  | fuel + 1, some tmp, lastp, k =>
    if tmp = bp then
      match lastp with
      | some l => some (some mp, (k.setCont l (k.cont tmp)).setCont tmp none)
      | none => some (some (k.cont tmp), k.setCont tmp none)
    else rmvbLoop mp bp fuel (k.cont tmp) (some tmp) k

/-- rmvb -/
def rmvb (mp : Option Nat) (bp : Nat) (k : Pool) : Option (Option (Option Nat) × Pool) :=
  rmvbLoop mp bp k.nmblock mp none k

def strAligned (a : Int) : Bool := a % 4 = 0

def xmsgsizeLoop (type : BitVec 8) : Nat → Option Nat → Int → Pool → Option Int
  | _, none, count, _ => some count
  | 0, some _, _, _ => none
  | fuel + 1, some bp, count, k => do
    let dp ← (k.mb bp).bDatap
    if (k.db dp).dbType ≠ type then return count
    else xmsgsizeLoop type fuel (k.cont bp) (count + ((k.mb bp).bWptr - (k.mb bp).bRptr)) k

/-- xmsgsize -/
def xmsgsize (bp : Nat) (k : Pool) : Option Int := do
  let dp ← (k.mb bp).bDatap
  xmsgsizeLoop (k.db dp).dbType k.nmblock (some bp) 0 k

/- Up to `n` bytes of `bp` go to the end of `nbp`. -/
def pullTurn (nbp bp : Nat) (n : Int) (k : Pool) : Pool :=
  let m := k.mb bp
  let k := { k with mem := bcopy m.bRptr (k.mb nbp).bWptr n k.mem }
  let k := k.setMb nbp { k.mb nbp with bWptr := (k.mb nbp).bWptr + n }
  k.setMb bp { k.mb bp with bRptr := m.bRptr + n }

/- The data that pullupmsg moves from `bp` on; the block it stops at. -/
def pullupLoop (mp nbp : Nat) : Nat → Option Nat → Int → Pool → Option (Option Nat × Pool)
  | _, none, _, k => some (none, k)
  | 0, some _, _, _ => none
  | fuel + 1, some bp, len, k =>
    if len = 0 then some (some bp, k)
    else do
      let m := k.mb bp
      let n := min (m.bWptr - m.bRptr) len
      let k := pullTurn nbp bp n k
      if m.bRptr + n ≠ m.bWptr then return (some bp, k)
      else
        let c := k.cont bp
        let k ← if bp ≠ mp then freeb bp k else some k
        pullupLoop mp nbp fuel c (len - n) k

/- *tmp = *mp; *mp = *new_bp; new_bp->b_datap = NULL -/
def exchange (tmp mp nbp : Nat) (k : Pool) : Pool :=
  let k := k.setMb tmp (k.mb mp)
  let k := k.setMb mp (k.mb nbp)
  k.setMb nbp { k.mb nbp with bDatap := none }

/- The end of pullupmsg: the blocks change places, and what is used up is freed. -/
def pullupEnd (tmp mp nbp : Nat) (bp : Option Nat) (k : Pool) : Option Pool := do
  let k := exchange tmp mp nbp k
  let k ← if (k.mb tmp).bRptr ≠ (k.mb tmp).bWptr then some (k.setCont mp (some tmp))
    else freeb tmp (k.setCont mp bp)
  return mbfree nbp k

/- pullupmsg once its length is known. -/
def pullup (mp : Nat) (len : Int) (k : Pool) : Option (Bool × Pool) :=
  match k.mbfreelist with
  | none => some (false, k)
  | some tmp =>
    match allocb len BPRI_MED { k with mbfreelist := k.next tmp } with
    | (none, k) => some (false, mbfree tmp k)
    | (some nbp, k) => do
      let ndp ← (k.mb nbp).bDatap
      let dp ← (k.mb mp).bDatap
      let k := k.setDb ndp { k.db ndp with dbType := (k.db dp).dbType }
      let (bp, k) ← pullupLoop mp nbp k.nmblock (some mp) len k
      let k ← pullupEnd tmp mp nbp bp k
      return (true, k)

/-- pullupmsg: the first `len` bytes in one block, all of them when it is -1. -/
def pullupmsg (mp : Nat) (len : Int) (k : Pool) : Option (Bool × Pool) :=
  let m := k.mb mp
  if len = -1 then
    if m.bCont = none && strAligned m.bRptr then some (true, k)
    else do
      let len ← xmsgsize mp k
      pullup mp len k
  else if m.bWptr - m.bRptr ≥ len && strAligned m.bRptr then some (true, k)
  else do
    let size ← xmsgsize mp k
    if size < len then return (false, k)
    else pullup mp len k

end Svr32.Stream

/-! adjmsg of io/stream.c: bytes are trimmed from the head or the tail of a message. -/
namespace Svr32.Stream

/- The values of an int. -/
def int32 (x : Int) : Int := Int.bmod x (2 ^ 32)

/- min of misc.s, which compares unsigned numbers. -/
def umin (a b : Int) : Int := if a % 2 ^ 32 ≤ b % 2 ^ 32 then a else b

namespace Pool

/- bp->b_rptr += n -/
def cutHead (bp : Nat) (n : Int) (k : Pool) : Pool :=
  k.setMb bp { k.mb bp with bRptr := (k.mb bp).bRptr + n }

/- save_bp->b_wptr -= n -/
def cutTail (bp : Nat) (n : Int) (k : Pool) : Pool :=
  k.setMb bp { k.mb bp with bWptr := (k.mb bp).bWptr - n }

end Pool

/- while (len && bp), from the head. -/
def adjHead : Nat → Option Nat → Int → Pool → Option Pool
  | _, none, _, k => some k
  | 0, some _, _, _ => none
  | fuel + 1, some bp, len, k =>
    if len = 0 then some k
    else
      let n := umin ((k.mb bp).bWptr - (k.mb bp).bRptr) len
      adjHead fuel (k.cont bp) (int32 (len - n)) (k.cutHead bp n)

/- while (bp && bp->b_datap->db_type == type): where bp ends, and save_bp. -/
def adjScan (type : BitVec 8) : Nat → Option Nat → Option Nat → Pool →
    Option (Option Nat × Option Nat)
  | _, none, save, _ => some (none, save)
  | 0, some _, _, _ => none
  | fuel + 1, some bp, save, k => do
    let dp ← (k.mb bp).bDatap
    if (k.db dp).dbType = type then
      adjScan type fuel (k.cont bp)
        (if (k.mb bp).bWptr - (k.mb bp).bRptr > 0 then some bp else save) k
    else some (some bp, save)

/- while (len && bp), from the tail. -/
def adjTail (type : BitVec 8) (mp : Nat) : Nat → Option Nat → Int → Pool → Option Pool
  | _, none, _, k => some k
  | 0, some _, len, k => if len = 0 then some k else none
  | fuel + 1, some _, len, k =>
    if len = 0 then some k
    else do
      let (bp, save) ← adjScan type k.nmblock (some mp) none k
      match save with
      | none => some k
      | some save =>
        let n := umin ((k.mb save).bWptr - (k.mb save).bRptr) len
        adjTail type mp fuel bp (int32 (len - n)) (k.cutTail save n)

/-- adjmsg -/
def adjmsg (mp : Nat) (len : Int) (k : Pool) : Option (Bool × Pool) := do
  let fromhead := 0 ≤ len
  let len := if fromhead then len else int32 (-len)
  if (← xmsgsize mp k) < len then some (false, k)
  else if fromhead then do
    let k ← adjHead k.nmblock (some mp) len k
    some (true, k)
  else do
    let dp ← (k.mb mp).bDatap
    let k ← adjTail (k.db dp).dbType mp k.nmblock (some mp) len k
    some (true, k)

end Svr32.Stream
