import Svr32.Lib.Ring

/-! s5rdwri.c, s5subr.c: reading and writing one FIFO. A call holds the inode from plock to prele,
and in between others only write out and reuse buffers. Bytes that readers have been handed and that
have been taken from writers are noted beside the inode. -/
namespace Svr32.Fifo

/- BSIZE of s5param.h and the block size of the mount, for each FsTYPE. -/
structure Mount where
  BSIZE : Nat
  bsize : Nat
  allowed : (BSIZE, bsize) ∈ [(512, 512), (1024, 1024), (512, 1024), (2048, 2048)]

def NFADDR : Nat := 10
def Mount.PIPSIZ (mp : Mount) : Nat := NFADDR * mp.BSIZE

abbrev Block := Nat → Nat

/- A buffer whose data are there (B_DONE). -/
structure Buf where
  data : Block
  delwri : Bool

inductive Call where
  | read (count : Nat) (ndelay : Bool)
  | write (src : List Nat) (ndelay fsync : Bool)

/- A process: without a call, about to lock the inode, or asleep. -/
inductive Proc where
  | idle
  | ready (c : Call)
  | asleep (c : Call)

/- s5readi in its loop. -/
structure Reader where
  offset : Nat
  count : Nat
  more : Bool

/- s5writei in its loop; `src` is the user's memory from u_base on. -/
structure Writer where
  proc : Nat
  ndelay : Bool
  fsync : Bool
  offset : Nat
  count : Nat
  src : List Nat
  n : Nat
  usave : Nat
  error : Bool
  more : Bool

inductive Holder where
  | reader (r : Reader)
  | writer (w : Writer)

structure State where
  size : Nat
  frptr : Nat
  fwptr : Nat
  frcnt : Nat
  fwcnt : Nat
  ifir : Bool
  ifiw : Bool
  addr : Nat → Bool
  disk : Nat → Block
  cache : Nat → Option Buf
  procs : Nat → Proc
  holder : Option Holder
  handed : List Nat
  taken : List Nat

def change {α : Type} (f : Nat → α) (k : Nat) (x : α) : Nat → α := fun i => if i = k then x else f i

/- What goes wrong in a block: copyin or copyout after `m` bytes, or the device. -/
inductive Fault where
  | ok
  | efault (m : Nat)
  | eio
deriving DecidableEq

/- bread finds this data. -/
def State.bread (s : State) (k : Nat) : Block :=
  match s.cache k with
  | some b => b.data
  | none => s.disk k

/- getblk does not read: what is not in the cache is anything. -/
def State.getblk (s : State) (k : Nat) (junk : Block) : Block :=
  match s.cache k with
  | some b => b.data
  | none => junk

def put (on : Nat) (bs : List Nat) (b : Block) : Block := fun i =>
  if on ≤ i ∧ i < on + bs.length then bs.getD (i - on) 0 else b i

/- bdwrite, or bwrite for a synchronous write. -/
def State.release (s : State) (k : Nat) (data : Block) (fsync : Bool) : State :=
  { s with
    cache := change s.cache k (some ⟨data, !fsync⟩)
    disk := if fsync then change s.disk k data else s.disk }

/- wakeup of those that wait to read, and of those that wait to write. -/
def wakeReaders (procs : Nat → Proc) : Nat → Proc := fun p =>
  match procs p with
  | .asleep (.read count ndelay) => .ready (.read count ndelay)
  | q => q

def wakeWriters (procs : Nat → Proc) : Nat → Proc := fun p =>
  match procs p with
  | .asleep (.write src ndelay fsync) => .ready (.write src ndelay fsync)
  | q => q

section
variable (mp : Mount)

/- The FIFO part of s5readi up to its loop. -/
def readi (p count : Nat) (ndelay : Bool) (s : State) : State :=
  let back := { s with procs := change s.procs p .idle }
  if count = 0 then back
  else if s.size = 0 then
    if s.fwcnt = 0 then back
    else if ndelay then back
    else { s with ifir := true, procs := change s.procs p (.asleep (.read count ndelay)) }
  else { back with holder := some (.reader ⟨s.frptr, count, true⟩) }

/- u_pbsize for a read: what the block still has, is asked for, and is there. -/
def piece (r : Reader) (s : State) : Nat :=
  min (min (mp.bsize - r.offset % mp.bsize) r.count) s.size

/- The block has been read and is copied out, which may fail. -/
def copyOut (copied : Bool) (r : Reader) (s : State) : State :=
  let bn := r.offset / mp.bsize
  let on := r.offset % mp.bsize
  let n := piece mp r s
  let offset := if copied then r.offset + n else r.offset
  let count := if copied then r.count - n else r.count
  let size := s.size - n
  let delwri := match s.cache bn with
    | some b => b.delwri
    | none => false
  { s with
    size := size
    cache := change s.cache bn (some ⟨s.bread bn,
      if on + n = mp.bsize ∧ size < mp.PIPSIZ - mp.bsize then false else delwri⟩)
    holder := some (.reader ⟨if mp.PIPSIZ ≤ offset then 0 else offset, count,
      copied && decide (count ≠ 0)⟩)
    handed := if copied then s.handed ++ (List.range n).map (fun j => s.bread bn (on + j))
      else s.handed }

/- One block of s5readi. Block numbers are below NADDR-3, as offsets are below PIPSIZ. -/
def readBlock (f : Fault) (r : Reader) (s : State) : State :=
  let stop := { s with holder := some (.reader { r with more := false }) }
  if piece mp r s = 0 ∨ s.addr (r.offset / mp.bsize) = false then stop
  else
    match f with
    | .ok => copyOut mp true r s
    | .efault _ => copyOut mp false r s
    | .eio => if (s.cache (r.offset / mp.bsize)).isNone then stop else copyOut mp true r s

/- The end of s5readi. -/
def readEnd (r : Reader) (s : State) : State :=
  { s with
    frptr := if s.size ≠ 0 then r.offset else 0
    fwptr := if s.size ≠ 0 then s.fwptr else 0
    ifiw := false
    procs := if s.ifiw then wakeWriters s.procs else s.procs
    holder := none }

/- s5writei at floop. -/
def floop (p : Nat) (src : List Nat) (count : Nat) (ndelay fsync : Bool) (s : State) : State :=
  let back := { s with procs := change s.procs p .idle, holder := none }
  let start (count usave : Nat) :=
    { s with
      procs := change s.procs p .idle
      holder := some (.writer ⟨p, ndelay, fsync, s.fwptr, count, src, 0, usave, false, true⟩) }
  if mp.PIPSIZ < (count + s.size) % 2 ^ 32 then
    if s.frcnt = 0 then back
    else if mp.PIPSIZ < count ∧ s.size < mp.PIPSIZ then
      start (mp.PIPSIZ - s.size) (count - (mp.PIPSIZ - s.size))
    else if ndelay then back
    else { s with
      ifiw := true
      procs := change s.procs p (.asleep (.write (src.take count) ndelay fsync))
      holder := none }
  else if s.frcnt = 0 then back
  else start count 0

/- u_pbsize for a write. -/
def room (w : Writer) : Nat := min (mp.bsize - w.offset % mp.bsize) w.count

/- s5bmap with a block from s5alloc where there is none. -/
def extend (w : Writer) (s : State) : State :=
  if s.addr (w.offset / mp.bsize) = false then
    { s with addr := change s.addr (w.offset / mp.bsize) true }.release (w.offset / mp.bsize)
      (fun _ => 0) false
  else s

/- The block need not be read. -/
def Fresh (w : Writer) (s : State) : Prop :=
  room mp w = mp.bsize ∨ w.offset % mp.bsize = 0 ∧ s.size < mp.PIPSIZ - mp.bsize

instance (w : Writer) (s : State) : Decidable (Fresh mp w s) :=
  inferInstanceAs (Decidable (_ ∨ _))

def base (junk : Block) (w : Writer) (s : State) : Block :=
  if Fresh mp w s then s.getblk (w.offset / mp.bsize) junk else s.bread (w.offset / mp.bsize)

/- The bytes have been copied in; `s'` is the state with them in the block, or without. -/
def copyIn (error : Bool) (w : Writer) (s s' : State) : State :=
  let offset := w.offset + room mp w
  { s' with
    size := s.size + room mp w
    holder := some (.writer { w with
      offset := if offset = mp.PIPSIZ then 0 else offset
      count := w.count - room mp w, src := w.src.drop (room mp w), n := room mp w, error := error })
    taken := s.taken ++ w.src.take (room mp w) }

/- copyin fails after `m` bytes. -/
def copyFault (m : Nat) (junk : Block) (w : Writer) (s : State) : State :=
  let bn := w.offset / mp.bsize
  let data := put (w.offset % mp.bsize) (w.src.take (min m (room mp w))) (base mp junk w s)
  { s with
    size := s.size + room mp w
    cache := match s.cache bn with
      | some b => change s.cache bn (some ⟨data, b.delwri⟩)
      | none => if Fresh mp w s then s.cache else change s.cache bn (some ⟨data, false⟩)
    holder := some (.writer { w with
      offset := if w.offset = mp.PIPSIZ then 0 else w.offset
      n := room mp w, error := true }) }

/- One block of s5writei. What a block that cannot be read is given is lost. -/
def writeBlock (alloc : Bool) (junk : Block) (f : Fault) (w : Writer) (s : State) : State :=
  let bn := w.offset / mp.bsize
  if s.addr bn = false ∧ alloc = false then
    { s with holder := some (.writer { w with error := decide (w.n = 0), more := false }) }
  else
    let s := extend mp w s
    let s' := s.release bn (put (w.offset % mp.bsize) (w.src.take (room mp w)) (base mp junk w s))
      w.fsync
    match f with
    | .ok => copyIn mp false w s s'
    | .efault m => copyFault mp m junk w s
    | .eio => if ¬ Fresh mp w s ∧ (s.cache bn).isNone then copyIn mp true w s s
      else copyIn mp false w s s'

/- The end of s5writei. -/
def writeEnd (w : Writer) (s : State) : State :=
  let s := { s with
    fwptr := w.offset
    ifir := false
    procs := if s.ifir then wakeReaders s.procs else s.procs }
  if w.error = false ∧ w.usave ≠ 0 then floop mp w.proc w.src w.usave w.ndelay w.fsync s
  else { s with holder := none }

/- What can happen: a call begins, locks the inode, does a block or ends, is interrupted; the other
end is opened or closed; a buffer is written out, or reused. -/
inductive Op where
  | call (p : Nat) (c : Call)
  | enter (p : Nat)
  | block (alloc : Bool) (junk : Block) (f : Fault)
  | interrupt (p : Nat)
  | counts (frcnt fwcnt : Nat)
  | flush (k : Nat)
  | evict (k : Nat)

def Call.Fits : Call → Prop
  | .read count _ => count < 2 ^ 32
  | .write src _ _ => src.length < 2 ^ 32

instance (c : Call) : Decidable c.Fits :=
  match c with
  | .read count _ => inferInstanceAs (Decidable (count < 2 ^ 32))
  | .write src _ _ => inferInstanceAs (Decidable (src.length < 2 ^ 32))

def step (op : Op) (s : State) : Option State :=
  match op with
  | .call p c =>
    match s.procs p with
    | .idle => if c.Fits then some { s with procs := change s.procs p (.ready c) } else none
    | _ => none
  | .enter p =>
    match s.holder, s.procs p with
    | none, .ready (.read count ndelay) => some (readi p count ndelay s)
    | none, .ready (.write src ndelay fsync) => some (floop mp p src src.length ndelay fsync s)
    | _, _ => none
  | .block alloc junk f =>
    match s.holder with
    | some (.reader r) => some (if r.more then readBlock mp f r s else readEnd r s)
    | some (.writer w) =>
      some (if w.error = false ∧ w.more ∧ w.count ≠ 0 then writeBlock mp alloc junk f w s
        else writeEnd mp w s)
    | none => none
  | .interrupt p =>
    match s.procs p with
    | .asleep _ => some { s with procs := change s.procs p .idle }
    | _ => none
  | .counts frcnt fwcnt =>
    some { s with
      frcnt := frcnt, fwcnt := fwcnt, ifir := false, ifiw := false
      procs := wakeReaders (wakeWriters s.procs) }
  | .flush k =>
    match s.cache k with
    | some ⟨data, true⟩ =>
      some { s with disk := change s.disk k data, cache := change s.cache k (some ⟨data, false⟩) }
    | _ => none
  | .evict k =>
    match s.cache k with
    | some ⟨_, false⟩ => some { s with cache := change s.cache k none }
    | _ => none

def run : State → List Op → Option State
  | s, [] => some s
  | s, op :: ops => (step mp op s).bind fun s => run s ops

end

/- A FIFO that has just been made: it has no blocks. -/
def start (disk : Nat → Block) : State :=
  ⟨0, 0, 0, 1, 1, false, false, fun _ => false, disk, fun _ => none, fun _ => .idle, none, [], []⟩

end Svr32.Fifo
