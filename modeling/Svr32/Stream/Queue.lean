import Svr32.Stream.Pool

/-! Queues of messages of io/stream.c. A queue is named by its number; a function gives `none`
when it follows a null pointer or does not return. -/
namespace Svr32.Stream

/- The fields of a queue that hold messages and control their flow; `srvp` says that the queue
   has a service procedure. -/
structure Queue where
  qFirst : Option Nat
  qLast : Option Nat
  qNext : Option Nat
  qLink : Option Nat
  qCount : BitVec 16
  qHiwat : BitVec 16
  qLowat : BitVec 16
  srvp : Bool
  qenab : Bool
  qwantr : Bool
  qwantw : Bool
  qfull : Bool
  qreadr : Bool
  qnoenb : Bool
deriving DecidableEq, Repr

structure Streams where
  pool : Pool
  q : Nat → Queue
  nqueue : Nat
  qhead : Option Nat
  qtail : Option Nat
  qrunflag : Bool

def Streams.setQ (q : Nat) (v : Queue) (s : Streams) : Streams :=
  { s with q := Function.update s.q q v }

namespace Pool

def prev (k : Pool) (bp : Nat) : Option Nat := (k.mb bp).bPrev

def setNext (bp : Nat) (n : Option Nat) (k : Pool) : Pool :=
  k.setMb bp { k.mb bp with bNext := n }

def setPrev (bp : Nat) (p : Option Nat) (k : Pool) : Pool :=
  k.setMb bp { k.mb bp with bPrev := p }

end Pool

def bsize : List Nat := [4, 16, 64, 100, 200, 300, 600, 1200, 2400]

def QNORM : BitVec 8 := 0
def QPCTL : BitVec 8 := 128

def M_DATA : BitVec 8 := 0
def M_PROTO : BitVec 8 := 1
def M_PCPROTO : BitVec 8 := 131

def datamsg (type : BitVec 8) : Bool := type = M_DATA || type = M_PROTO || type = M_PCPROTO

/- bp->b_datap->db_type -/
def dbType (bp : Nat) (k : Pool) : Option (BitVec 8) := do
  let dp ← (k.mb bp).bDatap
  return (k.db dp).dbType

def queclass (bp : Nat) (k : Pool) : Option (BitVec 8) := do
  let t ← dbType bp k
  return t &&& QPCTL

/- The sum of bsize[tmp->b_datap->db_class] over a message. -/
def weigh : Nat → Option Nat → Pool → Option Nat
  | _, none, _ => some 0
  | 0, some _, _ => none
  | fuel + 1, some tmp, k => do
    let dp ← (k.mb tmp).bDatap
    let n ← weigh fuel (k.cont tmp) k
    return bsize.getD (k.db dp).dbClass 0 + n

/- #define OTHERQ(q) -/
def otherq (q : Nat) (s : Streams) : Nat := if (s.q q).qreadr then q + 1 else q - 1

/-- backq -/
def backq (s : Streams) (q : Nat) : Option Nat :=
  (s.q (otherq q s)).qNext.map fun q => otherq q s

/- The last queue on the run list points to `q` now, or the list starts with it. -/
def enlist (q : Nat) (s : Streams) : Option Streams :=
  match s.qhead with
  | none => some { s with qhead := some q }
  | some _ => do
    let t ← s.qtail
    return s.setQ t { s.q t with qLink := some q }

/-- qenable -/
def qenable (q : Nat) (s : Streams) : Option Streams :=
  if !(s.q q).srvp then some s
  else if (s.q q).qenab then some s
  else do
    let s ← enlist q (s.setQ q { s.q q with qenab := true })
    return { s.setQ q { s.q q with qLink := none } with qtail := some q, qrunflag := true }

/- for (q = backq(q); q && !q->q_qinfo->qi_srvp; q = backq(q)) -/
def backsrv (s : Streams) : Nat → Option Nat → Option (Option Nat)
  | _, none => some none
  | 0, some _ => none
  | fuel + 1, some q => if (s.q q).srvp then some (some q) else backsrv s fuel (backq s q)

/- Enable the nearest back queue with a service procedure. -/
def wakeback (q : Nat) (s : Streams) : Option Streams := do
  let r ← backsrv s s.nqueue (backq s q)
  match r with
  | none => return s
  | some q => qenable q s

/- A message comes onto the queue: its weight counts, and the queue may be full now. -/
def addCount (q bp : Nat) (s : Streams) : Option Streams := do
  let w ← weigh s.pool.nmblock (some bp) s.pool
  let v := { s.q q with qCount := (s.q q).qCount + BitVec.ofNat 16 w }
  return s.setQ q (if v.qHiwat ≤ v.qCount then { v with qfull := true } else v)

/- A message is off the queue. -/
def subCount (q bp : Nat) (s : Streams) : Option Streams := do
  let w ← weigh s.pool.nmblock (some bp) s.pool
  let v := { s.q q with qCount := (s.q q).qCount - BitVec.ofNat 16 w }
  return s.setQ q (if v.qCount < v.qHiwat then { v with qfull := false } else v)

/- The end of getq and rmvq. -/
def lowWater (q : Nat) (s : Streams) : Option Streams :=
  if (s.q q).qCount ≤ (s.q q).qLowat ∧ (s.q q).qwantw then
    wakeback q (s.setQ q { s.q q with qwantw := false })
  else some s

/- The first message is taken off. -/
def unlinkFirst (q bp : Nat) (s : Streams) : Streams :=
  match s.pool.next bp with
  | none => s.setQ q { s.q q with qFirst := none, qLast := none }
  | some n => { s.setQ q { s.q q with qFirst := some n } with pool := s.pool.setPrev n none }

def clearLinks (bp : Nat) (s : Streams) : Streams :=
  { s with pool := (s.pool.setNext bp none).setPrev bp none }

/-- getq -/
def getq (q : Nat) (s : Streams) : Option (Option Nat × Streams) :=
  match (s.q q).qFirst with
  | none => do
    let s ← lowWater q (s.setQ q { s.q q with qwantr := true })
    return (none, s)
  | some bp => do
    let s ← subCount q bp (unlinkFirst q bp s)
    let s := s.setQ q { s.q q with qwantr := false }
    let s ← lowWater q (clearLinks bp s)
    return (some bp, s)

/- A message is taken from where it is. -/
def unlink (q mp : Nat) (s : Streams) : Streams :=
  let n := s.pool.next mp
  let p := s.pool.prev mp
  let s := match p with
    | some y => { s with pool := s.pool.setNext y n }
    | none => s.setQ q { s.q q with qFirst := n }
  match n with
  | some y => { s with pool := s.pool.setPrev y p }
  | none => s.setQ q { s.q q with qLast := p }

/-- rmvq -/
def rmvq (q mp : Nat) (s : Streams) : Option Streams := do
  let s ← subCount q mp (clearLinks mp (unlink q mp s))
  lowWater q s

/- while (queclass(nbp) >= mcls) nbp = nbp->b_next; -/
def lowerClass (mcls : BitVec 8) (k : Pool) : Nat → Option Nat → Option Nat
  | 0, _ => none
  | _, none => none
  | fuel + 1, some nbp => do
    let c ← queclass nbp k
    if mcls ≤ c then lowerClass mcls k fuel (k.next nbp) else return nbp

/- The message is the only one of the queue. -/
def linkAlone (q bp : Nat) (s : Streams) : Streams :=
  { s.setQ q { s.q q with qFirst := some bp, qLast := some bp } with
    pool := (s.pool.setPrev bp none).setNext bp none }

/- The message goes behind the last one. -/
def linkLast (q l bp : Nat) (s : Streams) : Streams :=
  { s.setQ q { s.q q with qLast := some bp } with
    pool := ((s.pool.setNext l (some bp)).setPrev bp (some l)).setNext bp none }

/- The message goes in front of `nbp`. -/
def linkBefore (q nbp bp : Nat) (s : Streams) : Streams :=
  let k := s.pool.setNext bp (some nbp)
  let p := k.prev nbp
  let k := k.setPrev bp p
  let s := match p with
    | some y => { s with pool := k.setNext y (some bp) }
    | none => { s.setQ q { s.q q with qFirst := some bp } with pool := k }
  { s with pool := s.pool.setPrev nbp (some bp) }

/- Where putq puts a message of the class `mcls`. -/
def putqLink (q bp : Nat) (mcls : BitVec 8) (s : Streams) : Option Streams :=
  match (s.q q).qFirst with
  | none => some (linkAlone q bp s)
  | some f => do
    let l ← (s.q q).qLast
    let c ← queclass l s.pool
    if mcls ≤ c then return linkLast q l bp s
    else
      let nbp ← lowerClass mcls s.pool s.pool.nmblock (some f)
      return linkBefore q nbp bp s

/-- putq -/
def putq (q bp : Nat) (s : Streams) : Option Streams := do
  let mcls ← queclass bp s.pool
  let s ← putqLink q bp mcls s
  let s ← addCount q bp s
  if QNORM < mcls ∨ (!(s.q q).qnoenb ∧ (s.q q).qwantr) then qenable q s else some s

/- while (nbp->b_next && queclass(nbp->b_next) > mcls) nbp = nbp->b_next; -/
def lastHigher (mcls : BitVec 8) (k : Pool) : Nat → Nat → Option Nat
  | 0, _ => none
  | fuel + 1, nbp =>
    match k.next nbp with
    | none => some nbp
    | some n => do
      let c ← queclass n k
      if mcls < c then lastHigher mcls k fuel n else return nbp

/- The message goes in front of the first one. -/
def linkFirst (q f bp : Nat) (s : Streams) : Streams :=
  { s.setQ q { s.q q with qFirst := some bp } with
    pool := ((s.pool.setNext bp (some f)).setPrev bp none).setPrev f (some bp) }

/- The message goes behind `nbp`. -/
def linkAfter (q nbp bp : Nat) (s : Streams) : Streams :=
  let n := s.pool.next nbp
  let k := s.pool.setNext bp n
  let s := match n with
    | some y => { s with pool := k.setPrev y (some bp) }
    | none => { s.setQ q { s.q q with qLast := some bp } with pool := k }
  { s with pool := (s.pool.setNext nbp (some bp)).setPrev bp (some nbp) }

/- Where putbq puts a message of the class `mcls`. -/
def putbqLink (q bp : Nat) (mcls : BitVec 8) (s : Streams) : Option Streams :=
  match (s.q q).qFirst with
  | none => some (linkAlone q bp s)
  | some f => do
    let c ← queclass f s.pool
    if c ≤ mcls then return linkFirst q f bp s
    else
      let nbp ← lastHigher mcls s.pool s.pool.nmblock f
      return linkAfter q nbp bp s

/-- putbq -/
def putbq (q bp : Nat) (s : Streams) : Option Streams := do
  let mcls ← queclass bp s.pool
  let s ← putbqLink q bp mcls s
  let s ← addCount q bp s
  if QNORM < mcls ∨ (!(s.q q).qnoenb ∧ (s.q q).qwantr) then qenable q s else some s

/- Where insq puts a message: in front of `emp`, or at the end. -/
def insqLink (q : Nat) (emp : Option Nat) (mp : Nat) (s : Streams) : Streams :=
  match emp with
  | some e => linkBefore q e mp s
  | none =>
    match (s.q q).qLast with
    | some l => linkLast q l mp s
    | none => linkAlone q mp s

/-- insq -/
def insq (q : Nat) (emp : Option Nat) (mp : Nat) (s : Streams) : Option Streams := do
  let s ← addCount q mp (insqLink q emp mp s)
  if !(s.q q).qnoenb ∧ (s.q q).qwantr then qenable q s else some s

/- A message of the old chain is put back or freed. -/
def flushTurn (q : Nat) (flag : Bool) (bp : Nat) (s : Streams) : Option Streams := do
  let t ← dbType bp s.pool
  if !flag && !datamsg t then putq q bp s
  else do
    let k ← freemsg (some bp) s.pool
    return { s with pool := k }

/- The loop of flushq over the old chain. -/
def flushLoop (q : Nat) (flag : Bool) : Nat → Option Nat → Streams → Option Streams
  | _, none, s => some s
  | 0, some _, _ => none
  | fuel + 1, some bp, s => do
    let nbp := s.pool.next bp
    let s ← flushTurn q flag bp s
    flushLoop q flag fuel nbp s

/-- flushq -/
def flushq (q : Nat) (flag : Bool) (s : Streams) : Option Streams := do
  let v := s.q q
  let s := s.setQ q { v with
    qFirst := none, qLast := none, qCount := 0, qfull := false, qwantw := false }
  let s ← flushLoop q flag s.pool.nmblock v.qFirst s
  if (s.q q).qCount ≤ (s.q q).qLowat ∧ v.qwantw then wakeback q s
  else return s.setQ q { s.q q with qwantw := (s.q q).qwantw || v.qwantw }

/- while (q->q_next && !q->q_qinfo->qi_srvp) q = q->q_next; -/
def nextsrv (s : Streams) : Nat → Nat → Option Nat
  | 0, _ => none
  | fuel + 1, q =>
    match (s.q q).qNext with
    | none => some q
    | some n => if (s.q q).srvp then some q else nextsrv s fuel n

/-- canput -/
def canput (q : Option Nat) (s : Streams) : Option (Bool × Streams) :=
  match q with
  | none => some (false, s)
  | some q => do
    let q ← nextsrv s s.nqueue q
    if (s.q q).qfull then return (false, s.setQ q { s.q q with qwantw := true })
    else return (true, s)

/- queuerun takes the first queue off the run list. -/
def runq (s : Streams) : Option (Nat × Streams) := do
  let q ← s.qhead
  let s := match (s.q q).qLink with
    | none => { s with qhead := none, qtail := none }
    | some n => { s with qhead := some n }
  return (q, s.setQ q { s.q q with qenab := false })

end Svr32.Stream
