import Svr32.Ipc.Perm
import Svr32.Lib.Seg
import Svr32.Lib.Sparse
import Svr32.Lib.Word
import Mathlib.Data.Prod.Lex
import Mathlib.Data.List.TakeWhile
import Svr32.Malloc.Map

/-! Adjust on exit entries of io/sem.c: semaoe and semunrm over the undo structures,
the chain semunp of those in use and the free list semfup. -/
namespace Svr32.Semaphore
open Svr32.Lib Svr32.Ipc

/- seminfo, within the limits of the words that hold what it bounds. -/
structure Seminfo where
  semmap : Nat
  semmni : Nat
  semmns : Nat
  semmnu : Nat
  semmsl : Nat
  semopm : Nat
  semume : Nat
  semvmx : Int
  semaem : Int
  semmap_le : 2 ≤ semmap
  semmap_lt : semmap < 2 ^ 31
  semmni_pos : 0 < semmni
  semmni_lt : semmni < 2 ^ 15
  semmns_lt : semmns + 1 < 2 ^ 32
  semmnu_pos : 0 < semmnu
  semmsl_lt : semmsl < 2 ^ 15
  semume_lt : semume < 2 ^ 15
  semvmx_nonneg : 0 ≤ semvmx
  semvmx_lt : semvmx < 2 ^ 16
  semaem_nonneg : 0 ≤ semaem
  semaem_lt : 3 * semaem < 2 ^ 16

structure Undo where
  unAoe : Int
  unNum : Int
  unId : Int
deriving DecidableEq, Repr

/- The table semu with its chains: `ent u` are the un_cnt entries of the structure `u`,
   `np u` its un_np. `semUndo p` is sem_undo[p]. -/
structure UndoTab where
  semUndo : Nat → Option Nat
  ent : Nat → List Undo
  np : Nat → Option Nat
  semunp : Option Nat
  semfup : Option Nat

def UndoTab.setEnt (t : UndoTab) (u : Nat) (es : List Undo) : UndoTab :=
  { t with ent := Function.update t.ent u es }

/- The structure of the process `p`, taken from the free list if it has none. -/
def undoOf (p : Nat) (t : UndoTab) : Option (Nat × UndoTab) :=
  match t.semUndo p with
  | some up => some (up, t)
  | none =>
    match t.semfup with
    | none => none
    | some up =>
      some (up, { t with
        semfup := t.np up
        np := Function.update t.np up none
        semUndo := Function.update t.semUndo p (some up) })

/- uup->un_id < id || (uup->un_id == id && uup->un_num < num) -/
def Undo.less (id num : Int) (e : Undo) : Bool :=
  decide (e.unId < id) || (decide (e.unId = id) && decide (e.unNum < num))

/- Take `up` off the chain semunp. -/
def undoOff (info : Seminfo) (up : Nat) (t : UndoTab) : UndoTab :=
  { t with
    semunp := (unlink (info.semmnu + 1) up t.semunp t.np).1
    np := (unlink (info.semmnu + 1) up t.semunp t.np).2 }

/- No entry for (id, num): a new one between `front` and `rest`. -/
def semaoeNew (info : Seminfo) (up : Nat) (front rest : List Undo) (val id num : Int)
    (t : UndoTab) : UndoTab × Option Errno :=
  if info.semume ≤ (front ++ rest).length then (t, some .einval)
  else
    let t := if front ++ rest = [] then
        { t with np := Function.update t.np up t.semunp, semunp := some up }
      else t
    (t.setEnt up (front ++ ⟨i16 (-val), num, id⟩ :: rest), none)

/- The entry `e` is the one for (id, num). -/
def semaoeFound (info : Seminfo) (up : Nat) (front : List Undo) (e : Undo) (rest : List Undo)
    (val : Int) (t : UndoTab) : UndoTab × Option Errno :=
  let aoe := i16 (e.unAoe - val)
  if aoe > info.semaem ∨ aoe < -info.semaem then
    (t.setEnt up (front ++ { e with unAoe := i16 (aoe + val) } :: rest), some .erange)
  else if aoe = 0 then
    let t := t.setEnt up (front ++ rest)
    if front ++ rest = [] then
      let t := undoOff info up t
      ({ t with np := Function.update t.np up none }, none)
    else (t, none)
  else (t.setEnt up (front ++ { e with unAoe := aoe } :: rest), none)

/-- semaoe(val, id, num) in the process `p`: the error it returns with, if any. -/
def semaoe (info : Seminfo) (p : Nat) (val id num : Int) (t : UndoTab) :
    UndoTab × Option Errno :=
  let val := i16 val
  let num := i16 num
  if val = 0 then (t, none)
  else if val > info.semaem ∨ val < -info.semaem then (t, some .erange)
  else
    match undoOf p t with
    | none => (t, some .enospc)
    | some (up, t) =>
      let front := (t.ent up).takeWhile (Undo.less id num)
      let rest := (t.ent up).dropWhile (Undo.less id num)
      match rest with
      | [] => semaoeNew info up front [] val id num t
      | e :: es =>
        if e.unId = id ∧ e.unNum = num then semaoeFound info up front e es val t
        else semaoeNew info up front (e :: es) val id num t

/- The entries of one structure without those of semaphores `low` to `high` of `id`. -/
def semunrmEnt (id low high : Int) : List Undo → List Undo
  | [] => []
  | e :: es =>
    if id < e.unId then e :: es
    else if id > e.unId ∨ low > e.unNum then e :: semunrmEnt id low high es
    else if high < e.unNum then e :: es
    else semunrmEnt id low high es

/- The walk down the chain; `pp` is the last structure that stays on it. -/
def semunrmLoop (id low high : Int) : Nat → Option Nat → Option Nat → UndoTab → UndoTab
  | 0, _, _, t => t
  | _, _, none, t => t
  | fuel + 1, pp, some p, t =>
    let t := t.setEnt p (semunrmEnt id low high (t.ent p))
    let n := t.np p
    if t.ent p = [] then
      let t := match pp with
        | none => { t with semunp := n }
        | some q => { t with np := Function.update t.np q n }
      semunrmLoop id low high fuel pp n { t with np := Function.update t.np p none }
    else semunrmLoop id low high fuel (some p) n t

/-- semunrm(id, low, high). -/
def semunrm (info : Seminfo) (id low high : Int) (t : UndoTab) : UndoTab :=
  semunrmLoop id low high (info.semmnu + 1) none t.semunp t

/- The end of semexit, from its label `cleanup` on. -/
def undoFree (p up : Nat) (t : UndoTab) : UndoTab :=
  { t with
    np := Function.update t.np up t.semfup
    semfup := some up
    semUndo := Function.update t.semUndo p none }

/- The loop of seminit from the structure `u` on. -/
def seminitChain : Nat → Nat → (Nat → Option Nat) → Nat → Option Nat
  | 0, u, np => Function.update np u none
  | n + 1, u, np => seminitChain n (u + 1) (Function.update np u (some (u + 1)))

/- The part of seminit that builds the free list. -/
def seminitUndo (info : Seminfo) (t : UndoTab) : UndoTab :=
  { t with np := seminitChain (info.semmnu - 1) 0 t.np, semfup := some 0 }

end Svr32.Semaphore

/-! semop of io/sem.c. The operations are performed one after the other and undone when
one of them has to wait or fails. A semaphore is named by its index in sem[]; what
lies around the array counts as further semaphores. -/
namespace Svr32.Semaphore
open Svr32.Lib Svr32.Ipc

structure Sembuf where
  semNum : Nat
  semOp : Int
  semFlg : BitVec 16
  num_lt : semNum < 2 ^ 16
  op_range : -2 ^ 15 ≤ semOp ∧ semOp < 2 ^ 15
deriving DecidableEq, Repr

def semUndoFlg : BitVec 16 := 0o10000

def Sembuf.undo (op : Sembuf) : Bool := op.semFlg &&& semUndoFlg != 0

def Sembuf.nowait (op : Sembuf) : Bool := op.semFlg &&& ipcNowait != 0

structure SemidDs where
  perm : Perm
  semBase : Nat
  semNsems : Nat
deriving DecidableEq, Repr

structure Sem where
  semval : Int
  sempid : Int
  semncnt : Int
  semzcnt : Int
deriving DecidableEq, Repr

/- What a process sleeps on: &sem[i].semncnt or &sem[i].semzcnt. -/
inductive Chan where
  | ncnt (i : Int)
  | zcnt (i : Int)
deriving DecidableEq, Repr

/- `wchan` is the channel a process sleeps on; wakeup takes it off. -/
structure Tables where
  sema : Nat → SemidDs
  sem : Int → Sem
  semmap : Malloc.Map
  undo : UndoTab
  wchan : Nat → Option Chan

def semA : BitVec 16 := 0o200
def semR : BitVec 16 := 0o400

namespace Tables

def setSem (i : Int) (s : Sem) (k : Tables) : Tables :=
  { k with sem := Function.update k.sem i s }

def cnt (k : Tables) : Chan → Int
  | .ncnt i => (k.sem i).semncnt
  | .zcnt i => (k.sem i).semzcnt

def setCnt (c : Chan) (n : Int) (k : Tables) : Tables :=
  match c with
  | .ncnt i => k.setSem i { k.sem i with semncnt := n }
  | .zcnt i => k.setSem i { k.sem i with semzcnt := n }

def setVal (i : Int) (v : Int) (k : Tables) : Tables :=
  k.setSem i { k.sem i with semval := v }

def wakeup (c : Chan) (k : Tables) : Tables :=
  { k with wchan := fun p => if k.wchan p = some c then none else k.wchan p }

/- if (cnt) { cnt = 0; wakeup(&cnt); } -/
def wake (c : Chan) (k : Tables) : Tables :=
  if k.cnt c ≠ 0 then (k.setCnt c 0).wakeup c else k

/- if (semzcnt && !semval) { semzcnt = 0; wakeup(&semzcnt); } -/
def wakeZero (i : Int) (k : Tables) : Tables :=
  if (k.sem i).semval = 0 then k.wake (.zcnt i) else k

/- semval += d -/
def addVal (i : Int) (d : Int) (k : Tables) : Tables :=
  k.setVal i (u16 ((k.sem i).semval + d))

end Tables

/-- semconv: the slot of the set with the id `s`. -/
def semconv (info : Seminfo) (s : Int) (k : Tables) : Option Nat :=
  if s < 0 then none
  else
    let i := (s % info.semmni).toNat
    if (k.sema i).perm.allocated = false ∨ s / info.semmni ≠ (k.sema i).perm.seq then none
    else some i

/- semaoe for an operation with SEM_UNDO. -/
def opAoe (info : Seminfo) (p : Nat) (id : Int) (op : Sembuf) (val : Int) (k : Tables) :
    Tables × Option Errno :=
  if op.undo then
    let r := semaoe info p val id op.semNum k.undo
    ({ k with undo := r.1 }, r.2)
  else (k, none)

/-- semundo: undo the operations `done`, the last one first. -/
def semundo (info : Seminfo) (p : Nat) (id : Int) (base : Nat) : List Sembuf → Tables → Tables
  | [], k => k
  | op :: done, k =>
    if op.semOp = 0 then semundo info p id base done k
    else semundo info p id base done
      (opAoe info p id op (-op.semOp) (k.addVal (base + op.semNum) (-op.semOp))).1

inductive Stop where
  | ok
  | err (e : Errno)
  | sleep (c : Chan)
deriving DecidableEq, Repr

/- u.u_error = EAGAIN, or the sleep. -/
def blockedOn (c : Chan) (op : Sembuf) : Stop := if op.nowait then .err .eagain else .sleep c

/- The loop of semop; `done` are the operations behind it, the last one first. With how it
   ends comes what it has looked at: when it stops over an operation, that one in front. -/
def semopLoop (info : Seminfo) (p : Nat) (id : Int) (base : Nat) :
    List Sembuf → List Sembuf → Tables → Tables × Stop × List Sembuf
  | done, [], k => (k, .ok, done)
  | done, op :: ops, k =>
    let i := (base + op.semNum : Int)
    let v := (k.sem i).semval
    if op.semOp > 0 then
      if op.semOp + v > info.semvmx then (semundo info p id base done k, .err .erange, op :: done)
      else
        match opAoe info p id op op.semOp k with
        | (k, some e) => (semundo info p id base done k, .err e, op :: done)
        | (k, none) => semopLoop info p id base (op :: done) ops
            (((k.addVal i op.semOp).wake (.ncnt i)).wakeZero i)
    else if op.semOp < 0 then
      if v ≥ -op.semOp then
        match opAoe info p id op op.semOp k with
        | (k, some e) => (semundo info p id base done k, .err e, op :: done)
        | (k, none) => semopLoop info p id base (op :: done) ops ((k.addVal i op.semOp).wakeZero i)
      else (semundo info p id base done k, blockedOn (.ncnt i) op, op :: done)
    else if v ≠ 0 then (semundo info p id base done k, blockedOn (.zcnt i) op, op :: done)
    else semopLoop info p id base (op :: done) ops k

/- sempid of the semaphores of all operations. -/
def setPids (pid : Int) (base : Nat) : List Sembuf → Tables → Tables
  | [], k => k
  | op :: ops, k =>
    setPids pid base ops
      (k.setSem (base + op.semNum) { k.sem (base + op.semNum) with sempid := i16 pid })

/- The counter goes up and the process to sleep. -/
def sleepOn (p : Nat) (c : Chan) (k : Tables) : Tables :=
  { k.setCnt c (u16 (k.cnt c + 1)) with wchan := Function.update k.wchan p (some c) }

/-- One pass of semop from its label `check` on. -/
def semopPass (info : Seminfo) (p : Nat) (pid id : Int) (base : Nat) (ops : List Sembuf)
    (k : Tables) : Tables × Stop × List Sembuf :=
  match semopLoop info p id base [] ops k with
  | (k, .ok, seen) => (setPids pid base ops k, .ok, seen)
  | (k, .sleep c, seen) => (sleepOn p c k, .sleep c, seen)
  | (k, .err e, seen) => (k, .err e, seen)

/- Verify that sem #s are in range and permissions are granted. -/
def semopCheck (u : Cred) (sp : SemidDs) : List Sembuf → Option Errno
  | [] => none
  | op :: ops =>
    if ipcaccess u sp.perm (if op.semOp ≠ 0 then semA else semR) = false then some .eacces
    else if op.semNum ≥ sp.semNsems then some .efbig
    else semopCheck u sp ops

/-- semop(semid, sops, nsops) of the process `p`, up to its first sleep or its end; `sops`
is what the copy from user space brings, if it succeeds. -/
def semop (info : Seminfo) (p : Nat) (u : Cred) (semid : Int) (nsops : Nat)
    (sops : Option (List Sembuf)) (k : Tables) : Tables × Stop × List Sembuf :=
  match semconv info semid k with
  | none => (k, .err .einval, [])
  | some s =>
    if nsops > info.semopm then (k, .err .e2big, [])
    else
      match sops with
      | none => (k, .err .efault, [])
      | some ops =>
        match semopCheck u (k.sema s) ops with
        | some e => (k, .err e, [])
        | none => semopPass info p u.pid semid (k.sema s).semBase ops k

/-- semop after a sleep that was not interrupted: once more from `check`, for the set `s`. -/
def semopAgain (info : Seminfo) (p : Nat) (u : Cred) (semid : Int) (s : Nat)
    (sops : Option (List Sembuf)) (k : Tables) : Tables × Stop × List Sembuf :=
  match semconv info semid k with
  | none => (k, .err .eidrm, [])
  | some _ =>
    match sops with
    | none => (k, .err .efault, [])
    | some ops => semopPass info p u.pid semid (k.sema s).semBase ops k

/-- semop after a sleep on `c` that a signal has ended: EINTR. -/
def semopIntr (p : Nat) (c : Chan) (k : Tables) : Tables :=
  let k := { k with wchan := Function.update k.wchan p none }
  let n := k.cnt c
  let k := k.setCnt c (u16 (n - 1))
  if n ≤ 1 then (k.setCnt c 0).wakeup c else k

end Svr32.Semaphore
