import Svr32.Lib.System
import Svr32.Semaphore.Turn
import Svr32.Semaphore.Calm

/-! Runs of semop, semctl, semget and semexit by any processes. A call is atomic but for
the sleeps of semop: what semop works on lies in one place for all processes, semtmp,
and is read again after each sleep. -/
namespace Svr32.Semaphore
open Svr32.Lib Svr32.Ipc

/- The arguments of a call of semop, with the slot of its set and whether ipcaccess permits
   SEM_A on it, both as of the check. -/
structure Args where
  semid : Int
  s : Nat
  nsops : Nat
  cred : Cred
  mayAlter : Bool

/- A call asleep on `chan` over `op`, with `done` before it in its vector, last first. -/
structure Call where
  args : Args
  chan : Chan
  op : Sembuf
  done : List Sembuf

/- That a call has looked at a semaphore of its set. -/
structure Access where
  semNum : Nat
  semNsems : Nat
  alter : Bool
  mayAlter : Bool
deriving DecidableEq, Repr

/- `ledger p i` is the sum of the SEM_UNDO operations of the process `p` on sem[i] since
   its set was created, it was last set, or `p` began. -/
structure World where
  k : Tables
  call : Nat → Option Call
  ledger : Nat → Int → Int
  accesses : List Access

/- What the SEM_UNDO operations of a vector add up to on sem[i]. -/
def undoOn (base : Nat) (i : Int) : List Sembuf → Int
  | [] => 0
  | op :: ops =>
    undoOn base i ops +
      if op.undo = true ∧ (base + op.semNum : Int) = i then op.semOp else 0

def access (a : Args) (sp : SemidDs) (op : Sembuf) : Access :=
  ⟨op.semNum, sp.semNsems, op.semOp != 0, a.mayAlter⟩

namespace World

/- A call of `p` has come to its end or to a sleep with `r`. -/
def turn (p : Nat) (a : Args) (r : Tables × Stop × List Sembuf) (w : World) : World where
  k := r.1
  call := Function.update w.call p
    (match r.2.1, r.2.2 with
    | .sleep c, op :: done => some ⟨a, c, op, done⟩
    | _, _ => none)
  ledger :=
    if r.2.1 = .ok then
      Function.update w.ledger p fun i =>
        w.ledger p i + undoOn (w.k.sema a.s).semBase i r.2.2
    else w.ledger
  accesses := r.2.2.map (access a (w.k.sema a.s)) ++ w.accesses

def semop (info : Seminfo) (p : Nat) (u : Cred) (semid : Int) (nsops : Nat)
    (sops : Option (List Sembuf)) (w : World) : World :=
  let s := (semconv info semid w.k).getD 0
  w.turn p ⟨semid, s, nsops, u, ipcaccess u (w.k.sema s).perm semA⟩
    (Semaphore.semop info p u semid nsops sops w.k)

def again (info : Seminfo) (p : Nat) (a : Args) (sops : Option (List Sembuf)) (w : World) :
    World :=
  w.turn p a (semopAgain info p a.cred a.semid a.s sops w.k)

def intr (p : Nat) (c : Chan) (w : World) : World :=
  { w with k := semopIntr p c w.k, call := Function.update w.call p none }

/- SETVAL and SETALL begin a new count. -/
def ctlLedger (info : Seminfo) (semid : Int) (cmd : Ctl) (r : Reply) (w : World) :
    Nat → Int → Int :=
  match semconv info semid w.k, r with
  | some s, .rval _ =>
    let sp := w.k.sema s
    match cmd with
    | .setval semnum _ => fun p i => if i = sp.semBase + semnum then 0 else w.ledger p i
    | .setall _ => fun p i =>
      if sp.semBase ≤ i ∧ i < sp.semBase + sp.semNsems then 0 else w.ledger p i
    | _ => w.ledger
  | _, _ => w.ledger

def semctl (info : Seminfo) (u : Cred) (semid : Int) (cmd : Ctl) (w : World) : Option World :=
  (Semaphore.semctl info u semid cmd w.k).map fun r =>
    { w with k := r.1, ledger := ctlLedger info semid cmd r.2 w }

/- sem[i] is of a set that `k` has and `k₀` has not. -/
def Created (info : Seminfo) (k₀ k : Tables) (i : Int) : Prop :=
  ∃ s < info.semmni, (k₀.sema s).perm.allocated = false ∧ (k.sema s).perm.allocated = true ∧
    (k.sema s).semBase ≤ i ∧ i < (k.sema s).semBase + (k.sema s).semNsems

instance (info : Seminfo) (k₀ k : Tables) (i : Int) : Decidable (Created info k₀ k i) :=
  inferInstanceAs (Decidable (∃ s < info.semmni, _))

def semget (info : Seminfo) (u : Cred) (key nsems : Int) (semflg : BitVec 32) (w : World) :
    Option World :=
  (Semaphore.semget info u key nsems semflg w.k).map fun r =>
    { w with
      k := r.1
      ledger := fun p i => if Created info w.k r.1 i then 0 else w.ledger p i }

def semexit (info : Seminfo) (p : Nat) (w : World) : World :=
  { w with
    k := Semaphore.semexit info p w.k
    ledger := Function.update w.ledger p fun _ => 0 }

end World

/- The proc table: its entries cannot outnumber the process ids. -/
structure ProcTab where
  nproc : Nat
  nproc_le : nproc ≤ 30000

/- One call, or one stretch of semop. `allow` is what is asked of a vector that is read again
   after a sleep. -/
inductive Step (info : Seminfo) (pt : ProcTab) (allow : Tables → Args → List Sembuf → Prop) :
    World → World → Prop where
  | semop {w : World} {p : Nat} {u : Cred} {semid : Int} {nsops : Nat}
      {sops : Option (List Sembuf)} (hp : p < pt.nproc) (hcall : w.call p = none)
      (hlen : ∀ ops, sops = some ops → ops.length = nsops) :
      Step info pt allow w (w.semop info p u semid nsops sops)
  | wakeup {w : World} {p : Nat} {c : Call} {sops : Option (List Sembuf)}
      (hcall : w.call p = some c) (hchan : w.k.wchan p = none)
      (hlen : ∀ ops, sops = some ops → ops.length = c.args.nsops)
      (hallow : ∀ ops, sops = some ops → allow w.k c.args ops) :
      Step info pt allow w (w.again info p c.args sops)
  | signal {w : World} {p : Nat} {c : Call} (hcall : w.call p = some c) :
      Step info pt allow w (w.intr p c.chan)
  | semctl {w w' : World} {u : Cred} {semid : Int} {cmd : Ctl}
      (h : w.semctl info u semid cmd = some w') : Step info pt allow w w'
  | semget {w w' : World} {u : Cred} {key nsems : Int} {semflg : BitVec 32}
      (h : w.semget info u key nsems semflg = some w') : Step info pt allow w w'
  | semexit {w : World} {p : Nat} (hcall : w.call p = none) :
      Step info pt allow w (w.semexit info p)

/- The tables before seminit, all zero. -/
structure Zeroed (k : Tables) : Prop where
  sema : ∀ s, (k.sema s).perm.allocated = false
  sem : ∀ i, k.sem i = ⟨0, 0, 0, 0⟩
  semUndo : ∀ p, k.undo.semUndo p = none
  ent : ∀ u, k.undo.ent u = []
  semunp : k.undo.semunp = none
  wchan : ∀ p, k.wchan p = none

def system (info : Seminfo) (pt : ProcTab) (allow : Tables → Args → List Sembuf → Prop) :
    System World where
  init w := (∃ k₀ want, Zeroed k₀ ∧ seminit info want k₀ = some w.k) ∧
    (∀ p, w.call p = none) ∧ (∀ p i, w.ledger p i = 0) ∧ w.accesses = []
  step := Step info pt allow

end Svr32.Semaphore

/-! What a call of semctl or of semget can leave, one case for each of its exits. -/
namespace Svr32.Semaphore
open Svr32.Lib Svr32.Ipc
variable {info : Seminfo} {k : Tables}

/- Commands that only look. -/
def Ctl.reads : Ctl → Bool
  | .ipcStat _ | .getncnt _ | .getpid _ | .getval _ | .getall _ | .getzcnt _ => true
  | _ => false

inductive CtlEffect (info : Seminfo) (semid : Int) (k : Tables) : Ctl → Tables → Reply → Prop
  | refused {cmd : Ctl} (e : Errno) : CtlEffect info semid k cmd k (.err e)
  | read {cmd : Ctl} (hcmd : cmd.reads = true) (r : Reply) : CtlEffect info semid k cmd k r
  | setval {semnum : Nat} {arg : Int} {s : Nat} {k' : Tables} (hs : semconv info semid k = some s)
      (hnum : semnum < (k.sema s).semNsems) (hc : Cleared info semid semnum semnum k k')
      (hsema : k'.sema = k.sema) (hmap : k'.semmap = k.semmap) :
      CtlEffect info semid k (.setval semnum arg) k' (.rval 0)
  | setall {v : Option (Nat → Int)} {s : Nat} {k' : Tables} (hs : semconv info semid k = some s)
      (hc : Cleared info semid 0 (k.sema s).semNsems k k')
      (hsema : k'.sema = k.sema) (hmap : k'.semmap = k.semmap) :
      CtlEffect info semid k (.setall v) k' (.rval 0)
  | rmid {s : Nat} {k' : Tables} {m : Malloc.Mfreed} {perm : Perm}
      (hs : semconv info semid k = some s)
      (hc : Cleared info semid 0 (k.sema s).semNsems k k') (hperm : perm.allocated = false)
      (hsema : k'.sema = Function.update k.sema s { k.sema s with perm := perm })
      (hm : Malloc.mfree k.semmap (k.sema s).semNsems ((k.sema s).semBase + 1) = some m)
      (hmap : k'.semmap = m.map) : CtlEffect info semid k .ipcRmid k' (.rval 0)
  | set {d : Option Perm} {s : Nat} {perm : Perm} (hs : semconv info semid k = some s)
      (hperm : perm.allocated = true) (hseq : perm.seq = (k.sema s).perm.seq) :
      CtlEffect info semid k (.ipcSet d)
        { k with sema := Function.update k.sema s { k.sema s with perm := perm } } (.rval 0)

theorem allocated_zero {p : Perm} (h : p.mode = 0) : p.allocated = false := by
  simp [Perm.allocated, h]

theorem allocated_or {p : Perm} {x : BitVec 16} (h : p.mode = x ||| ipcAlloc) :
    p.allocated = true := by
  simp only [Perm.allocated, h, BitVec.or_comm x, or_and_self]
  decide

/-- semctl, exit by exit. -/
theorem semctl_effect (h : Sound info k) {u : Cred} {semid : Int} {cmd : Ctl} {k' : Tables}
    {r : Reply} (hr : semctl info u semid cmd k = some (k', r)) :
    CtlEffect info semid k cmd k' r := by
  simp only [semctl] at hr
  cases hs : semconv info semid k with
  | none =>
    rw [hs] at hr
    cases hr
    exact .refused _
  | some s =>
    rw [hs] at hr
    cases cmd with
    | ipcRmid =>
      simp only at hr
      split at hr
      · cases hr
        exact .refused _
      · obtain ⟨hc, rfl, ⟨seq, hsema⟩, m, hm, hmap⟩ := semctlRmid_spec h hr
        exact .rmid hs hc (allocated_zero rfl) hsema hm hmap
    | ipcSet ds =>
      simp only at hr
      split at hr
      · cases hr
        exact .refused _
      · cases ds with
        | none =>
          cases hr
          exact .refused _
        | some d =>
          cases hr
          exact .set hs (allocated_or rfl) rfl
    | ipcStat copied | getncnt n | getpid n | getval n | getall copied | getzcnt n =>
      simp only [Option.some.injEq, Prod.mk.injEq] at hr
      obtain ⟨rfl, rfl⟩ := hr
      exact .read rfl _
    | setval semnum arg =>
      simp only [Option.some.injEq] at hr
      cases semctlSetval_spec h u semid s semnum arg with
      | inl he =>
        obtain ⟨e, he⟩ := he
        rw [he] at hr
        cases hr
        exact .refused e
      | inr hd =>
        obtain ⟨k₁, he, hnum, hc, hsema, hmap⟩ := hd
        rw [he] at hr
        cases hr
        exact .setval hs hnum hc hsema hmap
    | setall v =>
      simp only [Option.some.injEq] at hr
      cases semctlSetall_spec h u semid s v with
      | inl he =>
        obtain ⟨e, he⟩ := he
        rw [he] at hr
        cases hr
        exact .refused e
      | inr hd =>
        obtain ⟨k₁, he, hc, hsema, hmap⟩ := hd
        rw [he] at hr
        cases hr
        exact .setall hs hc hsema hmap
    | other =>
      cases hr
      exact .refused _

theorem CtlEffect.sound {semid : Int} {cmd : Ctl} {k' : Tables} {r : Reply} (h : Sound info k)
    (he : CtlEffect info semid k cmd k' r) : Quiet k k' ∧ Sound info k' := by
  cases he with
  | refused e => exact ⟨Quiet.refl k, h⟩
  | read => exact ⟨Quiet.refl k, h⟩
  | setval _ _ hc => exact ⟨hc.quiet, hc.sound⟩
  | setall _ hc => exact ⟨hc.quiet, hc.sound⟩
  | rmid _ hc => exact ⟨hc.quiet, hc.sound⟩
  | set => exact ⟨(Quiet.refl k).congr rfl rfl, h.attended, h.range, h.undoOk⟩

inductive GetEffect (info : Seminfo) (k : Tables) : Tables → Prop
  | same : GetEffect info k k
  | failed {s : Nat} {perm : Perm} (hs : s < info.semmni)
      (hfree : (k.sema s).perm.allocated = false) (hperm : perm.allocated = false) :
      GetEffect info k { k with sema := Function.update k.sema s { k.sema s with perm := perm } }
  | full {s n : Nat} {perm : Perm} {m : Malloc.Map} (hs : s < info.semmni)
      (hfree : (k.sema s).perm.allocated = false) (hperm : perm.allocated = false) (hn : 0 < n)
      (hm : Malloc.malloc k.semmap n = some (0, m)) : GetEffect info k
        { k with semmap := m, sema := Function.update k.sema s { k.sema s with perm := perm } }
  | created {s n a : Nat} {perm : Perm} {m : Malloc.Map} (hs : s < info.semmni)
      (hfree : (k.sema s).perm.allocated = false) (hperm : perm.allocated = true)
      (hseq : perm.seq = (k.sema s).perm.seq) (hn : 0 < n) (hle : n ≤ info.semmsl)
      (hm : Malloc.malloc k.semmap n = some (a, m)) (ha : a ≠ 0) : GetEffect info k
        { k with semmap := m, sema := Function.update k.sema s ⟨perm, a - 1, n⟩ }

/-- semget, exit by exit. -/
theorem semget_effect {u : Cred} {key nsems : Int} {semflg : BitVec 32} {k' : Tables} {r : Reply}
    (hr : semget info u key nsems semflg k = some (k', r)) : GetEffect info k k' := by
  simp only [semget] at hr
  cases hg : ipcget key semflg (fun i => (k.sema i).perm) info.semmni with
  | error e =>
    rw [hg] at hr
    cases hr
    exact .same
  | ok x =>
    obtain ⟨s, new⟩ := x
    obtain ⟨hs, hfree⟩ := ipcget_spec hg
    rw [hg] at hr
    cases new with
    | false =>
      simp only at hr
      split at hr <;> cases hr <;> exact .same
    | true =>
      simp only at hr
      split at hr
      · cases hr
        exact .failed hs hfree (allocated_zero rfl)
      · rename_i hn
        cases hm : Malloc.malloc k.semmap nsems.toNat with
        | none =>
          rw [hm] at hr
          cases hr
        | some x =>
          obtain ⟨a, m⟩ := x
          rw [hm] at hr
          simp only [Option.map_some, Option.some.injEq] at hr
          split at hr
          · rename_i h0
            cases hr
            exact .full hs hfree (allocated_zero rfl) (by omega) (h0 ▸ hm)
          · rename_i h0
            cases hr
            exact .created hs hfree (ipcinit_allocated ..) rfl (by omega) (by omega) hm h0

theorem GetEffect.sound {k' : Tables} (h : Sound info k) (he : GetEffect info k k') :
    Quiet k k' ∧ Sound info k' := by
  cases he with
  | same => exact ⟨Quiet.refl k, h⟩
  | failed => exact ⟨(Quiet.refl k).congr rfl rfl, h.attended, h.range, h.undoOk⟩
  | full => exact ⟨(Quiet.refl k).congr rfl rfl, h.attended, h.range, h.undoOk⟩
  | created => exact ⟨(Quiet.refl k).congr rfl rfl, h.attended, h.range, h.undoOk⟩

end Svr32.Semaphore
