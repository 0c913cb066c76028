import Mathlib.Logic.Function.Basic
import Svr32.Lib.System
import Mathlib.Algebra.Ring.Nat
import Mathlib.Algebra.Ring.Int.Defs

/-! sccs lockit.c: the lock file. The processes take turns, one system call at a time. -/
namespace Svr32.Sccs
open Svr32.Lib

/- What a file has, in bytes. -/
structure File where
  data : List Nat
  mtime : Int
deriving DecidableEq

/- An unsigned, as it lies in memory. -/
def bytes4 (n : Nat) : List Nat :=
  [n / 2 ^ 24 % 256, n / 2 ^ 16 % 256, n / 2 ^ 8 % 256, n % 256]

def ofBytes (bs : List Nat) : Nat := bs.foldl (fun n b => n * 256 + b) 0

def nodenamelength : Nat := 9

/- strcmp(a, b) == 0 -/
def equal (a b : List Nat) : Bool := a.takeWhile (· ≠ 0) == b.takeWhile (· ≠ 0)

/- The system call that a process makes next. -/
inductive Pc where
  | idle
  | loop
  | creat
  | writePid
  | writeName
  | link
  | unlinkTemp
  | unlinkLinked
  | exists
  | open
  | readPid
  | readName
  | test
  | unlinkBad
  | kill
  | existsAgain
  | unlinkDead
  | hold
  | unlockOpen
  | unlockRead
  | unlockUnlink
deriving DecidableEq

/- A process, with its variables; `st_size` and `st_mtime` are those of Statbuf. -/
structure Proc where
  pc : Pc
  count : Nat
  tempfile : Option File
  st_size : Nat
  st_mtime : Int
  omtime : Int
  fd : File
  ret : Nat
  opid : Nat
  ouuname : List Nat
deriving DecidableEq

/- What the rest of the system has its way in: whether a call fails, and the clock; and how often
a lockit that begins shall try. -/
structure Choice where
  fails : Bool
  now : Int
  count : Nat

section turn
variable (pid : Nat) (uuname : List Nat) (alive : Nat → Bool) (c : Choice)

/- onelock; a process that gives up with xmsg takes no more turns. -/
def turnOnelock (lock : Option File) (p : Proc) : Option File × Proc :=
  match p.pc with
  | .creat =>
    if c.fails then (lock, { p with pc := .exists })
    else (lock, { p with tempfile := some ⟨[], c.now⟩, pc := .writePid })
  | .writePid =>
    let write (f : File) : File := if c.fails then f else ⟨f.data ++ bytes4 pid, c.now⟩
    (lock, { p with tempfile := p.tempfile.map write, pc := .writeName })
  | .writeName =>
    let write (f : File) : File :=
      if c.fails then f else ⟨f.data ++ uuname.take nodenamelength, c.now⟩
    (lock, { p with tempfile := p.tempfile.map write, pc := .link })
  | .link =>
    if c.fails ∨ lock ≠ none ∨ p.tempfile = none then (lock, { p with pc := .unlinkTemp })
    else (p.tempfile, { p with pc := .unlinkLinked })
  | .unlinkTemp => (lock, { p with tempfile := none, pc := .exists })
  | .unlinkLinked => (lock, { p with tempfile := none, pc := .hold })
  | _ => (lock, p)

/- lockit, when onelock has failed -/
def turnFound (lock : Option File) (p : Proc) : Option File × Proc :=
  match p.pc with
  | .exists =>
    match lock with
    | none => (lock, { p with pc := .loop })
    | some f => (lock, { p with
        st_size := f.data.length, st_mtime := f.mtime, omtime := f.mtime, pc := .open })
  | .open =>
    match lock with
    | none => (lock, { p with pc := .loop })
    | some f => (lock, if c.fails then { p with pc := .loop } else { p with fd := f, pc := .readPid })
  | .readPid => (lock, { p with
      ret := (p.fd.data.take 4).length, opid := ofBytes (p.fd.data.take 4), pc := .readName })
  | .readName => (lock, { p with
      ouuname := (p.fd.data.drop 4).take nodenamelength, pc := .test })
  | .test =>
    if p.ret ≠ 4 ∨ p.ret ≠ p.st_size then (lock, { p with pc := .unlinkBad })
    else if equal p.ouuname uuname then (lock, { p with pc := .kill })
    else (lock, { p with pc := .loop })
  | .unlinkBad => (none, { p with pc := .loop })
  | .kill => (lock, { p with pc := if alive p.opid then .loop else .existsAgain })
  | .existsAgain =>
    match lock with
    | none => (lock, { p with pc := .loop })
    | some f => (lock, { p with
        st_size := f.data.length, st_mtime := f.mtime
        pc := if p.omtime = f.mtime then .unlinkDead else .loop })
  | .unlinkDead => (none, { p with pc := .loop })
  | _ => (lock, p)

/- unlockit -/
def turnUnlockit (lock : Option File) (p : Proc) : Option File × Proc :=
  match p.pc with
  | .unlockOpen =>
    match lock with
    | none => (lock, { p with pc := .idle })
    | some f =>
      (lock, if c.fails then { p with pc := .idle } else { p with fd := f, pc := .unlockRead })
  | .unlockRead =>
    let n := (p.fd.data.take 4).length
    let name := (p.fd.data.drop 4).take nodenamelength
    if n = 4 ∧ ofBytes (p.fd.data.take 4) = pid ∧ equal name uuname then
      (lock, { p with pc := .unlockUnlink })
    else (lock, { p with pc := .idle })
  | .unlockUnlink => (none, { p with pc := .idle })
  | _ => (lock, p)

/- The turn of a process: lockit begins where it may write in the directory. -/
def turn (lock : Option File) (p : Proc) : Option File × Proc :=
  match p.pc with
  | .idle =>
    (lock, if c.fails then p else { p with count := c.count + 1, pc := .loop })
  | .loop =>
    (lock, { p with count := p.count - 1, pc := if p.count - 1 = 0 then .idle else .creat })
  | .hold => (lock, { p with pc := .unlockOpen })
  | .creat | .writePid | .writeName | .link | .unlinkTemp | .unlinkLinked =>
    turnOnelock pid uuname c lock p
  | .exists | .open | .readPid | .readName | .test | .unlinkBad | .kill | .existsAgain
  | .unlinkDead => turnFound uuname alive c lock p
  | .unlockOpen | .unlockRead | .unlockUnlink => turnUnlockit pid uuname c lock p

end turn

/- The lock file, and the processes of the machine. -/
structure World (ι : Type) where
  lock : Option File
  proc : ι → Proc

variable {ι : Type} [DecidableEq ι] (pid : ι → Nat) (uuname : List Nat) (alive : Nat → Bool)

def World.next (w : World ι) (p : ι) (c : Choice) : World ι :=
  let u := turn (pid p) uuname alive c w.lock (w.proc p)
  ⟨u.1, Function.update w.proc p u.2⟩

/- No process is in lockit, and there is no lock file. -/
def World.Start (w : World ι) : Prop :=
  w.lock = none ∧ ∀ p, (w.proc p).pc = .idle ∧ (w.proc p).tempfile = none

end Svr32.Sccs

/-! At most one process has the lock, as long as no lockit reads the lock file of another. -/
namespace Svr32.Sccs
open Svr32.Lib
variable {ι : Type} [DecidableEq ι] {pid : ι → Nat} {uuname : List Nat} {alive : Nat → Bool}
  {w w' : World ι} {p q : ι} {c : Choice}

/-- From the link that lockit makes until unlockit returns. -/
def Pc.Holding : Pc → Prop
  | .unlinkLinked | .hold | .unlockOpen | .unlockRead | .unlockUnlink => True
  | _ => False

/- In lockit, with the lock file of another open. -/
def Pc.Judging : Pc → Prop
  | .readPid | .readName | .test | .unlinkBad | .kill | .existsAgain | .unlinkDead => True
  | _ => False

/-- If the process goes to open the lock file in lockit, there is none any more. -/
def Alone (w : World ι) (p : ι) (c : Choice) : Prop :=
  (w.proc p).pc = .open → w.lock = none ∨ c.fails = true

/-- What a turn can do to the lock file: nothing, and the process has no more of a hold on it than
before; to make it where there is none; or, in unlockit, to remove it. -/
inductive Fair (lock : Option File) (x : Proc) : Option File × Proc → Prop
  | stay {x' : Proc} (h : x'.pc.Holding → x.pc.Holding) : Fair lock x (lock, x')
  | link {f : File} {x' : Proc} (h : lock = none) : Fair lock x (some f, x')
  | remove {x' : Proc} (h : x.pc = .unlockUnlink) (hi : x'.pc = .idle) : Fair lock x (none, x')

section turn
variable {lock : Option File} {x : Proc} {n : Nat}

theorem onelock_fair (hw : x.pc ∈ [.creat, .writePid, .writeName, .link, .unlinkTemp,
    .unlinkLinked]) : Fair lock x (turnOnelock n uuname c lock x) ∧
      ¬ (turnOnelock n uuname c lock x).2.pc.Judging := by
  simp only [List.mem_cons, List.not_mem_nil, or_false] at hw
  rcases hw with hpc | hpc | hpc | hpc | hpc | hpc <;> simp only [turnOnelock, hpc]
  · split
    · exact ⟨.stay fun h => h.elim, fun h => h⟩
    · exact ⟨.stay fun h => h.elim, fun h => h⟩
  · exact ⟨.stay fun h => h.elim, fun h => h⟩
  · exact ⟨.stay fun h => h.elim, fun h => h⟩
  · split
    · exact ⟨.stay fun h => h.elim, fun h => h⟩
    · rename_i hc
      simp only [not_or, ne_eq, not_not] at hc
      obtain ⟨f, hf⟩ := Option.ne_none_iff_exists'.1 hc.2.2
      rw [hf]
      exact ⟨.link hc.2.1, fun h => h⟩
  · exact ⟨.stay fun h => h.elim, fun h => h⟩
  · exact ⟨.stay fun _ => by rw [hpc]; trivial, fun h => h⟩

/- The condition keeps lockit out of the branch that judges the lock file of another. -/
theorem found_fair (hw : x.pc ∈ [.exists, .open]) (ha : x.pc = .open → lock = none ∨
    c.fails = true) : Fair lock x (turnFound uuname alive c lock x) ∧
      ¬ (turnFound uuname alive c lock x).2.pc.Judging := by
  simp only [List.mem_cons, List.not_mem_nil, or_false] at hw
  rcases hw with hpc | hpc <;> simp only [turnFound, hpc]
  · split
    · exact ⟨.stay fun h => h.elim, fun h => h⟩
    · exact ⟨.stay fun h => h.elim, fun h => h⟩
  · split
    · exact ⟨.stay fun h => h.elim, fun h => h⟩
    · have hf : c.fails = true := (ha hpc).resolve_left nofun
      rw [if_pos hf]
      exact ⟨.stay fun h => h.elim, fun h => h⟩

theorem unlockit_fair (hw : x.pc ∈ [.unlockOpen, .unlockRead, .unlockUnlink]) :
    Fair lock x (turnUnlockit n uuname c lock x) ∧
      ¬ (turnUnlockit n uuname c lock x).2.pc.Judging := by
  simp only [List.mem_cons, List.not_mem_nil, or_false] at hw
  rcases hw with hpc | hpc | hpc <;> simp only [turnUnlockit, hpc]
  · split
    · exact ⟨.stay fun h => h.elim, fun h => h⟩
    · split
      · exact ⟨.stay fun h => h.elim, fun h => h⟩
      · exact ⟨.stay fun _ => by rw [hpc]; trivial, fun h => h⟩
  · split
    · exact ⟨.stay fun _ => by rw [hpc]; trivial, fun h => h⟩
    · exact ⟨.stay fun h => h.elim, fun h => h⟩
  · exact ⟨.remove hpc rfl, fun h => h⟩

theorem turn_fair (hj : ¬ x.pc.Judging) (ha : x.pc = .open → lock = none ∨ c.fails = true) :
    Fair lock x (turn n uuname alive c lock x) ∧
      ¬ (turn n uuname alive c lock x).2.pc.Judging := by
  cases hpc : x.pc with
  | idle =>
    simp only [turn, hpc]
    split
    · exact ⟨.stay id, by rw [hpc]; exact fun h => h⟩
    · exact ⟨.stay fun h => h.elim, fun h => h⟩
  | loop =>
    simp only [turn, hpc]
    split
    · exact ⟨.stay fun h => h.elim, fun h => h⟩
    · exact ⟨.stay fun h => h.elim, fun h => h⟩
  | hold =>
    simp only [turn, hpc]
    exact ⟨.stay fun _ => by rw [hpc]; trivial, fun h => h⟩
  | creat | writePid | writeName | link | unlinkTemp | unlinkLinked =>
    simp only [turn, hpc]
    exact onelock_fair (by rw [hpc]; decide)
  | «exists» | «open» =>
    simp only [turn, hpc]
    exact found_fair (by rw [hpc]; decide) ha
  | readPid | readName | test | unlinkBad | kill | existsAgain | unlinkDead =>
    rw [hpc] at hj
    exact (hj trivial).elim
  | unlockOpen | unlockRead | unlockUnlink =>
    simp only [turn, hpc]
    exact unlockit_fair (by rw [hpc]; decide)

end turn

/-- One process has a hold on the lock file at most, and none if there is none. -/
structure Sole (w : World ι) : Prop where
  one : ∀ p q, (w.proc p).pc.Holding → (w.proc q).pc.Holding → p = q
  none : w.lock = none → ∀ p, ¬ (w.proc p).pc.Holding
  judging : ∀ p, ¬ (w.proc p).pc.Judging

theorem Sole.next (h : Sole w) (ha : Alone w p c) : Sole (w.next pid uuname alive p c) := by
  have hturn := @turn_fair uuname alive c w.lock (w.proc p) (pid p) (h.judging p) ha
  rw [World.next]
  generalize turn (pid p) uuname alive c w.lock (w.proc p) = u at hturn
  obtain ⟨hf, hj⟩ := hturn
  have hself : (Function.update w.proc p u.2 p) = u.2 := Function.update_self ..
  have hne : ∀ q, q ≠ p → Function.update w.proc p u.2 q = w.proc q :=
    fun q hq => Function.update_of_ne hq ..
  have hjudging : ∀ q, ¬ (Function.update w.proc p u.2 q).pc.Judging := by
    intro q
    by_cases hq : q = p
    · subst hq
      rw [hself]
      exact hj
    · rw [hne q hq]
      exact h.judging q
  cases hf with
  | @stay x' hx =>
    have hold : ∀ q, (Function.update w.proc p x' q).pc.Holding → (w.proc q).pc.Holding := by
      intro q hq
      by_cases hqp : q = p
      · subst hqp
        rw [hself] at hq
        exact hx hq
      · rwa [hne q hqp] at hq
    exact ⟨fun q r hq hr => h.one q r (hold q hq) (hold r hr),
      fun hl q hq => h.none hl q (hold q hq), hjudging⟩
  | @link f x' hl =>
    have hold : ∀ q, (Function.update w.proc p x' q).pc.Holding → q = p := by
      intro q hq
      by_contra hqp
      rw [hne q hqp] at hq
      exact h.none hl q hq
    exact ⟨fun q r hq hr => (hold q hq).trans (hold r hr).symm, fun h => (nomatch h), hjudging⟩
  | @remove x' hpc hidle =>
    have hp : (w.proc p).pc.Holding := by
      rw [hpc]
      trivial
    have hno : ∀ q, ¬ (Function.update w.proc p x' q).pc.Holding := by
      intro q hq
      by_cases hqp : q = p
      · subst hqp
        rw [hself, hidle] at hq
        exact hq
      · rw [hne q hqp] at hq
        exact hqp (h.one q p hq hp)
    exact ⟨fun q r hq _ => (hno q hq).elim, fun _ => hno, hjudging⟩

omit [DecidableEq ι] in
theorem Sole.start (h : w.Start) : Sole w := by
  have hidle : ∀ p, ¬ (w.proc p).pc.Holding := fun p hp => by
    rw [(h.2 p).1] at hp
    exact hp
  refine ⟨fun p _ hp => (hidle p hp).elim, fun _ => hidle, fun p hp => ?_⟩
  rw [(h.2 p).1] at hp
  exact hp

/- How far onelock has come with the file, and what lockit knows of the size of the lock file. -/
def Proc.Complete (x : Proc) : Prop :=
  match x.pc with
  | .writePid => ∃ f, x.tempfile = some f ∧ f.data.length = 0
  | .writeName => ∃ f, x.tempfile = some f ∧ f.data.length = 4
  | .link => ∃ f, x.tempfile = some f ∧ f.data.length = 13
  | .open => x.st_size = 13
  | .readPid => x.st_size = 13 ∧ x.fd.data.length = 13
  | .readName | .test => x.st_size = 13 ∧ x.ret = 4
  | _ => True

def Sized (lock : Option File) : Prop := ∀ f, lock = some f → f.data.length = 13

/- Runs in which no write fails. -/
def writtenSystem (pid : ι → Nat) (uuname : List Nat) (alive : Nat → Bool) : System (World ι) where
  init := World.Start
  step w w' := ∃ p c, ((w.proc p).pc = .writePid ∨ (w.proc p).pc = .writeName → c.fails = false) ∧
    w' = w.next pid uuname alive p c

theorem turn_complete {lock : Option File} {x : Proc} {n : Nat} (hu : 9 ≤ uuname.length)
    (hl : Sized lock) (hx : x.Complete)
    (hc : x.pc = .writePid ∨ x.pc = .writeName → c.fails = false) :
    Sized (turn n uuname alive c lock x).1 ∧ (turn n uuname alive c lock x).2.Complete := by
  have hnone : Sized none := fun _ h => (nomatch h)
  cases hpc : x.pc <;> simp only [turn, turnOnelock, turnFound, turnUnlockit, hpc]
  case idle =>
    split
    · exact ⟨hl, hx⟩
    · exact ⟨hl, trivial⟩
  case loop => split <;> exact ⟨hl, trivial⟩
  case creat =>
    split
    · exact ⟨hl, trivial⟩
    · exact ⟨hl, ⟨_, rfl, rfl⟩⟩
  case writePid =>
    rw [Proc.Complete, hpc] at hx
    obtain ⟨f, hf, hlen⟩ := hx
    refine ⟨hl, ⟨⟨f.data ++ bytes4 n, c.now⟩, ?_, ?_⟩⟩
    · rw [hf, hc (Or.inl hpc)]
      rfl
    · rw [List.length_append, hlen]
      rfl
  case writeName =>
    rw [Proc.Complete, hpc] at hx
    obtain ⟨f, hf, hlen⟩ := hx
    refine ⟨hl, ⟨⟨f.data ++ uuname.take nodenamelength, c.now⟩, ?_, ?_⟩⟩
    · rw [hf, hc (Or.inr hpc)]
      rfl
    · rw [List.length_append, hlen, List.length_take, nodenamelength]
      omega
  case link =>
    rw [Proc.Complete, hpc] at hx
    obtain ⟨f, hf, hlen⟩ := hx
    split
    · exact ⟨hl, trivial⟩
    · refine ⟨fun g hg => ?_, trivial⟩
      rw [hf, Option.some.injEq] at hg
      exact hg ▸ hlen
  case «exists» =>
    split
    · exact ⟨hnone, trivial⟩
    · rename_i f
      exact ⟨hl, hl f rfl⟩
  case «open» =>
    rw [Proc.Complete, hpc] at hx
    split
    · exact ⟨hnone, trivial⟩
    · rename_i f
      split
      · exact ⟨hl, trivial⟩
      · exact ⟨hl, hx, hl f rfl⟩
  case readPid =>
    rw [Proc.Complete, hpc] at hx
    refine ⟨hl, hx.1, ?_⟩
    rw [List.length_take, hx.2]
    rfl
  case readName =>
    rw [Proc.Complete, hpc] at hx
    exact ⟨hl, hx⟩
  case test =>
    split
    · exact ⟨hl, trivial⟩
    · split <;> exact ⟨hl, trivial⟩
  case kill => split <;> exact ⟨hl, trivial⟩
  case existsAgain =>
    split
    · exact ⟨hnone, trivial⟩
    · split <;> exact ⟨hl, trivial⟩
  case unlockOpen =>
    split
    · exact ⟨hnone, trivial⟩
    · split <;> exact ⟨hl, trivial⟩
  case unlockRead => split <;> exact ⟨hl, trivial⟩
  case unlinkBad | unlinkDead | unlockUnlink => exact ⟨hnone, trivial⟩
  case unlinkTemp | unlinkLinked | hold => exact ⟨hl, trivial⟩

/-- Where no write fails, a lock file that lockit has read is removed, whoever has it: what
onelock writes is longer than the four bytes that the test of the size allows. -/
theorem judged_bad (hu : 9 ≤ uuname.length) (h : (writtenSystem pid uuname alive).Reachable w)
    (hp : (w.proc p).pc = .test) (c : Choice) :
    ((w.next pid uuname alive p c).proc p).pc = .unlinkBad := by
  have hs : Sized w.lock ∧ ∀ q, (w.proc q).Complete := by
    refine System.invariant (fun w => Sized w.lock ∧ ∀ q, (w.proc q).Complete)
      (fun w hw => ⟨fun f hf => ?_, fun q => ?_⟩) (fun w w' hw hst => ?_) h
    · rw [hw.1] at hf
      cases hf
    · rw [Proc.Complete, (hw.2 q).1]
      trivial
    · obtain ⟨q, c, hc, rfl⟩ := hst
      obtain ⟨hl, hx⟩ := @turn_complete uuname alive c w.lock (w.proc q) (pid q) hu hw.1 (hw.2 q) hc
      refine ⟨hl, fun r => ?_⟩
      by_cases hr : r = q
      · subst hr
        rw [World.next]
        simp only [Function.update_self]
        exact hx
      · rw [World.next]
        simp only [Function.update_of_ne hr]
        exact hw.2 r
  have hx := hs.2 p
  rw [Proc.Complete, hp] at hx
  have hsize : ¬ (w.proc p).ret = (w.proc p).st_size := by omega
  rw [World.next]
  simp only [Function.update_self, turn, hp, turnFound, if_pos (Or.inr hsize)]

/- Two processes, 7 and 8. -/
def blank : Proc := ⟨.idle, 0, none, 0, 0, 0, ⟨[], 0⟩, 0, 0, []⟩

def pids (p : Bool) : Nat := if p then 7 else 8

def unix : List Nat := [117, 110, 105, 120, 0, 0, 0, 0, 0]

def calm : Choice := ⟨false, 0, 2⟩

def turns (w : World Bool) : List Bool → World Bool
  | [] => w
  | p :: ps => turns (w.next pids unix (fun _ => true) p calm) ps

end Svr32.Sccs
