import Svr32.Nami.Removals
import Svr32.Lib.System

/-! s5nami.c: link counts and directory entries agree along every run, as long as no file is created
whose entry then cannot be written. -/
namespace Svr32.Nami
variable {m : Mount} {s t : State} {δ : Nat → Int} {i : Nat}

/- What the kernel does with a file system: a call of s5namei for a directory that namei has locked,
a reference to an inode taken or given back by somebody else, and the place of an inode without
references in the inode table taken for another one. -/
inductive Event
  | namei (env : Env) (dp : Nat) (comp : List Nat) (flagp : Option Argnamei)
  | hold (i : Nat)
  | release (bad : Bool) (i : Nat)
  | reclaim (i : Nat)

def next (m : Mount) : Event → State → State
  | .namei env dp comp flagp, s => (s5namei m env dp comp flagp (iget dp { s with err := none })).2
  | .hold i, s => iget i s
  | .release bad i, s => iput bad i { s with err := none }
  | .reclaim i, s => { s with core := Function.update s.core i (s.disk i) }

/- What the callers see to: namei gives s5namei a directory with links, s5ialloc finds a free inode,
link() holds the inode that it links, and what is deleted is no directory. -/
def Legal (m : Mount) : Event → State → Prop
  | .namei env dp comp flagp, s =>
    (s.core dp).ftype = IFDIR ∧ (s.core dp).nlink ≠ 0 ∧
    (∀ i, env.alloc = .ok i → (s.core i).mode = 0 ∧ 0 < i ∧ i < m.ninode) ∧
    ∀ a, flagp = some a →
      (a.cmd = .link → 0 < s.count a.ino) ∧
      (a.cmd = .del → ∀ k < (s.core dp).size, (s.dir dp k).ino ≠ 0 →
        (s.dir dp k).name = comp.take DIRSIZ → (s.core (s.dir dp k).ino).ftype ≠ IFDIR)
  | .hold i, s => (i ≠ 0 ∧ 0 < names m s i) ∨ 0 < s.count i
  | .release _ i, s => 0 < s.count i
  | .reclaim i, s => s.count i = 0

/- A consistent file system that nobody uses yet. -/
def Clean (m : Mount) (s : State) : Prop := Off m (fun _ => 0) s ∧ ∀ i, s.count i = 0

/- The runs whose steps meet `C`. -/
def fs (m : Mount) (C : Event → State → Prop) : Lib.System State where
  init := Clean m
  step s t := ∃ e, Legal m e s ∧ C e s ∧ t = next m e s

/- Link counts and names agree, no directory has two entries of one name, and an inode that has no
entry has a user, or it has been freed. -/
structure Consistent (m : Mount) (s : State) : Prop where
  links : ∀ i, (s.core i).mode ≠ 0 → (s.core i).nlink = names m s i
  unique : ∀ d, (s.core d).ftype = IFDIR → ∀ k l, k < (s.core d).size → l < (s.core d).size →
    (s.dir d k).ino ≠ 0 → (s.dir d l).ino ≠ 0 → (s.dir d k).name = (s.dir d l).name → k = l
  freed : ∀ i, names m s i = 0 → s.count i = 0 → (s.core i).mode = 0

/- A file system with four inodes, of which the root directory is in use. -/
def small : Mount := ⟨32, by decide, 0, 4⟩

/- A call in which everything succeeds and s5ialloc finds inode 3, but for the outcome of the writes
of directories. -/
def calm (wr : Wr) : Env where
  rd _ _ := false
  wr _ := wr
  upd _ := false
  access := none
  sticky := false
  iget := none
  mounted := false
  alloc := .ok 3
  busy := false
  suser := true
  cdir := false
  cmask := 0x12

/- creat("/f", 0666) -/
def creat (wr : Wr) : Event :=
  .namei (calm wr) 2 [102] (some ⟨.creat, 0, 0x1B6, 0, 0⟩)

end Svr32.Nami
