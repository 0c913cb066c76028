import Mathlib.Logic.Function.Iterate
import Svr32.Lib.Mem
import Svr32.Lib.Word

/-! cmd/pack/pack.c: the Huffman tree of a file, the lengths of its codes and the dictionary that
is written of them. Every index is looked at before it is used, and the arrays come as the file
before left them. -/
namespace Svr32.Pack
open Lib (Arr put put_self put_ne i32)

def END : Nat := 256
def BUFSIZ : Int := 1024

/- struct heap -/
structure Entry where
  count : Int
  node : Nat

/- long count [END+1]; struct heap heap [END+2]; int parent [2*END+1]; int levcount [25]; -/
inductive Table where
  | count | heap | parent | levcount
  deriving DecidableEq

def Table.size : Table → Nat
  | .count => END + 1
  | .heap => END + 2
  | .parent => 2 * END + 1
  | .levcount => 25

inductive Fault where
  | outside (t : Table)
  | endless
  deriving DecidableEq

/- Index `i` is about to be used in the table. -/
def inside (t : Table) (i : Nat) : Except Fault Unit :=
  if i < t.size then .ok () else .error (.outside t)

/- while ((i = read(infile, inbuff, BUFSIZ)) > 0) while (i > 0) count[inbuff[--i]&0377] += 2; -/
def tally (count : Arr Int) (c : Fin 256) : Arr Int := put count c (i32 (count c + 2))

def input (reads : List (List (Fin 256))) : Arr Int :=
  reads.foldl (fun count inbuff => inbuff.reverse.foldl tally count) ⟨fun _ => 0⟩

/- What the first loop of packfile fills. -/
structure Gathered where
  parent : Arr Nat
  heap : Arr Entry
  n : Nat
  diffbytes : Int
  insize : Int

def gatherAt (count : Arr Int) (i : Nat) (s : Gathered) : Except Fault Gathered := do
  inside .parent i
  inside .count i
  if count i > 0 then
    inside .heap (s.n + 1)
    .ok ⟨put s.parent i 0, put s.heap (s.n + 1) ⟨count i, i⟩, s.n + 1, s.diffbytes + 1,
      i32 (s.insize + count i)⟩
  else .ok { s with parent := put s.parent i 0 }

/- for (i=END; i>=0; i--): the characters below `i` are still to come. -/
def gather (count : Arr Int) : Nat → Gathered → Except Fault Gathered
  | 0, s => .ok s
  | i + 1, s => do
    let s ← gatherAt count i s
    gather count i s

/- while (i <= lastparent): every turn goes down, so `n` turns are enough. -/
def siftDown (n : Nat) (heapsubi : Entry) : Nat → Arr Entry → Nat → Except Fault (Arr Entry)
  | 0, _, _ => .error .endless
  | fuel + 1, heap, i =>
    if i ≤ n / 2 then do
      inside .heap (2 * i)
      inside .heap (2 * i + 1)
      let k := if (heap (2 * i)).count > (heap (2 * i + 1)).count ∧ 2 * i < n then 2 * i + 1 else 2 * i
      inside .heap i
      if heapsubi.count < (heap k).count then .ok (put heap i heapsubi)
      else siftDown n heapsubi fuel (put heap i (heap k)) k
    else do
      inside .heap i
      .ok (put heap i heapsubi)

/- makes a heap out of heap[i],...,heap[n] -/
def heapify (n : Nat) (heap : Arr Entry) (i : Nat) : Except Fault (Arr Entry) := do
  inside .heap i
  siftDown n (heap i) (n + 1) heap i

/- for (i=n/2; i>=1; i--) heapify(i); -/
def makeHeap (n : Nat) : Nat → Arr Entry → Except Fault (Arr Entry)
  | 0, heap => .ok heap
  | i + 1, heap => do
    let heap ← heapify n heap (i + 1)
    makeHeap n i heap

structure Forest where
  heap : Arr Entry
  parent : Arr Nat
  lastnode : Nat

/- One turn of while (n > 1). -/
def merge (n : Nat) (s : Forest) : Except Fault Forest := do
  inside .heap 1
  let least := s.heap 1
  inside .parent least.node
  let lastnode := s.lastnode + 1
  let parent := put s.parent least.node lastnode
  inside .heap n
  let heap ← heapify (n - 1) (put s.heap 1 (s.heap n)) 1
  let next := heap 1
  inside .parent next.node
  let parent := put parent next.node lastnode
  let heap ← heapify (n - 1) (put heap 1 ⟨i32 (next.count + least.count), lastnode⟩) 1
  .ok ⟨heap, parent, lastnode⟩

def mergeLoop : Nat → Forest → Except Fault Forest
  | n + 2, s => do
    let s ← merge (n + 2) s
    mergeLoop (n + 1) s
  | _, s => .ok s

/- The arrays as an earlier file left them. -/
structure Tables where
  parent : Arr Nat
  heap : Arr Entry
  levcount : Arr Int
  length : Arr Nat

/- packfile up to parent[lastnode] = 0; a trivial file has no tree. -/
def hufftree (old : Tables) (count : Arr Int) : Except Fault (Gathered × Option Forest) := do
  let s ← gather count (END + 1) ⟨old.parent, old.heap, 0, -1, 0⟩
  if s.diffbytes = 1 then .ok (s, none)
  else do
    let heap ← makeHeap s.n (s.n / 2) s.heap
    let f ← mergeLoop s.n ⟨heap, s.parent, END⟩
    inside .parent f.lastnode
    .ok (s, some { f with parent := put f.parent f.lastnode 0 })

/- for (p=parent[i]; p!=0; p=parent[p]) c++; -/
def depth (parent : Arr Nat) : Nat → Nat → Nat → Except Fault Nat
  | 0, _, _ => .error .endless
  | fuel + 1, p, c =>
    if p = 0 then .ok c
    else do
      inside .parent p
      depth parent fuel (parent p) (c + 1)

structure Lengths where
  levcount : Arr Int
  length : Arr Nat
  maxlev : Nat
  bitsout : Int

def assignAt (parent : Arr Nat) (count : Arr Int) (i : Nat) (s : Lengths) :
    Except Fault Lengths := do
  inside .parent i
  let c ← depth parent (2 * END + 2) (parent i) 0
  inside .levcount c
  inside .count i
  .ok ⟨put s.levcount c (i32 (s.levcount c + 1)), put s.length i c, max s.maxlev c,
    i32 (s.bitsout + c * (count i / 2))⟩

/- for (i=0; i<=END; i++): the first `i` characters. -/
def assign (parent : Arr Nat) (count : Arr Int) : Nat → Lengths → Except Fault Lengths
  | 0, s => .ok s
  | i + 1, s => do
    let s ← assign parent count i s
    assignAt parent count i s

/- output: *outp++ = levcount[i], a byte each. -/
def levels (levcount : Arr Int) : List Nat → Except Fault (List Int)
  | [] => .ok []
  | i :: is => do
    inside .levcount i
    let l ← levels levcount is
    .ok (levcount i % 256 :: l)

/- output: the length and the dictionary. -/
def dictionary (insize : Int) (s : Lengths) : Except Fault (List Int) := do
  let l ← levels s.levcount (List.range' 1 (s.maxlev - 1))
  inside .levcount s.maxlev
  let chars := (List.range' 1 s.maxlev).flatMap fun i =>
    ((List.range END).filter fun c => s.length c == i).map Int.ofNat
  .ok ([31, 30, insize / 2 ^ 24 % 256, insize / 2 ^ 16 % 256, insize / 2 ^ 8 % 256, insize % 256,
    (s.maxlev : Int)] ++ l ++ [(s.levcount s.maxlev - 2) % 256] ++ chars)

inductive Outcome where
  | trivialFile | tooManyLevels | noSaving
  | packed (dict : List Int)

/- for (i=1; i<=24; i++) levcount[i] = 0; -/
def clear (levcount : Arr Int) : Arr Int := ⟨fun i => if 1 ≤ i ∧ i ≤ 24 then 0 else levcount i⟩

/- packfile from the code lengths on. -/
def encode (old : Tables) (force : Bool) (count : Arr Int) (s : Gathered) (f : Forest) :
    Except Fault Outcome := do
  let insize := s.insize / 2
  let t ← assign f.parent count (END + 1) ⟨clear old.levcount, old.length, 0, 0⟩
  if t.maxlev > 24 then .ok .tooManyLevels
  else do
    let outsize := i32 ((t.bitsout + 7) / 8 + 6 + t.maxlev + s.diffbytes)
    if Int.tdiv (insize + BUFSIZ - 1) BUFSIZ ≤ Int.tdiv (outsize + BUFSIZ - 1) BUFSIZ ∧ force = false
    then .ok .noSaving
    else do
      let dict ← dictionary insize t
      .ok (.packed dict)

def packfile (old : Tables) (force : Bool) (reads : List (List (Fin 256))) :
    Except Fault Outcome := do
  let count := put (input reads) END 1
  let (s, tree) ← hufftree old count
  match tree with
  | none => .ok .trivialFile
  | some f => encode old force count s f

end Svr32.Pack
