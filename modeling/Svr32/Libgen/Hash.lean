import Mathlib.Data.List.Basic
import Svr32.Libgen.Tree

/-! libgen/hash.c: the hash table. A place outside the table, or a division by zero, gives
`none`. -/
namespace Svr32.Libgen
open Svr32.Lib

/- An entry of the table, with the data of the chain that hangs from it. -/
structure HEntry (α : Type) where
  data : Option α
  next : List α
deriving DecidableEq

structure HHead (α : Type) where
  head : List (HEntry α)
  numentries : Int
  m : Nat
deriving DecidableEq

variable {α : Type} (compare : α → α → Int) (getkey : α → Nat)

def equal (a b : α) : Bool := compare a b == 0

/- As hcreate makes it, for the table size that it has found. -/
def hcreate (m : Nat) : HHead α := ⟨List.replicate m ⟨none, []⟩, 0, m⟩

def h1 (t : HHead α) (key : Nat) : Option Nat := if t.m = 0 then none else some (key % t.m)

/- M - 2 is unsigned. -/
def h2 (t : HHead α) (key : Nat) : Option Nat :=
  let d := (t.m + 2 ^ 32 - 2) % 2 ^ 32
  if d = 0 then none else some (1 + key % d)

/- second hash: p -= h2(k); if (p < TABLE) p += M; -/
def second (t : HHead α) (p key : Nat) : Option Nat := do
  let h ← h2 t key
  let q : Int := p - h
  let q := if q < 0 then q + t.m else q
  if 0 ≤ q then some q.toNat else none

def put (t : HHead α) (p : Nat) (e : HEntry α) (n : Int) : HHead α :=
  { t with head := t.head.set p e, numentries := i16 (t.numentries + n) }

/- The record of the entry, if it matches. -/
def HEntry.match? (e : HEntry α) (data : α) : Option α := e.data.filter fun x => equal compare data x

/- hinsert, from the second entry on. -/
def hinsert2 (t : HHead α) (data : α) (p : Nat) : Option (HHead α × Bool) := do
  let e ← t.head[p]?
  match e.data with
  | none => some (put t p { e with data := some data } 1, true)
  | some x =>
    if equal compare data x = true ∨ e.next.any (equal compare data) = true then some (t, false)
    else some (put t p { e with next := e.next ++ [data] } 1, true)

def hinsert (t : HHead α) (data : α) : Option (HHead α × Bool) := do
  let p ← h1 t (getkey data)
  let e ← t.head[p]?
  match e.data with
  | none => some (put t p { e with data := some data } 1, true)
  | some x =>
    if equal compare data x = true then some (t, false)
    else do
      let p ← second t p (getkey data)
      hinsert2 compare t data p

def hlookup2 (t : HHead α) (data : α) (p : Nat) : Option (Option α) := do
  let e ← t.head[p]?
  match e.match? compare data with
  | some x => some (some x)
  | none => some (e.next.find? (equal compare data))

def hlookup (t : HHead α) (data : α) : Option (Option α) := do
  let p ← h1 t (getkey data)
  let e ← t.head[p]?
  match e.match? compare data with
  | some x => some (some x)
  | none => do
    let p ← second t p (getkey data)
    hlookup2 compare t data p

/- move the first record of the chain in (if possible) -/
def HEntry.moveIn (e : HEntry α) : HEntry α :=
  match e.next with
  | q :: next => ⟨some q, next⟩
  | [] => ⟨none, []⟩

def hdelete2 (t : HHead α) (data : α) (p : Nat) : Option (HHead α × Bool) := do
  let e ← t.head[p]?
  match e.match? compare data with
  | some _ => some (put t p e.moveIn (-1), true)
  | none =>
    if e.next.any (equal compare data) = true then
      some (put t p { e with next := e.next.eraseP (equal compare data) } (-1), true)
    else some (t, false)

def hdelete (t : HHead α) (data : α) : Option (HHead α × Bool) := do
  let p ← h1 t (getkey data)
  let e ← t.head[p]?
  match e.match? compare data with
  | some _ => some (put t p e.moveIn (-1), true)
  | none => do
    let p ← second t p (getkey data)
    hdelete2 compare t data p

inductive HashOp (α : Type) where
  | hinsert (data : α)
  | hlookup (data : α)
  | hdelete (data : α)

def hashOp (t : HHead α) : HashOp α → Option (HHead α × Answer α)
  | .hinsert d => (hinsert compare getkey t d).map fun u => (u.1, .flag u.2)
  | .hlookup d => (hlookup compare getkey t d).map fun o => (t, .data o)
  | .hdelete d => (hdelete compare getkey t d).map fun u => (u.1, .flag u.2)

end Svr32.Libgen
