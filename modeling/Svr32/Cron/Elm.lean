import Svr32.Lib.Linked
import Svr32.Lib.Word

/-! cron/elm.c: the event list manager. A null pointer that is followed gives `none`. -/
namespace Svr32.Cron
open Svr32.Lib Svr32.Lib.Linked

def INFINITY : Int := 2147483647

structure Notice where
  addr : Nat
  time : Int
  id : Int
  event : Nat
  isdummy : Bool
  key : Option Nat
deriving DecidableEq

structure Key where
  addr : Nat
  time : Int
  numnote : Int
  notice : Nat
deriving DecidableEq

def Notice.setKey (n : Notice) (o : Option Nat) : Notice := { n with key := o }

def Key.setNumnote (k : Key) (n : Int) : Key := { k with numnote := n }

instance : Node Notice := ⟨Notice.addr⟩
instance : Node Key := ⟨Key.addr⟩

/- `index` has the keys that the index entries point to; `fresh` is what xmalloc gives next. -/
structure El where
  DU : Int
  LB : Int
  DT : Int
  NLIM : Int
  notices : List Notice
  keys : List Key
  index : List Nat
  current : Option Nat
  fresh : Nat
deriving DecidableEq

def dummy (a : Nat) (t : Int) : Notice := ⟨a, t, 0, 0, true, some a⟩

def dummyKey (a : Nat) (t : Int) : Key := ⟨a, t, 1, a⟩

/- t = t + DT, `n` times. -/
def ticks (dt : Int) : Nat → Int → List Int
  | 0, _ => []
  | n + 1, t => i32 (t + dt) :: ticks dt n (i32 (t + dt))

def elInit (du lb dt nlim : Int) (s : El) : El :=
  if du < 1 ∨ dt < 1 ∨ nlim < 1 then s
  else
    let ts := lb :: (ticks dt du.toNat lb ++ [INFINITY])
    { DU := du + 1, LB := lb, DT := dt, NLIM := nlim
      notices := ts.mapIdx fun i t => dummy (s.fresh + i) t
      keys := ts.mapIdx fun i t => dummyKey (s.fresh + i) t
      index := (List.range (du.toNat + 1)).map fun i => s.fresh + (i + 1)
      current := none
      fresh := s.fresh + (du.toNat + 2) }

/- while ((ind->key)->time <= time) ind = ind->right; -/
def interval (keys : List Key) (time : Int) : List Nat → Option Key
  | [] => none
  | a :: index => do
    let k ← at? a keys
    if k.time ≤ time then interval keys time index else some k

/- The right key: go left while k->time > time, and one to the right. -/
def rightKey (s : El) (time : Int) : Option Key := do
  let ik ← interval s.keys time s.index
  let l ← (lefts ik.addr s.keys).find? fun k => !decide (k.time > time)
  (rights l.addr s.keys).head?

/- k's sublist is full, so split it. -/
def split (s : El) (k : Key) (time : Int) : Option (El × Nat) := do
  let n0 ← at? k.notice s.notices
  let n2 ← (n0 :: lefts k.notice s.notices)[(s.NLIM / 2).toNat]?
  let k2 : Key := ⟨s.fresh, n2.time, s.NLIM - s.NLIM / 2, n2.addr⟩
  let keys ← putBefore k.addr k2 (change k.addr (fun k => k.setNumnote (s.NLIM / 2)) s.keys)
  some ({ s with
    keys := keys
    notices := change n2.addr (fun n => n.setKey (some k2.addr)) s.notices
    fresh := s.fresh + 1 }, if k2.time > time then k2.addr else k.addr)

def place (s : El) (k : Key) (time : Int) : Option (El × Nat) :=
  if k.numnote = s.NLIM then split s k time else some (s, k.addr)

/- The notice `n` goes into the sublist of the key. -/
def insert (s : El) (n : Notice) (ka : Nat) : Option El := do
  let k ← at? ka s.keys
  let n0 ← at? k.notice s.notices
  let n2 ← (n0 :: lefts k.notice s.notices).find? fun m => !decide (m.time > n.time)
  let notices ← putAfter n2.addr n s.notices
  some { s with
    keys := change ka (fun k => k.setNumnote (k.numnote + 1)) s.keys
    notices := notices }

/- if ( (current == NULL) || (current->time > time) ) current = n; -/
def newCurrent (s : El) (n : Notice) : Option El :=
  match s.current with
  | none => some { s with current := some n.addr }
  | some c => do
    let m ← at? c s.notices
    some (if m.time > n.time then { s with current := some n.addr } else s)

def elAdd (s : El) (event : Nat) (time id : Int) : Option El :=
  if s.index = [] ∨ time < s.LB then some s
  else do
    let n : Notice := ⟨s.fresh, time, id, event, false, none⟩
    let s := { s with fresh := s.fresh + 1 }
    let k ← rightKey s time
    let (s, ka) ← place s k time
    let s ← insert s n ka
    newCurrent s n

/- n has a key pointing to it: the key gets the notice to the left. -/
def moveKey (s : El) (n : Notice) : Option El :=
  match n.key with
  | none => some s
  | some ka => do
    let l ← (lefts n.addr s.notices).head?
    some { s with
      notices := change l.addr (fun l => l.setKey (some ka)) s.notices
      keys := change ka (fun k => { k with time := l.time, notice := l.addr }) s.keys }

/- The key of a notice that is the last of its sublist is cleared. -/
def clearKey (a : Nat) (notices : List Notice) : List Notice :=
  change a (fun n => n.setKey none) notices

/- Merge with the sublist on the left, or else with the one on the right. -/
def merge (s : El) (k : Key) : Option El := do
  let kl ← (lefts k.addr s.keys).head?
  let nl ← at? kl.notice s.notices
  if nl.isdummy = false ∧ kl.numnote + k.numnote ≤ s.NLIM then
    let keys ← cut kl.addr
      (change k.addr (fun k => k.setNumnote (k.numnote + kl.numnote)) s.keys)
    some { s with notices := clearKey kl.notice s.notices, keys := keys }
  else do
    let nk ← at? k.notice s.notices
    if nk.isdummy = false then
      let kr ← (rights k.addr s.keys).head?
      if kr.numnote + k.numnote ≤ s.NLIM then
        let keys ← cut k.addr
          (change kr.addr (fun r => r.setNumnote (r.numnote + k.numnote)) s.keys)
        some { s with notices := clearKey k.notice s.notices, keys := keys }
      else some s
    else some s

/- n = sole element of a sublist -/
def sole (s : El) (n : Notice) : Option Nat := do
  let ka ← n.key
  let k ← at? ka s.keys
  if k.numnote = 1 then some ka else none

/- The key of the sublist that is about to lose `n`. -/
def dropKey (s : El) (n : Notice) : Option El :=
  match sole s n with
  | some ka => do
    let keys ← cut ka s.keys
    some { s with keys := keys }
  | none => do
    let s ← moveKey s n
    let n2 ← (n :: rights n.addr s.notices).find? fun m => m.key.isSome
    let ka ← n2.key
    let s := { s with keys := change ka (fun k => k.setNumnote (k.numnote - 1)) s.keys }
    let k ← at? ka s.keys
    merge s k

/- n should be deleted -/
def deleteNotice (s : El) (n : Notice) : Option El := do
  let s ← dropKey s n
  let notices ← cut n.addr s.notices
  some { s with notices := notices }

/- The traversal from `current`. -/
def removeLoop (id flag : Int) : List Nat → El → Option El
  | [], s => some s
  | a :: as, s => do
    let n ← at? a s.notices
    if n.isdummy = true ∨ n.id ≠ id then removeLoop id flag as s
    else
      let s ← deleteNotice s n
      if flag ≠ 0 then some s else removeLoop id flag as s

/- Now reset current: the test for the null pointer comes after it is followed. -/
def resetCurrent (s : El) : Option El := do
  let ia ← s.index.head?
  let k ← (lefts ia s.keys).getLast?
  let n ← (rights k.notice s.notices).find? fun n => !n.isdummy
  some { s with current := some n.addr }

def elRemove (s : El) (id flag : Int) : Option El :=
  if s.index = [] then some s
  else
    match s.current with
    | none => some s
    | some c => do
      let s ← removeLoop id flag (c :: (rights c s.notices).map Notice.addr) s
      resetCurrent s

def elEmpty (s : El) : Bool := s.current.isNone

/- only two intervals, so relabel first one -/
def relabel (s : El) : Option El := do
  let ia ← s.index.head?
  let k ← at? ia s.keys
  some { s with
    keys := change ia (fun k => { k with time := i32 (k.time + s.DT) }) s.keys
    notices := change k.notice (fun n => { n with time := i32 (n.time + s.DT) }) s.notices }

/- The first interval goes to the end, where the overflow interval is split. -/
def rotate (s : El) : Option El := do
  let fi ← s.index.head?
  let fk ← at? fi s.keys
  let fn ← at? fk.notice s.notices
  let notices ← cut fn.addr s.notices
  let keys ← cut fk.addr s.keys
  let index := s.index.tail
  let ia ← index.dropLast.getLast?
  let last ← index.getLast?
  let ik ← at? ia keys
  let next := i32 (ik.time + s.DT)
  let k ← (ik :: rights ia keys).find? fun k => !decide (k.time < next)
  let m ← (lefts k.notice notices).find? fun n => !decide (n.time ≥ next)
  let ctr : Nat := ((lefts k.notice notices).takeWhile fun n => decide (n.time ≥ next)).length + 1
  let n ← (rights m.addr notices).head?
  let keys ← putBefore k.addr { fk with time := next, numnote := k.numnote - ctr + 1 }
    (change k.addr (fun k => k.setNumnote ctr) keys)
  let notices ← putBefore n.addr { fn with time := next } notices
  some { s with index := index.dropLast ++ [fi, last], keys := keys, notices := notices }

def shift (s : El) : Option El := if s.DU = 2 then relabel s else rotate s

/- while ((index->key)->time < current->time); a clock of 32 bits gives a bound on the rounds. -/
def advance (time : Int) : Nat → El → Option El
  | 0, _ => none
  | n + 1, s => do
    let ia ← s.index.head?
    let k ← at? ia s.keys
    if k.time < time then
      let s ← shift s
      advance time n s
    else some s

/- if numnote = 0 then this key must be removed -/
def dropEmpty (k : Key) (keys : List Key) : Option (List Key) :=
  if k.numnote = 0 then cut k.addr keys else some keys

/- remove the first element of the list -/
def takeFirst (s : El) (cur : Notice) : Option El := do
  let notices ← cut cur.addr s.notices
  let n ← (cur :: rights cur.addr s.notices).find? fun n => n.key.isSome
  let ka ← n.key
  let keys := change ka (fun k => k.setNumnote (k.numnote - 1)) s.keys
  let k ← at? ka keys
  let keys ← dropEmpty k keys
  some { s with
    notices := notices
    keys := keys
    current := ((rights cur.addr s.notices).find? fun n => !n.isdummy).map Notice.addr }

def elFirst (s : El) : Option (El × Option Nat) :=
  if s.index = [] then some (s, none)
  else
    match s.current with
    | none => some (s, none)
    | some c => do
      let cur ← at? c s.notices
      let s ← advance cur.time (2 ^ 32) s
      let cur ← at? c s.notices
      let s ← takeFirst s cur
      some (s, some cur.event)

end Svr32.Cron
