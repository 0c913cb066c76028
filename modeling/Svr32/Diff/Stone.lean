import Svr32.Lib.Mem

/-! cmd/diff/diff.c: a longest common subsequence of the lines of two files, from their hash values.
Arrays are used from 1 on. The arrays class and member, which diff.c lays over the tables
of lines, are apart from them here: every entry is read before it is overlaid. -/
namespace Svr32.Diff
open Lib (Arr put)

structure Line where
  serial : Nat
  value : Int
  deriving DecidableEq

/- The entry `i` of a table of lines. -/
def values (l : List Int) (i : Nat) : Int := if i = 0 then 0 else l.getD (i - 1) 0

/- for(pref=0;pref<len[0]&&pref<len[1]&&file[0][pref+1].value==file[1][pref+1].value;pref++ ) ; -/
def prefLoop : List Int → List Int → Nat
  | a :: l, b :: m => if a = b then prefLoop l m + 1 else 0
  | _, _ => 0

/- The same from the ends, on what is behind the prefix. -/
def suffLoop (l m : List Int) : Nat := prefLoop l.reverse m.reverse

def pref (l m : List Int) : Nat := prefLoop l m
def suff (l m : List Int) : Nat := suffLoop (l.drop (pref l m)) (m.drop (pref l m))

/- sfile: what is left between the prefix and the suffix. -/
def pruned {α : Type} (p s : Nat) (l : List α) : List α := (l.drop p).take (l.length - p - s)

/- prune: the lines of sfile with their serial numbers. -/
def serials (l : List Int) : Arr Line := ⟨fun i => ⟨i, values l i⟩⟩

/- aim->value > ai[0].value || aim->value == ai[0].value && aim->serial > ai[0].serial -/
def after (aim ai : Line) : Bool :=
  aim.value > ai.value ∨ aim.value = ai.value ∧ aim.serial > ai.serial

def swap (a : Arr Line) (i j : Nat) : Arr Line := put (put a i (a j)) j (a i)

/- for(ai = &a[j]; ai > a; ai -= m): every turn goes down, so `j` turns are enough. -/
def sink (m : Nat) : Nat → Arr Line → Nat → Arr Line
  | 0, a, _ => a
  | fuel + 1, a, i =>
    if i = 0 then a
    else if after (a (i + m)) (a i) then a
    else sink m fuel (swap a i (i + m)) (i - m)

/- for(j=1;j<=k;j++) with k = n-m -/
def pass (m : Nat) : Nat → Arr Line → Arr Line
  | 0, a => a
  | k + 1, a =>
    let a := pass m k a
    sink m (k + 1) a (k + 1)

/- for(j=1,m=0;j<=n;j*= 2) m = 2*j - 1; -/
def gap (n : Nat) : Nat → Nat → Nat → Nat
  | 0, _, m => m
  | fuel + 1, j, m => if j ≤ n then gap n fuel (j * 2) (2 * j - 1) else m

/- for(m/=2;m!=0;m/=2) -/
def passes (n : Nat) : Nat → Nat → Arr Line → Arr Line
  | 0, _, a => a
  | fuel + 1, m, a => if m = 0 then a else passes n fuel (m / 2) (pass m (n - m) a)

def sort (a : Arr Line) (n : Nat) : Arr Line := passes n n (gap n (n + 1) 1 0 / 2) a

/- The loops of equiv over a: the value of each line becomes the first line of b with its value. -/
def equivLoop (b : Arr Line) (n m : Nat) : Nat → Nat → Nat → Arr Line → Arr Line
  | 0, _, _, a => a
  | fuel + 1, i, j, a =>
    if i ≤ n ∧ j ≤ m then
      if (a i).value < (b j).value then equivLoop b n m fuel (i + 1) j (put a i { a i with value := 0 })
      else if (a i).value = (b j).value then
        equivLoop b n m fuel (i + 1) j (put a i { a i with value := j })
      else equivLoop b n m fuel i (j + 1) a
    else if i ≤ n then equivLoop b n m fuel (i + 1) j (put a i { a i with value := 0 })
    else a

/- while(b[j+1].value == b[j].value) { j++; c[j] = b[j].serial; } -/
def classLoop (b : Arr Line) : Nat → Nat → Arr Int → Nat × Arr Int
  | 0, j, c => (j, c)
  | fuel + 1, j, c =>
    if (b (j + 1)).value = (b j).value then classLoop b fuel (j + 1) (put c (j + 1) (b (j + 1)).serial)
    else (j, c)

/- while(++j <= m), and c[j] = -1 after it. -/
def memberLoop (b : Arr Line) (m : Nat) : Nat → Nat → Arr Int → Arr Int
  | 0, _, c => c
  | fuel + 1, j, c =>
    if j + 1 ≤ m then
      let (j, c) := classLoop b m (j + 1) (put c (j + 1) (-(b (j + 1)).serial))
      memberLoop b m fuel j c
    else put c (j + 1) (-1)

/- equiv: the lines of a with their classes, and the array member. -/
def equiv (a : Arr Line) (n : Nat) (b : Arr Line) (m : Nat) : Arr Line × Arr Int :=
  let a := equivLoop b n m (n + m + 1) 1 1 a
  let b := put b (m + 1) { b (m + 1) with value := 0 }
  (a, memberLoop b m (m + 1) 0 ⟨fun _ => 0⟩)

/- for(i=1;i<=l;i++) a[f[i].serial] = f[i].value; -/
def unsort (f : Arr Line) : Nat → Arr Int
  | 0 => ⟨fun _ => 0⟩
  | l + 1 => put (unsort f l) (f (l + 1)).serial (f (l + 1)).value

structure Cand where
  x : Nat
  y : Nat
  pred : Nat
  deriving DecidableEq

/- clist and its length clen, the array klist and its length k. -/
structure Cands where
  clist : Arr Cand
  clen : Nat
  c : Arr Nat
  k : Nat

/- newcand: the index of the new candidate is the old clen. -/
def Cands.newcand (s : Cands) (x y pred : Nat) : Cands :=
  { s with clist := put s.clist s.clen ⟨x, y, pred⟩, clen := s.clen + 1 }

/- c[l] = newcand(x, y, pred) -/
def Cands.install (s : Cands) (l x y pred : Nat) : Cands :=
  { s.newcand x y pred with c := put s.c l s.clen }

/- The y of the candidate that klist has for a length. -/
def Cands.y (s : Cands) (l : Nat) : Nat := (s.clist (s.c l)).y

/- while((l=(i+j)/2) > i) -/
def searchLoop (s : Cands) (y : Nat) : Nat → Nat → Nat → Option Nat
  | 0, _, _ => none
  | fuel + 1, i, j =>
    let l := (i + j) / 2
    if l > i then
      if s.y l > y then searchLoop s y fuel i l
      else if s.y l < y then searchLoop s y fuel l j
      else some l
    else some (l + 1)

def search (s : Cands) (y : Nat) : Option Nat :=
  if s.y s.k < y then some (s.k + 1) else searchLoop s y (s.k + 2) 0 (s.k + 1)

/- do ... while((y=b[++j]) > 0), over the members of the class of line i. -/
def members (b : Arr Int) (i : Nat) : Nat → Cands → Nat → Nat → Nat → Nat → Option Cands
  | 0, _, _, _, _, _ => none
  | fuel + 1, s, j, y, oldc, oldl =>
    let next (s : Cands) (oldc oldl : Nat) : Option Cands :=
      if b (j + 1) > 0 then members b i fuel s (j + 1) (b (j + 1)).toNat oldc oldl else some s
    if y ≤ (s.clist oldc).y then next s oldc oldl
    else do
      let l ← search s y
      let oldc := if l ≠ oldl + 1 then s.c (l - 1) else oldc
      if l ≤ s.k then
        if s.y l ≤ y then next s oldc oldl
        else next (s.install l i y oldc) (s.c l) l
      else
        let s := s.install l i y oldc
        some { s with k := s.k + 1 }

/- for(i=1; i<=n; i++) of stone -/
def stoneLoop (a : Arr Int) (m : Nat) (b : Arr Int) : Nat → Option Cands
  | 0 => some ((⟨⟨fun _ => ⟨0, 0, 0⟩⟩, 0, ⟨fun _ => 0⟩, 0⟩ : Cands).install 0 0 0 0)
  | i + 1 => do
    let s ← stoneLoop a m b i
    let j := (a (i + 1)).toNat
    if j = 0 then some s
    else members b (i + 1) (m + 1) s j (-(b j)).toNat (s.c 0) 0

/- for(q=clist+p;q->y!=0;q=clist+q->pred) J[q->x+pref] = q->y+pref; -/
def unravelLoop (clist : Arr Cand) (pref : Nat) : Nat → Nat → Arr Nat → Option (Arr Nat)
  | 0, _, _ => none
  | fuel + 1, p, J =>
    if (clist p).y ≠ 0 then
      unravelLoop clist pref fuel (clist p).pred (put J ((clist p).x + pref) ((clist p).y + pref))
    else some J

def unravel (s : Cands) (len0 len1 pref suff : Nat) : Option (Arr Nat) :=
  unravelLoop s.clist pref (s.clen + 1) (s.c s.k)
    ⟨fun i => if i ≤ pref then i else if i > len0 - suff then i + len1 - len0 else 0⟩

/- What main does between prepare and check: J[1], ..., J[len[0]]. -/
def findMatches (l m : List Int) : Option (List Nat) := do
  let p := pref l m
  let s := suff l m
  let l' := pruned p s l
  let m' := pruned p s m
  let a := sort (serials l') l'.length
  let b := sort (serials m') m'.length
  let (a, member) := equiv a l'.length b m'.length
  let klist ← stoneLoop (unsort a l'.length) m'.length member l'.length
  let J ← unravel klist l.length m.length p s
  some ((List.range l.length).map fun i => J (i + 1))

example : findMatches [1, 2, 3, 4, 2, 5] [1, 3, 2, 4, 3, 5] = some [1, 0, 2, 0, 3, 6] := by
  decide +kernel

end Svr32.Diff
