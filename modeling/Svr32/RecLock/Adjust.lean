import Svr32.RecLock.Record

/-! regflck and flckadj: setting or releasing a range on a lock list. The loops follow
next pointers; each has as much fuel as there are records. -/
namespace Svr32.RecLock
open Svr32.Lib
variable {I : Type*} [DecidableEq I]

inductive Errno where
  | ebadf
  | einval
  | eagain
  | edeadlk
  | enolck
  | eintr
deriving DecidableEq, Repr

/- The five regions relative to a lock; `finish` stands for S_END and E_END. -/
inductive Region where
  | before
  | start
  | middle
  | finish
  | after
deriving DecidableEq, Repr

def regflckEnd (ld flp : Flock) : Region :=
  if ld.lEnd < flp.lEnd then
    if ld.lEnd = flp.lStart - 1 then .start
    else if ld.lEnd < flp.lStart then .before
    else .middle
  else if ld.lEnd = flp.lEnd then .finish
  else .after

def regflck (ld flp : Flock) : Region × Region :=
  if ld.lStart > flp.lStart then
    if ld.lStart - 1 = flp.lEnd then (.finish, .after)
    else if ld.lStart > flp.lEnd then (.after, .after)
    else (.middle, regflckEnd ld flp)
  else if ld.lStart = flp.lStart then (.start, regflckEnd ld flp)
  else (.before, regflckEnd ld flp)

/- do { if (flp->l_start < start) ins = flp; else break; } while (flp = flp->next) -/
def insPoint (k : Table I) (start : Int) : Nat → Nat → Option Nat → Option Nat
  | _, ins, none => some ins
  | 0, _, some _ => none
  | fuel + 1, ins, some flp =>
    if (k.set flp).lStart < start then insPoint k start fuel flp (k.links.next flp) else some ins

/- What one turn of the loop of flckadj leaves: go on at `nflp`, or return. -/
inductive Adj (I : Type*) where
  | next (k : Table I) (insrtp nflp : Option Nat) (ld : Flock)
  | ret (k : Table I) (ld : Flock) (retval : Option Errno)

/- flp->set.l_end = ld->l_start - 1; WAKEUP(flp) -/
def cutflck (ld : Flock) (flp : Nat) (k : Table I) : Table I :=
  wakeupFlagged
    { k with set := Function.update k.set flp { k.set flp with lEnd := ld.lStart - 1 } } flp

/- The end of case S_BEFORE|E_MIDDLE; `cut` when it was entered as S_MIDDLE|E_MIDDLE. -/
def adjPiece (li : ListId I) (cut : Bool) (insrtp : Option Nat) (ld : Flock) (flp : Nat)
    (k : Table I) : Adj I :=
  if cut then .next (cutflck ld flp k) (some flp) none ld
  else .next (delflck li flp k) insrtp none ld

/- case S_BEFORE|E_MIDDLE, where the two cases in front of it fall through. -/
def adjMiddle (recs : Nat) (u : Owner) (li : ListId I) (cut : Bool) (insrtp : Option Nat)
    (ld : Flock) (flp : Nat) (k : Table I) : Option (Adj I) :=
  if ld.lType = (k.set flp).lType then
    some (adjPiece li cut insrtp { ld with lEnd := (k.set flp).lEnd } flp k)
  else
    let td := { k.set flp with lStart := ld.lEnd + 1 }
    (insPoint k td.lStart (recs + 1) flp (some flp)).map fun tdi =>
      match insflck u li td (some tdi) k with
      | none => .ret k ld (some .enolck)
      | some (_, k) => adjPiece li cut insrtp ld flp k

/- The body of the loop for a lock of the process `u`. -/
def adjOwn (recs : Nat) (u : Owner) (li : ListId I) (insrtp : Option Nat) (ld : Flock)
    (flp : Nat) (k : Table I) : Option (Adj I) :=
  let nflp := k.links.next flp
  let prev := k.links.prev flp
  let same := decide (ld.lType = (k.set flp).lType)
  match regflck ld (k.set flp) with
  | (.before, .before) => some (.next k insrtp none ld)
  | (.before, .start) =>
    if same then some (.next (delflck li flp k) insrtp none { ld with lEnd := (k.set flp).lEnd })
    else some (.next k insrtp none ld)
  | (.start, .finish) =>
    if same then some (.ret k ld none) else some (.next (delflck li flp k) prev nflp ld)
  | (.start, .after) => some (.next (delflck li flp k) prev nflp ld)
  | (.before, .finish) =>
    some (.next (delflck li flp k) insrtp (if same then none else nflp) ld)
  | (.before, .after) => some (.next (delflck li flp k) insrtp nflp ld)
  | (.start, .middle) =>
    if same then some (.ret k ld none) else adjMiddle recs u li false prev ld flp k
  | (.middle, .middle) =>
    if same then some (.ret k ld none) else adjMiddle recs u li true insrtp ld flp k
  | (.before, .middle) => adjMiddle recs u li false insrtp ld flp k
  | (.middle, .finish) =>
    if same then some (.ret k ld none)
    else some (.next (cutflck ld flp k) (some flp) nflp ld)
  | (.middle, .after) =>
    if same then
      some (.next (delflck li flp k) prev nflp { ld with lStart := (k.set flp).lStart })
    else some (.next (cutflck ld flp k) (some flp) nflp ld)
  | (.finish, .after) =>
    if same then
      some (.next (delflck li flp k) prev nflp { ld with lStart := (k.set flp).lStart })
    else some (.next k insrtp nflp ld)
  | (.after, .after) => some (.next k (some flp) nflp ld)
  | _ => some (.next k insrtp nflp ld)

/- if (insflck(lck_list, ld, fl) == NULL) return(ENOLCK); return(0) -/
def adjPlace (u : Owner) (li : ListId I) (ld : Flock) (k : Table I) (fl : Option Nat) :
    Table I × Flock × Option Errno :=
  match insflck u li ld fl k with
  | none => (k, ld, some .enolck)
  | some (_, k) => (k, ld, none)

/- After the loop: insert the lock, unless it is an unlock. -/
def adjInsert (recs : Nat) (u : Owner) (li : ListId I) (insrtp : Option Nat) (ld : Flock)
    (k : Table I) : Option (Table I × Flock × Option Errno) :=
  if ld.lType = .unlck then some (k, ld, none)
  else
    match insrtp with
    | none => some (adjPlace u li ld k none)
    | some flp =>
      (insPoint k ld.lStart (recs + 1) flp (some flp)).map fun ins =>
        adjPlace u li ld k (some ins)

def adjLoop (recs : Nat) (u : Owner) (li : ListId I) :
    Nat → Option Nat → Option Nat → Flock → Table I → Option (Table I × Flock × Option Errno)
  | _, insrtp, none, ld, k => adjInsert recs u li insrtp ld k
  | 0, _, some _, _, _ => none
  | fuel + 1, insrtp, some flp, ld, k =>
    if (k.set flp).owner = u then
      (adjOwn recs u li insrtp ld flp k).bind fun
        | .next k insrtp nflp ld => adjLoop recs u li fuel insrtp nflp ld k
        | .ret k ld retval => some (k, ld, retval)
    else adjLoop recs u li fuel insrtp (k.links.next flp) ld k

/-- flckadj(&list, insrtp, ld) in the process `u`. -/
def flckadj (recs : Nat) (u : Owner) (li : ListId I) (insrtp : Option Nat) (ld : Flock)
    (k : Table I) : Option (Table I × Flock × Option Errno) :=
  adjLoop recs u li (recs + 1) insrtp (insrtp.or (k.links.head li)) ld k

end Svr32.RecLock

/-! What flckadj keeps: the part of the list behind the loop is settled with the range
that is being set, the rest is still to be looked at. -/
namespace Svr32.RecLock
open Svr32.Lib
variable {I : Type*} [DecidableEq I]

/- A range as reclock passes it on. -/
structure Flock.Asked (ld : Flock) : Prop where
  start : 0 ≤ ld.lStart
  le : ld.lStart ≤ ld.lEnd
  max : ld.lEnd ≤ maxEnd
  type : ld.lType = .rdlck ∨ ld.lType = .wrlck ∨ ld.lType = .unlck

/- The lock goes in behind the cursor, or in front when it is NULL. -/
def Cursor (set : Nat → Flock) (l : List Nat) (start : Int) : Option Nat → Prop
  | none => ∀ r ∈ l, start ≤ (set r).lStart
  | some x => x ∈ l ∧ (set x).lStart ≤ start

/- The loop invariant: `pre` is done, `post` is left. -/
structure AdjInv (u : Owner) (set : Nat → Flock) (pre post : List Nat) (insrtp : Option Nat)
    (ld : Flock) : Prop where
  locked : Locked set (pre ++ post)
  asked : ld.Asked
  others : ld.lType ≠ .unlck → ∀ r ∈ pre ++ post, (set r).owner ≠ u → ld.Compatible (set r)
  own : ∀ r ∈ pre, (set r).owner = u → ld.Apart (set r)
  cursor : ld.lType ≠ .unlck → Cursor set (pre ++ post) ld.lStart insrtp

/- `ld'` is `ld`, or `ld` joined with a lock `x` of its type that it touches. -/
structure Grown (ld x ld' : Flock) : Prop where
  asked : ld'.Asked
  type : ld'.lType = ld.lType
  range : (ld'.lStart = ld.lStart ∧ ld'.lEnd = ld.lEnd) ∨
    (ld.lType = x.lType ∧ x.lStart ≤ ld.lEnd + 1 ∧ ld.lStart ≤ x.lEnd + 1 ∧
      (ld'.lStart = ld.lStart ∨ ld'.lStart = x.lStart) ∧
      (ld'.lEnd = ld.lEnd ∨ ld'.lEnd = x.lEnd))

variable {u : Owner} {set : Nat → Flock} {pre post : List Nat} {insrtp : Option Nat}
  {ld ld' x b : Flock} {flp : Nat}

theorem Grown.refl (h : ld.Asked) : Grown ld x ld := ⟨h, rfl, .inl ⟨rfl, rfl⟩⟩

theorem Grown.apart (h : Grown ld x ld') (hb : b.Valid) (hl : ld.Apart b) (hx : x.Apart b) :
    ld'.Apart b := by
  have hle := hb.le
  have ht := h.type
  simp only [Flock.Apart, ht] at hl hx ⊢
  cases h.range with
  | inl hr =>
    rw [hr.1, hr.2]
    exact hl
  | inr hr =>
    obtain ⟨htx, h₁, h₂, h₃, h₄⟩ := hr
    refine ⟨by omega, fun hty => ?_⟩
    have hl' := hl.2 hty
    have hx' := hx.2 (htx ▸ hty)
    omega

theorem Grown.compatible (h : Grown ld x ld') (hb : b.Valid) (hl : ld.Compatible b)
    (hx : x.Compatible b) : ld'.Compatible b := by
  have hle := hb.le
  have ht := h.type
  simp only [Flock.Compatible, ht] at hl hx ⊢
  cases h.range with
  | inl hr =>
    rw [hr.1, hr.2]
    exact hl
  | inr hr =>
    obtain ⟨htx, h₁, h₂, h₃, h₄⟩ := hr
    by_cases hw : ld.lType ≠ .wrlck ∧ b.lType ≠ .wrlck
    · exact .inr (.inr hw)
    · rw [← htx] at hx
      have hl' : ld.lEnd < b.lStart ∨ b.lEnd < ld.lStart := by tauto
      have hx' : x.lEnd < b.lStart ∨ b.lEnd < x.lStart := by tauto
      omega

/-- Two locks of one owner, in list order. -/
theorem Locked.own_after (h : Locked set (pre ++ flp :: post)) {r : Nat} (hr : r ∈ post)
    (ho : (set r).owner = (set flp).owner) :
    (set flp).lEnd < (set r).lStart ∧
      ((set flp).lType = (set r).lType → (set flp).lEnd + 1 < (set r).lStart) := by
  have hle := h.after hr
  have hv := (h.valid r (by simp [hr])).le
  obtain ⟨hd, ht⟩ := (h.beside (List.mem_append_right pre hr)).1 ho.symm
  refine ⟨by omega, fun hty => ?_⟩
  have hd' := ht hty
  omega

/-- flp->prev as a cursor. -/
theorem Locked.cursor_prev (h : Locked set (pre ++ flp :: post)) {start : Int}
    (hs : (set flp).lStart = start) : Cursor set (pre ++ post) start pre.getLast? := by
  cases hp : pre.getLast? with
  | none =>
    rw [List.getLast?_eq_none_iff] at hp
    subst hp
    intro r hr
    rw [← hs]
    exact h.after hr
  | some y =>
    have hy : y ∈ pre := List.mem_of_getLast? hp
    exact ⟨List.mem_append_left post hy, hs ▸ h.before hy⟩

/-- A cursor other than the removed record stays one. -/
theorem Cursor.remove {start : Int} (h : Cursor set (pre ++ flp :: post) start insrtp)
    (hx : start < (set flp).lStart) : Cursor set (pre ++ post) start insrtp := by
  cases insrtp with
  | none => exact fun r hr => h r (((List.sublist_cons_self flp post).append_left pre).subset hr)
  | some y =>
    refine ⟨?_, h.2⟩
    have hm := h.1
    have hne : y ≠ flp := by
      intro he
      have hle := h.2
      rw [he] at hle
      omega
    simpa [hne] using hm

namespace AdjInv

/-- A record that stays as it is. -/
theorem keep (h : AdjInv u set pre (flp :: post) insrtp ld)
    (hown : (set flp).owner = u → ld.Apart (set flp)) {insrtp' : Option Nat}
    (hc : ld.lType ≠ .unlck → Cursor set (pre ++ flp :: post) ld.lStart insrtp') :
    AdjInv u set (pre ++ [flp]) post insrtp' ld := by
  have hl : pre ++ [flp] ++ post = pre ++ flp :: post := by simp
  refine ⟨by rw [hl]; exact h.locked, h.asked, by rw [hl]; exact h.others, fun r hr ho => ?_,
    by rw [hl]; exact hc⟩
  cases List.mem_append.mp hr with
  | inl hr => exact h.own r hr ho
  | inr hr =>
    rw [List.mem_singleton.mp hr] at ho ⊢
    exact hown ho

/-- The loop may stop when the rest is settled too. -/
theorem stop (h : AdjInv u set pre post insrtp ld)
    (hown : ∀ r ∈ post, (set r).owner = u → ld.Apart (set r)) :
    AdjInv u set (pre ++ post) [] insrtp ld := by
  refine ⟨by simpa using h.locked, h.asked, by simpa using h.others, fun r hr ho => ?_,
    by simpa using h.cursor⟩
  cases List.mem_append.mp hr with
  | inl hr => exact h.own r hr ho
  | inr hr => exact hown r hr ho

/-- A record of the process that goes, its range joined to `ld` or not. -/
theorem drop (h : AdjInv u set pre (flp :: post) insrtp ld) (ho : (set flp).owner = u)
    (hg : Grown ld (set flp) ld') {insrtp' : Option Nat}
    (hc : ld.lType ≠ .unlck → Cursor set (pre ++ post) ld'.lStart insrtp') :
    AdjInv u set pre post insrtp' ld' := by
  have hsub := ((List.sublist_cons_self flp post).append_left pre).subset
  refine ⟨h.locked.remove, hg.asked, fun ht r hr hro => ?_, fun r hr hro => ?_,
    fun ht => hc (hg.type ▸ ht)⟩
  · have hne : (set flp).owner ≠ (set r).owner := fun he => hro (he ▸ ho)
    exact hg.compatible (h.locked.valid r (hsub hr)) (h.others (hg.type ▸ ht) r (hsub hr) hro)
      ((h.locked.beside hr).2 hne)
  · have hr' : r ∈ pre ++ post := List.mem_append_left post hr
    exact hg.apart (h.locked.valid r (hsub hr')) (h.own r hr hro)
      ((h.locked.beside hr').1 (ho.trans hro.symm))

end AdjInv
end Svr32.RecLock
