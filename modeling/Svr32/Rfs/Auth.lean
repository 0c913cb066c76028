import Mathlib.Data.List.GetD
import Mathlib.Algebra.GroupWithZero.Nat
import Mathlib.Algebra.Ring.Int.Defs

/-! nudnix/auth.c: the lists of the names that may mount, and the search in them. -/
namespace Svr32.Rfs.Auth

def MAXNAMES : Nat := 100
def MAXDNAME : Nat := 64
def BUFSIZ : Nat := 1024
def SEPARATOR : Nat := 46
def ASIZE : Nat := 4

inductive Errno
  | EPERM | ENOENT | ENOMEM | EFAULT | EINVAL
deriving DecidableEq

/- A string, without the NUL that ends it. -/
abbrev CString := { s : List Nat // 0 ∉ s }

/- A word of the caller's list: an address that cannot be read, the NULL at the end, or a
pointer to a string (to none where the address is bad). -/
inductive Word
  | bad
  | null
  | name (s : Option CString)

/- -1 and -2 -/
inductive Upath
  | fault
  | long

/- upath(from, to, maxbufsize) -/
def upath (s : Option CString) (maxbufsize : Nat) : Except Upath CString :=
  match s with
  | none => .error .fault
  | some s => if maxbufsize ≤ s.1.length then .error .long else .ok s

/- u.u_error = (j == -1)?EFAULT:EINVAL -/
def readName (s : Option CString) : Except Errno CString :=
  match upath s BUFSIZ with
  | .error .fault => .error .EFAULT
  | .error .long => .error .EINVAL
  | .ok s => .ok s

/- for (i=0; i < MAXNAMES; i++), with `n` turns to go. -/
def pointers : Nat → List Word → Except Errno (List (Option CString))
  | 0, _ => .error .EINVAL
  | _ + 1, [] => .error .EFAULT
  | _ + 1, .bad :: _ => .error .EFAULT
  | _ + 1, .null :: _ => .ok []
  | n + 1, .name s :: list => do .ok (s :: (← pointers n list))

def bump (s : Nat) : Nat := s + if s % ASIZE ≠ 0 then ASIZE - s % ASIZE else 0

/- *lptr++ = (char) sizelist[i]-1, and the name behind it. -/
def item (s : CString) : List Nat := s.1.length % 256 :: s.1

/-- addalist; `room` is whether h_alloc has a block of that size. -/
def addalist (room : Nat → Bool) (list : List Word) : Except Errno (List Nat) := do
  let alist ← pointers MAXNAMES list
  let names ← alist.mapM readName
  let size := bump ((names.map fun s => s.1.length + 1).sum + 1)
  if room size then
    let packed ← alist.mapM fun s => do .ok (item (← readName s))
    .ok (packed.flatten ++ List.replicate (size - packed.flatten.length) 0)
  else .error .ENOMEM

/- A character of the block; behind its end nothing is read. -/
def charAt (block : List Nat) (lp : Nat) : Nat := block.getD lp 0

/- for (np=name; *np != '\0'; np++,lp++) if (*np != *lp) break; -/
def scan (block : List Nat) : List Nat → Nat → List Nat × Nat
  | [], lp => ([], lp)
  | c :: np, lp => if c ≠ charAt block lp then (c :: np, lp) else scan block np (lp + 1)

/- The namepart of a name in the domain of this machine. -/
def namepart : List Nat → List Nat → Option (List Nat)
  | [], [] => none
  | [], c :: np => if c = SEPARATOR then some np else none
  | _ :: _, [] => none
  | d :: lp, c :: np => if c ≠ d then none else namepart lp np

/- *(np-1), for what is left of the name at np. -/
def charBefore (front : Nat) (name np : List Nat) : Nat :=
  if np.length = name.length then front else name.getD (name.length - np.length - 1) 0

/- The test for a full match or a domain match, on the item from sp to nlp. -/
def fullMatch (block : List Nat) (front : Nat) (name : List Nat) (sp nlp : Nat) : Bool :=
  let (np, lp) := scan block name sp
  (np = [] && nlp = lp) ||
    (charBefore front name np = SEPARATOR && lp = nlp && charAt block (lp - 1) = SEPARATOR)

/- The test for a name of the current domain. -/
def localMatch (block : List Nat) (npart : Option (List Nat)) (sp nlp : Nat) : Bool :=
  match npart with
  | none => false
  | some npart =>
    let (np, lp) := scan block npart sp
    np = [] && lp = nlp

/- for (lp = ref; *lp > 0; lp = nlp) -/
def search (block : List Nat) (front : Nat) (name : List Nat) (npart : Option (List Nat))
    (lp : Nat) : Bool :=
  if h : 0 < charAt block lp then
    let nlp := lp + charAt block lp + 1
    fullMatch block front name (lp + 1) nlp || localMatch block npart (lp + 1) nlp ||
      search block front name npart nlp
  else false
termination_by block.length - lp
decreasing_by
  have hlt : lp < block.length := Nat.lt_of_not_le fun hge => by
    rw [charAt, List.getD_eq_default _ _ hge] at h
    exact absurd h (Nat.lt_irrefl 0)
  omega

/-- checkalist; `front` is the character in front of the name. -/
def checkalist (domain : CString) (block : List Nat) (front : Nat) (name : CString) : Bool :=
  search block front name.1 (namepart domain.1 name.1) 0

end Svr32.Rfs.Auth

/-! The search in a list of names, item by item. A comparison runs over the count behind an item
where the name goes on with that character. -/
namespace Svr32.Rfs.Auth
variable {name it : List Nat} {front : Nat}

theorem charAt_append (pre after : List Nat) (c : Nat) :
    charAt (pre ++ c :: after) pre.length = c := by
  simp [charAt]

/- How far a comparison gets: what it has passed is taken off the name. -/
theorem scan_passed (block name : List Nat) (lp : Nat) :
    ∃ k, (scan block name lp).2 = lp + k ∧ k ≤ name.length ∧
      (scan block name lp).1 = name.drop k := by
  induction name generalizing lp with
  | nil => exact ⟨0, rfl, Nat.le_refl 0, rfl⟩
  | cons c np ih =>
    rw [scan]
    split
    · exact ⟨0, rfl, Nat.zero_le _, rfl⟩
    · obtain ⟨k, hk, hle, hrest⟩ := ih (lp + 1)
      exact ⟨k + 1, by omega, Nat.succ_le_succ hle, hrest⟩

/-- A comparison stops behind the item where the name ends there or differs there. -/
theorem scan_item (pre it after name : List Nat) (x : Nat) :
    (scan (pre ++ (it ++ x :: after)) name pre.length).2 = pre.length + it.length ↔
      name = it ∨ ∃ c t, name = it ++ c :: t ∧ c ≠ x := by
  induction it generalizing pre name with
  | nil =>
    cases name with
    | nil => simp [scan]
    | cons c np =>
      rw [scan, List.nil_append, charAt_append]
      by_cases hc : c = x
      · rw [if_neg (by simpa using hc)]
        obtain ⟨k, hk, -⟩ := scan_passed (pre ++ x :: after) np (pre.length + 1)
        simp [hk, hc]
        omega
      · rw [if_pos hc]
        simp [hc]
  | cons d it ih =>
    cases name with
    | nil => simp [scan]
    | cons c np =>
      rw [scan, List.cons_append, charAt_append]
      by_cases hc : c = d
      · subst hc
        have hnext := ih (pre ++ [c]) np
        rw [List.append_assoc, List.singleton_append, List.length_append] at hnext
        rw [if_neg (by simp), List.length_cons]
        simp only [List.cons_append, List.cons.injEq, true_and]
        rw [← hnext, List.length_singleton]
        omega
      · rw [if_pos hc]
        simp [hc]

theorem getD_last (hit : it ≠ []) (l : List Nat) :
    (it ++ l).getD (it.length - 1) 0 = it.getLast hit := by
  have hpos := List.length_pos_iff.mpr hit
  rw [List.getD_append _ _ _ _ (by omega), List.getLast_eq_getElem,
    List.getD_eq_getElem _ _ (by omega)]

/-- What the first test finds of an item in front of the character `x`. -/
theorem fullMatch_iff (front x : Nat) (pre after name : List Nat) (hit : it ≠ []) :
    fullMatch (pre ++ (it ++ x :: after)) front name pre.length (pre.length + it.length) = true ↔
      it = name ∨ it.getLast? = some SEPARATOR ∧ ∃ c t, name = it ++ c :: t ∧ c ≠ x := by
  obtain ⟨k, hk, hle, hrest⟩ := scan_passed (pre ++ (it ++ x :: after)) name pre.length
  have hitem := scan_item pre it after name x
  have hpos := List.length_pos_iff.mpr hit
  have hsub : pre.length + it.length - 1 = pre.length + (it.length - 1) := by omega
  have hlast : charAt (pre ++ (it ++ x :: after)) (pre.length + it.length - 1) =
      it.getLast hit := by
    rw [charAt, hsub, List.getD_append_right _ _ _ _ (by omega), Nat.add_sub_cancel_left,
      getD_last hit]
  have hsome : it.getLast? = some SEPARATOR ↔ it.getLast hit = SEPARATOR := by
    rw [List.getLast?_eq_some_getLast hit, Option.some.injEq]
  rw [fullMatch, hsome]
  generalize scan (pre ++ (it ++ x :: after)) name pre.length = r at *
  obtain ⟨np, lp⟩ := r
  simp only at hk hrest hitem ⊢
  by_cases hl : lp = pre.length + it.length
  · have hkl : k = it.length := by omega
    subst hkl hl
    rcases hitem.mp rfl with rfl | ⟨c, t, rfl, hc⟩
    · simp [hrest]
    · have hnp : np = c :: t := by rw [hrest, List.drop_left]
      have hprev : charBefore front (it ++ c :: t) np = it.getLast hit := by
        have hi : it.length + (t.length + 1) - (t.length + 1) - 1 = it.length - 1 := by omega
        rw [charBefore, hnp, if_neg (by simp; omega), List.length_append, List.length_cons, hi,
          getD_last hit]
      have hne : np ≠ [] := by simp [hnp]
      simp [hprev, hlast, hc, hne]
  · have hno : ¬ (name = it ∨ ∃ c t, name = it ++ c :: t ∧ c ≠ x) := fun h => hl (hitem.mpr h)
    have hne : it ≠ name := fun he => hno (.inl he.symm)
    have hdom : ¬ ∃ c t, name = it ++ c :: t ∧ c ≠ x := fun h => hno (.inr h)
    simp only [decide_eq_false hl, decide_eq_false (Ne.symm hl), hne, hdom]
    simp

/-- The second test finds the item that is the namepart. -/
theorem localMatch_iff (x : Nat) (pre it after : List Nat) (npart : Option (List Nat)) :
    localMatch (pre ++ (it ++ x :: after)) npart pre.length (pre.length + it.length) = true ↔
      npart = some it := by
  cases npart with
  | none => simp [localMatch]
  | some part =>
    obtain ⟨k, hk, hle, hrest⟩ := scan_passed (pre ++ (it ++ x :: after)) part pre.length
    have hitem := scan_item pre it after part x
    rw [localMatch]
    generalize scan (pre ++ (it ++ x :: after)) part pre.length = r at *
    obtain ⟨np, lp⟩ := r
    simp only [Option.some.injEq, Bool.and_eq_true, decide_eq_true_eq] at hk hrest hitem ⊢
    constructor
    · rintro ⟨hnp, hlp⟩
      rcases hitem.mp hlp with he | ⟨c, t, rfl, -⟩
      · exact he
      · have hkl : k = it.length := by omega
        rw [hnp, hkl, List.drop_left] at hrest
        cases hrest
    · rintro rfl
      have hlp := hitem.mpr (.inl rfl)
      have hkl : k = part.length := by omega
      exact ⟨by rw [hrest, hkl, List.drop_length], hlp⟩

/- The items, each behind its count. -/
def pack (l : List (List Nat)) : List Nat := l.flatMap fun s => s.length :: s

/- The count that stands behind an item: the next one's, or the zero at the end. -/
def countOf (l : List (List Nat)) : Nat :=
  match l with
  | [] => 0
  | s :: _ => s.length

/- What a turn finds, in front of the count `x`. -/
def Hit (name : List Nat) (npart : Option (List Nat)) (it : List Nat) (x : Nat) : Prop :=
  (it = name ∨ it.getLast? = some SEPARATOR ∧ ∃ c t, name = it ++ c :: t ∧ c ≠ x) ∨
    npart = some it

theorem pack_zero (l : List (List Nat)) (z : List Nat) :
    ∃ after, pack l ++ 0 :: z = countOf l :: after := by
  cases l with
  | nil => exact ⟨z, rfl⟩
  | cons s l => exact ⟨s ++ (pack l ++ 0 :: z), by simp [pack, countOf]⟩

/-- The loop finds what some turn finds. -/
theorem search_iff (npart : Option (List Nat)) (z pre : List Nat) {l : List (List Nat)}
    (hl : ∀ s ∈ l, s ≠ []) :
    search (pre ++ (pack l ++ 0 :: z)) front name npart pre.length = true ↔
      ∃ a it b, l = a ++ it :: b ∧ Hit name npart it (countOf b) := by
  induction l generalizing pre with
  | nil =>
    have hend : charAt (pre ++ (pack [] ++ 0 :: z)) pre.length = 0 := charAt_append pre z 0
    rw [search, dif_neg (by omega)]
    simp
  | cons s l ih =>
    have hs : s ≠ [] := hl s List.mem_cons_self
    have hpos := List.length_pos_iff.mpr hs
    obtain ⟨after, hafter⟩ := pack_zero l z
    have hblock : pre ++ (pack (s :: l) ++ 0 :: z) =
        (pre ++ [s.length]) ++ (s ++ countOf l :: after) := by
      rw [← hafter]
      simp [pack]
    have hcount : charAt (pre ++ (pack (s :: l) ++ 0 :: z)) pre.length = s.length := by
      rw [hblock, List.append_assoc, List.singleton_append, charAt_append]
    have hsp : (pre ++ [s.length]).length = pre.length + 1 := List.length_append
    have hfull := fullMatch_iff front (countOf l) (pre ++ [s.length]) after name hs
    have hlocal := localMatch_iff (countOf l) (pre ++ [s.length]) s after npart
    have hrest := ih (pre ++ s.length :: s) fun t ht => hl t (List.mem_cons_of_mem _ ht)
    have hlen : (pre ++ s.length :: s).length = pre.length + s.length + 1 := by simp; omega
    have hsame : (pre ++ s.length :: s) ++ (pack l ++ 0 :: z) =
        pre ++ (pack (s :: l) ++ 0 :: z) := by simp [pack]
    have hnlp : pre.length + 1 + s.length = pre.length + s.length + 1 := by omega
    rw [← hblock, hsp, hnlp] at hfull hlocal
    rw [hsame, hlen] at hrest
    rw [search, dif_pos (by omega)]
    simp only [hcount, Bool.or_eq_true, hfull, hlocal, hrest]
    constructor
    · rintro (h | ⟨a, it, b, rfl, h⟩)
      · exact ⟨[], s, l, rfl, h⟩
      · exact ⟨s :: a, it, b, rfl, h⟩
    · rintro ⟨a, it, b, he, h⟩
      cases a with
      | nil =>
        cases he
        exact .inl h
      | cons t a =>
        cases he
        exact .inr ⟨a, it, b, rfl, h⟩

end Svr32.Rfs.Auth
