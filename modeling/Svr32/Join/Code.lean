import Svr32.Lib.Text
import Mathlib.Data.List.Lex
import Mathlib.Data.List.TakeWhile

/-! join.c. The first file is read from one end to the other; the second is a file in which
ftell and fseek go. -/
namespace Svr32.Join
open Svr32.Lib

/- stdio.h -/
def BUFSIZ : Nat := 1024

def NFLD : Nat := 20

/- What the options set; `olist` is olist with olistf, true for F2. Its numbers, `j1` and `j2` are
as main has made them, from 0 on. -/
structure Opts where
  aflg : Nat
  null : Text
  sep1 : Nat
  sep2 : Nat
  j1 : Nat
  j2 : Nat
  olist : List (Bool × Nat)

def strcmp : Text → Text → Int
  | [], [] => 0
  | [], b :: _ => - b
  | a :: _, [] => a
  | a :: s, b :: t => if a = b then strcmp s t else a - b

/- The loop of input over the string that is left of the line: the fields from there on. -/
def split (o : Opts) : Nat → Text → List Text
  | 0, _ => []
  | n + 1, bp =>
    let bp := if o.sep1 = 32 then bp.dropWhile fun c => c = o.sep1 ∨ c = o.sep2 else bp
    let field := bp.takeWhile fun c => c ≠ o.sep1 ∧ c ≠ newline ∧ c ≠ o.sep2
    match bp.drop field.length with
    | [] => [field]
    | c :: rest => if c = newline then [field] else field :: split o n rest

def fields (o : Opts) (buf : Text) : List Text := split o (buf.length + 1) (cstr buf)

inductive Pc
  | outer | first | again | stop
deriving DecidableEq

/- `rest1` is what is left of the first file and `pos2` the position in the second; `p1` and `p2`
are the fields in ppi. -/
structure State where
  pc : Pc
  rest1 : Text
  pos2 : Nat
  n1 : Nat
  n2 : Nat
  p1 : List Text
  p2 : List Text
  bot2 : Nat
  top2 : Nat
  out : Text

def putfield (o : Opts) (s : Text) : Text := if s = [] then o.null else s

/- The first `on` fields but the one of index `j`, each after a separator. -/
def others (o : Opts) (on j : Nat) (p : List Text) : Text :=
  (List.range on).flatMap fun i => if i ≠ j then o.sep1 :: putfield o (p.getD i []) else []

/- The fields that are named with -o. -/
def listed (o : Opts) (on1 on2 : Nat) (p1 p2 : List Text) : List (Bool × Nat) → Text
  | [] => []
  | (snd, i) :: l =>
    (if snd = false ∧ on1 ≤ i ∨ snd = true ∧ on2 ≤ i then o.null
      else putfield o ((if snd then p2 else p1).getD i [])) ++
    (if l = [] then [newline] else o.sep1 :: listed o on1 on2 p1 p2 l)

def output (o : Opts) (on1 on2 : Nat) (p1 p2 : List Text) : Text :=
  if o.olist = [] then
    putfield o (if on1 ≠ 0 then p1.getD o.j1 [] else p2.getD o.j2 []) ++
      others o on1 o.j1 p1 ++ others o on2 o.j2 p2 ++ [newline]
  else listed o on1 on2 p1 p2 o.olist

def get1 (o : Opts) (s : State) : State :=
  match fgets BUFSIZ s.rest1 with
  | none => { s with n1 := 0 }
  | some (buf, rest) =>
    { s with rest1 := rest, n1 := (fields o buf).length, p1 := fields o buf }

def get2 (o : Opts) (file2 : Text) (s : State) : State :=
  match fgets BUFSIZ (file2.drop s.pos2) with
  | none => { s with n2 := 0 }
  | some (buf, _) =>
    { s with pos2 := s.pos2 + buf.length, n2 := (fields o buf).length, p2 := fields o buf }

def comp (o : Opts) (s : State) : Int := strcmp (s.p1.getD o.j1 []) (s.p2.getD o.j2 [])

/- fseek(f[F2], pos, 0) -/
def seek2 (pos : Nat) (s : State) : State := { s with pos2 := pos }

/- One test of the loop that is running, and what is done for it. -/
def turn (o : Opts) (file2 : Text) (s : State) : State :=
  match s.pc with
  | .stop => s
  | .outer =>
    if 0 < s.n1 ∧ 0 < s.n2 ∨ o.aflg ≠ 0 ∧ 0 < s.n1 + s.n2 then
      if 0 < s.n1 ∧ 0 < s.n2 ∧ 0 < comp o s ∨ s.n1 = 0 then
        get2 o file2 { s with
          out := if o.aflg &&& 2 ≠ 0 then s.out ++ output o 0 s.n2 s.p1 s.p2 else s.out
          bot2 := s.pos2 }
      else if 0 < s.n1 ∧ 0 < s.n2 ∧ comp o s < 0 ∨ s.n2 = 0 then
        get1 o { s with out := if o.aflg &&& 1 ≠ 0 then s.out ++ output o s.n1 0 s.p1 s.p2 else s.out }
      else { s with pc := .first }
    else { s with pc := .stop }
  | .first =>
    if 0 < s.n2 ∧ comp o s = 0 then
      get2 o file2 { s with out := s.out ++ output o s.n1 s.n2 s.p1 s.p2, top2 := s.pos2 }
    else { get1 o (get2 o file2 (seek2 s.bot2 s)) with pc := .again }
  | .again =>
    if 0 < s.n1 ∧ 0 < s.n2 ∧ comp o s = 0 then
      get2 o file2 { s with out := s.out ++ output o s.n1 s.n2 s.p1 s.p2 }
    else if 0 < s.n1 ∧ 0 < s.n2 ∧ comp o s < 0 ∨ s.n2 = 0 then
      get1 o (get2 o file2 (seek2 s.bot2 s))
    else
      { get2 o file2 { seek2 s.top2 s with bot2 := s.top2 } with pc := .outer }

/- The state in which the loop is entered; the variables and buffers hold anything before. -/
def start (o : Opts) (file1 file2 : Text) (s : State) : State :=
  get2 o file2 { get1 o { s with pc := .outer, rest1 := file1, pos2 := 0, out := [] } with bot2 := 0 }

end Svr32.Join

/-! What get1 and get2 read of files of lines, and the order of the join fields. -/
namespace Svr32.Join
open Svr32.Lib
variable {o : Opts} {s : State} {l r : List Text} {b : Text}

theorem strcmp_spec {x y : Text} (hx : 0 ∉ x) (hy : 0 ∉ y) :
    (strcmp x y < 0 ↔ x < y) ∧ (strcmp x y = 0 ↔ x = y) := by
  induction x generalizing y with
  | nil =>
    cases y with
    | nil => simp [strcmp]
    | cons d y =>
      have hd : d ≠ 0 := fun h0 => hy (h0 ▸ List.mem_cons_self)
      rw [strcmp]
      have hlt : ([] : Text) < d :: y := List.nil_lt_cons d y
      exact ⟨iff_of_true (by omega) hlt, iff_of_false (by omega) (List.cons_ne_nil d y).symm⟩
  | cons c x ih =>
    cases y with
    | nil =>
      have hc : c ≠ 0 := fun h0 => hx (h0 ▸ List.mem_cons_self)
      rw [strcmp]
      exact ⟨iff_of_false (by omega) (List.not_lt_nil _), iff_of_false (by omega) (List.cons_ne_nil c x)⟩
    | cons d y =>
      have ihy := @ih y (fun h0 => hx (List.mem_cons_of_mem c h0))
        fun h0 => hy (List.mem_cons_of_mem d h0)
      rw [strcmp, List.cons_lt_cons_iff, List.cons.injEq]
      by_cases he : c = d
      · rw [if_pos he, ihy.1, ihy.2]
        simp [he]
      · rw [if_neg he]
        exact ⟨by omega, iff_of_false (by omega) fun hcd => he hcd.1⟩

theorem split_string (n : Nat) {bp : Text} (h : 0 ∉ bp) : ∀ x ∈ split o n bp, 0 ∉ x := by
  induction n generalizing bp with
  | zero =>
    intro x hx
    exact absurd hx List.not_mem_nil
  | succ n ih =>
    rw [split.eq_def]
    dsimp only
    have hb : 0 ∉ if o.sep1 = 32 then bp.dropWhile fun c => c = o.sep1 ∨ c = o.sep2 else bp := by
      split
      · exact fun h0 => h ((List.dropWhile_suffix _).mem h0)
      · exact h
    generalize (if o.sep1 = 32 then bp.dropWhile fun c => c = o.sep1 ∨ c = o.sep2 else bp) = q at hb ⊢
    generalize hf : (q.takeWhile fun c => c ≠ o.sep1 ∧ c ≠ newline ∧ c ≠ o.sep2) = field
    have hfield : 0 ∉ field := by
      rw [← hf]
      exact fun h0 => hb ((List.takeWhile_prefix _).mem h0)
    intro x hx
    split at hx
    · rw [List.mem_singleton] at hx
      rwa [hx]
    · next c rest hd =>
      split at hx
      · rw [List.mem_singleton] at hx
        rwa [hx]
      · rcases List.mem_cons.1 hx with he | hm
        · rwa [he]
        · refine ih ?_ x hm
          intro h0
          have hin : 0 ∈ q.drop field.length := by
            rw [hd]
            exact List.mem_cons_of_mem c h0
          exact hb (List.mem_of_mem_drop hin)

theorem cstr_string (buf : Text) : 0 ∉ cstr buf := by
  intro h0
  simpa using List.mem_takeWhile_imp h0

/- The fields of a line of a file. -/
def lineFields (o : Opts) (b : Text) : List Text := fields o (b ++ [newline])

def key (o : Opts) (j : Nat) (b : Text) : Text := (lineFields o b).getD j []

theorem key_string (j : Nat) : 0 ∉ key o j b := by
  rw [key, List.getD_eq_getElem?_getD]
  cases h : (lineFields o b)[j]? with
  | none => exact List.not_mem_nil
  | some x => exact split_string _ (cstr_string _) x (List.mem_of_getElem? h)

theorem split_ne_nil (n : Nat) (bp : Text) : split o (n + 1) bp ≠ [] := by
  rw [split.eq_def]
  dsimp only
  split
  · exact List.cons_ne_nil _ _
  · split
    · exact List.cons_ne_nil _ _
    · exact List.cons_ne_nil _ _

theorem lineFields_pos : 0 < (lineFields o b).length := List.length_pos_iff.2 (split_ne_nil _ _)

/- The file of the lines `l`. -/
def text (l : List Text) : Text := l.flatMap fun b => b ++ [newline]

/-- A file as join is to be given it, with `j` for the join field: the lines end in newlines, fit
the buffer and have at most 19 fields, and their join fields are there and sorted. -/
structure Sorted (o : Opts) (j : Nat) (l : List Text) : Prop where
  only : ∀ b ∈ l, newline ∉ b
  short : ∀ b ∈ l, b.length + 1 < BUFSIZ
  few : ∀ b ∈ l, (lineFields o b).length < NFLD
  present : ∀ b ∈ l, j < (lineFields o b).length
  sorted : l.Pairwise fun a b => strcmp (key o j a) (key o j b) ≤ 0

theorem Sorted.suffix {j : Nat} (h : Sorted o j l) (hr : r <:+ l) : Sorted o j r :=
  ⟨fun b hb => h.only b (hr.mem hb), fun b hb => h.short b (hr.mem hb),
    fun b hb => h.few b (hr.mem hb), fun b hb => h.present b (hr.mem hb), h.sorted.sublist hr.sublist⟩

/- The fields of the first line. -/
def heads (o : Opts) : List Text → List Text
  | [] => []
  | b :: _ => lineFields o b

theorem text_cons : text (b :: r) = b ++ newline :: text r := by
  rw [text, List.flatMap_cons, List.append_assoc]
  rfl

theorem fgets_text {j : Nat} (h : Sorted o j (b :: r)) :
    fgets BUFSIZ (text (b :: r)) = some (b ++ [newline], text r) := by
  have hlen := h.short b List.mem_cons_self
  rw [text_cons, fgets, if_neg (by simp), takeLine_line _ b (text r) (h.only b List.mem_cons_self) (by omega)]

theorem fgets_nil : fgets BUFSIZ (text []) = none := if_pos rfl

/- The state after get1 with the lines `r` left. -/
def put1 (o : Opts) (r : List Text) (s : State) : State :=
  { s with
    rest1 := text r.tail
    n1 := (heads o r).length
    p1 := if r = [] then s.p1 else heads o r }

theorem get1_eq {j : Nat} (h : Sorted o j r) (hs : s.rest1 = text r) : get1 o s = put1 o r s := by
  rw [get1, hs]
  cases r with
  | nil =>
    rw [fgets_nil, put1, if_pos rfl, List.tail_nil, ← hs]
    rfl
  | cons b r =>
    rw [fgets_text h, put1, if_neg (List.cons_ne_nil b r)]
    rfl

/- Where the lines `r` begin in the file of the lines `l` that ends in them. -/
def off (l r : List Text) : Nat := (text l).length - (text r).length

theorem text_suffix (h : r <:+ l) : (text l).drop (off l r) = text r ∧ off l r ≤ (text l).length := by
  obtain ⟨p, rfl⟩ := h
  have happ : text (p ++ r) = text p ++ text r := List.flatMap_append
  have hoff : off (p ++ r) r = (text p).length := by
    rw [off, happ, List.length_append]
    omega
  rw [hoff, happ, List.length_append]
  exact ⟨List.drop_left, by omega⟩

theorem off_tail (h : (b :: r) <:+ l) : off l r = off l (b :: r) + (b ++ [newline]).length := by
  obtain ⟨p, rfl⟩ := h
  have happ : text (p ++ b :: r) = text p ++ text (b :: r) := List.flatMap_append
  rw [off, off, happ, text_cons]
  simp only [List.length_append, List.length_cons, List.length_nil]
  omega

/- The state after get2 with the lines `r` of `l` left. -/
def put2 (o : Opts) (l r : List Text) (s : State) : State :=
  { s with
    pos2 := off l r.tail
    n2 := (heads o r).length
    p2 := if r = [] then s.p2 else heads o r }

theorem get2_eq {j : Nat} (h : Sorted o j l) (hr : r <:+ l) (hs : s.pos2 = off l r) :
    get2 o (text l) s = put2 o l r s := by
  rw [get2, hs, (text_suffix hr).1]
  cases r with
  | nil =>
    rw [fgets_nil, put2, if_pos rfl, List.tail_nil, ← hs]
    rfl
  | cons b r =>
    rw [fgets_text (h.suffix hr), put2, if_neg (List.cons_ne_nil b r), List.tail_cons, off_tail hr]
    rfl

end Svr32.Join
