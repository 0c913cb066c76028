import Svr32.Lib.Join
import Svr32.Join.Code
import Mathlib.Logic.Function.Iterate

/-! The rows of the join, and the lines that output prints for them. -/
namespace Svr32.Join
open Svr32.Lib
variable {o : Opts} {h l g m : List Text} {a b : Text}

/- A line of the first file and one of the second, or a line without a partner. -/
abbrev Row := Option Text × Option Text

/- The product of two lists of lines. -/
def block (h g : List Text) : List Row := h.flatMap fun a => g.map fun b => (some a, some b)

theorem block_cons : block (a :: h) g = block [a] g ++ block h g := by
  simp only [block, List.flatMap_cons, List.flatMap_nil, List.append_nil]

def left (o : Opts) (l m : List Text) : List Row :=
  if o.aflg &&& 1 ≠ 0 then (lone (key o o.j1) (key o o.j2) l m).map fun a => (some a, none) else []

def right (o : Opts) (l m : List Text) : List Row :=
  if o.aflg &&& 2 ≠ 0 then (lone (key o o.j2) (key o o.j1) m l).map fun b => (none, some b) else []

/-- The relational join of two files on their join fields, with the lines without a partner of the
files that -a names. -/
def rows (o : Opts) (l m : List Text) : List Row :=
  (pairs (key o o.j1) (key o o.j2) l m).map (fun x => (some x.1, some x.2)) ++
    (left o l m ++ right o l m)

/- The lines of the first file have no partner among those of the second. -/
abbrev Unmatched (o : Opts) (l m : List Text) : Prop := Foreign (key o o.j1) (key o o.j2) l m

theorem rows_right (hf : Unmatched o l [b]) :
    (rows o l (b :: m)).Perm ((if o.aflg &&& 2 ≠ 0 then [(none, some b)] else []) ++ rows o l m) := by
  have hp := @pairs_append_right _ _ _ (key o o.j1) (key o o.j2) l m [b] _ hf
  have hl := @lone_append_right _ _ _ (key o o.j1) (key o o.j2) l m [b] _ hf
  have hr : lone (key o o.j2) (key o o.j1) (b :: m) l = b :: lone (key o o.j2) (key o o.j1) m l := by
    have happ := @lone_append _ _ _ (key o o.j2) (key o o.j1) m [b] l _
    rwa [lone_foreign hf.symm] at happ
  rw [List.singleton_append] at hp hl
  rw [rows, rows, hp, left, left, hl, right, right, hr]
  by_cases h2 : o.aflg &&& 2 ≠ 0
  · simp only [if_pos h2, List.map_cons, ← List.append_assoc]
    exact List.perm_middle
  · simp only [if_neg h2, List.nil_append]
    exact List.Perm.refl _

theorem rows_left (hf : Unmatched o [a] m) :
    (rows o (a :: l) m).Perm ((if o.aflg &&& 1 ≠ 0 then [(some a, none)] else []) ++ rows o l m) := by
  have hp := @pairs_append_left _ _ _ (key o o.j1) (key o o.j2) l [a] m _
  have hl : lone (key o o.j1) (key o o.j2) (a :: l) m = a :: lone (key o o.j1) (key o o.j2) l m := by
    have happ := @lone_append _ _ _ (key o o.j1) (key o o.j2) l [a] m _
    rwa [lone_foreign hf] at happ
  have hr := @lone_append_right _ _ _ (key o o.j2) (key o o.j1) m l [a] _ hf.symm
  rw [pairs_foreign hf, List.nil_append, List.singleton_append] at hp
  rw [List.singleton_append] at hr
  rw [rows, rows, hp, left, left, hl, right, right, hr]
  by_cases h1 : o.aflg &&& 1 ≠ 0
  · simp only [if_pos h1, List.map_cons, List.cons_append]
    exact List.perm_middle
  · simp only [if_neg h1, List.nil_append]
    exact List.Perm.refl _

theorem rows_block {x : Text} (hh : h ≠ []) (hg : g ≠ []) (hhx : ∀ a ∈ h, key o o.j1 a = x)
    (hgx : ∀ b ∈ g, key o o.j2 b = x) (hm : Unmatched o h m) (hl : Unmatched o l g) :
    rows o (h ++ l) (g ++ m) = block h g ++ rows o l m := by
  obtain ⟨a, ha⟩ := List.exists_mem_of_ne_nil h hh
  obtain ⟨b, hb⟩ := List.exists_mem_of_ne_nil g hg
  have hleft : left o (h ++ l) (g ++ m) = left o l m := by
    rw [left, left, lone_append, lone_append_right hl, lone_nil, List.nil_append]
    intro a ha
    exact ⟨b, List.mem_append_left m hb, (hhx a ha).trans (hgx b hb).symm⟩
  have hright : right o (h ++ l) (g ++ m) = right o l m := by
    rw [right, right, lone_append, lone_append_right hm.symm, lone_nil, List.nil_append]
    intro b hb
    exact ⟨a, List.mem_append_left l ha, (hgx b hb).trans (hhx a ha).symm⟩
  have hblock : (pairs (key o o.j1) (key o o.j2) h g).map (fun x => (some x.1, some x.2))
      = block h g := by
    rw [pairs_same hhx hgx, block, List.map_flatMap]
    apply List.flatMap_congr
    intro a _
    rw [List.map_map]
    rfl
  rw [rows, rows, hleft, hright, pairs_blocks hm hl, List.map_append, hblock, List.append_assoc]

theorem rows_nil (h : o.aflg = 0) (hf : Unmatched o l m) : rows o l m = [] := by
  rw [rows, left, right, h, pairs_foreign hf]
  rfl

/- What output is called with for a row. -/
def rowFields (o : Opts) : Option Text → List Text
  | none => []
  | some b => lineFields o b

def record (o : Opts) (x : Row) : Text :=
  output o (rowFields o x.1).length (rowFields o x.2).length (rowFields o x.1) (rowFields o x.2)

/- With no fields of a file to be printed, those that are in ppi do not matter. -/
theorem listed_right (n : Nat) (p p' q : List Text) (ol : List (Bool × Nat)) :
    listed o 0 n p q ol = listed o 0 n p' q ol := by
  induction ol with
  | nil => rfl
  | cons e ol ih =>
    obtain ⟨snd, i⟩ := e
    rw [listed, listed, ih]
    cases snd with
    | false => simp
    | true => rfl

theorem listed_left (n : Nat) (p q q' : List Text) (ol : List (Bool × Nat)) :
    listed o n 0 p q ol = listed o n 0 p q' ol := by
  induction ol with
  | nil => rfl
  | cons e ol ih =>
    obtain ⟨snd, i⟩ := e
    rw [listed, listed, ih]
    cases snd with
    | false => rfl
    | true => simp

theorem output_right (p : List Text) :
    output o 0 (lineFields o b).length p (lineFields o b) = record o (none, some b) := by
  rw [record, output, output]
  split
  · rfl
  · exact listed_right _ _ _ _ _

theorem output_left (q : List Text) :
    output o (lineFields o a).length 0 (lineFields o a) q = record o (some a, none) := by
  have hpos := @lineFields_pos o a
  rw [record, output, output]
  split
  · rw [if_pos (by omega)]
    show _ = putfield o (if (lineFields o a).length ≠ 0 then _ else _) ++ _ ++ _ ++ _
    rw [if_pos (by omega)]
    rfl
  · exact listed_left _ _ _ _ _

/-- No field has a newline in it. -/
theorem split_only (n : Nat) (bp : Text) : ∀ x ∈ split o n bp, newline ∉ x := by
  induction n generalizing bp with
  | zero =>
    intro x hx
    exact absurd hx List.not_mem_nil
  | succ n ih =>
    rw [split.eq_def]
    dsimp only
    generalize (if o.sep1 = 32 then bp.dropWhile fun c => c = o.sep1 ∨ c = o.sep2 else bp) = q
    have hfield : newline ∉ q.takeWhile fun c => c ≠ o.sep1 ∧ c ≠ newline ∧ c ≠ o.sep2 := by
      intro hn
      simpa using List.mem_takeWhile_imp hn
    intro x hx
    split at hx
    · rw [List.mem_singleton] at hx
      rwa [hx]
    · split at hx
      · rw [List.mem_singleton] at hx
        rwa [hx]
      · rcases List.mem_cons.1 hx with he | hm
        · rwa [he]
        · exact ih _ x hm

/-- What is printed is one line. -/
def Single (s : Text) : Prop := ∃ b, newline ∉ b ∧ s = b ++ [newline]

theorem putfield_only {p : List Text} (hp : ∀ x ∈ p, newline ∉ x) (hnull : newline ∉ o.null) (i : Nat) :
    newline ∉ putfield o (p.getD i []) := by
  rw [putfield]
  split
  · exact hnull
  · rw [List.getD_eq_getElem?_getD]
    cases h : p[i]? with
    | none => exact List.not_mem_nil
    | some x => exact hp x (List.mem_of_getElem? h)

theorem others_only {p : List Text} (hp : ∀ x ∈ p, newline ∉ x) (hnull : newline ∉ o.null)
    (hsep : o.sep1 ≠ newline) (on j : Nat) : newline ∉ others o on j p := by
  rw [others, List.mem_flatMap]
  rintro ⟨i, -, hi⟩
  split at hi
  · rcases List.mem_cons.1 hi with he | hm
    · exact hsep he.symm
    · exact putfield_only hp hnull i hm
  · exact List.not_mem_nil hi

theorem listed_single {p q : List Text} (hp : ∀ x ∈ p, newline ∉ x) (hq : ∀ x ∈ q, newline ∉ x)
    (hnull : newline ∉ o.null) (hsep : o.sep1 ≠ newline) (on1 on2 : Nat) (ol : List (Bool × Nat))
    (hne : ol ≠ []) : Single (listed o on1 on2 p q ol) := by
  induction ol with
  | nil => exact absurd rfl hne
  | cons e ol ih =>
    obtain ⟨snd, i⟩ := e
    rw [listed]
    have hfield : newline ∉ (if snd = false ∧ on1 ≤ i ∨ snd = true ∧ on2 ≤ i then o.null
        else putfield o ((if snd then q else p).getD i [])) := by
      split
      · exact hnull
      · split
        · exact putfield_only hq hnull i
        · exact putfield_only hp hnull i
    by_cases h0 : ol = []
    · rw [if_pos h0]
      exact ⟨_, hfield, rfl⟩
    · rw [if_neg h0]
      obtain ⟨b, hb, heq⟩ := ih h0
      generalize (if snd = false ∧ on1 ≤ i ∨ snd = true ∧ on2 ≤ i then o.null
        else putfield o ((if snd then q else p).getD i [])) = f at hfield ⊢
      refine ⟨f ++ o.sep1 :: b, ?_, by rw [heq, List.append_assoc, List.cons_append]⟩
      rw [List.mem_append, List.mem_cons]
      rintro (hm | he | hm)
      · exact hfield hm
      · exact hsep he.symm
      · exact hb hm

theorem rowFields_only (x : Option Text) : ∀ y ∈ rowFields o x, newline ∉ y := by
  cases x with
  | none => exact fun y hy => absurd hy List.not_mem_nil
  | some b => exact split_only _ _

theorem record_single (hnull : newline ∉ o.null) (hsep : o.sep1 ≠ newline) (x : Row) :
    Single (record o x) := by
  have h1 := @rowFields_only o x.1
  have h2 := @rowFields_only o x.2
  rw [record, output]
  split
  · refine ⟨_, ?_, rfl⟩
    rw [List.mem_append, List.mem_append]
    rintro ((hm | hm) | hm)
    · split at hm
      · exact putfield_only h1 hnull _ hm
      · exact putfield_only h2 hnull _ hm
    · exact others_only h1 hnull hsep _ _ hm
    · exact others_only h2 hnull hsep _ _ hm
  · next hne => exact listed_single h1 h2 hnull hsep _ _ _ hne

end Svr32.Join

/-! The loops of main, for the lines that are left of each file. -/
namespace Svr32.Join
open Svr32.Lib
variable {o : Opts} {l m r1 r2 : List Text} {a b : Text} {s t : State}

/- Some number of turns. -/
def Leads (o : Opts) (m : List Text) (s t : State) : Prop := ∃ k, (turn o (text m))^[k] s = t

theorem Leads.refl (s : State) : Leads o m s s := ⟨0, rfl⟩

theorem Leads.head {u : State} (h : Leads o m t u) (hs : turn o (text m) s = t) : Leads o m s u := by
  obtain ⟨k, hk⟩ := h
  exact ⟨k + 1, by rw [Function.iterate_succ_apply, hs, hk]⟩

theorem Leads.trans {u : State} (h : Leads o m s t) (h' : Leads o m t u) : Leads o m s u := by
  obtain ⟨k, hk⟩ := h
  obtain ⟨k', hk'⟩ := h'
  exact ⟨k' + k, by rw [Function.iterate_add_apply, hk, hk']⟩

/- The files that join is given. -/
structure Files (o : Opts) (l m : List Text) : Prop where
  first : Sorted o o.j1 l
  second : Sorted o o.j2 m

/-- Of the files `r1` and `r2` are left from the lines on that are in the buffers. -/
structure At (o : Opts) (l m r1 r2 : List Text) (s : State) : Prop where
  suffix1 : r1 <:+ l
  suffix2 : r2 <:+ m
  rest1 : s.rest1 = text r1.tail
  pos2 : s.pos2 = off m r2.tail
  n1 : s.n1 = (heads o r1).length
  n2 : s.n2 = (heads o r2).length
  p1 : r1 ≠ [] → s.p1 = heads o r1
  p2 : r2 ≠ [] → s.p2 = heads o r2

theorem At.with (h : At o l m r1 r2 s) (pc : Pc) (bot2 top2 : Nat) (out : Text) :
    At o l m r1 r2 { s with pc := pc, bot2 := bot2, top2 := top2, out := out } :=
  ⟨h.suffix1, h.suffix2, h.rest1, h.pos2, h.n1, h.n2, h.p1, h.p2⟩

theorem suffix_tail {r : List Text} (h : r <:+ l) : r.tail <:+ l := (List.tail_suffix r).trans h

theorem At.next1 (hf : Files o l m) (h : At o l m r1 r2 s) :
    get1 o s = put1 o r1.tail s ∧ At o l m r1.tail r2 (put1 o r1.tail s) := by
  apply And.intro (get1_eq (hf.first.suffix (suffix_tail h.suffix1)) h.rest1)
  refine ⟨suffix_tail h.suffix1, h.suffix2, rfl, h.pos2, rfl, h.n2, fun hne => if_neg hne, h.p2⟩

theorem At.next2 (hf : Files o l m) (h : At o l m r1 r2 s) :
    get2 o (text m) s = put2 o m r2.tail s ∧ At o l m r1 r2.tail (put2 o m r2.tail s) := by
  apply And.intro (get2_eq hf.second (suffix_tail h.suffix2) h.pos2)
  refine ⟨h.suffix1, suffix_tail h.suffix2, h.rest1, rfl, h.n1, rfl, h.p1, fun hne => if_neg hne⟩

/- fseek and get2. -/
theorem At.back2 {q : List Text} (hf : Files o l m) (h : At o l m r1 r2 s) (hq : q <:+ m) :
    get2 o (text m) (seek2 (off m q) s) = put2 o m q s ∧ At o l m r1 q (put2 o m q s) := by
  apply And.intro
  · rw [get2_eq (s := seek2 (off m q) s) hf.second hq rfl]
    rfl
  · exact ⟨h.suffix1, hq, h.rest1, rfl, h.n1, rfl, h.p1, fun hne => if_neg hne⟩

theorem heads_pos {r : List Text} : 0 < (heads o r).length ↔ r ≠ [] := by
  cases r with
  | nil => exact iff_of_false (Nat.lt_irrefl 0) fun h => h rfl
  | cons b r => exact iff_of_true lineFields_pos (List.cons_ne_nil b r)

theorem At.comp (h : At o l m (a :: r1) (b :: r2) s) :
    comp o s = strcmp (key o o.j1 a) (key o o.j2 b) := by
  rw [Join.comp, h.p1 (List.cons_ne_nil _ _), h.p2 (List.cons_ne_nil _ _)]
  rfl

theorem comp_lt : strcmp (key o o.j1 a) (key o o.j2 b) < 0 ↔ key o o.j1 a < key o o.j2 b :=
  (strcmp_spec (key_string _) (key_string _)).1

theorem comp_eq : strcmp (key o o.j1 a) (key o o.j2 b) = 0 ↔ key o o.j1 a = key o o.j2 b :=
  (strcmp_spec (key_string _) (key_string _)).2

theorem comp_gt : 0 < strcmp (key o o.j1 a) (key o o.j2 b) ↔ key o o.j2 b < key o o.j1 a := by
  rcases lt_trichotomy (key o o.j1 a) (key o o.j2 b) with hl | he | hg
  · have hneg := comp_lt.2 hl
    exact iff_of_false (by omega) (lt_asymm hl)
  · have hzero := comp_eq.2 he
    exact iff_of_false (by omega) fun hg => hg.ne' he
  · have hneg := mt comp_lt.1 (lt_asymm hg)
    have hzero := mt comp_eq.1 hg.ne'
    exact iff_of_true (by omega) hg

theorem At.row (h : At o l m (a :: r1) (b :: r2) s) :
    output o s.n1 s.n2 s.p1 s.p2 = record o (some a, some b) := by
  rw [h.n1, h.n2, h.p1 (List.cons_ne_nil _ _), h.p2 (List.cons_ne_nil _ _)]
  rfl

/-- The key of a line is before, or after, those of all lines of a list. -/
def Below (f : Text → Text) (x : Text) (r : List Text) : Prop := ∀ b ∈ r, x < f b

/-- The outer loop, with a line of the second file that comes before the rest of the first. -/
theorem outer_right (hf : Files o l m) (h : At o l m r1 (b :: r2) s) (hpc : s.pc = .outer)
    (hgo : r1 ≠ [] ∨ o.aflg ≠ 0) (hlt : Below (key o o.j1) (key o o.j2 b) r1) :
    ∃ t, Leads o m s t ∧ At o l m r1 r2 t ∧ t.pc = .outer ∧ t.bot2 = off m r2 ∧
      t.out = s.out ++ if o.aflg &&& 2 ≠ 0 then record o (none, some b) else [] := by
  have hn2 : 0 < s.n2 := by
    rw [h.n2, heads_pos]
    exact List.cons_ne_nil b r2
  have hn1 : 0 < s.n1 ↔ r1 ≠ [] := by rw [h.n1, heads_pos]
  have hcond : 0 < s.n1 ∧ 0 < s.n2 ∨ o.aflg ≠ 0 ∧ 0 < s.n1 + s.n2 := by
    rcases hgo with hne | ha
    · exact Or.inl ⟨hn1.2 hne, hn2⟩
    · exact Or.inr ⟨ha, by omega⟩
  have hbr : 0 < s.n1 ∧ 0 < s.n2 ∧ 0 < Join.comp o s ∨ s.n1 = 0 := by
    cases r1 with
    | nil => exact Or.inr (by rw [h.n1]; rfl)
    | cons a r1 =>
      apply Or.inl
      rw [h.comp, comp_gt]
      exact ⟨hn1.2 (List.cons_ne_nil a r1), hn2, hlt a List.mem_cons_self⟩
  have hout : output o 0 s.n2 s.p1 s.p2 = record o (none, some b) := by
    rw [h.n2, h.p2 (List.cons_ne_nil b r2)]
    exact output_right _
  have hat := h.with .outer s.pos2 s.top2
    (if o.aflg &&& 2 ≠ 0 then s.out ++ record o (none, some b) else s.out)
  obtain ⟨hget, hnew⟩ := hat.next2 hf
  refine ⟨_, (Leads.refl _).head ?_, hnew, rfl, h.pos2, ?_⟩
  · rw [turn.eq_def, hpc]
    dsimp only
    rw [if_pos hcond, if_pos hbr, hout, ← hget]
  · show (if o.aflg &&& 2 ≠ 0 then s.out ++ record o (none, some b) else s.out) = _
    split
    · rfl
    · rw [List.append_nil]

/-- The outer loop, with a line of the first file that comes before the rest of the second. -/
theorem outer_left (hf : Files o l m) (h : At o l m (a :: r1) r2 s) (hpc : s.pc = .outer)
    (hgo : r2 ≠ [] ∨ o.aflg ≠ 0) (hlt : Below (key o o.j2) (key o o.j1 a) r2) :
    ∃ t, Leads o m s t ∧ At o l m r1 r2 t ∧ t.pc = .outer ∧ t.bot2 = s.bot2 ∧
      t.out = s.out ++ if o.aflg &&& 1 ≠ 0 then record o (some a, none) else [] := by
  have hn1 : 0 < s.n1 := by
    rw [h.n1, heads_pos]
    exact List.cons_ne_nil a r1
  have hn2 : 0 < s.n2 ↔ r2 ≠ [] := by rw [h.n2, heads_pos]
  have hcond : 0 < s.n1 ∧ 0 < s.n2 ∨ o.aflg ≠ 0 ∧ 0 < s.n1 + s.n2 := by
    rcases hgo with hne | ha
    · exact Or.inl ⟨hn1, hn2.2 hne⟩
    · exact Or.inr ⟨ha, by omega⟩
  have hno : ¬ (0 < s.n1 ∧ 0 < s.n2 ∧ 0 < Join.comp o s ∨ s.n1 = 0) := by
    rintro (⟨-, h2, h3⟩ | h0)
    · obtain ⟨b, q, rfl⟩ := List.exists_cons_of_ne_nil (hn2.1 h2)
      rw [h.comp, comp_gt] at h3
      exact lt_asymm h3 (hlt b List.mem_cons_self)
    · omega
  have hbr : 0 < s.n1 ∧ 0 < s.n2 ∧ Join.comp o s < 0 ∨ s.n2 = 0 := by
    cases r2 with
    | nil => exact Or.inr (by rw [h.n2]; rfl)
    | cons b q =>
      apply Or.inl
      rw [h.comp, comp_lt]
      exact ⟨hn1, hn2.2 (List.cons_ne_nil b q), hlt b List.mem_cons_self⟩
  have hout : output o s.n1 0 s.p1 s.p2 = record o (some a, none) := by
    rw [h.n1, h.p1 (List.cons_ne_nil a r1)]
    exact output_left _
  have hat := h.with .outer s.bot2 s.top2
    (if o.aflg &&& 1 ≠ 0 then s.out ++ record o (some a, none) else s.out)
  obtain ⟨hget, hnew⟩ := hat.next1 hf
  refine ⟨_, (Leads.refl _).head ?_, hnew, rfl, rfl, ?_⟩
  · rw [turn.eq_def, hpc]
    dsimp only
    rw [if_pos hcond, if_neg hno, if_pos hbr, hout, ← hget]
  · show (if o.aflg &&& 1 ≠ 0 then s.out ++ record o (some a, none) else s.out) = _
    split
    · rfl
    · rw [List.append_nil]

/-- The first loop over the lines `g` that match a line: they are printed with it, and the second
file is put back to `q`. -/
theorem first_run {g q : List Text} (hf : Files o l m) (hq : q <:+ m)
    (h : At o l m (a :: r1) (g ++ r2) s) (hpc : s.pc = .first) (hbot : s.bot2 = off m q)
    (htop : g = [] → s.top2 = off m r2) (hg : ∀ b ∈ g, key o o.j2 b = key o o.j1 a)
    (hlt : Below (key o o.j2) (key o o.j1 a) r2) :
    ∃ t, Leads o m s t ∧ At o l m r1 q t ∧ t.pc = .again ∧ t.bot2 = off m q ∧ t.top2 = off m r2 ∧
      t.out = s.out ++ (block [a] g).flatMap (record o) := by
  induction g generalizing s with
  | nil =>
    rw [List.nil_append] at h
    have hno : ¬ (0 < s.n2 ∧ Join.comp o s = 0) := by
      rintro ⟨h2, h3⟩
      rw [h.n2, heads_pos] at h2
      obtain ⟨b, q', rfl⟩ := List.exists_cons_of_ne_nil h2
      rw [h.comp, comp_eq] at h3
      exact (hlt b List.mem_cons_self).ne h3
    obtain ⟨hseek, hat⟩ := h.back2 hf hq
    obtain ⟨hget, hnew⟩ := hat.next1 hf
    rw [← hbot] at hseek
    refine ⟨_, (Leads.refl _).head ?_, hnew.with .again s.bot2 s.top2 s.out, rfl, hbot, htop rfl, ?_⟩
    · rw [turn.eq_def, hpc]
      dsimp only
      rw [if_neg hno, hseek, hget]
      rfl
    · exact (List.append_nil _).symm
  | cons b g ih =>
    rw [List.cons_append] at h
    have hyes : 0 < s.n2 ∧ Join.comp o s = 0 := by
      rw [h.n2, heads_pos, h.comp, comp_eq]
      exact ⟨List.cons_ne_nil _ _, (hg b List.mem_cons_self).symm⟩
    have hat := h.with .first s.bot2 s.pos2 (s.out ++ record o (some a, some b))
    obtain ⟨hget, hnew⟩ := hat.next2 hf
    have hset : g = [] → s.pos2 = off m r2 := by
      rintro rfl
      exact h.pos2
    obtain ⟨t, hl, hrest⟩ := ih hnew rfl hbot hset fun b hb => hg b (List.mem_cons_of_mem _ hb)
    refine ⟨t, hl.head ?_, ?_⟩
    · rw [turn.eq_def, hpc]
      dsimp only
      rw [if_pos hyes, h.row, ← hget]
    · obtain ⟨h1, h2, h3, h4, h5⟩ := hrest
      refine ⟨h1, h2, h3, h4, h5.trans ?_⟩
      exact List.append_assoc _ _ _

/-- The second loop over the lines `g` that match a line: it ends with the next line of the first
file and the second put back to `q`. -/
theorem again_line {g q : List Text} (hf : Files o l m) (hq : q <:+ m)
    (h : At o l m (a :: r1) (g ++ r2) s) (hpc : s.pc = .again) (hbot : s.bot2 = off m q)
    (hg : ∀ b ∈ g, key o o.j2 b = key o o.j1 a) (hlt : Below (key o o.j2) (key o o.j1 a) r2) :
    ∃ t, Leads o m s t ∧ At o l m r1 q t ∧ t.pc = .again ∧ t.bot2 = off m q ∧ t.top2 = s.top2 ∧
      t.out = s.out ++ (block [a] g).flatMap (record o) := by
  have hn1 : 0 < s.n1 := by
    rw [h.n1, heads_pos]
    exact List.cons_ne_nil a r1
  induction g generalizing s with
  | nil =>
    rw [List.nil_append] at h
    have hno : ¬ (0 < s.n1 ∧ 0 < s.n2 ∧ Join.comp o s = 0) := by
      rintro ⟨-, h2, h3⟩
      rw [h.n2, heads_pos] at h2
      obtain ⟨b, q', rfl⟩ := List.exists_cons_of_ne_nil h2
      rw [h.comp, comp_eq] at h3
      exact (hlt b List.mem_cons_self).ne h3
    have hbr : 0 < s.n1 ∧ 0 < s.n2 ∧ Join.comp o s < 0 ∨ s.n2 = 0 := by
      cases r2 with
      | nil => exact Or.inr (by rw [h.n2]; rfl)
      | cons b q =>
        apply Or.inl
        rw [h.comp, comp_lt, h.n2, heads_pos]
        exact ⟨hn1, List.cons_ne_nil b q, hlt b List.mem_cons_self⟩
    obtain ⟨hseek, hat⟩ := h.back2 hf hq
    obtain ⟨hget, hnew⟩ := hat.next1 hf
    refine ⟨_, (Leads.refl _).head ?_, hnew, hpc, hbot, rfl, (List.append_nil _).symm⟩
    rw [turn.eq_def, hpc]
    dsimp only
    rw [if_neg hno, if_pos hbr, hbot, hseek, hget]
  | cons b g ih =>
    rw [List.cons_append] at h
    have hyes : 0 < s.n1 ∧ 0 < s.n2 ∧ Join.comp o s = 0 := by
      rw [h.n2, heads_pos, h.comp, comp_eq]
      exact ⟨hn1, List.cons_ne_nil _ _, (hg b List.mem_cons_self).symm⟩
    have hat := h.with .again s.bot2 s.top2 (s.out ++ record o (some a, some b))
    obtain ⟨hget, hnew⟩ := hat.next2 hf
    obtain ⟨t, hl, hrest⟩ := ih hnew rfl hbot (fun b hb => hg b (List.mem_cons_of_mem _ hb)) hn1
    refine ⟨t, hl.head ?_, ?_⟩
    · rw [turn.eq_def, hpc]
      dsimp only
      rw [if_pos hyes, h.row, ← hget]
    · obtain ⟨h1, h2, h3, h4, h5⟩ := hrest
      exact ⟨h1, h2, h3, h4, h5.trans (List.append_assoc _ _ _)⟩

/-- The second loop over the lines `h` of the first file that match the lines `g`. -/
theorem again_run {h g : List Text} {x : Text} (hf : Files o l m)
    (hat : At o l m (h ++ r1) (g ++ r2) s) (hpc : s.pc = .again) (hbot : s.bot2 = off m (g ++ r2))
    (htop : s.top2 = off m r2) (hne : g ≠ []) (hh : ∀ a ∈ h, key o o.j1 a = x)
    (hg : ∀ b ∈ g, key o o.j2 b = x) (hlt1 : Below (key o o.j1) x r1) (hlt2 : Below (key o o.j2) x r2) :
    ∃ t, Leads o m s t ∧ At o l m r1 r2 t ∧ t.pc = .outer ∧ t.bot2 = off m r2 ∧
      t.out = s.out ++ (block h g).flatMap (record o) := by
  have hq := hat.suffix2
  induction h generalizing s with
  | nil =>
    rw [List.nil_append] at hat
    obtain ⟨b, g, rfl⟩ := List.exists_cons_of_ne_nil hne
    rw [List.cons_append] at hat
    have hgt : r1 ≠ [] → 0 < Join.comp o s := by
      intro h1
      obtain ⟨a, q', rfl⟩ := List.exists_cons_of_ne_nil h1
      rw [hat.comp, comp_gt, hg b List.mem_cons_self]
      exact hlt1 a List.mem_cons_self
    have hn1 : 0 < s.n1 → 0 < Join.comp o s := by
      rw [hat.n1, heads_pos]
      exact hgt
    have hn2 : 0 < s.n2 := by
      rw [hat.n2, heads_pos]
      exact List.cons_ne_nil _ _
    have hno : ¬ (0 < s.n1 ∧ 0 < s.n2 ∧ Join.comp o s = 0) := by
      rintro ⟨h1, -, h3⟩
      have hpos := hn1 h1
      omega
    have hno2 : ¬ (0 < s.n1 ∧ 0 < s.n2 ∧ Join.comp o s < 0 ∨ s.n2 = 0) := by
      rintro (⟨h1, -, h3⟩ | h0)
      · have hpos := hn1 h1
        omega
      · omega
    have hr2 : r2 <:+ m := (List.suffix_append _ _).trans hq
    obtain ⟨hseek, hnew⟩ := (hat.with s.pc s.top2 s.top2 s.out).back2 hf hr2
    refine ⟨_, (Leads.refl _).head ?_, hnew.with .outer s.top2 s.top2 s.out, rfl, htop, ?_⟩
    · rw [turn.eq_def, hpc]
      dsimp only
      rw [if_neg hno, if_neg hno2]
      rw [← htop] at hseek
      exact congrArg (fun t : State => { t with pc := .outer }) hseek
    · exact (List.append_nil _).symm
  | cons a h ih =>
    rw [List.cons_append] at hat
    have ha := hh a List.mem_cons_self
    have hga : ∀ b ∈ g, key o o.j2 b = key o o.j1 a := fun b hb => (hg b hb).trans ha.symm
    obtain ⟨t, hl, hat', hpc', hbot', htop', hout'⟩ :=
      again_line hf hq hat hpc hbot hga (ha.symm ▸ hlt2)
    obtain ⟨u, hl', hat'', hpc'', hbot'', hout''⟩ := ih hat' hpc' hbot' (htop'.trans htop)
      fun a ha => hh a (List.mem_cons_of_mem _ ha)
    refine ⟨u, hl.trans hl', hat'', hpc'', hbot'', ?_⟩
    rw [hout'', hout', List.append_assoc, ← List.flatMap_append, ← block_cons]

end Svr32.Join

/-! join.c: it prints the join of two files that are sorted. -/
namespace Svr32.Join
open Svr32.Lib
variable {o : Opts} {l m r1 r2 : List Text} {a b x : Text} {s t : State}

theorem Sorted.le {j : Nat} (h : Sorted o j (a :: l)) : ∀ b ∈ l, key o j a ≤ key o j b := by
  intro b hb
  have hle := List.rel_of_pairwise_cons h.sorted hb
  have hspec := @strcmp_spec (key o j a) (key o j b) (key_string j) (key_string j)
  rw [le_iff_lt_or_eq, ← hspec.1, ← hspec.2]
  omega

/-- The lines with the least key are at the head of a sorted file. -/
theorem split_key {j : Nat} {r : List Text} (h : Sorted o j r) (hle : ∀ a ∈ r, x ≤ key o j a) :
    ∃ g q, r = g ++ q ∧ (∀ a ∈ g, key o j a = x) ∧ Below (key o j) x q := by
  induction r with
  | nil => exact ⟨[], [], rfl, fun a ha => absurd ha List.not_mem_nil, fun a ha => absurd ha List.not_mem_nil⟩
  | cons a r ih =>
    by_cases he : key o j a = x
    · obtain ⟨g, q, heq, hg, hq⟩ := ih (h.suffix (List.suffix_cons a r))
        fun b hb => hle b (List.mem_cons_of_mem a hb)
      refine ⟨a :: g, q, by rw [heq, List.cons_append], ?_, hq⟩
      intro b hb
      rcases List.mem_cons.1 hb with rfl | hb
      · exact he
      · exact hg b hb
    · have hlt : x < key o j a := lt_of_le_of_ne (hle a List.mem_cons_self) fun hx => he hx.symm
      refine ⟨[], a :: r, rfl, fun a ha => absurd ha List.not_mem_nil, ?_⟩
      intro b hb
      rcases List.mem_cons.1 hb with rfl | hb
      · exact hlt
      · exact hlt.trans_le (h.le b hb)

theorem Below.of_sorted {j : Nat} (h : Sorted o j (b :: l)) (hlt : x < key o j b) :
    Below (key o j) x (b :: l) := by
  intro c hc
  rcases List.mem_cons.1 hc with rfl | hc
  · exact hlt
  · exact hlt.trans_le (h.le c hc)

theorem outer_stop (h : At o l m r1 r2 s) (hpc : s.pc = .outer)
    (hno : ¬ (r1 ≠ [] ∧ r2 ≠ [] ∨ o.aflg ≠ 0 ∧ (r1 ≠ [] ∨ r2 ≠ []))) :
    turn o (text m) s = { s with pc := .stop } := by
  rw [turn.eq_def, hpc]
  dsimp only
  rw [if_neg]
  rwa [Nat.add_pos_iff_pos_or_pos, h.n1, h.n2, heads_pos, heads_pos]

/-- The outer loop comes to lines of the same key. -/
theorem outer_same (h : At o l m (a :: r1) (b :: r2) s) (hpc : s.pc = .outer)
    (he : key o o.j1 a = key o o.j2 b) : turn o (text m) s = { s with pc := .first } := by
  have hc : Join.comp o s = 0 := by
    rw [h.comp, comp_eq]
    exact he
  have hn1 : 0 < s.n1 := by
    rw [h.n1, heads_pos]
    exact List.cons_ne_nil a r1
  have hn2 : 0 < s.n2 := by
    rw [h.n2, heads_pos]
    exact List.cons_ne_nil b r2
  rw [turn.eq_def, hpc]
  dsimp only
  rw [if_pos (Or.inl ⟨hn1, hn2⟩), if_neg (by omega), if_neg (by omega)]

theorem unmatched_below {j j' : Nat} (hlt : Below (key o j) x r1) (hx : ∀ b ∈ r2, key o j' b = x) :
    Foreign (key o j) (key o j') r1 r2 := by
  intro a ha b hb
  rw [hx b hb]
  exact (hlt a ha).ne'

/- The loops end with the rows of what is left of the files printed. -/
def Joins (o : Opts) (m r1 r2 : List Text) (s : State) : Prop :=
  ∃ (t : State) (calls : List Row), Leads o m s t ∧ t.pc = .stop ∧
    t.out = s.out ++ calls.flatMap (record o) ∧ calls.Perm (rows o r1 r2)

theorem Joins.head {q1 q2 : List Text} {c : List Row} (h : Joins o m q1 q2 t) (hl : Leads o m s t)
    (hout : t.out = s.out ++ c.flatMap (record o))
    (hrows : (rows o r1 r2).Perm (c ++ rows o q1 q2)) : Joins o m r1 r2 s := by
  obtain ⟨u, calls, hl', hstop, hout', hperm⟩ := h
  refine ⟨u, c ++ calls, hl.trans hl', hstop, ?_, (hperm.append_left c).trans hrows.symm⟩
  rw [hout', hout, List.append_assoc, List.flatMap_append]

theorem if_flatMap {c : Prop} [Decidable c] (x : Row) :
    (if c then record o x else []) = (if c then [x] else []).flatMap (record o) := by
  split
  · exact (List.flatMap_singleton _ _).symm
  · rfl

theorem joins_stop (h : At o l m r1 r2 s) (hpc : s.pc = .outer)
    (hno : ¬ (r1 ≠ [] ∧ r2 ≠ [] ∨ o.aflg ≠ 0 ∧ (r1 ≠ [] ∨ r2 ≠ []))) : Joins o m r1 r2 s := by
  have hrows : rows o r1 r2 = [] := by
    by_cases hr : r1 = [] ∧ r2 = []
    · rw [hr.1, hr.2, rows, left, right]
      simp [pairs, lone]
    · have hz : o.aflg = 0 ∧ (r1 = [] ∨ r2 = []) := by tauto
      apply rows_nil hz.1
      intro a ha b hb
      rcases hz.2 with h1 | h2
      · exact absurd ha (h1 ▸ List.not_mem_nil)
      · exact absurd hb (h2 ▸ List.not_mem_nil)
  refine ⟨_, [], (Leads.refl _).head (outer_stop h hpc hno), rfl, (List.append_nil _).symm, ?_⟩
  rw [hrows]

/-- Lines of one key at the head of both files: the loops print their product. -/
theorem same_run {h g : List Text} (hf : Files o l m)
    (hat : At o l m (a :: h ++ r1) (b :: g ++ r2) s) (hpc : s.pc = .outer)
    (hbot : s.bot2 = off m (b :: g ++ r2)) (hh : ∀ a' ∈ a :: h, key o o.j1 a' = x)
    (hg : ∀ b' ∈ b :: g, key o o.j2 b' = x) (hlt1 : Below (key o o.j1) x r1)
    (hlt2 : Below (key o o.j2) x r2) :
    ∃ t, Leads o m s t ∧ At o l m r1 r2 t ∧ t.pc = .outer ∧ t.bot2 = off m r2 ∧
      t.out = s.out ++ (block (a :: h) (b :: g)).flatMap (record o) := by
  have ha : key o o.j1 a = x := hh a List.mem_cons_self
  have hb : key o o.j2 b = x := hg b List.mem_cons_self
  have hs := outer_same hat hpc (ha.trans hb.symm)
  have hnil : b :: g = [] → s.top2 = off m r2 := fun h0 => absurd h0 (List.cons_ne_nil b g)
  obtain ⟨t, hl, hat', hpc', hbot', htop', hout'⟩ :=
    first_run hf hat.suffix2 (hat.with .first s.bot2 s.top2 s.out) rfl hbot hnil
      (fun b' hb' => (hg b' hb').trans ha.symm) (ha.symm ▸ hlt2)
  obtain ⟨u, hl', hat'', hpc'', hbot'', hout''⟩ :=
    again_run hf hat' hpc' hbot' htop' (List.cons_ne_nil b g)
      (fun a' ha' => hh a' (List.mem_cons_of_mem a ha')) hg hlt1 hlt2
  refine ⟨u, (hl.trans hl').head hs, hat'', hpc'', hbot'', ?_⟩
  rw [hout'', hout', List.append_assoc, ← List.flatMap_append, ← block_cons]

/-- From a turn of the outer loop on, what is left of the files is joined. -/
theorem outer_run (hf : Files o l m) (h : At o l m r1 r2 s) (hpc : s.pc = .outer)
    (hbot : s.bot2 = off m r2) : Joins o m r1 r2 s := by
  induction hn : r1.length + r2.length using Nat.strong_induction_on generalizing r1 r2 s with
  | h n ih =>
    by_cases hgo : r1 ≠ [] ∧ r2 ≠ [] ∨ o.aflg ≠ 0 ∧ (r1 ≠ [] ∨ r2 ≠ [])
    swap
    · exact joins_stop h hpc hgo
    have hs1 : Sorted o o.j1 r1 := hf.first.suffix h.suffix1
    have hs2 : Sorted o o.j2 r2 := hf.second.suffix h.suffix2
    -- a line of the second file that is before the rest of the first
    have hright : ∀ b q, r2 = b :: q → (r1 ≠ [] ∨ o.aflg ≠ 0) →
        Below (key o o.j1) (key o o.j2 b) r1 → Joins o m r1 r2 s := by
      rintro b q rfl hne hlt
      obtain ⟨t, hl, hat, hpc', hbot', hout⟩ := outer_right hf h hpc hne hlt
      rw [if_flatMap] at hout
      have hrest := ih _ (by rw [← hn, List.length_cons]; omega) hat hpc' hbot' rfl
      apply hrest.head hl hout (rows_right _)
      apply unmatched_below hlt
      simp
    have hleft : ∀ a q, r1 = a :: q → (r2 ≠ [] ∨ o.aflg ≠ 0) →
        Below (key o o.j2) (key o o.j1 a) r2 → Joins o m r1 r2 s := by
      rintro a q rfl hne hlt
      obtain ⟨t, hl, hat, hpc', hbot', hout⟩ := outer_left hf h hpc hne hlt
      rw [if_flatMap] at hout
      have hrest := ih _ (by rw [← hn, List.length_cons]; omega) hat hpc' (hbot'.trans hbot) rfl
      apply hrest.head hl hout (rows_left _)
      apply Foreign.symm
      apply unmatched_below hlt
      simp
    cases r1 with
    | nil =>
      cases r2 with
      | nil => simp at hgo
      | cons b q =>
        exact hright b q rfl (Or.inr (by simpa using hgo)) fun a ha => absurd ha List.not_mem_nil
    | cons a p =>
      cases r2 with
      | nil =>
        exact hleft a p rfl (Or.inr (by simpa using hgo)) fun b hb => absurd hb List.not_mem_nil
      | cons b q =>
        rcases lt_trichotomy (key o o.j1 a) (key o o.j2 b) with hlt | he | hgt
        · exact hleft a p rfl (Or.inl (List.cons_ne_nil b q)) (Below.of_sorted hs2 hlt)
        · obtain ⟨h', p', rfl, hh, hp⟩ := split_key (hs1.suffix (List.suffix_cons a p)) hs1.le
          obtain ⟨g', q', rfl, hg, hq⟩ :=
            split_key (hs2.suffix (List.suffix_cons b q)) fun c hc => he.le.trans (hs2.le c hc)
          have hhx : ∀ a' ∈ a :: h', key o o.j1 a' = key o o.j1 a := by
            intro a' ha'
            rcases List.mem_cons.1 ha' with rfl | hm
            · rfl
            · exact hh a' hm
          have hgx : ∀ b' ∈ b :: g', key o o.j2 b' = key o o.j1 a := by
            intro b' hb'
            rcases List.mem_cons.1 hb' with rfl | hm
            · exact he.symm
            · exact hg b' hm
          obtain ⟨t, hl, hat, hpc', hbot', hout⟩ := same_run hf h hpc hbot hhx hgx hp hq
          have hrest := ih _ (by
            rw [← hn]
            simp only [List.length_cons, List.length_append]
            omega) hat hpc' hbot' rfl
          apply hrest.head hl hout
          rw [← List.cons_append, ← List.cons_append, rows_block (List.cons_ne_nil _ _)
            (List.cons_ne_nil _ _) hhx hgx (unmatched_below hq hhx).symm (unmatched_below hp hgx)]
        · exact hright b q rfl (Or.inl (List.cons_ne_nil a p)) (Below.of_sorted hs1 hgt)

theorem start_at (hf : Files o l m) (s : State) :
    At o l m l m (start o (text l) (text m) s) ∧ (start o (text l) (text m) s).pc = .outer ∧
      (start o (text l) (text m) s).bot2 = off m m ∧ (start o (text l) (text m) s).out = [] := by
  have hoff : off m m = 0 := Nat.sub_self _
  have h1 : get1 o { s with pc := .outer, rest1 := text l, pos2 := 0, out := [] }
      = put1 o l { s with pc := .outer, rest1 := text l, pos2 := 0, out := [] } :=
    get1_eq hf.first rfl
  rw [start, h1, get2_eq hf.second (List.suffix_refl m) hoff.symm]
  refine ⟨⟨List.suffix_refl l, List.suffix_refl m, rfl, rfl, rfl, rfl, fun hne => if_neg hne,
    fun hne => if_neg hne⟩, rfl, hoff.symm, rfl⟩

theorem turn_stop (h : s.pc = .stop) : turn o (text m) s = s := by
  rw [turn.eq_def, h]

/-- The loops end, and what they have printed by then are the lines of the join, each once and in
some order; a line is one line if the separator and the text for empty fields have no newline. -/
theorem join_prints (o : Opts) (l m : List Text) (s : State) (hf : Files o l m) :
    ∃ (calls : List Row) (k : Nat), calls.Perm (rows o l m) ∧
      (∀ n, k ≤ n → ((turn o (text m))^[n] (start o (text l) (text m) s)).pc = .stop ∧
        ((turn o (text m))^[n] (start o (text l) (text m) s)).out = calls.flatMap (record o)) ∧
      (newline ∉ o.null → o.sep1 ≠ newline → ∀ x ∈ calls, Single (record o x)) := by
  obtain ⟨hat, hpc, hbot, hout⟩ := start_at hf s
  obtain ⟨t, calls, ⟨k, hk⟩, hstop, hprint, hperm⟩ := outer_run hf hat hpc hbot
  rw [hout, List.nil_append] at hprint
  refine ⟨calls, k, hperm, ?_, fun hnull hsep x _ => record_single hnull hsep x⟩
  intro n hn
  obtain ⟨d, rfl⟩ := Nat.exists_eq_add_of_le' hn
  rw [Function.iterate_add_apply, hk, Function.iterate_fixed (turn_stop hstop)]
  exact ⟨hstop, hprint⟩

/- Fields apart by blanks, joined on the first, with the lines of the first file that have no
partner. -/
def plain : Opts where
  aflg := 1
  null := []
  sep1 := 32
  sep2 := 9
  j1 := 0
  j2 := 0
  olist := []

/-- The lines a, b, b and the lines b, b: four pairs, and a alone. -/
theorem five_rows : ∃ calls : List Row,
    calls.Perm [(some [98], some [98]), (some [98], some [98]), (some [98], some [98]),
      (some [98], some [98]), (some [97], none)] ∧
    ∃ k, ((turn plain (text [[98], [98]]))^[k] (start plain (text [[97], [98], [98]])
      (text [[98], [98]]) ⟨.outer, [], 0, 0, 0, [], [], 0, 0, []⟩)).out
        = calls.flatMap (record plain) := by
  have hfirst : Sorted plain 0 [[97], [98], [98]] :=
    ⟨by decide, by decide, by decide, by decide, by decide⟩
  have hsecond : Sorted plain 0 [[98], [98]] :=
    ⟨by decide, by decide, by decide, by decide, by decide⟩
  obtain ⟨calls, k, hperm, hrun, -⟩ := join_prints plain _ _
    ⟨.outer, [], 0, 0, 0, [], [], 0, 0, []⟩ ⟨hfirst, hsecond⟩
  exact ⟨calls, hperm, k, (hrun k (Nat.le_refl k)).2⟩

end Svr32.Join
