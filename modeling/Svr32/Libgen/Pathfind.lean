import Mathlib.Data.List.Basic

/-! libgen/pathfind.c: the first file of a search path that a mode string asks for. What
access(2) and stat(2) answer for a name is given. -/
namespace Svr32.Libgen

def FFLAG : BitVec 32 := 0o100000
def BFLAG : BitVec 32 := 0o60000
def CFLAG : BitVec 32 := 0o20000
def DFLAG : BitVec 32 := 0o40000
def PFLAG : BitVec 32 := 0o10000
def UFLAG : BitVec 32 := 0o4000
def GFLAG : BitVec 32 := 0o2000
def KFLAG : BitVec 32 := 0o1000
def RFLAG : BitVec 32 := 4
def WFLAG : BitVec 32 := 2
def XFLAG : BitVec 32 := 1

def OPTSTRING : List Char := ['r', 'w', 'x', 'f', 'b', 'c', 'd', 'p', 'u', 'g', 'k', 's']

/- The cases of the switch that set a bit of imode. -/
def flagOf : Char → Option (BitVec 32)
  | 'r' => some RFLAG
  | 'w' => some WFLAG
  | 'x' => some XFLAG
  | 'b' => some BFLAG
  | 'c' => some CFLAG
  | 'd' => some DFLAG
  | 'f' => some FFLAG
  | 'p' => some PFLAG
  | 'u' => some UFLAG
  | 'g' => some GFLAG
  | 'k' => some KFLAG
  | _ => none

/- imode and nzflag; nothing for a letter that is no option. -/
def buildImode : List Char → BitVec 32 → Bool → Option (BitVec 32 × Bool)
  | [], imode, nzflag => some (imode, nzflag)
  | c :: cp, imode, nzflag =>
    if c = 's' then buildImode cp imode true
    else match flagOf c with
      | some b => buildImode cp (imode ||| b) nzflag
      | none => none

structure Stat where
  st_mode : BitVec 32
  st_size : Nat
deriving DecidableEq

/- The files: what access allows, what stat finds, and what sbuf holds when stat fails. -/
structure Files where
  access : List Char → BitVec 32 → Bool
  stat : List Char → Option Stat
  junk : List Char → Stat

/- `mode & 0170000 == 0` compares first. -/
def fullckStat (sbuf : Stat) (mode : BitVec 32) (nzflag : Bool) : Bool :=
  let xor := (sbuf.st_mode ^^^ mode) &&& 0o77000
  let xor := if mode &&& (if (0o170000 : BitVec 32) = 0 then 1 else 0) ≠ 0 then
    xor &&& ~~~0o70000 else xor
  let xor := if mode &&& 0o7000 = 0 then xor &&& ~~~0o7000 else xor
  if xor ≠ 0 then false
  else if nzflag = true ∧ sbuf.st_size = 0 then false
  else true

def fullck (f : Files) (name : List Char) (mode : BitVec 32) (nzflag : Bool) : Bool :=
  if mode &&& 0o177000 = 0 ∧ nzflag = false then true
  else fullckStat ((f.stat name).getD (f.junk name)) mode nzflag

inductive PathFault where
  | overflow
  | running
deriving DecidableEq

/- The part of the path before a colon or its end, and the path after it. -/
def component : List Char → List Char × List Char
  | [] => ([], [])
  | c :: path => if c = ':' then ([], path) else (c :: (component path).1, (component path).2)

/- What cpath holds for a component. -/
def candidate (comp name : List Char) : List Char :=
  if comp = [] then name else comp ++ '/' :: name

/- The loop over the path. The longest string that cpath holds is the one with the name. -/
def pathLoop (f : Files) (name : List Char) (imode : BitVec 32) (nzflag : Bool) :
    Nat → List Char → Except PathFault (Option (List Char))
  | 0, _ => .error .running
  | n + 1, path =>
    if path = [] then .ok none
    else
      let cpath := candidate (component path).1 name
      if 256 < cpath.length + 1 then .error .overflow
      else if f.access cpath (imode &&& 0o7) && fullck f cpath imode nzflag then .ok (some cpath)
      else pathLoop f name imode nzflag n (component path).2

/- The path that is searched. -/
def searched (path : Option (List Char)) (name : List Char) : List Char :=
  match path with
  | none => [':']
  | some p => if name.head? = some '/' ∨ p = [] then [':'] else p

def pathfind (f : Files) (path : Option (List Char)) (name : List Char)
    (mode : Option (List Char)) : Except PathFault (Option (List Char)) :=
  match buildImode (mode.getD []) 0 false with
  | none => .ok none
  | some (imode, nzflag) =>
    pathLoop f name imode nzflag ((searched path name).length + 1) (searched path name)

/- The components of a path: a colon ends one, so that nothing is after the last colon. -/
def components (path : List Char) : List (List Char) :=
  if (path.splitOn ':').getLast? = some [] then (path.splitOn ':').dropLast
  else path.splitOn ':'

/- What is looked up, in this order. -/
def candidates (path : Option (List Char)) (name : List Char) : List (List Char) :=
  (components (searched path name)).map fun comp => candidate comp name

theorem component_append (path : List Char) : ':' ∉ (component path).1 ∧
    (path = (component path).1 ++ ':' :: (component path).2 ∨
      path = (component path).1 ∧ (component path).2 = []) := by
  induction path with
  | nil => simp [component]
  | cons c path ih =>
    rw [component]
    split
    · next hc => simp [hc]
    · next hc =>
      refine ⟨by simp [Ne.symm hc, ih.1], ?_⟩
      rcases ih.2 with h | h
      · exact Or.inl (congrArg (c :: ·) h)
      · exact Or.inr ⟨congrArg (c :: ·) h.1, h.2⟩

theorem components_nil : components [] = [] := rfl

/-- A turn of the loop takes the first component. -/
theorem components_cons {path : List Char} (h : path ≠ []) :
    components path = (component path).1 :: components (component path).2 := by
  obtain ⟨hc, hp⟩ := component_append path
  have hs : ∀ x ∈ (component path).1, (x == ':') = false := by
    intro x hx
    simpa using fun hx' : x = ':' => hc (hx' ▸ hx)
  rcases hp with hp | ⟨hp, hr⟩
  · have he : path.splitOn ':' = (component path).1 :: (component path).2.splitOn ':' := by
      conv => lhs; rw [hp]
      exact List.splitOnP_append_cons_of_forall_mem hs ':' rfl _
    obtain ⟨d, ds, hd⟩ := List.exists_cons_of_ne_nil (List.splitOn_ne_nil ':' (component path).2)
    rw [components, components, he, hd]
    simp only [List.getLast?_cons_cons, List.dropLast_cons_cons]
    split <;> rfl
  · have he : path.splitOn ':' = [path] := by
      rw [← hp] at hs
      exact List.splitOnP_eq_singleton hs
    rw [hr, components_nil, components, he, ← hp]
    simp [h]

theorem component_length {path : List Char} (h : path ≠ []) :
    (component path).2.length < path.length := by
  obtain ⟨-, hp | ⟨hp, hr⟩⟩ := component_append path
  · have := congrArg List.length hp
    simp at this
    omega
  · rw [hr]
    exact List.length_pos_iff.mpr h

/- The candidate passes both tests of the loop. -/
def accepted (f : Files) (imode : BitVec 32) (nzflag : Bool) (c : List Char) : Bool :=
  f.access c (imode &&& 0o7) && fullck f c imode nzflag

/-- What the loop finds among candidates: the first that is accepted, before any that is too
long for cpath. -/
def scan (ok : List Char → Bool) : List (List Char) → Except PathFault (Option (List Char))
  | [] => .ok none
  | c :: cs =>
    if 256 < c.length + 1 then .error .overflow
    else if ok c then .ok (some c) else scan ok cs

theorem pathLoop_scan (f : Files) (name : List Char) (imode : BitVec 32) (nzflag : Bool) (n : Nat)
    (path : List Char) (h : path.length < n) :
    pathLoop f name imode nzflag n path =
      scan (accepted f imode nzflag) ((components path).map fun comp => candidate comp name) := by
  induction n generalizing path with
  | zero => exact absurd h (Nat.not_lt_zero path.length)
  | succ n ih =>
    rw [pathLoop]
    split
    · next hp => rw [hp, components_nil, List.map_nil, scan]
    · next hp =>
      have hl := component_length hp
      rw [components_cons hp, List.map_cons, scan, ih (component path).2 (by omega)]
      rfl

theorem scan_accepted {ok : List Char → Bool} {cs : List (List Char)} {c : List Char}
    (h : scan ok cs = .ok (some c)) : ok c = true := by
  induction cs with
  | nil => cases h
  | cons d cs ih =>
    rw [scan] at h
    split at h
    · cases h
    · split at h
      · next hd =>
        obtain rfl : d = c := by simpa using h
        exact hd
      · exact ih h

/-- The first candidate that is wanted is found exactly when, up to it, every candidate fits and
is accepted if and only if it is wanted. -/
theorem scan_first_iff (ok wanted : List Char → Bool) (cs : List (List Char)) :
    scan ok cs = .ok (cs.find? wanted) ↔ ∀ pre c post, cs = pre ++ c :: post →
      (∀ d ∈ pre, wanted d = false) → c.length + 1 ≤ 256 ∧ (ok c = true ↔ wanted c = true) := by
  induction cs with
  | nil => simp [scan]
  | cons c cs ih =>
    constructor
    · intro h
      have hc : c.length + 1 ≤ 256 ∧ (ok c = true ↔ wanted c = true) := by
        rw [scan] at h
        split at h
        · cases h
        · next hl =>
          refine ⟨Nat.le_of_not_lt hl, fun ho => ?_, fun hw => ?_⟩
          · rw [if_pos ho] at h
            exact List.find?_some (Except.ok.inj h).symm
          · rw [List.find?_cons_of_pos hw] at h
            split at h
            · assumption
            · exact scan_accepted h
      intro pre d post hd hpre
      cases pre with
      | nil =>
        obtain ⟨rfl, -⟩ : c = d ∧ cs = post := by simpa using hd
        exact hc
      | cons e pre =>
        obtain ⟨rfl, hcs⟩ : c = e ∧ cs = pre ++ d :: post := by simpa using hd
        have hw : wanted c = false := hpre c (by simp)
        have ho : ¬ok c = true := fun ho => by simp [hc.2.mp ho] at hw
        rw [scan, if_neg (Nat.not_lt.mpr hc.1), if_neg ho,
          List.find?_cons_of_neg (by simp [hw])] at h
        exact ih.mp h pre d post hcs fun x hx => hpre x (by simp [hx])
    · intro h
      have hc := h [] c cs rfl (by simp)
      rw [scan, if_neg (Nat.not_lt.mpr hc.1)]
      by_cases hw : wanted c = true
      · rw [if_pos (hc.2.mpr hw), List.find?_cons_of_pos hw]
      · rw [if_neg fun ho => hw (hc.2.mp ho), List.find?_cons_of_neg hw]
        refine ih.mpr fun pre d post hd hpre => h (c :: pre) d post (by simp [hd]) fun x hx => ?_
        rcases List.mem_cons.mp hx with rfl | hx
        · simpa using hw
        · exact hpre x hx

theorem xor_and_eq_zero (a b k : BitVec 32) : (a ^^^ b) &&& k = 0 ↔ a &&& k = b &&& k := by
  have h : (a ^^^ b) &&& k = (a &&& k) ^^^ (b &&& k) := by
    ext i hi
    simp [Bool.and_xor_distrib_right]
  rw [h]
  exact BitVec.xor_eq_zero_iff

theorem and_or_eq_zero (a k l : BitVec 32) : a &&& (k ||| l) = 0 ↔ a &&& k = 0 ∧ a &&& l = 0 := by
  have h : a &&& (k ||| l) = (a &&& k) ||| (a &&& l) := by
    ext i hi
    simp [Bool.and_or_distrib_left]
  rw [h]
  exact BitVec.or_eq_zero_iff

/-- What the check compares: the type without its highest bit, always; and the other bits, all of
them if any is asked for. -/
theorem fullckStat_iff (st : Stat) (mode : BitVec 32) (nzflag : Bool) :
    fullckStat st mode nzflag = true ↔ st.st_mode &&& 0o70000 = mode &&& 0o70000 ∧
      (mode &&& 0o7000 = 0 ∨ st.st_mode &&& 0o7000 = mode &&& 0o7000) ∧
      (nzflag = true → st.st_size ≠ 0) := by
  have h₁ : (0o77000 : BitVec 32) = 0o70000 ||| 0o7000 := by decide
  have h₂ : (0o77000 : BitVec 32) &&& ~~~0o7000 = 0o70000 := by decide
  have h₃ : mode &&& (if (0o170000 : BitVec 32) = 0 then 1 else 0) = 0 := by simp
  have hx : (((st.st_mode ^^^ mode) &&& 0o77000) = 0) ↔ st.st_mode &&& 0o70000 = mode &&& 0o70000 ∧
      st.st_mode &&& 0o7000 = mode &&& 0o7000 := by
    rw [h₁, and_or_eq_zero, xor_and_eq_zero, xor_and_eq_zero]
  have hy : (((st.st_mode ^^^ mode) &&& 0o77000) &&& ~~~0o7000 = 0) ↔
      st.st_mode &&& 0o70000 = mode &&& 0o70000 := by
    rw [BitVec.and_assoc, h₂, xor_and_eq_zero]
  have hn : (nzflag = true → st.st_size ≠ 0) ↔ ¬(nzflag = true ∧ st.st_size = 0) := not_and.symm
  have hs : (if nzflag = true ∧ st.st_size = 0 then false else true) = true ↔
      ¬(nzflag = true ∧ st.st_size = 0) := by cases nzflag <;> simp
  rw [fullckStat, hn]
  simp only [h₃, ne_eq, not_true_eq_false, if_false]
  by_cases hb : mode &&& 0o7000 = 0
  · rw [if_pos hb]
    by_cases ht : st.st_mode &&& 0o70000 = mode &&& 0o70000
    · rw [if_neg (not_not.mpr (hy.mpr ht)), hs]
      exact ⟨fun h => ⟨ht, Or.inl hb, h⟩, fun h => h.2.2⟩
    · rw [if_pos fun h => ht (hy.mp h)]
      exact iff_of_false Bool.false_ne_true fun h => ht h.1
  · rw [if_neg hb]
    by_cases ht : st.st_mode &&& 0o70000 = mode &&& 0o70000 ∧
      st.st_mode &&& 0o7000 = mode &&& 0o7000
    · rw [if_neg (not_not.mpr (hx.mpr ht)), hs]
      exact ⟨fun h => ⟨ht.1, Or.inr ht.2, h⟩, fun h => h.2.2⟩
    · rw [if_pos fun h => ht (hx.mp h)]
      exact iff_of_false Bool.false_ne_true fun h => ht ⟨h.1, h.2.1.resolve_left hb⟩

/-! What the letters ask for. -/

/- The bit of a letter; none for s, which asks for the size. -/
def flag (l : Char) : BitVec 32 := (flagOf l).getD 0

def typeLetters : List Char := ['f', 'b', 'c', 'd', 'p']
def bitLetters : List Char := ['u', 'g', 'k']

/- A normal file may also have type 0. -/
def hasType (st : Stat) (l : Char) : Prop :=
  st.st_mode &&& 0o170000 = flag l ∨ l = 'f' ∧ st.st_mode &&& 0o170000 = 0

def hasBit (st : Stat) (l : Char) : Prop := st.st_mode &&& flag l = flag l

/- The type, the bits and the size that the letters of a mode ask of a file. -/
structure Matches (mode : List Char) (st : Stat) : Prop where
  type : ∀ l ∈ mode, l ∈ typeLetters → hasType st l
  bits : ∀ l ∈ mode, l ∈ bitLetters → hasBit st l
  size : 's' ∈ mode → st.st_size ≠ 0

/- Some letter asks for more than permissions. -/
def special (mode : List Char) : Prop :=
  ∃ l ∈ mode, l ∈ typeLetters ∨ l ∈ bitLetters ∨ l = 's'

/- The letters of a mode as bits. -/
def modeBits (mode : List Char) : BitVec 32 := mode.foldr (fun l m => flag l ||| m) 0

/-- A file satisfies a mode: access allows what is asked, and stat finds the rest. -/
def Satisfies (f : Files) (mode : List Char) (c : List Char) : Prop :=
  f.access c (modeBits mode &&& 0o7) = true ∧
    (special mode → ∃ st, f.stat c = some st ∧ Matches mode st)

/- What holds of all letters of a list is decided letter by letter. -/
theorem forall_mem_of_all {l : List Char} {P : Char → Prop} [DecidablePred P]
    (h : (l.all fun x => decide (P x)) = true) : ∀ x ∈ l, P x := by
  simpa using h

theorem all_of_forall_mem {l : List Char} {P : Char → Prop} [DecidablePred P]
    (h : ∀ x ∈ l, P x) : (l.all fun x => decide (P x)) = true := by
  simpa using h

instance (st : Stat) (l : Char) : Decidable (hasType st l) := inferInstanceAs (Decidable (_ ∨ _))

instance (st : Stat) (l : Char) : Decidable (hasBit st l) := inferInstanceAs (Decidable (_ = _))

instance (mode : List Char) (st : Stat) : Decidable (Matches mode st) :=
  decidable_of_iff ((mode.all fun l => decide (l ∈ typeLetters → hasType st l)) = true ∧
      (mode.all fun l => decide (l ∈ bitLetters → hasBit st l)) = true ∧
      ('s' ∈ mode → st.st_size ≠ 0))
    ⟨fun h => ⟨forall_mem_of_all h.1, forall_mem_of_all h.2.1, h.2.2⟩,
      fun h => ⟨all_of_forall_mem h.type, all_of_forall_mem h.bits, h.size⟩⟩

instance (mode : List Char) : Decidable (special mode) :=
  decidable_of_iff ((mode.any fun l => decide (l ∈ typeLetters ∨ l ∈ bitLetters ∨ l = 's')) = true)
    (by simp [special])

instance (f : Files) (mode c : List Char) : Decidable (Satisfies f mode c) :=
  decidable_of_iff (f.access c (modeBits mode &&& 0o7) = true ∧
      (special mode → (f.stat c).any (fun st => decide (Matches mode st)) = true))
    (by simp [Satisfies, Option.any_eq_true])

theorem within_iff (x y : BitVec 32) :
    x &&& y = x ↔ ∀ i, x.getLsbD i = true → y.getLsbD i = true := by
  constructor
  · intro h i hi
    rw [← h, BitVec.getLsbD_and, Bool.and_eq_true] at hi
    exact hi.2
  · intro h
    apply BitVec.eq_of_getLsbD_eq
    intro i _
    have := h i
    rw [BitVec.getLsbD_and]
    cases hx : x.getLsbD i <;> simp_all

theorem modeBits_getLsbD (mode : List Char) (i : Nat) :
    (modeBits mode).getLsbD i = true ↔ ∃ l ∈ mode, (flag l).getLsbD i = true := by
  induction mode with
  | nil => simp [modeBits]
  | cons l mode ih =>
    have : modeBits (l :: mode) = flag l ||| modeBits mode := rfl
    rw [this, BitVec.getLsbD_or, Bool.or_eq_true, ih]
    simp

/-- The bits of a letter that a mode has are in the bits of the mode. -/
theorem flag_and_modeBits {mode : List Char} {l : Char} (h : l ∈ mode) :
    flag l &&& modeBits mode = flag l :=
  (within_iff _ _).mpr fun i hi => (modeBits_getLsbD mode i).mpr ⟨l, h, hi⟩

/-- Bits that every letter of a mode has only within `v`, the mode has only within `v`. -/
theorem modeBits_within {mode : List Char} {k v : BitVec 32}
    (h : ∀ l ∈ mode, (flag l &&& k) &&& v = flag l &&& k) :
    (modeBits mode &&& k) &&& v = modeBits mode &&& k := by
  rw [within_iff]
  intro i hi
  rw [BitVec.getLsbD_and, Bool.and_eq_true, modeBits_getLsbD] at hi
  obtain ⟨⟨l, hl, hf⟩, hk⟩ := hi
  apply (within_iff _ _).mp (h l hl)
  rw [BitVec.getLsbD_and, hf, hk]
  rfl

theorem flagOf_eq : ∀ l ∈ OPTSTRING, l ≠ 's' → flagOf l = some (flag l) :=
  forall_mem_of_all (by decide)

theorem buildImode_spec {mode : List Char} (h : ∀ l ∈ mode, l ∈ OPTSTRING) (imode : BitVec 32)
    (nzflag : Bool) : buildImode mode imode nzflag =
      some (imode ||| modeBits mode, nzflag || decide ('s' ∈ mode)) := by
  induction mode generalizing imode nzflag with
  | nil => simp [buildImode, modeBits]
  | cons l mode ih =>
    have hm := ih fun x hx => h x (by simp [hx])
    have hb : modeBits (l :: mode) = flag l ||| modeBits mode := rfl
    rw [buildImode, hb]
    by_cases hs : l = 's'
    · have h0 : flag l = 0 := by rw [hs]; rfl
      rw [if_pos hs, hm, h0]
      simp [hs]
    · rw [if_neg hs, flagOf_eq l (h l (by simp)) hs]
      dsimp only
      rw [hm, BitVec.or_assoc]
      simp [Ne.symm hs]

theorem flag_type : ∀ l ∈ OPTSTRING, l ∈ typeLetters ∨ flag l &&& 0o70000 = 0 :=
  forall_mem_of_all (by decide)

theorem flag_bit : ∀ l ∈ OPTSTRING, l ∈ bitLetters ∨ flag l &&& 0o7000 = 0 :=
  forall_mem_of_all (by decide)

theorem flag_special : ∀ l ∈ OPTSTRING, (l ∈ typeLetters ∨ l ∈ bitLetters ∨ l = 's') ∨
    flag l &&& 0o177000 = 0 :=
  forall_mem_of_all (by decide)

theorem bit_flag : ∀ l ∈ bitLetters, flag l &&& 0o7000 = flag l :=
  forall_mem_of_all (by decide)

theorem special_flag : ∀ l, l ∈ typeLetters ∨ l ∈ bitLetters → flag l &&& 0o177000 ≠ 0 := by
  have ht : ∀ l ∈ typeLetters, flag l &&& 0o177000 ≠ 0 := forall_mem_of_all (by decide)
  have hb : ∀ l ∈ bitLetters, flag l &&& 0o177000 ≠ 0 := forall_mem_of_all (by decide)
  exact fun l hl => hl.elim (ht l) (hb l)

theorem within_zero {x : BitVec 32} (h : x = 0) (v : BitVec 32) : x &&& v = x := by
  rw [h]
  exact BitVec.zero_and

theorem modeBits_zero {mode : List Char} {k : BitVec 32} (h : ∀ l ∈ mode, flag l &&& k = 0) :
    modeBits mode &&& k = 0 := by
  have hw : (modeBits mode &&& k) &&& 0 = modeBits mode &&& k :=
    modeBits_within fun l hl => within_zero (h l hl) 0
  rw [← hw]
  exact BitVec.and_zero

/-- A mode asks for more than permissions when fullck looks further. -/
theorem special_iff {mode : List Char} (h : ∀ l ∈ mode, l ∈ OPTSTRING) :
    special mode ↔ ¬(modeBits mode &&& 0o177000 = 0 ∧ decide ('s' ∈ mode) = false) := by
  constructor
  · rintro ⟨l, hl, hs⟩ ⟨h0, hn⟩
    have hm : flag l &&& 0o177000 = 0 := by
      have : flag l &&& 0o177000 = (flag l &&& (modeBits mode &&& 0o177000)) := by
        rw [← BitVec.and_assoc, flag_and_modeBits hl]
      rw [this, h0]
      exact BitVec.and_zero
    rcases hs with ht | hb | rfl
    · exact special_flag l (Or.inl ht) hm
    · exact special_flag l (Or.inr hb) hm
    · exact of_decide_eq_false hn hl
  · intro hn
    by_contra hs
    have hl : ∀ l ∈ mode, ¬(l ∈ typeLetters ∨ l ∈ bitLetters ∨ l = 's') :=
      fun l hl hc => hs ⟨l, hl, hc⟩
    apply hn
    constructor
    · exact modeBits_zero fun l hm => (flag_special l (h l hm)).resolve_left (hl l hm)
    · exact decide_eq_false fun hm => hl 's' hm (Or.inr (Or.inr rfl))

theorem matches_bits_iff {mode : List Char} (h : ∀ l ∈ mode, l ∈ OPTSTRING) (st : Stat) :
    (∀ l ∈ mode, l ∈ bitLetters → hasBit st l) ↔
      (modeBits mode &&& 0o7000) &&& st.st_mode = modeBits mode &&& 0o7000 := by
  constructor
  · intro hb
    apply modeBits_within
    intro l hl
    rcases flag_bit l (h l hl) with hm | h0
    · rw [bit_flag l hm, BitVec.and_comm]
      exact hb l hl hm
    · exact within_zero h0 st.st_mode
  · intro hb l hl hm
    have hf : flag l &&& (modeBits mode &&& 0o7000) = flag l := by
      rw [← BitVec.and_assoc, flag_and_modeBits hl, bit_flag l hm]
    rw [hasBit, BitVec.and_comm, ← hf, BitVec.and_assoc, hb]

theorem hasType_bits {st : Stat} {l : Char} (h : hasType st l) :
    st.st_mode &&& 0o70000 = flag l &&& 0o70000 := by
  have hk : (0o70000 : BitVec 32) = 0o170000 &&& 0o70000 := by decide
  have hs : st.st_mode &&& 0o70000 = (st.st_mode &&& 0o170000) &&& 0o70000 := by
    rw [BitVec.and_assoc, ← hk]
  rcases h with h | ⟨rfl, h⟩
  · rw [hs, h]
  · rw [hs, h]
    decide

/-- If the types are as asked, and some are asked, then the bits of the types are those asked. -/
theorem type_bits {mode : List Char} (h : ∀ l ∈ mode, l ∈ OPTSTRING) {st : Stat}
    (ht : ∀ l ∈ mode, l ∈ typeLetters → hasType st l) (hs : ∃ l ∈ mode, l ∈ typeLetters) :
    st.st_mode &&& 0o70000 = modeBits mode &&& 0o70000 := by
  obtain ⟨l, hl, hlt⟩ := hs
  have hw : (modeBits mode &&& 0o70000) &&& st.st_mode = modeBits mode &&& 0o70000 := by
    apply modeBits_within
    intro x hx
    rcases flag_type x (h x hx) with hm | h0
    · have hb := hasType_bits (ht x hx hm)
      rw [← hb]
      rw [BitVec.and_comm, ← BitVec.and_assoc, BitVec.and_self]
    · exact within_zero h0 st.st_mode
  have ha := hasType_bits (ht l hl hlt)
  calc st.st_mode &&& 0o70000 = flag l &&& 0o70000 := ha
    _ = (flag l &&& modeBits mode) &&& 0o70000 := by rw [flag_and_modeBits hl]
    _ = (flag l &&& 0o70000) &&& modeBits mode := by
      rw [BitVec.and_assoc, BitVec.and_assoc, BitVec.and_comm (modeBits mode)]
    _ = (modeBits mode &&& 0o70000) &&& st.st_mode := by
      rw [← ha, BitVec.and_assoc, BitVec.and_comm, BitVec.and_comm (modeBits mode)]
    _ = modeBits mode &&& 0o70000 := hw

theorem noBits_iff {mode : List Char} (h : ∀ l ∈ mode, l ∈ OPTSTRING) :
    modeBits mode &&& 0o7000 = 0 ↔ ∀ l ∈ mode, l ∉ bitLetters := by
  constructor
  · intro h0 l hl hm
    have hf : flag l &&& (modeBits mode &&& 0o7000) = flag l := by
      rw [← BitVec.and_assoc, flag_and_modeBits hl, bit_flag l hm]
    have hz : flag l = 0 := by
      rw [← hf, h0]
      exact BitVec.and_zero
    exact special_flag l (Or.inr hm) (by rw [hz]; decide)
  · intro hb
    exact modeBits_zero fun l hl => (flag_bit l (h l hl)).resolve_left (hb l hl)

/- What the check of a file with stat comes to. -/
structure Passes (mode : List Char) (st : Stat) : Prop where
  type : st.st_mode &&& 0o70000 = modeBits mode &&& 0o70000
  bits : (∀ l ∈ mode, l ∉ bitLetters) ∨ st.st_mode &&& 0o7000 = modeBits mode &&& 0o7000
  size : 's' ∈ mode → st.st_size ≠ 0

theorem fullckStat_passes {mode : List Char} (h : ∀ l ∈ mode, l ∈ OPTSTRING) (st : Stat) :
    fullckStat st (modeBits mode) (decide ('s' ∈ mode)) = true ↔ Passes mode st := by
  rw [fullckStat_iff, noBits_iff h, decide_eq_true_iff]
  exact ⟨fun h => ⟨h.1, h.2.1, h.2.2⟩, fun h => ⟨h.type, h.bits, h.size⟩⟩

/- A file that has all that is asked, but no type is asked and it is no normal file, or it has
more of the bits u, g, k than are asked; or a file of a type that is not asked, where the types
that are asked make up its type. -/
def Misjudged (mode : List Char) (st : Stat) : Prop :=
  (Matches mode st ∧
    ((∀ l ∈ mode, l ∉ typeLetters) ∧ st.st_mode &&& 0o70000 ≠ 0 ∨
      (∃ l ∈ mode, l ∈ bitLetters) ∧ st.st_mode &&& 0o7000 ≠ modeBits mode &&& 0o7000)) ∨
  (∃ l ∈ mode, l ∈ typeLetters ∧ ¬hasType st l) ∧ Passes mode st

theorem noTypes_bits {mode : List Char} (h : ∀ l ∈ mode, l ∈ OPTSTRING)
    (hn : ∀ l ∈ mode, l ∉ typeLetters) : modeBits mode &&& 0o70000 = 0 :=
  modeBits_zero fun l hl => (flag_type l (h l hl)).resolve_left (hn l hl)

theorem passes_bits {mode : List Char} (h : ∀ l ∈ mode, l ∈ OPTSTRING) {st : Stat}
    (hp : Passes mode st) : ∀ l ∈ mode, l ∈ bitLetters → hasBit st l := by
  rcases hp.bits with hn | hb
  · exact fun l hl hm => absurd hm (hn l hl)
  · rw [matches_bits_iff h, ← hb, BitVec.and_comm, ← BitVec.and_assoc, BitVec.and_self]

theorem passes_iff {mode : List Char} (h : ∀ l ∈ mode, l ∈ OPTSTRING) (st : Stat) :
    (Passes mode st ↔ Matches mode st) ↔ ¬Misjudged mode st := by
  constructor
  · rintro hi (⟨hm, hc⟩ | ⟨⟨l, hl, hlt, hn⟩, hp⟩)
    · have hp := hi.mpr hm
      rcases hc with ⟨hn, h0⟩ | ⟨⟨l, hl, hb⟩, hne⟩
      · exact h0 (hp.type.trans (noTypes_bits h hn))
      · exact hp.bits.elim (fun hn => hn l hl hb) hne
    · exact hn ((hi.mp hp).type l hl hlt)
  · intro hj
    constructor
    · intro hp
      refine ⟨fun l hl hlt => ?_, passes_bits h hp, hp.size⟩
      by_contra hn
      exact hj (Or.inr ⟨⟨l, hl, hlt, hn⟩, hp⟩)
    · intro hm
      have hj' := fun hc => hj (Or.inl ⟨hm, hc⟩)
      refine ⟨?_, ?_, hm.size⟩
      · by_cases ht : ∃ l ∈ mode, l ∈ typeLetters
        · exact type_bits h hm.type ht
        · have hn : ∀ l ∈ mode, l ∉ typeLetters := fun l hl hc => ht ⟨l, hl, hc⟩
          rw [noTypes_bits h hn]
          by_contra h0
          exact hj' (Or.inl ⟨hn, h0⟩)
      · by_contra hc
        obtain ⟨hb, hne⟩ := not_or.mp hc
        rw [not_forall] at hb
        obtain ⟨l, hl⟩ := hb
        obtain ⟨hl, hm⟩ := Classical.not_imp.mp hl
        exact hj' (Or.inr ⟨⟨l, hl, not_not.mp hm⟩, hne⟩)

/- The file of a candidate is judged by what is asked. -/
def Judged (f : Files) (mode : List Char) (c : List Char) : Prop :=
  f.access c (modeBits mode &&& 0o7) = true → special mode →
    match f.stat c with
    | some st => ¬Misjudged mode st
    | none => ¬Passes mode (f.junk c)

theorem accepted_iff {mode : List Char} (h : ∀ l ∈ mode, l ∈ OPTSTRING) (f : Files)
    (c : List Char) : (accepted f (modeBits mode) (decide ('s' ∈ mode)) c = true ↔
      Satisfies f mode c) ↔ Judged f mode c := by
  rw [accepted, Bool.and_eq_true, Satisfies, Judged, fullck]
  by_cases ha : f.access c (modeBits mode &&& 0o7) = true
  · simp only [ha, true_and, forall_const]
    by_cases hs : special mode
    · have hn := (special_iff h).mp hs
      simp only [hs, if_neg hn, forall_const]
      cases hst : f.stat c with
      | none => simp [fullckStat_passes h]
      | some st => simp [fullckStat_passes h, passes_iff h]
    · have hn := not_not.mp fun hn => hs ((special_iff h).mpr hn)
      simp only [if_pos hn, hs, false_implies]
  · simp only [ha, Bool.false_eq_true, false_and, false_implies]

/-- pathfind finds the first file that satisfies the mode, or nothing, exactly when up to that
file every name fits in cpath and every file is judged by what is asked. -/
theorem pathfind_first_iff (f : Files) (path : Option (List Char)) (name : List Char)
    (mode : Option (List Char)) (h : ∀ l ∈ mode.getD [], l ∈ OPTSTRING) :
    pathfind f path name mode =
        .ok ((candidates path name).find? fun c => decide (Satisfies f (mode.getD []) c)) ↔
      ∀ pre c post, candidates path name = pre ++ c :: post →
        (∀ d ∈ pre, ¬Satisfies f (mode.getD []) d) →
        c.length + 1 ≤ 256 ∧ Judged f (mode.getD []) c := by
  rw [pathfind, buildImode_spec h]
  dsimp only
  have h0 : 0 ||| modeBits (mode.getD []) = modeBits (mode.getD []) := BitVec.zero_or
  rw [h0, Bool.false_or, pathLoop_scan _ _ _ _ _ _ (Nat.lt_succ_self _)]
  rw [← candidates, scan_first_iff]
  simp only [decide_eq_true_iff, decide_eq_false_iff_not, accepted_iff h]

/- Every name is a directory that is not empty. -/
def directories : Files := ⟨fun _ _ => true, fun _ => some ⟨0o40755, 512⟩, fun _ => ⟨0, 0⟩⟩

/- Asked for a size alone, it is not found. -/
theorem pathfind_size : ¬pathfind directories none ['u', 's', 'r'] (some ['s']) =
    .ok ((candidates none ['u', 's', 'r']).find? fun c =>
      decide (Satisfies directories ['s'] c)) := by decide

/- Asked for a directory, it is. -/
theorem pathfind_directory : pathfind directories none ['u', 's', 'r'] (some ['d', 's']) =
    .ok ((candidates none ['u', 's', 'r']).find? fun c =>
      decide (Satisfies directories ['d', 's'] c)) ↔
    ∀ pre c post, candidates none ['u', 's', 'r'] = pre ++ c :: post →
      (∀ d ∈ pre, ¬Satisfies directories ['d', 's'] d) →
      c.length + 1 ≤ 256 ∧ Judged directories ['d', 's'] c :=
  pathfind_first_iff directories none ['u', 's', 'r'] (some ['d', 's'])
    (forall_mem_of_all (by decide))

end Svr32.Libgen
