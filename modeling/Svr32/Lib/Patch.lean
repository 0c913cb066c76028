import Svr32.Lib.Text

/-! Listings of differences: commands with line numbers of the old and the new file, followed by the
lines that go, each after a mark, and those that come. A listing is applied line by line. -/
namespace Svr32.Lib.Patch
open Svr32.Lib

inductive Kind where
  | add
  | delete
  | change
deriving DecidableEq

/- "lo,hi" of the old file, what to do, and "lo,hi" of the new one. -/
structure Cmd where
  lo : Nat
  hi : Nat
  kind : Kind
  lo' : Nat
  hi' : Nat

def number (p : Text) : Option (Nat × Text) :=
  if Stops p then none else some (readFrom 0 p)

/- One number, or two with a comma between them. -/
def range (p : Text) : Option (Nat × Nat × Text) := do
  let (a, q) ← number p
  match q with
  | 44 :: r => do
    let (b, q) ← number r
    some (a, b, q)
  | q => some (a, a, q)

def kind : Nat → Option Kind
  | 97 => some .add
  | 99 => some .change
  | 100 => some .delete
  | _ => none

def parse (l : Text) : Option Cmd := do
  let (lo, hi, q) ← range l
  match q with
  | [] => none
  | c :: q => do
    let k ← kind c
    let (lo', hi', q) ← range q
    if q = [newline] then some ⟨lo, hi, k, lo', hi'⟩ else none

/- How far a listing has been applied: the old file has been taken up to line `pos`, and `rest` is
left of it; `gone` is what the last command takes away and the listing is still to show. -/
structure State where
  pos : Nat
  rest : List Text
  out : List Text
  gone : List Text
  adding : Bool

def start (old : List Text) : State := ⟨0, old, [], [], false⟩

/- The old file is copied up to line `n`. -/
def copyTo (n : Nat) (s : State) : Option State :=
  if s.pos ≤ n ∧ n - s.pos ≤ s.rest.length then
    some { s with
      pos := n, rest := s.rest.drop (n - s.pos), out := s.out ++ s.rest.take (n - s.pos) }
  else none

/- Lines up to `hi` are taken away. -/
def takeTo (hi : Nat) (adding : Bool) (s : State) : Option State :=
  if s.pos ≤ hi ∧ hi - s.pos ≤ s.rest.length then
    some ⟨hi, s.rest.drop (hi - s.pos), s.out, s.rest.take (hi - s.pos), adding⟩
  else none

def command (c : Cmd) (s : State) : Option State :=
  match c.kind with
  | .add => (copyTo c.hi s).map fun s => { s with gone := [], adding := true }
  | .delete => if c.lo = 0 then none else (copyTo (c.lo - 1) s).bind (takeTo c.hi false)
  | .change => if c.lo = 0 then none else (copyTo (c.lo - 1) s).bind (takeTo c.hi true)

/- Whether the lines that are shown as gone must be those that go. -/
variable (strict : Bool)

/- The next line of the listing. -/
def feed (s : State) (l : Text) : Option State :=
  match l with
  | 60 :: 32 :: t =>
    if strict then
      match s.gone with
      | x :: g => if x = t then some { s with gone := g } else none
      | [] => none
    else some s
  | 62 :: 32 :: t => if s.adding then some { s with out := s.out ++ [t] } else none
  | 45 :: _ =>
    if strict = true ∧ (l ≠ [45, 45, 45, newline] ∨ s.adding = false) then none else some s
  | l => if strict = true ∧ s.gone ≠ [] then none else (parse l).bind fun c => command c s

def run : State → List Text → Option State
  | s, [] => some s
  | s, l :: ls => (feed strict s l).bind fun s => run s ls

/- The file that has been made when the listing is at its end. -/
def finish (s : State) : Option (List Text) :=
  if strict = true ∧ s.gone ≠ [] then none else some (s.out ++ s.rest)

/-- What the listing makes of the old file. -/
def apply (listing : Text) (old : List Text) : Option (List Text) :=
  (run strict (start old) (lines listing)).bind (finish strict)

variable {strict}

theorem run_append (s : State) (ls ms : List Text) :
    run strict s (ls ++ ms) = (run strict s ls).bind fun s => run strict s ms := by
  induction ls generalizing s with
  | nil => rfl
  | cons l ls ih =>
    simp only [List.cons_append, run]
    cases feed strict s l with
    | none => rfl
    | some s' => exact ih s'

theorem copyTo_of {n : Nat} {s : State} (h : s.pos ≤ n) (hl : n - s.pos ≤ s.rest.length) :
    copyTo n s = some { s with
      pos := n, rest := s.rest.drop (n - s.pos), out := s.out ++ s.rest.take (n - s.pos) } :=
  if_pos ⟨h, hl⟩

theorem takeTo_of {hi : Nat} {adding : Bool} {s : State} (h : s.pos ≤ hi)
    (hl : hi - s.pos ≤ s.rest.length) : takeTo hi adding s =
      some ⟨hi, s.rest.drop (hi - s.pos), s.out, s.rest.take (hi - s.pos), adding⟩ :=
  if_pos ⟨h, hl⟩

/- What copies only moves lines, and what takes only lets them go. -/
theorem copyTo_some {n : Nat} {s s' : State} (h : copyTo n s = some s') :
    s.pos ≤ n ∧ n - s.pos ≤ s.rest.length ∧ s' = { s with
      pos := n, rest := s.rest.drop (n - s.pos), out := s.out ++ s.rest.take (n - s.pos) } := by
  rw [copyTo] at h
  split at h
  · rename_i hn
    exact ⟨hn.1, hn.2, (Option.some.inj h).symm⟩
  · cases h

theorem takeTo_some {hi : Nat} {adding : Bool} {s s' : State} (h : takeTo hi adding s = some s') :
    s.pos ≤ hi ∧ hi - s.pos ≤ s.rest.length ∧
      s' = ⟨hi, s.rest.drop (hi - s.pos), s.out, s.rest.take (hi - s.pos), adding⟩ := by
  rw [takeTo] at h
  split at h
  · rename_i hn
    exact ⟨hn.1, hn.2, (Option.some.inj h).symm⟩
  · cases h

theorem number_digit {p : Text} {x : Nat × Text} (h : number p = some x) : ¬ Stops p := by
  rw [number] at h
  split at h
  · cases h
  · assumption

theorem parse_digit {l : Text} {c : Cmd} (h : parse l = some c) : ¬ Stops l := by
  rw [parse, range] at h
  cases hn : number l with
  | none => simp [hn] at h
  | some x => exact number_digit hn

theorem feed_command {l : Text} {c : Cmd} (s : State) (h : parse l = some c) :
    feed strict s l = if strict = true ∧ s.gone ≠ [] then none else command c s := by
  have hd := parse_digit h
  rw [feed.eq_def]
  split
  · exact absurd (by simp [Stops, IsDigit]) hd
  · exact absurd (by simp [Stops, IsDigit]) hd
  · exact absurd (by simp [Stops, IsDigit]) hd
  · rw [h]
    rfl

/- How many lines of the old file are behind is kept, and so is what has been made. -/
theorem command_some {c : Cmd} {s s' : State} (h : command c s = some s') :
    s'.pos + s'.rest.length = s.pos + s.rest.length ∧ s.out <+: s'.out ∧
      (∀ x ∈ s'.rest ++ s'.gone, x ∈ s.rest) := by
  have hcopy : ∀ {n t}, copyTo n s = some t → t.pos + t.rest.length = s.pos + s.rest.length ∧
      s.out <+: t.out ∧ (∀ x ∈ t.rest, x ∈ s.rest) := by
    intro n t ht
    obtain ⟨hn, hl, rfl⟩ := copyTo_some ht
    refine ⟨?_, List.prefix_append _ _, fun x hx => List.mem_of_mem_drop hx⟩
    simp only [List.length_drop]
    omega
  have htake : ∀ {hi adding t u}, copyTo (c.lo - 1) s = some t → takeTo hi adding t = some u →
      u.pos + u.rest.length = s.pos + s.rest.length ∧ s.out <+: u.out ∧
        (∀ x ∈ u.rest ++ u.gone, x ∈ s.rest) := by
    intro hi adding t u ht hu
    obtain ⟨h1, h2, h3⟩ := hcopy ht
    obtain ⟨hn, hl, rfl⟩ := takeTo_some hu
    refine ⟨?_, h2, ?_⟩
    · simp only [List.length_drop]
      omega
    · intro x hx
      rcases List.mem_append.mp hx with hx | hx
      · exact h3 x (List.mem_of_mem_drop hx)
      · exact h3 x (List.mem_of_mem_take hx)
  rw [command] at h
  split at h
  · obtain ⟨t, ht, rfl⟩ := Option.map_eq_some_iff.mp h
    obtain ⟨h1, h2, h3⟩ := hcopy ht
    exact ⟨h1, h2, by simpa using h3⟩
  · split at h
    · cases h
    · obtain ⟨t, ht, hu⟩ := Option.bind_eq_some_iff.mp h
      exact htake ht hu
  · split at h
    · cases h
    · obtain ⟨t, ht, hu⟩ := Option.bind_eq_some_iff.mp h
      exact htake ht hu

theorem feed_some {s s' : State} {l : Text} (h : feed strict s l = some s') :
    s'.pos + s'.rest.length = s.pos + s.rest.length ∧ s.out <+: s'.out ∧
      (∀ x ∈ s'.rest ++ s'.gone, x ∈ s.rest ++ s.gone) := by
  have hsame : ∀ {t : State}, t.pos = s.pos → t.rest = s.rest → s.out <+: t.out →
      (∀ x ∈ t.gone, x ∈ s.gone) → t.pos + t.rest.length = s.pos + s.rest.length ∧
      s.out <+: t.out ∧ (∀ x ∈ t.rest ++ t.gone, x ∈ s.rest ++ s.gone) := by
    intro t hp hr ho hg
    refine ⟨by rw [hp, hr], ho, fun x hx => ?_⟩
    rw [hr] at hx
    rcases List.mem_append.mp hx with hx | hx
    · exact List.mem_append_left _ hx
    · exact List.mem_append_right _ (hg x hx)
  rw [feed.eq_def] at h
  split at h
  · split at h
    · split at h
      · rename_i g hg
        split at h
        · cases h
          exact hsame rfl rfl List.prefix_rfl fun x hx => by rw [hg]; simp [hx]
        · cases h
      · cases h
    · cases h
      exact hsame rfl rfl List.prefix_rfl fun x hx => hx
  · split at h
    · cases h
      exact hsame rfl rfl (List.prefix_append _ _) fun x hx => hx
    · cases h
  · split at h
    · cases h
    · cases h
      exact hsame rfl rfl List.prefix_rfl fun x hx => hx
  · split at h
    · cases h
    · obtain ⟨c, -, hc⟩ := Option.bind_eq_some_iff.mp h
      obtain ⟨h1, h2, h3⟩ := command_some hc
      exact ⟨h1, h2, fun x hx => List.mem_append_left _ (h3 x hx)⟩

theorem run_some {s s' : State} {ls : List Text} (h : run strict s ls = some s') :
    s'.pos + s'.rest.length = s.pos + s.rest.length ∧ s.out <+: s'.out := by
  induction ls generalizing s with
  | nil =>
    cases h
    exact ⟨rfl, List.prefix_rfl⟩
  | cons l ls ih =>
    obtain ⟨t, ht, h⟩ := Option.bind_eq_some_iff.mp h
    obtain ⟨h1, h2, -⟩ := feed_some ht
    obtain ⟨h3, h4⟩ := ih h
    exact ⟨h3.trans h1, h2.trans h4⟩

/- The state that has copied `k` lines more, whatever it is to show or to add. -/
def catchUp (k : Nat) (gone : List Text) (adding : Bool) (s : State) : State :=
  ⟨s.pos + k, s.rest.drop k, s.out ++ s.rest.take k, gone, adding⟩

theorem copyTo_catchUp {k n : Nat} {s : State} (gone : List Text) (adding : Bool)
    (hk : k ≤ s.rest.length) (hn : s.pos + k ≤ n) :
    copyTo n (catchUp k gone adding s) =
      (copyTo n s).map fun t => { t with gone := gone, adding := adding } := by
  obtain ⟨j, rfl⟩ : ∃ j, n = s.pos + k + j := ⟨n - (s.pos + k), by omega⟩
  have h1 : s.pos + k + j - (s.pos + k) = j := by omega
  have h2 : s.pos + k + j - s.pos = k + j := by omega
  rw [copyTo, copyTo, catchUp, h1, h2]
  simp only [List.length_drop]
  by_cases hj : k + j ≤ s.rest.length
  · rw [if_pos (by omega), if_pos (by omega)]
    simp [List.drop_drop, List.take_add, List.append_assoc]
  · rw [if_neg (by omega), if_neg (by omega)]
    rfl

/-- A command for lines further on does the same after the lines before it have been copied. -/
theorem command_catchUp {k : Nat} {s : State} {c : Cmd} (gone : List Text) (adding : Bool)
    (hk : k ≤ s.rest.length) (hadd : c.kind = .add → s.pos + k ≤ c.hi)
    (hlo : c.kind ≠ .add → s.pos + k + 1 ≤ c.lo) :
    command c (catchUp k gone adding s) = command c s := by
  have htake : ∀ {hi a}, c.kind ≠ .add →
      (copyTo (c.lo - 1) (catchUp k gone adding s)).bind (takeTo hi a) =
        (copyTo (c.lo - 1) s).bind (takeTo hi a) := by
    intro hi a hne
    rw [copyTo_catchUp gone adding hk (by have := hlo hne; omega)]
    cases copyTo (c.lo - 1) s with
    | none => rfl
    | some t => rfl
  rw [command, command]
  cases hkind : c.kind with
  | add =>
    rw [copyTo_catchUp gone adding hk (hadd hkind)]
    cases copyTo c.hi s with
    | none => rfl
    | some t => rfl
  | delete =>
    dsimp only
    rw [htake (by simp [hkind])]
  | change =>
    dsimp only
    rw [htake (by simp [hkind])]

end Svr32.Lib.Patch
