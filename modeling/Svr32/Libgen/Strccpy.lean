import Svr32.Lib.Text

/-! libgen/strecpy.c and libgen/strccpy.c: expanding the characters that do not print into the
escapes of C, and compressing them again. Bytes are unsigned. -/
namespace Svr32.Libgen
open Svr32.Lib

def backslash : Nat := 92

/- The letters that the two switches have in common, each with its control character. -/
def letters : List (Nat × Nat) := [(110, 10), (116, 9), (98, 8), (114, 13), (102, 12), (118, 11)]

def letterOf (c : Nat) : Option Nat := (letters.find? fun p => p.2 = c).map Prod.fst

def controlOf (c : Nat) : Option Nat := (letters.find? fun p => p.1 = c).map Prod.snd

/- isprint of the table _ctype as it is compiled, which is that of ASCII. -/
def isprint (c : Nat) : Bool := 32 ≤ c && c ≤ 126

/- "%.3o" of a byte -/
def octal3 (c : Nat) : List Nat := [48 + c / 64, 48 + c / 8 % 8, 48 + c % 8]

/- One turn of the loop of strecpy, for a table of characters that print. -/
def expand (print : Nat → Bool) (except : Option (List Nat)) (c : Nat) : List Nat :=
  if print c = false ∧ (∀ e ∈ except, c ∉ e) then
    backslash :: match letterOf c with
      | some l => [l]
      | none => if c = backslash then [] else octal3 c
  else if c = backslash then [backslash, c] else [c]

/- What strecpy writes for a string. -/
def strecpyWith (print : Nat → Bool) (except : Option (List Nat)) (pin : List Nat) : List Nat :=
  pin.flatMap (expand print except) ++ [0]

def strecpy (except : Option (List Nat)) (pin : List Nat) : List Nat :=
  strecpyWith isprint except pin

/- A read after the NUL, or a loop that has not ended in the turns it is given. -/
inductive CopyFault where
  | outside
  | running
deriving DecidableEq

/- *pin, where a string has its NUL behind it. -/
def fetch (s : List Nat) (pin : Nat) : Except CopyFault Nat :=
  match (s ++ [0])[pin]? with
  | some c => .ok c
  | none => .error .outside

def isOctal (c : Nat) : Bool := 48 ≤ c && c ≤ 55

/- The loop over at most `n` more octal digits, with the pointer as it leaves it. -/
def octalLoop (s : List Nat) : Nat → Nat → Nat → Except CopyFault (Nat × Nat)
  | 0, wd, pin => .ok (wd, pin + 1)
  | n + 1, wd, pin => do
    let c ← fetch s pin
    if isOctal c then octalLoop s n (wd <<< 3 ||| (c - 48)) (pin + 1) else .ok (wd, pin + 1)

/- What follows a backslash: the byte to write, and the new pointer. -/
def escape (s : List Nat) (pin : Nat) : Except CopyFault (Nat × Nat) := do
  let c ← fetch s pin
  match controlOf c with
  | some b => .ok (b, pin + 1)
  | none =>
    -- a backslash is copied like any other character that is no letter and no digit
    if isOctal c then do
      let (wd, pin) ← octalLoop s 2 (c - 48) (pin + 1)
      .ok (wd % 256, pin - 1)
    else .ok (c, pin + 1)

/- The loop of strccpy for a number of turns. -/
def strccpyLoop (s : List Nat) : Nat → Nat → List Nat → Except CopyFault (List Nat)
  | 0, _, _ => .error .running
  | n + 1, pin, pout => do
    let c ← fetch s pin
    if c = 0 then .ok (pout ++ [0])
    else if c = backslash then do
      let (b, pin) ← escape s (pin + 1)
      strccpyLoop s n pin (pout ++ [b])
    else strccpyLoop s n (pin + 1) (pout ++ [c])

/- What strccpy writes for a string, which it goes through in at most a turn for every byte. -/
def strccpy (s : List Nat) : Except CopyFault (List Nat) := strccpyLoop s (s.length + 1) 0 []

/- The digits that the octal loop takes, on the bytes that are left. -/
def octTail : Nat → Nat → List Nat → Nat × List Nat
  | 0, wd, r => (wd, r)
  | _ + 1, wd, [] => (wd, [])
  | n + 1, wd, c :: r => if isOctal c then octTail n (wd <<< 3 ||| (c - 48)) r else (wd, c :: r)

/- The byte that an escape stands for, and the bytes after it. -/
def escapeOf (d : Nat) (r : List Nat) : Nat × List Nat :=
  match controlOf d with
  | some b => (b, r)
  | none => if isOctal d then ((octTail 2 (d - 48) r).1 % 256, (octTail 2 (d - 48) r).2) else (d, r)

theorem octTail_length (n wd : Nat) (r : List Nat) : (octTail n wd r).2.length ≤ r.length := by
  induction r generalizing n wd with
  | nil => cases n <;> simp [octTail]
  | cons c r ih =>
    cases n with
    | zero => simp [octTail]
    | succ n =>
      have := ih n (wd <<< 3 ||| (c - 48))
      rw [octTail]
      split
      · exact Nat.le_succ_of_le this
      · exact Nat.le_refl (c :: r).length

theorem escapeOf_length (d : Nat) (r : List Nat) : (escapeOf d r).2.length ≤ r.length := by
  have := octTail_length 2 (d - 48) r
  rw [escapeOf]
  split
  · exact Nat.le_refl r.length
  · split
    · exact this
    · exact Nat.le_refl r.length

/-- What the escapes of a string stand for; nothing if the last one is not complete. -/
def unescape : List Nat → Option (List Nat)
  | [] => some []
  | [c] => if c = backslash then none else some [c]
  | c :: d :: r =>
    if c = backslash then
      have := escapeOf_length d r
      (unescape (escapeOf d r).2).map ((escapeOf d r).1 :: ·)
    else (unescape (d :: r)).map (c :: ·)
termination_by s => s.length
decreasing_by
  · simp only [List.length_cons]
    omega
  · simp

theorem unescape_cons {c : Nat} (h : c ≠ backslash) (r : List Nat) :
    unescape (c :: r) = (unescape r).map (c :: ·) := by
  cases r with
  | nil => simp [unescape, h]
  | cons d r => rw [unescape, if_neg h]

theorem unescape_escape (d : Nat) (r : List Nat) : unescape (backslash :: d :: r) =
    (unescape (escapeOf d r).2).map ((escapeOf d r).1 :: ·) := by
  rw [unescape, if_pos rfl]

theorem fetch_cons (p r : List Nat) (c : Nat) : fetch (p ++ c :: r) p.length = .ok c := by
  simp [fetch]

theorem fetch_end (p : List Nat) : fetch p p.length = .ok 0 := by simp [fetch]

theorem fetch_outside (p : List Nat) : fetch p (p.length + 1) = .error .outside := by simp [fetch]

theorem ok_bind {ε α β : Type} (a : α) (f : α → Except ε β) : (Except.ok a >>= f) = f a := rfl

theorem octalLoop_spec (n wd : Nat) (p r : List Nat) :
    ∃ q, r = q ++ (octTail n wd r).2 ∧
      octalLoop (p ++ r) n wd p.length = .ok ((octTail n wd r).1, (p ++ q).length + 1) := by
  induction r generalizing n wd p with
  | nil =>
    cases n with
    | zero => exact ⟨[], by simp [octTail], by simp [octTail, octalLoop]⟩
    | succ n =>
      refine ⟨[], by simp [octTail], ?_⟩
      rw [List.append_nil, octalLoop, fetch_end, ok_bind, if_neg (by decide), octTail]
  | cons c r ih =>
    cases n with
    | zero => exact ⟨[], by simp [octTail], by simp [octTail, octalLoop]⟩
    | succ n =>
      rw [octalLoop, fetch_cons, ok_bind, octTail]
      split
      · obtain ⟨q, hq, hl⟩ := ih n (wd <<< 3 ||| (c - 48)) (p ++ [c])
        refine ⟨c :: q, by simpa using hq, ?_⟩
        simpa using hl
      · exact ⟨[], by simp, by simp⟩

theorem escape_spec (p r : List Nat) (d : Nat) :
    ∃ q, r = q ++ (escapeOf d r).2 ∧
      escape (p ++ d :: r) p.length = .ok ((escapeOf d r).1, (p ++ d :: q).length) := by
  rw [escape, fetch_cons, ok_bind, escapeOf]
  cases hc : controlOf d with
  | some b => exact ⟨[], by simp, by simp⟩
  | none =>
    by_cases ho : isOctal d = true
    · obtain ⟨q, hq, hl⟩ := octalLoop_spec 2 (d - 48) (p ++ [d]) r
      refine ⟨q, by simpa [ho] using hq, ?_⟩
      have hs : p ++ [d] ++ r = p ++ d :: r := by simp
      have hn : (p ++ [d]).length = p.length + 1 := by simp
      rw [hs, hn] at hl
      simp [ho, hl, ok_bind]
    · exact ⟨[], by simp [ho], by simp [ho]⟩

theorem strccpyLoop_spec (n : Nat) (p r pout : List Nat) (h0 : 0 ∉ r) (hn : r.length < n) :
    strccpyLoop (p ++ r) n p.length pout = match unescape r with
      | some w => .ok (pout ++ w ++ [0])
      | none => .error .outside := by
  induction n generalizing p r pout with
  | zero => exact absurd hn (Nat.not_lt_zero r.length)
  | succ n ih =>
    cases r with
    | nil => simp [strccpyLoop, fetch_end, ok_bind, unescape]
    | cons c r =>
      have hc : c ≠ 0 := fun hc => h0 (by simp [hc])
      have hr : 0 ∉ r := fun hr => h0 (by simp [hr])
      rw [strccpyLoop, fetch_cons, ok_bind, if_neg hc]
      by_cases hb : c = backslash
      · subst hb
        rw [if_pos rfl]
        cases r with
        | nil =>
          -- the NUL is taken for a character, and the next read is after it
          have hp : (p ++ [backslash]).length = p.length + 1 := by simp
          have he : escape (p ++ [backslash]) (p.length + 1) =
              .ok (0, (p ++ [backslash]).length + 1) := by
            rw [escape, ← hp, fetch_end, ok_bind]
            rfl
          obtain ⟨m, rfl⟩ : ∃ m, n = m + 1 := ⟨n - 1, by simp at hn; omega⟩
          rw [he, ok_bind]
          dsimp only
          rw [strccpyLoop, fetch_outside]
          simp [unescape, Bind.bind, Except.bind]
        | cons d r =>
          obtain ⟨q, hq, he⟩ := escape_spec (p ++ [backslash]) r d
          have hs : p ++ [backslash] ++ d :: r = p ++ backslash :: d :: r := by simp
          have hl : (p ++ [backslash]).length = p.length + 1 := by simp
          rw [hs, hl] at he
          have h0' : 0 ∉ (escapeOf d r).2 := fun h => hr (by rw [hq]; simp [h])
          have hlen := escapeOf_length d r
          have := ih (p ++ [backslash] ++ d :: q) (escapeOf d r).2 (pout ++ [(escapeOf d r).1]) h0'
            (by simp at hn; omega)
          have hs' : p ++ [backslash] ++ d :: q ++ (escapeOf d r).2 = p ++ backslash :: d :: r := by
            simp [← hq]
          rw [hs'] at this
          rw [he, ok_bind, unescape_escape]
          dsimp only
          rw [this]
          cases unescape (escapeOf d r).2 <;> simp
      · rw [if_neg hb, unescape_cons hb]
        have hs : p ++ [c] ++ r = p ++ c :: r := by simp
        have hl : (p ++ [c]).length = p.length + 1 := by simp
        have := ih (p ++ [c]) r (pout ++ [c]) hr (by simpa using hn)
        rw [hs, hl] at this
        rw [this]
        cases unescape r <;> simp

/-- What strccpy does: the bytes that the escapes stand for, and the NUL; or a read outside. -/
theorem strccpy_spec {s : List Nat} (h0 : 0 ∉ s) : strccpy s = match unescape s with
    | some w => .ok (w ++ [0])
    | none => .error .outside :=
  strccpyLoop_spec (s.length + 1) [] s [] h0 (Nat.lt_succ_self s.length)

/- How many backslashes the string ends in. -/
def trailing (s : List Nat) : Nat := (s.reverse.takeWhile (· = backslash)).length

theorem trailing_le (s : List Nat) : trailing s ≤ s.length := by
  have := (List.takeWhile_prefix (l := s.reverse) (· = backslash)).length_le
  rwa [List.length_reverse] at this

theorem trailing_cons (c : Nat) (s : List Nat) :
    trailing (c :: s) = if trailing s = s.length ∧ c = backslash then s.length + 1 else trailing s := by
  rw [trailing, List.reverse_cons, List.takeWhile_append, List.length_reverse]
  have hd : (s.reverse.takeWhile (· = backslash)).length = trailing s := rfl
  rw [hd]
  by_cases hs : trailing s = s.length
  · by_cases hc : c = backslash
    · simp [hs, hc]
    · simp [hs, hc]
  · simp [hs, hd]

theorem trailing_of_ne {c : Nat} (h : c ≠ backslash) (s : List Nat) :
    trailing (c :: s) = trailing s := by simp [trailing_cons, h]

/-- The two bytes of an escape do not change whether the backslashes at the end are even. -/
theorem trailing_escape (d : Nat) (r : List Nat) :
    trailing (backslash :: d :: r) % 2 = trailing r % 2 := by
  have hl := trailing_le r
  have hb := trailing_cons backslash (d :: r)
  have hd := trailing_cons d r
  rw [List.length_cons] at hb
  by_cases h : trailing r = r.length ∧ d = backslash
  · rw [if_pos h] at hd
    rw [if_pos ⟨hd, rfl⟩] at hb
    omega
  · rw [if_neg h] at hd
    rw [if_neg fun hc => by omega] at hb
    omega

theorem trailing_octTail (n wd : Nat) (r : List Nat) : trailing (octTail n wd r).2 = trailing r := by
  induction r generalizing n wd with
  | nil => cases n <;> rfl
  | cons c r ih =>
    cases n with
    | zero => rfl
    | succ n =>
      rw [octTail]
      split
      · next ho =>
        have hc : c ≠ backslash := by
          rintro rfl
          exact absurd ho (by decide)
        rw [ih, trailing_of_ne hc]
      · rfl

theorem trailing_escapeOf (d : Nat) (r : List Nat) : trailing (escapeOf d r).2 = trailing r := by
  rw [escapeOf]
  split
  · rfl
  · split
    · exact trailing_octTail 2 (d - 48) r
    · rfl

theorem unescape_isSome (s : List Nat) : (unescape s).isSome = true ↔ trailing s % 2 = 0 := by
  induction s using unescape.induct with
  | case1 => simp [unescape, trailing]
  | case2 => simp [unescape, trailing]
  | case3 c hc => simp [unescape, trailing, hc]
  | case4 d r hlen ih =>
    rw [unescape_escape, Option.isSome_map, ih, trailing_escapeOf, trailing_escape]
  | case5 c d r hc ih => rw [unescape_cons hc, Option.isSome_map, ih, trailing_of_ne hc]

theorem unescape_length {s w : List Nat} (h : unescape s = some w) : w.length ≤ s.length := by
  induction s using unescape.induct generalizing w with
  | case1 => simp_all [unescape]
  | case2 => simp [unescape] at h
  | case3 c hc =>
    obtain rfl : [c] = w := by simpa [unescape, hc] using h
    exact Nat.le_refl [c].length
  | case4 d r hlen ih =>
    rw [unescape_escape, Option.map_eq_some_iff] at h
    obtain ⟨v, hv, rfl⟩ := h
    have := ih hv
    simp only [List.length_cons]
    omega
  | case5 c d r hc ih =>
    rw [unescape_cons hc, Option.map_eq_some_iff] at h
    obtain ⟨v, hv, rfl⟩ := h
    simpa using ih hv

/-- strccpy stays in its string exactly when it ends in an even number of backslashes. -/
theorem strccpy_inside_iff {s : List Nat} (h0 : 0 ∉ s) :
    (∃ out, strccpy s = .ok out ∧ out.length ≤ s.length + 1) ↔ trailing s % 2 = 0 := by
  rw [← unescape_isSome, strccpy_spec h0]
  cases hu : unescape s with
  | none => simp
  | some w =>
    have := unescape_length hu
    simpa using this

/- A string that is one backslash. -/
theorem strccpy_backslash :
    ¬∃ out, strccpy [backslash] = .ok out ∧ out.length ≤ [backslash].length + 1 := by
  rintro ⟨out, h, -⟩
  have hs : strccpy [backslash] = .error .outside := by decide
  rw [hs] at h
  cases h

/- An octal escape that the NUL cuts short. -/
theorem strccpy_octal :
    ∃ out, strccpy [97, backslash, 49] = .ok out ∧ out.length ≤ [97, backslash, 49].length + 1 :=
  (strccpy_inside_iff (by decide)).mpr (by decide)

theorem letterOf_some {c l : Nat} (h : letterOf c = some l) :
    controlOf l = some c ∧ l ≠ backslash := by
  obtain ⟨p, hp, rfl⟩ := Option.map_eq_some_iff.mp h
  have hm := List.mem_of_find?_eq_some hp
  have hc : p.2 = c := by simpa using List.find?_some hp
  subst hc
  revert p
  decide

/-- The digits of %.3o are octal, and strccpy adds them up to the byte again. -/
theorem octal3_digits : ∀ c < 256, ∀ d ∈ octal3 c, isOctal d = true := by decide +kernel

theorem octal3_value : ∀ c < 256,
    (((48 + c / 64 - 48) <<< 3 ||| (48 + c / 8 % 8 - 48)) <<< 3 ||| (48 + c % 8 - 48)) = c := by
  decide +kernel

theorem controlOf_octal : ∀ d < 56, controlOf d = none := by decide

theorem escapeOf_octal3 {c : Nat} (hc : c < 256) (r : List Nat) :
    escapeOf (48 + c / 64) ((48 + c / 8 % 8) :: (48 + c % 8) :: r) = (c, r) := by
  have ho := octal3_digits c hc
  have h₀ : isOctal (48 + c / 64) = true := ho _ (by simp [octal3])
  have h₁ : isOctal (48 + c / 8 % 8) = true := ho _ (by simp [octal3])
  have h₂ : isOctal (48 + c % 8) = true := ho _ (by simp [octal3])
  have hn : controlOf (48 + c / 64) = none := controlOf_octal _ (by omega)
  rw [escapeOf, hn]
  simp only [h₀, h₁, h₂, if_true, octTail, octal3_value c hc, Nat.mod_eq_of_lt hc]

/-- What strecpy writes for a byte stands for that byte, whatever follows it. -/
theorem unescape_expand {print : Nat → Bool} (hp : print backslash = true)
    (except : Option (List Nat)) {c : Nat} (hc : c < 256) (r : List Nat) :
    unescape (expand print except c ++ r) = (unescape r).map (c :: ·) := by
  rw [expand]
  split
  · next h =>
    have hb : c ≠ backslash := by
      rintro rfl
      exact absurd hp (by simp [h.1])
    cases hl : letterOf c with
    | some l =>
      have he : escapeOf l r = (c, r) := by rw [escapeOf, (letterOf_some hl).1]
      show unescape (backslash :: l :: r) = _
      rw [unescape_escape, he]
    | none =>
      simp only [if_neg hb]
      show unescape (backslash :: (48 + c / 64) :: (48 + c / 8 % 8) :: (48 + c % 8) :: r) = _
      rw [unescape_escape, escapeOf_octal3 hc]
  · split
    · next hb =>
      subst hb
      show unescape (backslash :: backslash :: r) = _
      rw [unescape_escape]
      rfl
    · next hb => exact unescape_cons hb r

theorem expand_string (print : Nat → Bool) (except : Option (List Nat)) {c : Nat} (hc : c ≠ 0) :
    0 ∉ expand print except c := by
  rw [expand]
  split
  · cases hl : letterOf c with
    | some l =>
      have hn : controlOf 0 = none := by decide
      have : l ≠ 0 := by
        rintro rfl
        exact absurd (letterOf_some hl).1 (by simp [hn])
      simp [backslash, this.symm]
    | none =>
      dsimp only
      split
      · simp [backslash]
      · simp [octal3, backslash]
        omega
  · split <;> simp [backslash, hc.symm]

/-- A string of C: bytes but no NUL. -/
structure CString where
  bytes : List Nat
  byte : ∀ c ∈ bytes, c < 256
  string : 0 ∉ bytes

theorem unescape_flatMap {print : Nat → Bool} (hp : print backslash = true)
    (except : Option (List Nat)) {s : List Nat} (hs : ∀ c ∈ s, c < 256) :
    unescape (s.flatMap (expand print except)) = some s := by
  induction s with
  | nil => simp [unescape]
  | cons c s ih =>
    rw [List.flatMap_cons, unescape_expand hp except (hs c (by simp)),
      ih fun d hd => hs d (by simp [hd])]
    rfl

/-- For every table of characters in which the backslash prints. -/
theorem strccpy_strecpyWith {print : Nat → Bool} (hp : print backslash = true)
    (except : Option (List Nat)) (s : CString) :
    strccpy (cstr (strecpyWith print except s.bytes)) = .ok (s.bytes ++ [0]) := by
  have h0 : 0 ∉ s.bytes.flatMap (expand print except) := by
    intro h
    obtain ⟨c, hc, h⟩ := List.mem_flatMap.mp h
    exact expand_string print except (fun hc0 => s.string (hc0 ▸ hc)) h
  have hc : cstr (strecpyWith print except s.bytes) = s.bytes.flatMap (expand print except) := by
    rw [strecpyWith, cstr, List.takeWhile_append_of_pos]
    · simp
    · intro c hc
      simpa using fun h : c = 0 => h0 (h ▸ hc)
  rw [hc, strccpy_spec h0, unescape_flatMap hp except s.byte]

/-- strccpy undoes strecpy. -/
theorem strccpy_strecpy (except : Option (List Nat)) (s : CString) :
    strccpy (cstr (strecpy except s.bytes)) = .ok (s.bytes ++ [0]) :=
  strccpy_strecpyWith rfl except s

end Svr32.Libgen
