import Svr32.Bdiff.Fixnum

/-! bdiff.c: what is printed of a listing of diff. A line of text that just fits the buffer comes
out of it in two parts when it has diff's mark before it, and the second may be a digit. -/
namespace Svr32.Bdiff
open Svr32.Lib Svr32.Lib.Patch

/-- The longest line that fgets reads whole, if it ends in a digit. -/
def Long (x : Text) : Prop := x.length + 1 = BUFSIZ ∧ IsDigit (x.getD 1021 0)

instance (x : Text) : Decidable (Long x) := inferInstanceAs (Decidable (_ ∧ _))

/- The line as it comes out behind its mark. -/
def mangled (n : Nat) (x : Text) : Text :=
  if Long x then x.take 1021 ++ dec (x.getD 1021 0 - 48 + n) ++ [newline] else x

def separator : Text := [45, 45, 45, newline]

/- A line of a listing, and the line that is printed of it. -/
inductive Shown (n : Nat) : Text → Text → Prop where
  | command {l l' : Text} {c : Cmd} (hc : parse l = some c) (hl : l.length < BUFSIZ)
      (hf : fixline n l = some l') (he : Ended l') : Shown n l l'
  | mark {m : Nat} {x : Text} (hm : m = 60 ∨ m = 62) (hx : IsLine x) (hl : x.length < BUFSIZ) :
      Shown n (m :: 32 :: x) (m :: 32 :: mangled n x)
  | separator : Shown n separator separator

theorem fgets_ended {l : Text} (h : Ended l) (hl : l.length < BUFSIZ) (s : Text) :
    fgets BUFSIZ (l ++ s) = some (l, s) := by
  obtain ⟨b, rfl, hb⟩ := h
  have hlen : b.length < BUFSIZ - 1 := by
    simp only [List.length_append, List.length_singleton] at hl
    omega
  simp [fgets, takeLine_line _ b s hb hlen]

theorem takeLine_full (b s : Text) (h : newline ∉ b) : takeLine b.length (b ++ s) = (b, s) := by
  induction b with
  | nil => rfl
  | cons c b ih =>
    have hc : c ≠ newline := fun hc => h (by simp [hc])
    have hb : newline ∉ b := fun hb => h (by simp [hb])
    simp [takeLine, hc, ih hb]

/- A part of a line that fills the buffer. -/
theorem fgets_full {b : Text} (h : newline ∉ b) (hl : b.length + 1 = BUFSIZ) (s : Text) :
    fgets BUFSIZ (b ++ s) = some (b, s) := by
  have hne : b ++ s ≠ [] := by
    intro h0
    have := congrArg List.length h0
    simp only [List.length_append, List.length_nil, BUFSIZ] at this hl
    omega
  rw [fgets, if_neg hne, ← hl, Nat.add_sub_cancel, takeLine_full b s h]

theorem relay_step {n fuel : Nat} {pipe l rest u : Text} (hf : fgets BUFSIZ pipe = some (l, rest))
    (hu : fixline n l = some u) :
    relay n (fuel + 1) pipe = (relay n fuel rest).map (u ++ ·) := by
  rw [relay, hf]
  simp only [hu, Option.bind_eq_bind, Option.bind_some]
  cases relay n fuel rest with
  | none => rfl
  | some v => rfl

/- A text that has no NUL and does not begin with a digit is printed as it is. -/
theorem fixline_text {l : Text} (n : Nat) (hs : Stops l) (h0 : 0 ∉ l) : fixline n l = some l := by
  rw [fixline, if_pos hs, cstr_eq h0]

theorem fixline_digit (n c : Nat) (hc : IsDigit c) :
    fixline n [c, newline] = some (dec (c - 48 + n) ++ [newline]) := by
  have hno : ¬ Stops [c, newline] := fun h => h hc
  have hend : Stops [newline] := by simp [Stops, IsDigit, newline]
  have h0 : 0 ∉ [c, newline] := by
    simp only [List.mem_cons, List.not_mem_nil, newline, not_or]
    rw [IsDigit] at hc
    exact ⟨by omega, by omega, by simp⟩
  have hnum : number [c, newline] = some (c - 48, [newline]) := by
    rw [number, if_neg hno, readFrom, if_pos hc, readFrom_end _ hend]
    simp
  rw [fixline, if_neg hno, cstr_eq h0]
  show fixnum n (2 + 1) [c, newline] = _
  rw [fixnum_number hnum, fixnum_char (by simp), fixnum]
  rfl

theorem mark_plain {m : Nat} {b : Text} (hm : m = 60 ∨ m = 62) (hb : newline ∉ b) (h0 : 0 ∉ b) :
    newline ∉ m :: 32 :: b ∧ 0 ∉ m :: 32 :: b ∧ Stops (m :: 32 :: b) := by
  simp only [List.mem_cons, newline, not_or] at hb ⊢
  refine ⟨⟨by omega, by simp, hb⟩, ⟨by omega, by simp, h0⟩, ?_⟩
  rw [Stops, IsDigit]
  omega

/- A part that fills the buffer, and what is left of the line. -/
theorem relay_two {n : Nat} {b r u rest : Text} (hl : b.length + 1 = BUFSIZ) (hb : newline ∉ b)
    (h0 : 0 ∉ b) (hs : Stops b) (hr : Ended r) (hlr : r.length < BUFSIZ)
    (hu : fixline n r = some u) (fuel : Nat) :
    relay n (fuel + 2) (b ++ (r ++ rest)) = (relay n fuel rest).map (b ++ u ++ ·) := by
  rw [relay_step (fgets_full hb hl _) (fixline_text n hs h0),
    relay_step (fgets_ended hr hlr rest) hu]
  cases relay n fuel rest with
  | none => rfl
  | some v => simp

/- The marked line, in one part or two. -/
theorem relay_mark {n m : Nat} {x : Text} (hm : m = 60 ∨ m = 62) (hx : IsLine x)
    (hl : x.length < BUFSIZ) (rest : Text) :
    ∃ k, k ≤ 2 ∧ ∀ fuel, relay n (fuel + k) (m :: 32 :: x ++ rest) =
      (relay n fuel rest).map (m :: 32 :: mangled n x ++ ·) := by
  obtain ⟨b, rfl, hb⟩ := hx.split
  have hbuf : BUFSIZ = 1024 := rfl
  have hb0 : 0 ∉ b := fun h => hx.string (List.mem_append_left _ h)
  have hnl : Ended [newline] := ⟨[], rfl, by simp⟩
  simp only [List.length_append, List.length_singleton] at hl
  by_cases hlong : b.length = 1022
  · -- the last character of the line is read with its newline
    obtain ⟨b', c, rfl⟩ : ∃ b' c, b = b' ++ [c] :=
      ⟨b.dropLast, b.getLast (by rintro rfl; simp at hlong), by rw [List.dropLast_append_getLast]⟩
    have hb' : newline ∉ b' := fun h => hb (List.mem_append_left _ h)
    have hb0' : 0 ∉ b' := fun h => hb0 (List.mem_append_left _ h)
    have hcn : c ≠ newline := fun h => hb (by simp [h])
    have hc0 : c ≠ 0 := fun h => hb0 (by simp [h])
    have hlen : b'.length = 1021 := by simpa using hlong
    obtain ⟨h1, h0, hs⟩ := mark_plain hm hb' hb0'
    have hfull : (m :: 32 :: b').length + 1 = BUFSIZ := by
      simp only [List.length_cons]
      omega
    have hend : Ended [c, newline] := ⟨[c], rfl, by simpa using fun h => hcn h.symm⟩
    have hget : ((b' ++ [c]) ++ [newline]).getD 1021 0 = c := by
      rw [List.append_assoc, List.getD_eq_getElem?_getD, ← hlen,
        List.getElem?_append_right (Nat.le_refl _), Nat.sub_self]
      rfl
    have hassoc : m :: 32 :: ((b' ++ [c]) ++ [newline]) ++ rest =
        m :: 32 :: b' ++ ([c, newline] ++ rest) := by simp
    refine ⟨2, by omega, fun fuel => ?_⟩
    rw [hassoc, mangled]
    by_cases hc : IsDigit c
    · have hl : Long ((b' ++ [c]) ++ [newline]) := by
        refine ⟨?_, by rwa [hget]⟩
        simp only [List.length_append, List.length_singleton]
        omega
      have htake : ((b' ++ [c]) ++ [newline]).take 1021 = b' := by
        rw [List.append_assoc, List.take_append_of_le_length (by omega), ← hlen, List.take_length]
      rw [if_pos hl, hget, htake,
        relay_two hfull h1 h0 hs hend (by simp [BUFSIZ]) (fixline_digit n c hc)]
      simp
    · have hl : ¬ Long ((b' ++ [c]) ++ [newline]) := by
        rintro ⟨-, h⟩
        rw [hget] at h
        exact hc h
      have hcz : 0 ∉ [c, newline] := by
        simpa [newline] using fun h => hc0 h.symm
      rw [if_neg hl, relay_two hfull h1 h0 hs hend (by simp [BUFSIZ])
        (fixline_text n (by exact hc) hcz)]
      simp
  · have hno : ¬ Long (b ++ [newline]) := by
      rintro ⟨h, -⟩
      simp only [List.length_append, List.length_singleton] at h
      omega
    obtain ⟨h1, h0, hs⟩ := mark_plain hm hb hb0
    rw [mangled, if_neg hno]
    by_cases hfit : b.length = 1021
    · -- the newline alone is left
      have hfull : (m :: 32 :: b).length + 1 = BUFSIZ := by
        simp only [List.length_cons]
        omega
      have hassoc : m :: 32 :: (b ++ [newline]) ++ rest = m :: 32 :: b ++ ([newline] ++ rest) := by
        simp
      have hone : fixline n [newline] = some [newline] :=
        fixline_text n (by simp [Stops, IsDigit, newline]) (by simp [newline])
      refine ⟨2, by omega, fun fuel => ?_⟩
      rw [hassoc, relay_two hfull h1 h0 hs hnl (by simp [BUFSIZ]) hone]
      simp
    · have hend : Ended (m :: 32 :: (b ++ [newline])) := ⟨m :: 32 :: b, by simp, h1⟩
      have hassoc : m :: 32 :: (b ++ [newline]) = m :: 32 :: b ++ [newline] := by simp
      refine ⟨1, by omega, fun fuel => ?_⟩
      refine relay_step (fgets_ended hend ?_ rest) (fixline_text n hs ?_)
      · simp only [List.length_cons, List.length_append, List.length_nil]
        omega
      · rw [hassoc, List.mem_append, not_or]
        exact ⟨h0, by simp [newline]⟩

/-- What is printed of a listing, line by line. -/
theorem relay_shown {n : Nat} {ls ls' : List Text} (h : List.Forall₂ (Shown n) ls ls')
    (fuel : Nat) (hfuel : ls.flatten.length < fuel) :
    relay n fuel ls.flatten = some ls'.flatten := by
  induction h generalizing fuel with
  | nil =>
    obtain ⟨m, rfl⟩ : ∃ m, fuel = m + 1 := ⟨fuel - 1, by simp at hfuel; omega⟩
    rfl
  | @cons l l' ls ls' hl _ ih =>
    rw [List.flatten_cons, List.length_append] at hfuel
    rw [List.flatten_cons, List.flatten_cons]
    cases hl with
    | @command _ _ c hc hl hf he =>
      obtain ⟨-, hend, -⟩ := parse_plain hc
      have hpos : 0 < l.length := by
        obtain ⟨b, rfl, -⟩ := hend
        simp
      obtain ⟨m, rfl⟩ : ∃ m, fuel = m + 1 := ⟨fuel - 1, by omega⟩
      rw [relay_step (fgets_ended hend hl _) hf, ih m (by omega)]
      rfl
    | @mark m x hm hx hl =>
      obtain ⟨k, hk, hrel⟩ := relay_mark hm hx hl ls.flatten (n := n)
      have hpos : x ≠ [] := hx.ne_nil
      have hlen : 0 < x.length := List.length_pos_iff.mpr hpos
      simp only [List.length_cons] at hfuel
      obtain ⟨j, rfl⟩ : ∃ j, fuel = j + k := ⟨fuel - k, by omega⟩
      rw [hrel, ih j (by omega)]
      rfl
    | separator =>
      have hend : Ended separator := ⟨[45, 45, 45], rfl, by simp [newline]⟩
      have hlen : separator.length = 4 := rfl
      obtain ⟨m, rfl⟩ : ∃ m, fuel = m + 1 := ⟨fuel - 1, by omega⟩
      rw [relay_step (fgets_ended hend (by simp [separator, BUFSIZ]) _)
        (fixline_text n (by simp [separator, Stops, IsDigit]) (by simp [separator, newline])),
        ih m (by omega)]
      rfl

end Svr32.Bdiff
