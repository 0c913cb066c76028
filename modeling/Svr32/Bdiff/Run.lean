import Svr32.Bdiff.Segment

/-! bdiff.c: what the whole listing makes of the old file. The line number goes on by the limit
after each segment, also when the old file has ended before it. -/
namespace Svr32.Bdiff
open Svr32.Lib Svr32.Lib.Patch

section
variable (seglim : Nat)

def segment (k : Nat) (ls : List Text) : List Text := (ls.drop (k * seglim)).take seglim

/-- The old file ends inside a segment, and the new one goes on after it. -/
def Overrun (old new : List Text) : Prop :=
  old.length % seglim ≠ 0 ∧ (old.length / seglim + 1) * seglim < new.length

variable (diff : List Text → List Text → Text)

/-- A line of some segment is printed as another. -/
def Spoils (linenum : Nat) (old new : List Text) : Prop :=
  ∃ k, k * seglim < old.length ∧ k * seglim < new.length ∧
    Hurt (linenum + k * seglim) (lines (diff (segment seglim k old) (segment seglim k new)))

/-- diff lists the differences of each pair of segments that it is given. -/
def Lists (old new : List Text) : Prop :=
  ∀ k, k * seglim < old.length → k * seglim < new.length →
    Patch.apply true (diff (segment seglim k old) (segment seglim k new)) (segment seglim k old) =
      some (segment seglim k new) ∧
    Short (lines (diff (segment seglim k old) (segment seglim k new)))

end

theorem segment_zero (L : Nat) (ls : List Text) : segment L 0 ls = ls.take L := by
  rw [segment, Nat.zero_mul, List.drop_zero]

theorem segment_succ (L k : Nat) (ls : List Text) :
    segment L (k + 1) ls = segment L k (ls.drop L) := by
  rw [segment, segment, List.drop_drop, Nat.succ_mul, Nat.add_comm]

theorem behind {L k : Nat} {ls : List Text} :
    (k + 1) * L < ls.length ↔ k * L < (ls.drop L).length := by
  rw [List.length_drop, Nat.succ_mul]
  omega

theorem overrun_drop {L : Nat} {old new : List Text} (hL : 1 ≤ L) (h : L ≤ old.length) :
    Overrun L old new ↔ Overrun L (old.drop L) (new.drop L) := by
  obtain ⟨m, hm⟩ : ∃ m, old.length = m + L := ⟨old.length - L, by omega⟩
  rw [Overrun, Overrun, List.length_drop, List.length_drop, hm, Nat.add_sub_cancel,
    Nat.add_mod_right, Nat.add_div_right m hL]
  simp only [Nat.add_mul, Nat.one_mul]
  omega

theorem overrun_short {L : Nat} {old new : List Text} (h : old.length < L) (hne : old ≠ []) :
    Overrun L old new ↔ new.drop L ≠ [] := by
  have hpos : 0 < old.length := List.length_pos_iff.mpr hne
  rw [Overrun, Nat.mod_eq_of_lt h, Nat.div_eq_of_lt h, Ne, Ne, List.drop_eq_nil_iff]
  omega

theorem spoils_drop {L n : Nat} {diff : List Text → List Text → Text} {old new : List Text}
    (ho : old ≠ []) (hn : new ≠ []) :
    Spoils L diff n old new ↔ Hurt n (lines (diff (old.take L) (new.take L))) ∨
      Spoils L diff (n + L) (old.drop L) (new.drop L) := by
  constructor
  · rintro ⟨k, hk, hk', h⟩
    cases k with
    | zero =>
      rw [segment_zero, segment_zero, Nat.zero_mul] at h
      exact .inl h
    | succ k =>
      rw [segment_succ, segment_succ, Nat.succ_mul, Nat.add_comm (k * L), ← Nat.add_assoc] at h
      exact .inr ⟨k, behind.mp hk, behind.mp hk', h⟩
  · rintro (h | ⟨k, hk, hk', h⟩)
    · refine ⟨0, by simpa using List.length_pos_iff.mpr ho,
        by simpa using List.length_pos_iff.mpr hn, ?_⟩
      rw [segment_zero, segment_zero, Nat.zero_mul]
      exact h
    · refine ⟨k + 1, behind.mpr hk, behind.mpr hk', ?_⟩
      rw [segment_succ, segment_succ, Nat.succ_mul, Nat.add_comm (k * L), ← Nat.add_assoc]
      exact h

theorem spoils_nil {L n : Nat} {diff : List Text → List Text → Text} {old new : List Text}
    (h : old = [] ∨ new = []) : ¬ Spoils L diff n old new := by
  rintro ⟨k, hk, hk', -⟩
  rcases h with rfl | rfl
  · simp at hk
  · simp at hk'

theorem lists_drop {L : Nat} {diff : List Text → List Text → Text} {old new : List Text}
    (h : Lists L diff old new) : Lists L diff (old.drop L) (new.drop L) := by
  intro k hk hk'
  have hs := h (k + 1) (behind.mpr hk) (behind.mpr hk')
  rw [segment_succ, segment_succ] at hs
  exact hs

/- The lines that follow a command. -/
theorem run_gone (s : State) (ls : List Text) :
    run false s (ls.map fun l => 60 :: 32 :: l) = some s := by
  induction ls with
  | nil => rfl
  | cons l ls ih => exact ih

theorem run_come {s : State} (h : s.adding = true) (ls : List Text) :
    run false s (ls.map fun l => 62 :: 32 :: l) = some { s with out := s.out ++ ls } := by
  induction ls generalizing s with
  | nil => simp [run]
  | cons l ls ih =>
    rw [List.map_cons, run, feed, if_pos h]
    simp only [Option.bind_some]
    rw [ih (by exact h), List.append_assoc]
    rfl

theorem putsave_flatten (type : Nat) (ls : List Text) :
    putsave type ls = (ls.map fun l => type :: 32 :: l).flatten := by
  rw [putsave, List.flatMap_def]
  rfl

theorem marks_ended {type : Nat} {ls : List Text} (ht : type = 60 ∨ type = 62)
    (h : ∀ l ∈ ls, Good l) : ∀ l ∈ ls.map (fun l => type :: 32 :: l), Ended l := by
  intro l hl
  obtain ⟨x, hx, rfl⟩ := List.mem_map.mp hl
  obtain ⟨b, rfl, hb⟩ := (h x hx).1.split
  refine ⟨type :: 32 :: b, by simp, ?_⟩
  simp only [List.mem_cons, newline, not_or]
  exact ⟨by omega, by simp, hb⟩

/- The command lines that bdiff makes itself. -/
theorem parse_made {a b c d x : Nat} {k : Kind} {t u : Text} (ht : Reads a b t) (hu : Reads c d u)
    (hk : kind x = some k) :
    parse (t ++ x :: (u ++ [newline])) = some ⟨a, b, k, c, d⟩ ∧
      Ended (t ++ x :: (u ++ [newline])) := by
  have hx := kind_letter hk
  have hx' : ¬ IsDigit x := by
    rw [IsDigit]
    omega
  obtain ⟨-, ht1, -, hread⟩ := ht
  obtain ⟨-, hu1, -, hread'⟩ := hu
  have h₁ := hread (x :: (u ++ [newline])) hx' (by simp; omega)
  have h₂ := hread' [newline] (by simp [Stops, IsDigit, newline]) (by simp [newline])
  refine ⟨?_, t ++ x :: u, by simp, ?_⟩
  · rw [parse, h₁]
    simp only [Option.bind_eq_bind, Option.bind_some, hk, h₂]
    rfl
  · simp only [List.mem_append, List.mem_cons, not_or]
    exact ⟨ht1, by simp only [newline]; omega, hu1⟩

/- The old file has ended: its line number must be where it has. -/
theorem addgen_run {n : Nat} {new : List Text} (hnew : ∀ x ∈ new, Good x) :
    ∃ ls, addgen n new = ls.flatten ∧ (∀ l ∈ ls, Ended l) ∧
      (∀ g : State, g.pos + g.rest.length < n → run false g ls = none) ∧
      ∀ g : State, g.pos + g.rest.length = n →
        (run false g ls).bind (finish false) = some (g.out ++ g.rest ++ new) := by
  obtain ⟨hp, he⟩ := parse_made (k := .add) (x := 97) (reads_one n) (reads_two (n + 1) (n + new.length))
    rfl
  refine ⟨(dec n ++ 97 :: (dec (n + 1) ++ 44 :: dec (n + new.length) ++ [newline])) ::
    new.map fun l => 62 :: 32 :: l, ?_, ?_, fun g hg => ?_, fun g hg => ?_⟩
  · rw [List.flatten_cons, ← putsave_flatten, addgen]
    simp
  · intro l hl
    rcases List.mem_cons.mp hl with rfl | hl
    · exact he
    · exact marks_ended (.inr rfl) hnew l hl
  · rw [run, feed_command g hp, if_neg (by simp), command]
    dsimp only
    rw [copyTo, if_neg (by omega)]
    rfl
  · rw [run, feed_command g hp, if_neg (by simp), command]
    dsimp only
    rw [copyTo_of (by omega) (by omega)]
    simp only [Option.map_some, Option.bind_some]
    rw [run_come rfl]
    have hlen : n - g.pos = g.rest.length := by omega
    simp [finish, hlen]

/- The new file has ended. -/
theorem delgen_run {n : Nat} {old pend : List Text} {g : State} (hold : ∀ x ∈ old, Good x)
    (hrest : g.rest = pend ++ old) (hpos : g.pos + pend.length = n) :
    ∃ ls, delgen n old = ls.flatten ∧ (∀ l ∈ ls, Ended l) ∧
      (run false g ls).bind (finish false) = some (g.out ++ pend) := by
  obtain ⟨hp, he⟩ := parse_made (k := .delete) (x := 100) (reads_two (n + 1) (n + old.length))
    (reads_one n) rfl
  refine ⟨((dec (n + 1) ++ 44 :: dec (n + old.length)) ++ 100 :: (dec n ++ [newline])) ::
    old.map fun l => 60 :: 32 :: l, ?_, ?_, ?_⟩
  · rw [List.flatten_cons, ← putsave_flatten, delgen]
    simp
  · intro l hl
    rcases List.mem_cons.mp hl with rfl | hl
    · exact he
    · exact marks_ended (.inl rfl) hold l hl
  · have hlen : n - g.pos = pend.length := by omega
    rw [run, feed_command g hp, if_neg (by simp), command]
    simp only [Nat.add_sub_cancel, Nat.add_eq_zero_iff, Nat.one_ne_zero, and_false, if_false]
    rw [copyTo_of (by omega) (by rw [hlen, hrest]; simp)]
    simp only [Option.bind_some]
    rw [takeTo_of (by dsimp only; omega) (by simp [hlen, hrest])]
    simp only [Option.bind_some]
    rw [run_gone]
    simp [finish, hlen, hrest]

/- What the listing of the rest of the files makes when `pend` is still to be copied. -/
def Makes (bad spoilt : Prop) (g : State) (pend new : List Text) (ls : List Text) : Prop :=
  (bad → (run false g ls).bind (finish false) = none) ∧
    (¬ bad → ∃ r, (run false g ls).bind (finish false) = some (g.out ++ pend ++ r) ∧
      r.length = new.length ∧ (r = new ↔ ¬ spoilt))

theorem segments_step {L fuel n : Nat} {diff : List Text → List Text → Text}
    {old new ls' ls₂ : List Text} (ho : old ≠ []) (hn : new ≠ [])
    (hall : List.Forall₂ (Shown n) (lines (diff (old.take L) (new.take L))) ls')
    (h : segments L diff fuel (n + L) (old.drop L) (new.drop L) = some ls₂.flatten) :
    segments L diff (fuel + 1) n old new = some (ls' ++ ls₂).flatten := by
  have hrel := relay_shown hall ((diff (old.take L) (new.take L)).length + 1)
    (by rw [flatten_lines]; omega)
  rw [flatten_lines] at hrel
  rw [segments, if_neg (fun h => ho h.1), if_neg ho, if_neg hn]
  simp only [hrel, h, Option.bind_eq_bind, Option.bind_some, List.flatten_append]

theorem good_take {L : Nat} {ls : List Text} (h : ∀ x ∈ ls, Good x) : ∀ x ∈ ls.take L, Good x :=
  fun x hx => h x (List.mem_of_mem_take hx)

theorem good_drop {L : Nat} {ls : List Text} (h : ∀ x ∈ ls, Good x) : ∀ x ∈ ls.drop L, Good x :=
  fun x hx => h x (List.mem_of_mem_drop hx)

theorem forall₂_ended {n : Nat} {ls ls' : List Text} (h : List.Forall₂ (Shown n) ls ls') :
    ∀ l ∈ ls', Ended l := by
  induction h with
  | nil => simp
  | cons hl _ ih =>
    intro l hm
    rcases List.mem_cons.mp hm with rfl | hm
    · exact hl.ended
    · exact ih l hm

/-- The loop over the segments, from where the whole file is at the beginning of one. -/
theorem segments_spec {L : Nat} (hL : 1 ≤ L) {diff : List Text → List Text → Text} {fuel n : Nat}
    {old new pend : List Text} {g : State} (hfuel : old.length + new.length < fuel)
    (hold : ∀ x ∈ old, Good x) (hnew : ∀ x ∈ new, Good x) (hlists : Lists L diff old new)
    (hrest : g.rest = pend ++ old) (hpos : g.pos + pend.length = n) :
    ∃ ls, segments L diff fuel n old new = some ls.flatten ∧ (∀ l ∈ ls, Ended l) ∧
      Makes (Overrun L old new) (Spoils L diff n old new) g pend new ls := by
  induction fuel generalizing n old new pend g with
  | zero => omega
  | succ fuel ih =>
    by_cases ho : old = []
    · subst ho
      rw [List.append_nil] at hrest
      have hno : ¬ Overrun L [] new := by simp [Overrun]
      have hsp : ¬ Spoils L diff n [] new := spoils_nil (.inl rfl)
      by_cases hn : new = []
      · subst hn
        refine ⟨[], by simp [segments], by simp, fun h => absurd h hno, fun _ => ⟨[], ?_, rfl, ?_⟩⟩
        · simp [run, finish, hrest]
        · exact iff_of_true rfl hsp
      · obtain ⟨ls, hls, he, -, hrun⟩ := addgen_run (n := n) hnew
        refine ⟨ls, ?_, he, fun h => absurd h hno, fun _ => ⟨new, ?_, rfl, iff_of_true rfl hsp⟩⟩
        · rw [segments, if_neg (fun h => hn h.2), if_pos rfl, hls]
        · rw [hrun g (by rw [hrest]; exact hpos), hrest]
    · by_cases hn : new = []
      · subst hn
        have hno : ¬ Overrun L old [] := by simp [Overrun]
        have hsp : ¬ Spoils L diff n old [] := spoils_nil (.inr rfl)
        obtain ⟨ls, hls, he, hrun⟩ := delgen_run hold hrest hpos
        refine ⟨ls, ?_, he, fun h => absurd h hno, fun _ => ⟨[], ?_, rfl, iff_of_true rfl hsp⟩⟩
        · rw [segments, if_neg (fun h => ho h.1), if_neg ho, if_pos rfl, hls]
        · rw [hrun, List.append_nil]
      · have hpos' : 0 < old.length := List.length_pos_iff.mpr ho
        have hpos'' : 0 < new.length := List.length_pos_iff.mpr hn
        obtain ⟨hok, hshort⟩ := hlists 0 (by simpa using hpos') (by simpa using hpos'')
        rw [segment_zero, segment_zero] at hok hshort
        obtain ⟨ls', g', pend', b', hall, hg', hrest', hp', hout, hlen, hsame⟩ :=
          segment_sim hok (good_take hold) (good_take hnew) hshort
            (show g.rest = pend ++ (old.take L ++ old.drop L) by rw [hrest, List.take_append_drop])
            hpos
        have hended := forall₂_ended hall
        rw [spoils_drop ho hn]
        by_cases hlong : L ≤ old.length
        · -- the segment is full, so the line number is right after it
          have hfull : (old.take L).length = L := by
            rw [List.length_take]
            omega
          rw [hfull] at hp'
          obtain ⟨ls₂, hls₂, he₂, hbad, hgood⟩ :=
            ih (show (old.drop L).length + (new.drop L).length < fuel by
              simp only [List.length_drop]; omega)
              (good_drop hold) (good_drop hnew) (lists_drop hlists) hrest' hp'
          refine ⟨ls' ++ ls₂, segments_step ho hn hall hls₂, ?_, ?_, ?_⟩
          · intro l hl
            rcases List.mem_append.mp hl with hl | hl
            · exact hended l hl
            · exact he₂ l hl
          · intro h
            rw [run_append, hg']
            exact hbad ((overrun_drop hL hlong).mp h)
          · intro h
            obtain ⟨r, hr, hrlen, hreq⟩ := hgood fun hd => h ((overrun_drop hL hlong).mpr hd)
            refine ⟨b' ++ r, ?_, ?_, ?_⟩
            · rw [run_append, hg']
              rw [hout, List.append_assoc] at hr
              exact hr
            · rw [List.length_append, hlen, hrlen, ← List.length_append, List.take_append_drop]
            · rw [not_or, ← hsame, ← hreq]
              constructor
              · intro h
                rw [← List.take_append_drop L new] at h
                exact List.append_inj h hlen
              · rintro ⟨rfl, rfl⟩
                exact List.take_append_drop L new
        · -- the old file ends in the segment, and the line number goes past its end
          have hdrop : old.drop L = [] := List.drop_eq_nil_of_le (by omega)
          have htake : old.take L = old := List.take_of_length_le (by omega)
          have hlast : ¬ Spoils L diff (n + L) (old.drop L) (new.drop L) := spoils_nil (.inl hdrop)
          obtain ⟨m, rfl⟩ : ∃ m, fuel = m + 1 := ⟨fuel - 1, by omega⟩
          rw [hdrop, List.append_nil] at hrest'
          rw [htake] at hp'
          by_cases hend : new.drop L = []
          · have hno : ¬ Overrun L old new := fun h => (overrun_short (by omega) ho).mp h hend
            have htake' : new.take L = new := by
              rw [List.drop_eq_nil_iff] at hend
              exact List.take_of_length_le hend
            have hstop : segments L diff (m + 1) (n + L) (old.drop L) (new.drop L) =
                some (List.flatten []) := by
              rw [segments, if_pos ⟨hdrop, hend⟩]
              rfl
            refine ⟨ls' ++ [], segments_step ho hn hall hstop, by simpa using hended,
              fun h => absurd h hno, fun _ => ⟨b', ?_, by rw [hlen, htake'], ?_⟩⟩
            · rw [List.append_nil, hg', ← hout, ← hrest']
              rfl
            · rw [or_iff_left hlast, ← hsame, htake']
          · have hbad : Overrun L old new := (overrun_short (by omega) ho).mpr hend
            obtain ⟨ls₂, hls₂, he₂, hrun, -⟩ := addgen_run (n := n + L) (good_drop (L := L) hnew)
            have hstop : segments L diff (m + 1) (n + L) (old.drop L) (new.drop L) =
                some ls₂.flatten := by
              rw [segments, if_neg (fun h => hend h.2), if_pos hdrop, hls₂]
            refine ⟨ls' ++ ls₂, segments_step ho hn hall hstop, ?_, fun _ => ?_,
              fun h => absurd hbad h⟩
            · intro l hl
              rcases List.mem_append.mp hl with hl | hl
              · exact hended l hl
              · exact he₂ l hl
            · rw [run_append, hg']
              simp only [Option.bind_some]
              rw [hrun g' (by rw [hrest']; omega)]
              rfl

/- How many lines at the beginning are equal. -/
def common (old new : List Text) : Nat := (List.takeWhile₂ (· = ·) old new).1.length

theorem common_step (x y : Text) (old new : List Text) :
    common (x :: old) (y :: new) = if x = y then common old new + 1 else 0 := by
  rw [common, List.takeWhile₂]
  by_cases h : x = y
  · simp [h, common]
  · simp [h]

theorem common_nil {old new : List Text} (h : old = [] ∨ new = []) : common old new = 0 := by
  rcases h with rfl | rfl
  · cases new <;> rfl
  · cases old <;> rfl

theorem skipEqual_spec (k : Nat) (old new : List Text) :
    skipEqual k old new =
      (k + common old new, old.drop (common old new), new.drop (common old new)) := by
  induction old generalizing k new with
  | nil =>
    rw [common_nil (.inl rfl)]
    cases new <;> rfl
  | cons x old ih =>
    cases new with
    | nil =>
      rw [common_nil (.inr rfl)]
      rfl
    | cons y new =>
      rw [skipEqual, common_step]
      split
      · rw [ih]
        simp only [List.drop_succ_cons, Nat.add_assoc, Nat.add_comm 1]
      · rfl

theorem common_take (old new : List Text) :
    old.take (common old new) = new.take (common old new) := by
  induction old generalizing new with
  | nil =>
    rw [common_nil (.inl rfl)]
    rfl
  | cons x old ih =>
    cases new with
    | nil =>
      rw [common_nil (.inr rfl)]
      rfl
    | cons y new =>
      rw [common_step]
      split
      · rename_i h
        rw [h, List.take_succ_cons, List.take_succ_cons, ih]
      · rfl

theorem common_le (old new : List Text) : common old new ≤ old.length := by
  induction old generalizing new with
  | nil =>
    rw [common_nil (.inl rfl)]
    exact Nat.zero_le _
  | cons x old ih =>
    cases new with
    | nil =>
      rw [common_nil (.inr rfl)]
      exact Nat.zero_le _
    | cons y new =>
      rw [common_step]
      split
      · exact Nat.succ_le_succ (ih new)
      · omega

/-- The listing names lines that exist and makes the new file, unless the old file ends inside a
segment with more of the new one to come, or a line is spoilt at the end of the buffer. -/
theorem bdiff_makes_iff (seglim : Nat) (diff : List Text → List Text → Text) (old new : List Text)
    (hL : 1 ≤ seglim) (hold : ∀ x ∈ old, Good x) (hnew : ∀ x ∈ new, Good x)
    (hlists : Lists seglim diff (old.drop (common old new)) (new.drop (common old new))) :
    (∃ out, bdiff seglim diff old new = some out ∧ Patch.apply false out old = some new) ↔
      ¬ Overrun seglim (old.drop (common old new)) (new.drop (common old new)) ∧
      ¬ Spoils seglim diff (common old new) (old.drop (common old new))
        (new.drop (common old new)) := by
  have hpos : (start old).pos + (old.take (common old new)).length = common old new := by
    rw [List.length_take, Nat.min_eq_left (common_le old new)]
    exact Nat.zero_add _
  obtain ⟨ls, hls, he, hbad, hgood⟩ := segments_spec hL (Nat.lt_succ_self _) (good_drop hold)
    (good_drop hnew) hlists
    (show (start old).rest = old.take (common old new) ++ _ from (List.take_append_drop _ _).symm)
    hpos
  have hout : bdiff seglim diff old new = some ls.flatten := by
    rw [bdiff, skipEqual_spec]
    simp only [Nat.zero_add]
    exact hls
  have hmade : Patch.apply false ls.flatten old =
      (run false (start old) ls).bind (finish false) := by
    have hl := lines_flatten he []
    rw [List.append_nil] at hl
    rw [Patch.apply, hl]
    simp [lines]
  rw [hout]
  simp only [Option.some.injEq, exists_eq_left', hmade]
  by_cases hb : Overrun seglim (old.drop (common old new)) (new.drop (common old new))
  · rw [hbad hb]
    exact iff_of_false (by simp) fun h => h.1 hb
  · obtain ⟨r, hr, -, hreq⟩ := hgood hb
    rw [hr, ← hreq]
    simp only [hb, not_false_iff, true_and, Option.some.injEq]
    have hstart : (start old).out = [] := rfl
    rw [hstart, List.nil_append, common_take]
    constructor
    · intro h
      apply List.append_cancel_left (h.trans (List.take_append_drop _ new).symm)
    · rintro rfl
      exact List.take_append_drop _ new

/- "1c1,2", "< a", "---", "> b", "> c". -/
def changeListing : Text :=
  [49, 99, 49, 44, 50, 10, 60, 32, 97, 10, 45, 45, 45, 10, 62, 32, 98, 10, 62, 32, 99, 10]

theorem good_letter {c : Nat} (hc : 97 ≤ c) : Good [c, newline] := by
  refine ⟨isLine_append (b := [c]) ?_ ?_, by simp [BUFSIZ]⟩
  · simp only [List.mem_singleton, newline]
    omega
  · simp only [List.mem_singleton]
    omega

theorem changeListing_lists {new : List Text} (h : new.take 2 = [[98, newline], [99, newline]]) :
    Lists 2 (fun _ _ => changeListing) [[97, newline]] new := by
  intro k hk _
  obtain rfl : k = 0 := by
    simp only [List.length_singleton] at hk
    omega
  rw [segment_zero, segment_zero, h]
  refine ⟨by decide, fun l hl _ => ?_⟩
  have hshort : ∀ l ∈ lines changeListing, l.length < 1024 := by decide
  exact hshort l hl

theorem one_segment_made :
    ∃ out, bdiff 2 (fun _ _ => changeListing) [[97, newline]] [[98, newline], [99, newline]] =
      some out ∧ Patch.apply false out [[97, newline]] = some [[98, newline], [99, newline]] := by
  refine (bdiff_makes_iff 2 (fun _ _ => changeListing) [[97, newline]]
    [[98, newline], [99, newline]] (by decide) ?_ ?_ (changeListing_lists rfl)).mpr ⟨?_, ?_⟩
  · simpa using good_letter (c := 97) (by decide)
  · simpa using ⟨good_letter (c := 98) (by decide), good_letter (c := 99) (by decide)⟩
  · rintro ⟨-, h⟩
    exact absurd h (by decide)
  · rintro ⟨k, hk, -, hne, -⟩
    have hk' : k * 2 < 1 := hk
    have hc : common [[97, newline]] [[98, newline], [99, newline]] = 0 := by decide
    rw [hc] at hne
    omega

/- The old file has one line, and the second segment of the new one is said to come after line 2. -/
theorem missing_line_named :
    ¬ ∀ (seglim : Nat) (diff : List Text → List Text → Text) (old new : List Text), 1 ≤ seglim →
      (∀ x ∈ old, Good x) → (∀ x ∈ new, Good x) →
      Lists seglim diff (old.drop (common old new)) (new.drop (common old new)) →
      ∃ out, bdiff seglim diff old new = some out ∧ Patch.apply false out old = some new := by
  intro h
  obtain ⟨out, hout, hmade⟩ := h 2 (fun _ _ => changeListing) [[97, newline]]
    [[98, newline], [99, newline], [100, newline]] (by decide)
    (by simpa using good_letter (c := 97) (by decide))
    (by simpa using ⟨good_letter (c := 98) (by decide), good_letter (c := 99) (by decide),
      good_letter (c := 100) (by decide)⟩)
    (changeListing_lists rfl)
  have hrun : bdiff 2 (fun _ _ => changeListing) [[97, newline]]
      [[98, newline], [99, newline], [100, newline]] =
      some (changeListing ++ [50, 97, 51, 44, 51, 10, 62, 32, 100, 10]) := by decide +kernel
  rw [hrun] at hout
  obtain rfl := Option.some.inj hout
  exact absurd hmade (by decide +kernel)

end Svr32.Bdiff
