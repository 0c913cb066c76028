import Svr32.Diff.Check

/-! check over the whole of both files: the matches that are left, and the offsets of the ends of
the lines. -/
namespace Svr32.Diff
open Svr32.Lib

/- The lines of a file: each but the last has its newline. -/
def Rows : List Text → Prop
  | [] => True
  | l :: ls => Tail ls.flatten l ∧ Rows ls

/- The offsets of the ends of lines that begin at `ct`. -/
def ends (ct : Nat) : List Text → List Nat
  | [] => []
  | l :: ls => (ct + l.length) :: ends (ct + l.length) ls

theorem ends_length (ct : Nat) (ls : List Text) : (ends ct ls).length = ls.length := by
  induction ls generalizing ct with
  | nil => rfl
  | cons l ls ih => rw [ends, List.length_cons, ih, List.length_cons]

theorem ends_append (ct : Nat) (ls ms : List Text) :
    ends ct (ls ++ ms) = ends ct ls ++ ends (ct + ls.flatten.length) ms := by
  induction ls generalizing ct with
  | nil => rfl
  | cons l ls ih =>
    rw [List.cons_append, ends, ends, ih, List.cons_append, List.flatten_cons, List.length_append,
      Nat.add_assoc]

theorem ends_get (ct : Nat) (ls : List Text) (i : Nat) (hi : i ≤ ls.length) :
    (ct :: ends ct ls)[i]? = some (ct + (ls.take i).flatten.length) := by
  induction ls generalizing ct i with
  | nil =>
    have hz : i = 0 := Nat.le_zero.mp hi
    rw [hz]
    rfl
  | cons l ls ih =>
    cases i with
    | zero => rfl
    | succ i =>
      rw [ends, List.getElem?_cons_succ, ih _ i (Nat.le_of_succ_le_succ hi), List.take_succ_cons,
        List.flatten_cons, List.length_append, Nat.add_assoc]

theorem Rows.drop {ls : List Text} (h : Rows ls) (n : Nat) : Rows (ls.drop n) := by
  induction n generalizing ls with
  | zero => exact h
  | succ n ih =>
    cases ls with
    | nil => exact h
    | cons l ls => exact ih h.2

theorem rows_lines (f : Text) : Rows (lines f) := by
  induction f with
  | nil => trivial
  | cons c f ih =>
    rw [lines]
    by_cases hc : c = newline
    · rw [if_pos hc]
      exact ⟨if_pos rfl |>.mpr rfl, ih⟩
    · rw [if_neg hc]
      cases hl : lines f with
      | nil => exact ⟨(if_neg hc).mpr rfl, trivial⟩
      | cons l ls =>
        rw [hl] at ih
        exact ⟨(if_neg hc).mpr ih.1, ih.2⟩

theorem skips_length (n : Nat) (g : Text) (ct : Nat) : (skips n g ct).1.length = n := by
  induction n generalizing g ct with
  | zero => rfl
  | succ n ih =>
    rw [skips]
    exact congrArg (· + 1) (ih _ _)

/-- The lines that are skipped. -/
theorem skips_spec {ms : List Text} (h : Rows ms) (n : Nat) (hn : n ≤ ms.length) (ct : Nat) :
    (skips n ms.flatten ct).1.length = n ∧
    ((skips n ms.flatten ct).1 = ends ct (ms.take n) ↔ ∀ m ∈ ms.take n, SkipsAll m) ∧
    ((∀ m ∈ ms.take n, SkipsAll m) →
      (skips n ms.flatten ct).2 = ((ms.drop n).flatten, ct + (ms.take n).flatten.length)) := by
  induction n generalizing ms ct with
  | zero => exact ⟨rfl, ⟨fun _ => by simp, fun _ => rfl⟩, fun _ => rfl⟩
  | succ n ih =>
    cases ms with
    | nil => exact absurd hn (Nat.not_succ_le_zero n)
    | cons m ms =>
      obtain ⟨hcount, hrest⟩ := skipline_spec h.1
      rw [skips, List.take_succ_cons, List.flatten_cons, ends]
      simp only [List.length_cons, List.forall_mem_cons]
      by_cases hm : SkipsAll m
      · rw [hcount.mpr hm, hrest hm]
        obtain ⟨hlen, hends, hleft⟩ := ih h.2 (Nat.le_of_succ_le_succ hn) (ct + m.length)
        refine ⟨congrArg (· + 1) hlen, ?_, ?_⟩
        · rw [← hends, List.cons.injEq]
          exact ⟨fun heq => ⟨hm, heq.2⟩, fun heq => ⟨rfl, heq.2⟩⟩
        · rintro ⟨-, hall⟩
          change (skips n ms.flatten (ct + m.length)).2 = _
          rw [hleft hall, List.drop_succ_cons, List.flatten_cons, List.length_append, Nat.add_assoc]
      · refine ⟨congrArg (· + 1) (skips_length n _ _), ?_, fun hall => absurd hall.1 hm⟩
        constructor
        · intro heq
          have hhead := (List.cons.inj heq).1
          exact absurd (hcount.mp (by omega)) hm
        · exact fun hall => absurd hall.1 hm

/-- The entries of J that are not zero go up from `j`, and are of the first `n` lines. -/
def Rises (n : Nat) : Nat → List Nat → Prop
  | _, [] => True
  | j, J :: Js => if J = 0 then Rises n j Js else j ≤ J ∧ J ≤ n ∧ Rises n (J + 1) Js

/- An entry of J after check: `new` has the lines of the new file. -/
def keep (bflag : Bool) (new : List Text) (J : Nat) (l : Text) : Nat :=
  if J ≠ 0 ∧ Same bflag l (new.getD (J - 1) []) then J else 0

/-- What skipline passes is always all that is left of the line; `j` is the first line of the new
file that is looked at. -/
def FitsFrom (bflag : Bool) (new : List Text) : Nat → List Nat → List Text → Prop
  | j, J :: Js, l :: ls =>
    if J = 0 then SkipsAll l ∧ FitsFrom bflag new j Js ls
    else (∀ m ∈ (new.drop (j - 1)).take (J - j), SkipsAll m) ∧
      (∃ m, new[J - 1]? = some m ∧ BothReach bflag l m) ∧ FitsFrom bflag new (J + 1) Js ls
  | j, _, _ => ∀ m ∈ new.drop (j - 1), SkipsAll m

theorem blanks_length (c : Option Nat) (f : Text) (ct : Nat) :
    (blanks c f ct).2.1.length ≤ f.length := by
  induction f generalizing c ct with
  | nil =>
    rw [blanks]
    split <;> exact Nat.le_refl _
  | cons d f ih =>
    rw [blanks]
    split
    · exact Nat.le_refl _
    · split
      · exact Nat.le_succ_of_le (ih (some d) (ct + 1))
      · exact Nat.le_succ _

/-- A turn takes a character, or is at the end of the file. -/
theorem side_length (both : Bool) (f : Text) (ct : Nat) :
    (side both f ct).1 = none ∨ (side both f ct).2.1.length < f.length := by
  cases f with
  | nil =>
    left
    cases both <;> rfl
  | cons c f =>
    right
    cases both with
    | false => exact Nat.lt_succ_self _
    | true => exact Nat.lt_succ_of_le (blanks_length (some c) f (ct + 1))

/-- The turns over any two files end. -/
theorem inStep_total (bflag : Bool) (fuel : Nat) (f g : Text) (ctold ctnew : Nat)
    (hfuel : f.length < fuel) : ∃ r, inStep bflag fuel f g ctold ctnew = some r := by
  induction fuel generalizing f g ctold ctnew with
  | zero => exact absurd hfuel (Nat.not_lt_zero _)
  | succ fuel ih =>
    obtain ⟨⟨c, f', ct⟩, hf⟩ : ∃ r, side (bothBlank bflag f g) f ctold = r := ⟨_, rfl⟩
    obtain ⟨⟨d, g', ct'⟩, hg⟩ : ∃ r, side (bothBlank bflag f g) g ctnew = r := ⟨_, rfl⟩
    have hlen := side_length (bothBlank bflag f g) f ctold
    rw [hf] at hlen
    rw [inStep, hf, hg]
    simp only
    by_cases hcd : c = d
    · rw [if_neg (not_not_intro hcd)]
      by_cases hstop : c = some newline ∨ c = none
      · exact ⟨_, if_pos hstop⟩
      · rw [if_neg hstop]
        have hlt : f'.length < f.length := hlen.resolve_left fun hn => hstop (Or.inr hn)
        exact ih f' g' ct ct' (by omega)
    · exact ⟨_, if_pos hcd⟩

theorem checkLoop_total (bflag : Bool) (len1 : Nat) (Js : List Nat) (j : Nat) (f g : Text)
    (ctold ctnew : Nat) : ∃ r, checkLoop bflag len1 Js j f g ctold ctnew = some r := by
  induction Js generalizing j f g ctold ctnew with
  | nil => exact ⟨_, rfl⟩
  | cons J Js ih =>
    rw [checkLoop]
    by_cases hJ : J = 0
    · obtain ⟨r, hr⟩ := ih j (skipline 1 f).2 g (ctold + (skipline 1 f).1) ctnew
      simp only [if_pos hJ, hr, Option.bind_eq_bind, Option.bind_some]
      exact ⟨_, rfl⟩
    · obtain ⟨⟨ix, g', ct⟩, hs⟩ : ∃ r, skips (J - j) g ctnew = r := ⟨_, rfl⟩
      obtain ⟨⟨same, ⟨f', ctold'⟩, g'', ctnew'⟩, hin⟩ :=
        inStep_total bflag (f.length + 1) f g' ctold ct (Nat.lt_succ_self _)
      obtain ⟨r, hr⟩ := ih (max j J + 1) f' g'' ctold' ctnew'
      rw [if_neg hJ, hs]
      simp only [hin, Option.bind_eq_bind, Option.bind_some, hr]
      exact ⟨_, rfl⟩

/-- What check leaves is right: matches of lines that are the same, and the ends of the lines. -/
structure RightFrom (bflag : Bool) (new : List Text) (Js : List Nat) (ls ms : List Text)
    (ctold ctnew : Nat) (r : Checked) : Prop where
  J : r.J = List.zipWith (keep bflag new) Js ls
  ixold : r.ixold = ends ctold ls
  ixnew : r.ixnew = ends ctnew ms

theorem checkLoop_iff {bflag : Bool} {new : List Text} {Js : List Nat} {ls : List Text} {j : Nat}
    (hls : Rows ls) (hnew : Rows new) (hlen : Js.length = ls.length) (hj : 1 ≤ j)
    (hj' : j ≤ new.length + 1) (hJ : Rises new.length j Js) (ctold ctnew : Nat) {r : Checked}
    (hr : checkLoop bflag new.length Js j ls.flatten (new.drop (j - 1)).flatten ctold ctnew =
      some r) :
    RightFrom bflag new Js ls (new.drop (j - 1)) ctold ctnew r ↔ FitsFrom bflag new j Js ls := by
  induction Js generalizing ls j ctold ctnew r with
  | nil =>
    have hnil : ls = [] := List.length_eq_zero_iff.mp hlen.symm
    subst hnil
    rw [checkLoop] at hr
    obtain rfl := Option.some.inj hr
    have hn : new.length + 1 - j ≤ (new.drop (j - 1)).length := by
      rw [List.length_drop]
      omega
    obtain ⟨-, hends, -⟩ := skips_spec (hnew.drop (j - 1)) (new.length + 1 - j) hn ctnew
    have hall : (new.drop (j - 1)).take (new.length + 1 - j) = new.drop (j - 1) := by
      apply List.take_of_length_le
      rw [List.length_drop]
      omega
    rw [hall] at hends
    rw [FitsFrom, ← hends]
    · exact ⟨fun h => h.ixnew, fun h => ⟨rfl, rfl, h⟩⟩
    · nofun
  | cons J Js ih =>
    cases ls with
    | nil => exact absurd hlen (Nat.succ_ne_zero _)
    | cons l ls =>
      have hlen' : Js.length = ls.length := Nat.succ.inj hlen
      rw [checkLoop] at hr
      rw [FitsFrom]
      by_cases hz : J = 0
      · rw [if_pos hz] at hr ⊢
        rw [Rises, if_pos hz] at hJ
        obtain ⟨hcount, hrest⟩ := skipline_spec hls.1
        rw [List.flatten_cons] at hr
        obtain ⟨r', hr', hreq⟩ := Option.bind_eq_some_iff.mp hr
        obtain rfl := Option.some.inj hreq
        by_cases hl : SkipsAll l
        · rw [hcount.mpr hl, hrest hl] at hr'
          have hiff := ih hls.2 hlen' hj hj' hJ (ctold + l.length) ctnew hr'
          rw [← hiff]
          constructor
          · rintro ⟨h₁, h₂, h₃⟩
            refine ⟨hl, (List.cons.inj h₁).2, ?_, h₃⟩
            exact (List.cons.inj h₂).2
          · rintro ⟨-, h₁, h₂, h₃⟩
            refine ⟨?_, ?_, h₃⟩
            · change 0 :: r'.J = keep bflag new J l :: _
              rw [h₁, keep, if_neg (fun hk => hk.1 hz)]
            · change _ :: r'.ixold = _ :: _
              rw [h₂, hcount.mpr hl]
        · constructor
          · rintro ⟨-, h₂, -⟩
            have hhead := (List.cons.inj h₂).1
            exact absurd (hcount.mp (by omega)) hl
          · exact fun h => absurd h.1 hl
      · rw [if_neg hz] at hr ⊢
        rw [Rises, if_neg hz] at hJ
        obtain ⟨hjJ, hJn, hJs⟩ := hJ
        obtain ⟨m, hm⟩ : ∃ m, new[J - 1]? = some m :=
          ⟨_, List.getElem?_eq_getElem (by omega : J - 1 < new.length)⟩
        -- the lines before the mate, the mate and the lines behind it
        have hdrop : (new.drop (j - 1)).drop (J - j) = m :: new.drop J := by
          obtain ⟨hlt, hget⟩ := List.getElem?_eq_some_iff.mp hm
          have hsum : j - 1 + (J - j) = J - 1 := by omega
          have hsucc : J - 1 + 1 = J := by omega
          rw [List.drop_drop, hsum, List.drop_eq_getElem_cons hlt, hget, hsucc]
        have hsplit : new.drop (j - 1) = (new.drop (j - 1)).take (J - j) ++ m :: new.drop J := by
          rw [← hdrop, List.take_append_drop]
        have hn : J - j ≤ (new.drop (j - 1)).length := by
          rw [List.length_drop]
          omega
        obtain ⟨hixlen, hends, hleft⟩ := skips_spec (hnew.drop (j - 1)) (J - j) hn ctnew
        obtain ⟨⟨ix, g, ct⟩, hs⟩ : ∃ s, skips (J - j) (new.drop (j - 1)).flatten ctnew = s :=
          ⟨_, rfl⟩
        rw [hs] at hr hixlen hends hleft
        obtain ⟨⟨same, ⟨F, X⟩, G, Y⟩, hin, hr₂⟩ := Option.bind_eq_some_iff.mp hr
        obtain ⟨r', hr', hreq⟩ := Option.bind_eq_some_iff.mp hr₂
        obtain rfl := Option.some.inj hreq
        have hright : RightFrom bflag new (J :: Js) (l :: ls) (new.drop (j - 1)) ctold ctnew
              ⟨(if same then J else 0) :: r'.J, X :: r'.ixold, ix ++ Y :: r'.ixnew⟩ ↔
            ((if same then J else 0) = keep bflag new J l ∧ X = ctold + l.length ∧
              ix = ends ctnew ((new.drop (j - 1)).take (J - j)) ∧
              Y = ctnew + ((new.drop (j - 1)).take (J - j)).flatten.length + m.length) ∧
            r'.J = List.zipWith (keep bflag new) Js ls ∧ r'.ixold = ends (ctold + l.length) ls ∧
            r'.ixnew = ends (ctnew + ((new.drop (j - 1)).take (J - j)).flatten.length + m.length)
              (new.drop J) := by
          constructor
          · rintro ⟨h₁, h₂, h₃⟩
            change _ :: _ = _ :: _ at h₁ h₂
            rw [hsplit, ends_append] at h₃
            have hixlen' : ix.length
                = (ends ctnew ((new.drop (j - 1)).take (J - j))).length := by
              rw [ends_length, List.length_take, Nat.min_eq_left hn]
              exact hixlen
            obtain ⟨hix, htail⟩ := List.append_inj h₃ hixlen'
            obtain ⟨hJ₁, hJ₂⟩ := List.cons.inj h₁
            obtain ⟨hX₁, hX₂⟩ := List.cons.inj h₂
            obtain ⟨hY₁, hY₂⟩ := List.cons.inj htail
            exact ⟨⟨hJ₁, hX₁, hix, hY₁⟩, hJ₂, hX₂, hY₂⟩
          · rintro ⟨⟨hJ₁, hX₁, hix, hY₁⟩, hJ₂, hX₂, hY₂⟩
            refine ⟨?_, ?_, ?_⟩
            · change _ :: _ = _ :: _
              rw [hJ₁, hJ₂]
            · change _ :: _ = _ :: _
              rw [hX₁, hX₂]
            · rw [hsplit, ends_append]
              change ix ++ Y :: _ = _ ++ _ :: _
              rw [← hix, hY₁, hY₂]
        rw [hright]
        by_cases hskip : ∀ m ∈ (new.drop (j - 1)).take (J - j), SkipsAll m
        · have hpair := hleft hskip
          rw [hdrop, List.flatten_cons] at hpair
          obtain ⟨rfl, rfl⟩ := Prod.mk.inj hpair
          have htail : Tail (new.drop J).flatten m := by
            have hrow := (hnew.drop (j - 1)).drop (J - j)
            rw [hdrop] at hrow
            exact hrow.1
          have hfuel : l.length < (l :: ls).flatten.length + 1 := by
            rw [List.flatten_cons, List.length_append]
            omega
          obtain ⟨same', F', X', G', Y', hin', hcount, hreach⟩ :=
            mated_spec bflag hls.1 htail hfuel ctold
              (ctnew + ((new.drop (j - 1)).take (J - j)).flatten.length)
          rw [List.flatten_cons] at hin
          rw [List.flatten_cons] at hin'
          rw [hin'] at hin
          cases hin
          have hmate : (∃ m', new[J - 1]? = some m' ∧ BothReach bflag l m') ↔
              BothReach bflag l m := by
            rw [hm]
            constructor
            · rintro ⟨m', hm', hb⟩
              rw [Option.some.inj hm']
              exact hb
            · exact fun hb => ⟨m, rfl, hb⟩
          rw [hmate]
          by_cases hb : BothReach bflag l m
          · obtain ⟨rfl, rfl, hsame⟩ := hreach hb
            obtain ⟨hX, hY⟩ := hcount.mpr hb
            have hkeep : (if same then J else 0) = keep bflag new J l := by
              have hget : new.getD (J - 1) [] = m := by
                rw [List.getD_eq_getElem?_getD, hm]
                rfl
              unfold keep
              rw [hget]
              by_cases hsm : Same bflag l m
              · rw [if_pos (hsame.mpr hsm), if_pos ⟨hz, hsm⟩]
              · rw [if_neg (fun hs => hsm (hsame.mp hs)), if_neg (fun hk => hsm hk.2)]
            have hmax : max j J + 1 = J + 1 := by rw [Nat.max_eq_right hjJ]
            rw [hmax, hX, hY] at hr'
            have hiff := ih hls.2 hlen' (Nat.succ_le_succ (Nat.zero_le J)) (Nat.succ_le_succ hJn)
              hJs _ _ hr'
            rw [← hiff]
            constructor
            · rintro ⟨-, h₁, h₂, h₃⟩
              exact ⟨hskip, hb, h₁, h₂, h₃⟩
            · rintro ⟨-, -, h₁, h₂, h₃⟩
              exact ⟨⟨hkeep, hX, hends.mpr hskip, hY⟩, h₁, h₂, h₃⟩
          · constructor
            · rintro ⟨⟨-, hX, -, hY⟩, -⟩
              exact absurd (hcount.mp ⟨hX, hY⟩) hb
            · exact fun h => absurd h.2.1 hb
        · constructor
          · rintro ⟨⟨-, -, hix, -⟩, -⟩
            exact absurd (hends.mp hix) hskip
          · exact fun h => absurd h.1 hskip

/-- The parts that skipline is to pass have no NUL before their end and are no end of a file
without newline: a line that has no mate, and what is behind the first difference of two mates. -/
structure Fits (bflag : Bool) (old new : List Text) (J : List Nat) : Prop where
  unmatedOld : ∀ (i : Nat) (l : Text), J[i]? = some 0 → old[i]? = some l → SkipsAll l
  unmatedNew : ∀ (k : Nat) (m : Text), new[k]? = some m → k + 1 ∉ J → SkipsAll m
  mated : ∀ (i k : Nat) (l m : Text), J[i]? = some (k + 1) → old[i]? = some l →
    new[k]? = some m → BothReach bflag l m

theorem forall_mem_drop {α : Type} (l : List α) (n : Nat) (P : α → Prop) :
    (∀ x ∈ l.drop n, P x) ↔ ∀ (k : Nat) (x : α), n ≤ k → l[k]? = some x → P x := by
  constructor
  · intro h k x hk hx
    apply h
    apply List.mem_iff_getElem?.mpr
    refine ⟨k - n, ?_⟩
    rw [List.getElem?_drop, Nat.add_sub_cancel' hk, hx]
  · intro h x hx
    obtain ⟨k, hk⟩ := List.mem_iff_getElem?.mp hx
    rw [List.getElem?_drop] at hk
    exact h (n + k) x (Nat.le_add_right n k) hk

theorem forall_mem_take_drop {α : Type} (l : List α) (n t : Nat) (P : α → Prop) :
    (∀ x ∈ (l.drop n).take t, P x) ↔
      ∀ (k : Nat) (x : α), n ≤ k → k < n + t → l[k]? = some x → P x := by
  constructor
  · intro h k x hk hlt hx
    apply h
    apply List.mem_iff_getElem?.mpr
    refine ⟨k - n, ?_⟩
    rw [List.getElem?_take, if_pos (by omega), List.getElem?_drop, Nat.add_sub_cancel' hk, hx]
  · intro h x hx
    obtain ⟨k, hk⟩ := List.mem_iff_getElem?.mp hx
    have hlt : k < t := by
      by_contra hge
      rw [List.getElem?_take, if_neg hge] at hk
      exact absurd hk (Option.some_ne_none x).symm
    rw [List.getElem?_take, if_pos hlt, List.getElem?_drop] at hk
    exact h (n + k) x (Nat.le_add_right n k) (by omega) hk

theorem Rises.ge {n j : Nat} {Js : List Nat} (h : Rises n j Js) {J : Nat} (hJ : J ∈ Js)
    (hne : J ≠ 0) : j ≤ J := by
  induction Js generalizing j with
  | nil => exact absurd hJ (List.not_mem_nil)
  | cons K Js ih =>
    rw [Rises] at h
    by_cases hK : K = 0
    · rw [if_pos hK] at h
      rcases List.mem_cons.mp hJ with rfl | hJ
      · exact absurd hK hne
      · exact ih h hJ
    · rw [if_neg hK] at h
      rcases List.mem_cons.mp hJ with rfl | hJ
      · exact h.1
      · have hge := ih h.2.2 hJ
        omega

theorem rises_of_sorted {n j : Nat} {Js : List Nat} (hs : (Js.filter (· ≠ 0)).Pairwise (· < ·))
    (hj : ∀ J ∈ Js, J ≠ 0 → j ≤ J) (hn : ∀ J ∈ Js, J ≤ n) : Rises n j Js := by
  induction Js generalizing j with
  | nil => trivial
  | cons J Js ih =>
    rw [Rises]
    have hn' : ∀ K ∈ Js, K ≤ n := fun K hK => hn K (List.mem_cons_of_mem J hK)
    by_cases hJ : J = 0
    · rw [if_pos hJ]
      rw [List.filter_cons_of_neg (by simpa using hJ)] at hs
      exact ih hs (fun K hK => hj K (List.mem_cons_of_mem J hK)) hn'
    · rw [if_neg hJ]
      rw [List.filter_cons_of_pos (by simpa using hJ), List.pairwise_cons] at hs
      refine ⟨hj J (by simp) hJ, hn J (by simp), ih hs.2 ?_ hn'⟩
      intro K hK hne
      exact hs.1 K (List.mem_filter.mpr ⟨hK, by simpa using hne⟩)

theorem fitsFrom_iff {bflag : Bool} {new : List Text} {Js : List Nat} {ls : List Text} {j : Nat}
    (hlen : Js.length = ls.length) (hj : 1 ≤ j) (hJ : Rises new.length j Js) :
    FitsFrom bflag new j Js ls ↔
      (∀ (i : Nat) (l : Text), Js[i]? = some 0 → ls[i]? = some l → SkipsAll l) ∧
      (∀ (k : Nat) (m : Text), j ≤ k + 1 → new[k]? = some m → k + 1 ∉ Js → SkipsAll m) ∧
      ∀ (i k : Nat) (l m : Text), Js[i]? = some (k + 1) → ls[i]? = some l → new[k]? = some m →
        BothReach bflag l m := by
  induction Js generalizing ls j with
  | nil =>
    obtain rfl := List.length_eq_zero_iff.mp hlen.symm
    rw [FitsFrom, forall_mem_drop]
    · constructor
      · intro h
        exact ⟨nofun, fun k m hk hm _ => h k m (by omega) hm, nofun⟩
      · rintro ⟨-, h, -⟩ k m hk hm
        exact h k m (by omega) hm (List.not_mem_nil)
    · nofun
  | cons J Js ih =>
    cases ls with
    | nil => exact absurd hlen (Nat.succ_ne_zero _)
    | cons l ls =>
      have hlen' : Js.length = ls.length := Nat.succ.inj hlen
      rw [FitsFrom]
      rw [Rises] at hJ
      by_cases hz : J = 0
      · rw [if_pos hz] at hJ ⊢
        subst hz
        rw [ih hlen' hj hJ]
        constructor
        · rintro ⟨hl, h₁, h₂, h₃⟩
          refine ⟨?_, ?_, ?_⟩
          · intro i l' hi hl'
            cases i with
            | zero => exact Option.some.inj hl' ▸ hl
            | succ i => exact h₁ i l' hi hl'
          · intro k m hk hm hno
            exact h₂ k m hk hm fun hmem => hno (List.mem_cons_of_mem 0 hmem)
          · intro i k l' m hi hl' hm
            cases i with
            | zero => exact absurd (Option.some.inj hi) (Nat.succ_ne_zero k).symm
            | succ i => exact h₃ i k l' m hi hl' hm
        · rintro ⟨h₁, h₂, h₃⟩
          refine ⟨h₁ 0 l rfl rfl, ?_, ?_, ?_⟩
          · exact fun i l' hi hl' => h₁ (i + 1) l' hi hl'
          · intro k m hk hm hno
            apply h₂ k m hk hm
            intro hmem
            exact (List.mem_cons.mp hmem).elim (Nat.succ_ne_zero k) hno
          · exact fun i k l' m hi hl' hm => h₃ (i + 1) k l' m hi hl' hm
      · rw [if_neg hz] at hJ ⊢
        obtain ⟨hjJ, hJn, hJs⟩ := hJ
        have hJ1 : J - 1 + 1 = J := by omega
        rw [ih hlen' (Nat.succ_le_succ (Nat.zero_le J)) hJs, forall_mem_take_drop]
        constructor
        · rintro ⟨hskip, ⟨m₀, hm₀, hb⟩, h₁, h₂, h₃⟩
          refine ⟨?_, ?_, ?_⟩
          · intro i l' hi hl'
            cases i with
            | zero => exact absurd (Option.some.inj hi) hz
            | succ i => exact h₁ i l' hi hl'
          · intro k m hk hm hno
            rcases Nat.lt_trichotomy (k + 1) J with hlt | heq | hgt
            · exact hskip k m (by omega) (by omega) hm
            · exact absurd (heq ▸ List.mem_cons_self) hno
            · exact h₂ k m hgt hm fun hmem => hno (List.mem_cons_of_mem J hmem)
          · intro i k l' m hi hl' hm
            cases i with
            | zero =>
              have hk : J - 1 = k := by
                have hJk : J = k + 1 := Option.some.inj hi
                omega
              rw [hk, hm] at hm₀
              rw [← Option.some.inj hl', Option.some.inj hm₀]
              exact hb
            | succ i => exact h₃ i k l' m hi hl' hm
        · rintro ⟨h₁, h₂, h₃⟩
          obtain ⟨m₀, hm₀⟩ : ∃ m, new[J - 1]? = some m :=
            ⟨_, List.getElem?_eq_getElem (by omega : J - 1 < new.length)⟩
          refine ⟨?_, ⟨m₀, hm₀, h₃ 0 (J - 1) l m₀ (by rw [hJ1]; rfl) rfl hm₀⟩, ?_, ?_, ?_⟩
          · intro k m hk hlt hm
            apply h₂ k m (by omega) hm
            intro hmem
            rcases List.mem_cons.mp hmem with heq | hmem
            · omega
            · have hge := hJs.ge hmem (Nat.succ_ne_zero k)
              omega
          · exact fun i l' hi hl' => h₁ (i + 1) l' hi hl'
          · intro k m hk hm hno
            apply h₂ k m (by omega) hm
            intro hmem
            rcases List.mem_cons.mp hmem with heq | hmem
            · omega
            · exact hno hmem
          · exact fun i k l' m hi hl' hm => h₃ (i + 1) k l' m hi hl' hm

theorem ends_eq_map (ls : List Text) :
    0 :: ends 0 ls = (List.range (ls.length + 1)).map fun i => (ls.take i).flatten.length := by
  apply List.ext_getElem?
  intro i
  rw [List.getElem?_map]
  rcases Nat.lt_or_ge i (ls.length + 1) with hi | hi
  · rw [ends_get 0 ls i (Nat.le_of_lt_succ hi), List.getElem?_range hi, Nat.zero_add]
    rfl
  · rw [List.getElem?_eq_none (by rw [List.length_cons, ends_length]; exact hi),
      List.getElem?_eq_none (by rw [List.length_range]; exact hi)]
    rfl

/-- check ends. The matches that are left are those of lines that are equal, and the offsets are
those of the ends of the lines, exactly when every part that skipline is to pass ends with the
first NUL or newline in it. -/
theorem check_iff (bflag : Bool) (f g : Text) (J : List Nat) (hlen : J.length = (lines f).length)
    (hrise : (J.filter (· ≠ 0)).Pairwise (· < ·)) (hin : ∀ j ∈ J, j ≤ (lines g).length) :
    ∃ r, check bflag f g J (lines g).length = some r ∧
      (r.J = List.zipWith (keep bflag (lines g)) J (lines f) ∧
        r.ixold = (List.range ((lines f).length + 1)).map
          (fun i => ((lines f).take i).flatten.length) ∧
        r.ixnew = (List.range ((lines g).length + 1)).map
          (fun j => ((lines g).take j).flatten.length) ↔
        Fits bflag (lines f) (lines g) J) := by
  have hJ : Rises (lines g).length 1 J :=
    rises_of_sorted hrise (fun _ _ hne => Nat.one_le_iff_ne_zero.mpr hne) hin
  obtain ⟨r, hr⟩ := checkLoop_total bflag (lines g).length J 1 f g 0 0
  have hiff : RightFrom bflag (lines g) J (lines f) (lines g) 0 0 r ↔
      FitsFrom bflag (lines g) 1 J (lines f) := by
    apply checkLoop_iff (rows_lines f) (rows_lines g) hlen (Nat.le_refl 1) (Nat.le_add_left 1 _) hJ
    rw [flatten_lines, List.drop_zero, flatten_lines, hr]
  have hfits : FitsFrom bflag (lines g) 1 J (lines f) ↔ Fits bflag (lines f) (lines g) J := by
    rw [fitsFrom_iff hlen (Nat.le_refl 1) hJ]
    constructor
    · rintro ⟨h₁, h₂, h₃⟩
      exact ⟨h₁, fun k m hm hno => h₂ k m (Nat.le_add_left 1 k) hm hno, h₃⟩
    · rintro ⟨h₁, h₂, h₃⟩
      exact ⟨h₁, fun k m _ hm hno => h₂ k m hm hno, h₃⟩
  refine ⟨{ r with ixold := 0 :: r.ixold, ixnew := 0 :: r.ixnew }, ?_, ?_⟩
  · rw [check, hr]
    rfl
  · rw [← hfits, ← hiff, ← ends_eq_map, ← ends_eq_map]
    constructor
    · rintro ⟨h₁, h₂, h₃⟩
      exact ⟨h₁, (List.cons.inj h₂).2, (List.cons.inj h₃).2⟩
    · rintro ⟨h₁, h₂, h₃⟩
      exact ⟨h₁, congrArg (0 :: ·) h₂, congrArg (0 :: ·) h₃⟩

/-- Lines that differ by a trailing blank, with -b. -/
theorem check_iff_blank :
    ∃ r, check true [97, 32, 10] [97, 10] [1] 1 = some r ∧ r.J = [1] ∧ r.ixold = [0, 3] ∧
      r.ixnew = [0, 2] := by
  obtain ⟨r, hr, hiff⟩ :=
    check_iff true [97, 32, 10] [97, 10] [1] rfl (by simp) (by simp [lines, newline])
  have hfits : Fits true (lines [97, 32, 10]) (lines [97, 10]) [1] := by
    refine ⟨?_, ?_, ?_⟩
    · rintro (- | i) l hi -
      · exact absurd (Option.some.inj hi) (by decide)
      · cases hi
    · rintro (- | k) m hm hno
      · exact absurd (List.mem_singleton.mpr rfl) hno
      · cases hm
    · rintro (- | i) (- | k) l m hi hl hm
      · cases hl
        cases hm
        exact ⟨Or.inl rfl, Or.inl rfl⟩
      · cases hm
      · cases hi
      · cases hm
  obtain ⟨hJ, hold, hnew⟩ := hiff.mpr hfits
  exact ⟨r, hr, hJ.trans (by decide), hold.trans (by decide), hnew.trans (by decide)⟩

/-- A NUL in a line that has no mate: its end is recorded at the NUL, and the mates behind it are
taken to differ. -/
theorem check_nul :
    lines [97, 0, 98, 10, 99, 10] = [[97, 0, 98, 10], [99, 10]] ∧
    check false [97, 0, 98, 10, 99, 10] [99, 10] [0, 1] 1 = some ⟨[0, 0], [0, 2, 4], [0, 2]⟩ ∧
    List.zipWith (keep false (lines [99, 10])) [0, 1] (lines [97, 0, 98, 10, 99, 10]) = [0, 1] := by
  decide

end Svr32.Diff
