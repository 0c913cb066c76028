import Svr32.Regexp.Program

/-! When advance comes to an end: its loops go along the line and back, and only a starred
back-reference to nothing goes nowhere. -/
namespace Svr32.Regexp
open Svr32.Lib

/- The bytes of a program. -/
def prog : List Item → List UInt8
  | [] => [CCEOF]
  | it :: l => it.op :: (it.args ++ prog l)

theorem bytes_prog (l r : List Item) : bytes l ++ prog r = prog (l.reverse ++ r) := by
  induction l generalizing r with
  | nil => rfl
  | cons it l ih =>
    rw [bytes, List.append_assoc, List.cons_append, List.reverse_cons, List.append_assoc]
    exact ih (it :: r)

/-- The items can follow where `opened` and `closed` are the groups before. -/
inductive Ready : List UInt8 → List UInt8 → List Item → Prop
  | nil {opened closed} : Ready opened closed []
  | simple {opened closed k arg m l} (hk : arg.length = Kind.width k) (hm : m.Ordered)
      (hdeaf : k.takes arg 0 = false) (h : Ready opened closed l) :
      Ready opened closed (.simple k arg m :: l)
  | cdol {opened closed} : Ready opened closed [.cdol]
  | cbra {opened closed g l} (hg : g ∉ opened) (hn : g.toNat < NBRA)
      (h : Ready (g :: opened) closed l) : Ready opened closed (.cbra g :: l)
  | cket {opened closed g l} (hg : g ∈ opened) (hc : g ∉ closed) (hn : g.toNat < NBRA)
      (h : Ready opened (g :: closed) l) : Ready opened closed (.cket g :: l)
  | cback {opened closed g starred l} (hg : g ∈ closed) (h : Ready opened closed l) :
      Ready opened closed (.cback g starred :: l)

theorem Made.ready {l : List Item} {opened closed open' : List UInt8}
    (h : Made l opened closed open') (hdeaf : Deaf l) (hdol : Item.cdol ∉ l) :
    ∀ {r}, Ready opened closed r → Ready [] [] (l.reverse ++ r) := by
  have hrest {it : Item} {l : List Item} (hd : Deaf (it :: l)) : Deaf l :=
    fun k arg m hmem => hd k arg m (List.mem_cons_of_mem _ hmem)
  have htail {it : Item} {l : List Item} (hc : Item.cdol ∉ it :: l) : Item.cdol ∉ l :=
    fun hmem => hc (List.mem_cons_of_mem _ hmem)
  induction h with
  | nil =>
    intro r hr
    exact hr
  | simple m _ hk hm ih =>
    intro r hr
    rw [List.reverse_cons, List.append_assoc]
    exact ih (hrest hdeaf) (htail hdol) (.simple hk hm (hdeaf _ _ _ List.mem_cons_self) hr)
  | cdol =>
    intro r _
    exact absurd List.mem_cons_self hdol
  | @cbra _ opened _ _ h hn ih =>
    intro r hr
    have hof : (UInt8.ofNat opened.length).toNat = opened.length :=
      Nat.mod_eq_of_lt (Nat.lt_trans hn (by decide))
    rw [List.reverse_cons, List.append_assoc]
    exact ih (hrest hdeaf) (htail hdol) (.cbra (h.fresh hn) (by rw [hof]; exact hn) hr)
  | cket h ih =>
    intro r hr
    have hin := (h.mem_iff _).mpr (.inr List.mem_cons_self)
    have hlt := (h.opened_iff _).mp hin
    have hle := h.length_le
    rw [List.reverse_cons, List.append_assoc]
    exact ih (hrest hdeaf) (htail hdol) (.cket hin (fun hc => h.disjoint hc List.mem_cons_self)
      (Nat.lt_of_lt_of_le hlt hle) hr)
  | cback starred _ hg ih =>
    intro r hr
    rw [List.reverse_cons, List.append_assoc]
    exact ih (hrest hdeaf) (htail hdol) (.cback hg hr)

/- The least number of characters a simple RE takes. -/
def Mode.least : Mode → Nat
  | .once => 1
  | .star => 0
  | .rnge lo _ => lo.toNat

/-- No starred back-reference to a group that can match nothing, where one can get to it. The groups
have begun at `start` and are of lengths `len`, when everything takes as little as it can. -/
def Solid : Nat → (UInt8 → Nat) → (UInt8 → Nat) → List Item → Prop
  | _, _, _, [] => True
  | m, start, len, .simple k arg md :: l =>
    (md.least = 0 ∨ ∃ c, k.takes arg c = true) → Solid (m + md.least) start len l
  | m, start, len, .cdol :: l => Solid m start len l
  | m, start, len, .cbra g :: l => Solid m (Function.update start g m) len l
  | m, start, len, .cket g :: l => Solid m start (Function.update len g (m - start g)) l
  | m, start, len, .cback g false :: l => Solid (m + len g) start len l
  | m, start, len, .cback g true :: l => 0 < len g ∧ Solid m start len l

section lines
variable {str : List UInt8} {p : Int} {takes : UInt8 → Bool}

theorem deref_end (str : List UInt8) : deref str str.length = some 0 := by
  rw [deref, if_neg (by omega), Int.toNat_natCast, List.getElem?_append_right (Nat.le_refl _),
    Nat.sub_self]
  rfl

theorem deref_inside (hstr : ∀ x ∈ str, x ≠ 0) (h0 : 0 ≤ p) (hlt : p < str.length) :
    ∃ c, deref str p = some c ∧ c ≠ 0 := by
  have hk : p.toNat < str.length := by omega
  refine ⟨str[p.toNat], ?_, hstr _ (List.getElem_mem hk)⟩
  rw [deref, if_neg (by omega), List.getElem?_append_left hk, List.getElem?_eq_getElem hk]

/-- A character that is taken is before the end. -/
theorem deref_spec (hstr : ∀ x ∈ str, x ≠ 0) (h0 : 0 ≤ p) (hle : p ≤ str.length) :
    ∃ c, deref str p = some c ∧ (c ≠ 0 ↔ p < str.length) := by
  by_cases hlt : p < str.length
  · obtain ⟨c, hc, hne⟩ := deref_inside hstr h0 hlt
    exact ⟨c, hc, fun _ => hlt, fun _ => hne⟩
  · have he : p = str.length := by omega
    exact ⟨0, he ▸ deref_end str, fun h => absurd rfl h, fun h => absurd h hlt⟩

theorem taken_lt {c : UInt8} (hdeaf : takes 0 = false) (hlt : c ≠ 0 ↔ p < str.length)
    (ht : takes c = true) : p < str.length :=
  hlt.mp fun h => Bool.false_ne_true (hdeaf.symm.trans (h ▸ ht))

theorem skip_range (hstr : ∀ x ∈ str, x ≠ 0) (hdeaf : takes 0 = false) {fuel : Nat} {q : Int}
    (h0 : 0 ≤ p) (hle : p ≤ str.length) (h : skip str takes fuel p = some q) :
    p < q ∧ q ≤ str.length + 1 := by
  induction fuel generalizing p with
  | zero => cases h
  | succ fuel ih =>
    obtain ⟨c, hc, hlt⟩ := deref_spec hstr h0 hle
    rw [skip, hc, Option.bind_eq_bind, Option.bind_some] at h
    split at h
    · next ht =>
      have hin := taken_lt hdeaf hlt ht
      have hrange := ih (by omega) (by omega) h
      omega
    · cases h
      omega

theorem skip_ends (hstr : ∀ x ∈ str, x ≠ 0) (hdeaf : takes 0 = false) (h0 : 0 ≤ p)
    (hle : p ≤ str.length) : ∃ N q, ∀ fuel ≥ N, skip str takes fuel p = some q := by
  obtain ⟨d, hd⟩ : ∃ d : Nat, (str.length : Int) = p + d := ⟨(str.length - p).toNat, by omega⟩
  induction d generalizing p with
  | zero =>
    have he : p = str.length := by omega
    refine ⟨1, p + 1, fun fuel hf => ?_⟩
    obtain ⟨k, rfl⟩ : ∃ k, fuel = k + 1 := ⟨fuel - 1, by omega⟩
    rw [skip, he, deref_end, Option.bind_eq_bind, Option.bind_some, hdeaf]
    rfl
  | succ d ih =>
    obtain ⟨c, hc, -⟩ := deref_spec hstr h0 hle
    by_cases ht : takes c = true
    · obtain ⟨N, q, hN⟩ := ih (p := p + 1) (by omega) (by omega) (by omega)
      refine ⟨N + 1, q, fun fuel hf => ?_⟩
      obtain ⟨k, rfl⟩ : ∃ k, fuel = k + 1 := ⟨fuel - 1, by omega⟩
      rw [skip, hc, Option.bind_eq_bind, Option.bind_some, if_pos ht]
      exact hN k (by omega)
    · refine ⟨1, p + 1, fun fuel hf => ?_⟩
      obtain ⟨k, rfl⟩ : ∃ k, fuel = k + 1 := ⟨fuel - 1, by omega⟩
      rw [skip, hc, Option.bind_eq_bind, Option.bind_some, if_neg ht]

/-- Nothing, where 0 is returned; else so many characters are taken. -/
theorem atLeast_ends (hstr : ∀ x ∈ str, x ≠ 0) (hdeaf : takes 0 = false) (low : Nat) (h0 : 0 ≤ p)
    (hle : p ≤ str.length) : ∃ r, atLeast str takes low p = some r ∧
      ∀ q ∈ r, q = p + low ∧ q ≤ str.length ∧ (low = 0 ∨ ∃ c, takes c = true) := by
  induction low generalizing p with
  | zero =>
    refine ⟨some p, rfl, fun q hq => ?_⟩
    cases hq
    exact ⟨by simp, hle, .inl rfl⟩
  | succ low ih =>
    obtain ⟨c, hc, hlt⟩ := deref_spec hstr h0 hle
    rw [atLeast, hc, Option.bind_eq_bind, Option.bind_some]
    by_cases ht : takes c = true
    · have hin := taken_lt hdeaf hlt ht
      obtain ⟨r, hr, hall⟩ := ih (p := p + 1) (by omega) (by omega)
      rw [if_pos ht]
      refine ⟨r, hr, fun q hq => ?_⟩
      obtain ⟨he, hq, -⟩ := hall q hq
      exact ⟨by push_cast; omega, hq, .inr ⟨c, ht⟩⟩
    · rw [if_neg ht]
      exact ⟨none, rfl, nofun⟩

theorem atMost_range (hstr : ∀ x ∈ str, x ≠ 0) (hdeaf : takes 0 = false) {fuel : Nat} {q : Int}
    (size : Int) (hs : 0 ≤ size) (h0 : 0 ≤ p) (hle : p ≤ str.length)
    (h : atMost str takes fuel size p = some q) : p < q ∧ q ≤ str.length + 1 := by
  induction fuel generalizing p size with
  | zero => cases h
  | succ fuel ih =>
    rw [atMost] at h
    split at h
    · cases h
      omega
    · obtain ⟨c, hc, hlt⟩ := deref_spec hstr h0 hle
      rw [hc, Option.bind_eq_bind, Option.bind_some] at h
      split at h
      · next ht =>
        have hin := taken_lt hdeaf hlt ht
        have hrange := ih (size - 1) (by omega) (by omega) (by omega) h
        omega
      · rw [if_neg (by omega)] at h
        cases h
        omega

theorem atMost_ends (hstr : ∀ x ∈ str, x ≠ 0) (hdeaf : takes 0 = false) (size : Int)
    (hs : 0 ≤ size) (h0 : 0 ≤ p) (hle : p ≤ str.length) :
    ∃ N q, ∀ fuel ≥ N, atMost str takes fuel size p = some q := by
  obtain ⟨d, hd⟩ : ∃ d : Nat, (str.length : Int) = p + d := ⟨(str.length - p).toNat, by omega⟩
  induction d generalizing p size with
  | zero =>
    have he : p = str.length := by omega
    refine ⟨1, p + 1, fun fuel hf => ?_⟩
    obtain ⟨k, rfl⟩ : ∃ k, fuel = k + 1 := ⟨fuel - 1, by omega⟩
    rw [atMost]
    split
    · rfl
    · rw [he, deref_end, Option.bind_eq_bind, Option.bind_some, hdeaf, if_neg Bool.false_ne_true,
        if_neg (by omega)]
  | succ d ih =>
    by_cases hz : size = 0
    · refine ⟨1, p + 1, fun fuel hf => ?_⟩
      obtain ⟨k, rfl⟩ : ∃ k, fuel = k + 1 := ⟨fuel - 1, by omega⟩
      rw [atMost, if_pos hz]
    obtain ⟨c, hc, -⟩ := deref_spec hstr h0 hle
    by_cases ht : takes c = true
    · obtain ⟨N, q, hN⟩ := ih (p := p + 1) (size - 1) (by omega) (by omega) (by omega) (by omega)
      refine ⟨N + 1, q, fun fuel hf => ?_⟩
      obtain ⟨k, rfl⟩ : ∃ k, fuel = k + 1 := ⟨fuel - 1, by omega⟩
      rw [atMost, if_neg hz, hc, Option.bind_eq_bind, Option.bind_some, if_pos ht]
      exact hN k (by omega)
    · refine ⟨1, p + 1, fun fuel hf => ?_⟩
      obtain ⟨k, rfl⟩ : ∃ k, fuel = k + 1 := ⟨fuel - 1, by omega⟩
      rw [atMost, if_neg hz, hc, Option.bind_eq_bind, Option.bind_some, if_neg ht,
        if_neg (by omega)]

/-- What lies before the end compares within the line. -/
theorem strncmpLoop_ends (hstr : ∀ x ∈ str, x ≠ 0) (n : Nat) {q : Int} (h0 : 0 ≤ p)
    (hn : p + n ≤ str.length) (hq0 : 0 ≤ q) (hq : q ≤ str.length) :
    ∃ r, strncmpLoop str n p q = some r ∧ (r = true → q + n ≤ str.length) := by
  induction n generalizing p q with
  | zero => exact ⟨true, rfl, fun _ => by simpa using hq⟩
  | succ n ih =>
    obtain ⟨a, ha, hne⟩ := deref_inside hstr h0 (show p < str.length by omega)
    obtain ⟨b, hb, hlt⟩ := deref_spec hstr hq0 hq
    rw [strncmpLoop, ha, hb, Option.bind_eq_bind, Option.bind_some, Option.bind_some]
    by_cases hab : a = b
    · have hin := hlt.mp (hab ▸ hne)
      obtain ⟨r, hr, hall⟩ := ih (p := p + 1) (q := q + 1) (by omega) (by push_cast at hn; omega)
        (by omega) (by omega)
      rw [if_neg (not_not.mpr hab), if_neg hne]
      exact ⟨r, hr, fun h => by have := hall h; push_cast; omega⟩
    · rw [if_pos hab]
      exact ⟨false, rfl, nofun⟩

theorem ecmp_ends (hstr : ∀ x ∈ str, x ≠ 0) {q ct : Int} (hct : 0 ≤ ct) (h0 : 0 ≤ p)
    (hn : p + ct ≤ str.length) (hq0 : 0 ≤ q) (hq : q ≤ str.length) :
    ∃ r, ecmp str p q ct = some r ∧ (r = true → q + ct ≤ str.length) := by
  obtain ⟨r, hr, hall⟩ := strncmpLoop_ends hstr ct.toNat h0 (by omega) hq0 hq
  rw [ecmp, if_neg (by omega)]
  exact ⟨r, hr, fun h => by have := hall h; omega⟩

theorem repeats_range (hstr : ∀ x ∈ str, x ≠ 0) {q q' ct : Int} {fuel : Nat} (hct : 0 ≤ ct)
    (h0 : 0 ≤ p) (hn : p + ct ≤ str.length) (hq0 : 0 ≤ q) (hq : q ≤ str.length)
    (h : repeats str p ct fuel q = some q') :
    (∃ j : Nat, q' = q + j * ct) ∧ q ≤ q' ∧ q' ≤ str.length := by
  induction fuel generalizing q with
  | zero => cases h
  | succ fuel ih =>
    obtain ⟨r, hr, hall⟩ := ecmp_ends hstr hct h0 hn hq0 hq
    rw [repeats, hr, Option.bind_eq_bind, Option.bind_some] at h
    split at h
    · next hr' =>
      have hle := hall hr'
      obtain ⟨⟨j, hj⟩, hge, hle'⟩ := ih (by omega) hle h
      refine ⟨⟨j + 1, ?_⟩, by omega, hle'⟩
      rw [hj, Int.natCast_succ, Int.add_mul, Int.one_mul]
      omega
    · cases h
      exact ⟨⟨0, by simp⟩, Int.le_refl _, hq⟩

theorem repeats_ends (hstr : ∀ x ∈ str, x ≠ 0) {q ct : Int} (hct : 0 < ct) (h0 : 0 ≤ p)
    (hn : p + ct ≤ str.length) (hq0 : 0 ≤ q) (hq : q ≤ str.length) :
    ∃ N q', ∀ fuel ≥ N, repeats str p ct fuel q = some q' := by
  obtain ⟨d, hd⟩ : ∃ d : Nat, (str.length : Int) = q + d := ⟨(str.length - q).toNat, by omega⟩
  induction d using Nat.strongRecOn generalizing q with
  | _ d ih =>
    obtain ⟨r, hr, hall⟩ := ecmp_ends hstr (by omega) h0 hn hq0 hq
    by_cases hr' : r = true
    · have hle := hall hr'
      obtain ⟨N, q', hN⟩ := ih (d - ct.toNat) (by omega) (q := q + ct) (by omega) hle (by omega)
      refine ⟨N + 1, q', fun fuel hf => ?_⟩
      obtain ⟨k, rfl⟩ : ∃ k, fuel = k + 1 := ⟨fuel - 1, by omega⟩
      rw [repeats, hr, Option.bind_eq_bind, Option.bind_some, if_pos hr']
      exact hN k (by omega)
    · refine ⟨1, q, fun fuel hf => ?_⟩
      obtain ⟨k, rfl⟩ : ∃ k, fuel = k + 1 := ⟨fuel - 1, by omega⟩
      rw [repeats, hr, Option.bind_eq_bind, Option.bind_some, if_neg hr']

end lines

/-- With enough turns it returns, and leaves the braces with `P`. -/
def Ends (P : Braces → Prop) (f : Nat → Ran) : Prop :=
  ∃ N r b, P b ∧ ∀ fuel ≥ N, f fuel = some (r, b)

section loops
variable (adv : Nat → Int → Braces → Ran) {P : Braces → Prop} {locs curlp top lp : Int} {b : Braces}

/-- A loop that tries one place after the other: the turns of the loop and those of advance are
both waited for. -/
theorem backStep_ends (hadv : ∀ lp b, curlp ≤ lp → lp < top → P b → Ends P fun fuel => adv fuel lp b)
    (hlt : curlp < lp) (hle : lp ≤ top) (hb : P b) :
    ∃ N r b', P b' ∧ ∀ fuel ≥ N, ∀ k ≥ N, backStep (adv fuel) locs curlp k lp b = some (r, b') := by
  obtain ⟨d, hd⟩ : ∃ d : Nat, lp = curlp + d + 1 := ⟨(lp - curlp - 1).toNat, by omega⟩
  induction d generalizing lp b with
  | zero =>
    by_cases hl : lp - 1 = locs
    · refine ⟨1, none, b, hb, fun fuel _ k hk => ?_⟩
      obtain ⟨k, rfl⟩ : ∃ k', k = k' + 1 := ⟨k - 1, by omega⟩
      exact if_pos hl
    · obtain ⟨N, r, b', hb', hN⟩ := hadv (lp - 1) b (by omega) (by omega) hb
      refine ⟨N + 1, r, b', hb', fun fuel hf k hk => ?_⟩
      obtain ⟨k, rfl⟩ : ∃ k', k = k' + 1 := ⟨k - 1, by omega⟩
      have he := hN fuel (by omega)
      dsimp only at he
      rw [backStep]
      dsimp only
      rw [if_neg hl, he, Option.bind_eq_bind, Option.bind_some]
      cases r with
      | some loc2 => rfl
      | none => exact if_neg (by omega)
  | succ d ih =>
    by_cases hl : lp - 1 = locs
    · refine ⟨1, none, b, hb, fun fuel _ k hk => ?_⟩
      obtain ⟨k, rfl⟩ : ∃ k', k = k' + 1 := ⟨k - 1, by omega⟩
      exact if_pos hl
    obtain ⟨N, r, b', hb', hN⟩ := hadv (lp - 1) b (by omega) (by omega) hb
    cases r with
    | some loc2 =>
      refine ⟨N + 1, some loc2, b', hb', fun fuel hf k hk => ?_⟩
      obtain ⟨k, rfl⟩ : ∃ k', k = k' + 1 := ⟨k - 1, by omega⟩
      have he := hN fuel (by omega)
      dsimp only at he
      rw [backStep]
      dsimp only
      rw [if_neg hl, he]
      rfl
    | none =>
      obtain ⟨N', r', b'', hb'', hN'⟩ := @ih (lp - 1) b' (by omega) (by omega) hb' (by omega)
      refine ⟨N + N' + 1, r', b'', hb'', fun fuel hf k hk => ?_⟩
      obtain ⟨k, rfl⟩ : ∃ k', k = k' + 1 := ⟨k - 1, by omega⟩
      have he := hN fuel (by omega)
      dsimp only at he
      rw [backStep]
      dsimp only
      rw [if_neg hl, he, Option.bind_eq_bind, Option.bind_some]
      exact (if_pos (by omega)).trans (hN' fuel (by omega) k (by omega))

theorem backUp_ends {ct : Int} (hct : 0 < ct)
    (hadv : ∀ lp b, curlp ≤ lp → lp < top → P b → Ends P fun fuel => adv fuel lp b)
    (hle : lp < top) (hb : P b) :
    ∃ N r b', P b' ∧ ∀ fuel ≥ N, ∀ k ≥ N, backUp (adv fuel) curlp ct k lp b = some (r, b') := by
  obtain ⟨d, hd⟩ : ∃ d : Nat, d = (lp - curlp + 1).toNat := ⟨_, rfl⟩
  induction d using Nat.strongRecOn generalizing lp b with
  | _ d ih =>
    by_cases hin : lp ≥ curlp
    · obtain ⟨N, r, b', hb', hN⟩ := hadv lp b hin hle hb
      cases r with
      | some loc2 =>
        refine ⟨N + 1, some loc2, b', hb', fun fuel hf k hk => ?_⟩
        obtain ⟨k, rfl⟩ : ∃ k', k = k' + 1 := ⟨k - 1, by omega⟩
        have he := hN fuel (by omega)
        dsimp only at he
        rw [backUp, if_pos hin, he]
        rfl
      | none =>
        obtain ⟨N', r', b'', hb'', hN'⟩ := @ih (lp - ct - curlp + 1).toNat (by omega)
          (lp - ct) b' (by omega) hb' rfl
        refine ⟨N + N' + 1, r', b'', hb'', fun fuel hf k hk => ?_⟩
        obtain ⟨k, rfl⟩ : ∃ k', k = k' + 1 := ⟨k - 1, by omega⟩
        have he := hN fuel (by omega)
        dsimp only at he
        rw [backUp, if_pos hin, he]
        exact hN' fuel (by omega) k (by omega)
    · refine ⟨1, none, b, hb, fun fuel _ k hk => ?_⟩
      obtain ⟨k, rfl⟩ : ∃ k', k = k' + 1 := ⟨k - 1, by omega⟩
      rw [backUp, if_neg hin]

end loops

section equations
variable {str : List UInt8} {locs lp : Int} {fuel : Nat} {k : Kind} {arg : List UInt8}
  {l : List Item} {b : Braces}

/-- Only its own bytes are looked at. -/
theorem takes_append (hk : arg.length = k.width) (rest : List UInt8) :
    k.takes (arg ++ rest) = k.takes arg := by
  have hthere (c : UInt8) (hc : c.toNat / 8 < arg.length) :
      isThere (arg ++ rest) c = isThere arg c := by
    rw [isThere, isThere, shiftRight_three, List.getD_eq_getElem?_getD, List.getD_eq_getElem?_getD,
      List.getElem?_append_left hc]
  have hascii (c : UInt8) (hc : arg.length = 16) :
      (decide (c &&& 128 = 0) && isThere (arg ++ rest) c) =
        (decide (c &&& 128 = 0) && isThere arg c) := by
    by_cases hlow : c &&& 128 = 0
    · have hlt := (high_iff c).mp hlow
      rw [hthere c (by omega)]
    · rw [decide_eq_false hlow, Bool.false_and, Bool.false_and]
  funext c
  have hlt := c.toNat_lt
  cases k with
  | chr =>
    cases arg with
    | nil => cases hk
    | cons x t => rfl
  | dot => rfl
  | cxcl => exact hthere c (by rw [hk, Kind.width]; omega)
  | nccl => exact congrArg (! ·) (hascii c hk)
  | ccl => exact hascii c hk

theorem advance_single (hk : arg.length = k.width) :
    advance str locs (fuel + 1) lp (prog (.simple k arg .once :: l)) b =
      (deref str lp).bind fun c =>
        if k.takes arg c then advance str locs fuel (lp + 1) (prog l) b else some (none, b) := by
  rw [prog, Item.op, Item.args, Mode.args, List.append_nil, advance.eq_def]
  dsimp only
  rw [opcode_single]
  dsimp only
  rw [if_neg (by rw [List.length_append]; omega), takes_append hk, ← hk, List.drop_left]
  rfl

theorem advance_star (hk : arg.length = k.width) :
    advance str locs (fuel + 1) lp (prog (.simple k arg .star :: l)) b =
      (skip str (k.takes arg) fuel lp).bind fun q =>
        backStep (fun lp b => advance str locs fuel lp (prog l) b) locs lp fuel q b := by
  rw [prog, Item.op, Item.args, Mode.args, List.append_nil, advance.eq_def]
  dsimp only
  rw [opcode_star]
  dsimp only
  rw [if_neg (by rw [List.length_append]; omega), takes_append hk, ← hk, List.drop_left]
  rfl

theorem advance_rnge (hk : arg.length = k.width) (lo hi : UInt8) :
    advance str locs (fuel + 1) lp (prog (.simple k arg (.rnge lo hi) :: l)) b =
      (atLeast str (k.takes arg) lo.toNat lp).bind fun r =>
        match r with
        | none => some (none, b)
        | some curlp =>
          (atMost str (k.takes arg) fuel (if hi = 255 then 20000 else hi.toNat - lo.toNat)
            curlp).bind fun q =>
              backStep (fun lp b => advance str locs fuel lp (prog l) b) locs curlp fuel q b := by
  have hlen : k.width + 2 = (arg ++ [lo, hi]).length := by simp [hk]
  rw [prog, Item.op, Item.args, Mode.args, advance.eq_def]
  dsimp only
  rw [opcode_rnge]
  dsimp only
  rw [if_neg (by rw [hlen, List.length_append]; omega), hlen, List.drop_left, List.append_assoc,
    takes_append hk, ← hk, List.drop_left]
  rfl

theorem advance_cdol : advance str locs (fuel + 1) lp (prog (.cdol :: l)) b =
    (deref str lp).bind fun c =>
      if c = 0 then advance str locs fuel lp (prog l) b else some (none, b) := rfl

theorem advance_cbra {g : UInt8} (hn : g.toNat < NBRA) :
    advance str locs (fuel + 1) lp (prog (.cbra g :: l)) b = advance str locs fuel lp (prog l)
      { b with braslist := Function.update b.braslist g (some lp) } :=
  if_neg (Nat.not_le_of_lt hn)

theorem advance_cket {g : UInt8} (hn : g.toNat < NBRA) :
    advance str locs (fuel + 1) lp (prog (.cket g :: l)) b = advance str locs fuel lp (prog l)
      { b with braelist := Function.update b.braelist g (some lp) } :=
  if_neg (Nat.not_le_of_lt hn)

theorem advance_cback {g : UInt8} {p q : Int} (hp : b.braslist g = some p)
    (hq : b.braelist g = some q) :
    advance str locs (fuel + 1) lp (prog (.cback g false :: l)) b =
      (ecmp str p lp (q - p)).bind fun same =>
        if same then advance str locs fuel (lp + (q - p)) (prog l) b else some (none, b) := by
  show ((b.braslist g).bind fun bbeg => _) = _
  rw [hp, Option.bind_some]
  show ((b.braelist g).bind fun e => _) = _
  rw [hq, Option.bind_some]
  rfl

theorem advance_cbackStar {g : UInt8} {p q : Int} (hp : b.braslist g = some p)
    (hq : b.braelist g = some q) :
    advance str locs (fuel + 1) lp (prog (.cback g true :: l)) b =
      (repeats str p (q - p) fuel lp).bind fun lp' =>
        backUp (fun lp b => advance str locs fuel lp (prog l) b) lp (q - p) fuel lp' b := by
  show ((b.braslist g).bind fun bbeg => _) = _
  rw [hp, Option.bind_some]
  show ((b.braelist g).bind fun e => _) = _
  rw [hq, Option.bind_some]
  rfl

end equations

section runs
variable {str opened closed : List UInt8} {locs : Int} {l : List Item}

/-- At a place in the line, `m` characters or more behind where it began; the groups lie behind. -/
structure Fine (str opened closed : List UInt8) (m : Nat) (start len : UInt8 → Nat) (lp : Int)
    (b : Braces) : Prop where
  nonneg : 0 ≤ lp
  le : lp ≤ str.length
  sub : ∀ g ∈ closed, g ∈ opened
  braslist : ∀ g ∈ opened, ∃ p, b.braslist g = some p ∧ 0 ≤ p ∧ start g ≤ m ∧
    p + (m - start g : Nat) ≤ lp
  braelist : ∀ g ∈ closed, ∃ p q, b.braslist g = some p ∧ b.braelist g = some q ∧ 0 ≤ p ∧
    p + len g ≤ q ∧ q ≤ lp

/-- The groups before are as they were. -/
def Agrees (opened closed : List UInt8) (b b' : Braces) : Prop :=
  (∀ g ∈ opened, b'.braslist g = b.braslist g) ∧ ∀ g ∈ closed, b'.braelist g = b.braelist g

theorem Agrees.refl (b : Braces) : Agrees opened closed b b := ⟨fun _ _ => rfl, fun _ _ => rfl⟩

theorem Agrees.trans {b b' b'' : Braces} (h : Agrees opened closed b b')
    (h' : Agrees opened closed b' b'') : Agrees opened closed b b'' :=
  ⟨fun g hg => (h'.1 g hg).trans (h.1 g hg), fun g hg => (h'.2 g hg).trans (h.2 g hg)⟩

variable {m : Nat} {start len : UInt8 → Nat} {lp lp' : Int} {b b' : Braces}

theorem Fine.agree (h : Fine str opened closed m start len lp b) (ha : Agrees opened closed b b') :
    Fine str opened closed m start len lp b' where
  nonneg := h.nonneg
  le := h.le
  sub := h.sub
  braslist g hg := by rw [ha.1 g hg]; exact h.braslist g hg
  braelist g hg := by rw [ha.1 g (h.sub g hg), ha.2 g hg]; exact h.braelist g hg

theorem Fine.move (h : Fine str opened closed m start len lp b) (k : Nat) (hk : lp + k ≤ lp')
    (hle : lp' ≤ str.length) : Fine str opened closed (m + k) start len lp' b where
  nonneg := by have := h.nonneg; omega
  le := hle
  sub := h.sub
  braslist g hg := by
    obtain ⟨p, hp, h0, hs, hm⟩ := h.braslist g hg
    exact ⟨p, hp, h0, by omega, by omega⟩
  braelist g hg := by
    obtain ⟨p, q, hp, hq, h0, hlen, hle⟩ := h.braelist g hg
    exact ⟨p, q, hp, hq, h0, hlen, by omega⟩

theorem Fine.cbra (h : Fine str opened closed m start len lp b) {g : UInt8} (hg : g ∉ opened) :
    Fine str (g :: opened) closed m (Function.update start g m) len lp
      { b with braslist := Function.update b.braslist g (some lp) } where
  nonneg := h.nonneg
  le := h.le
  sub x hx := List.mem_cons_of_mem _ (h.sub x hx)
  braslist x hx := by
    by_cases hxg : x = g
    · subst hxg
      refine ⟨lp, Function.update_self .., h.nonneg, ?_, ?_⟩
      · rw [Function.update_self]
      · rw [Function.update_self, Nat.sub_self]
        simp
    · obtain ⟨p, hp, hrest⟩ := h.braslist x ((List.mem_cons.mp hx).resolve_left hxg)
      rw [Function.update_of_ne hxg]
      exact ⟨p, (Function.update_of_ne hxg ..).trans hp, hrest⟩
  braelist x hx := by
    have hxg : x ≠ g := fun he => hg (he ▸ h.sub x hx)
    obtain ⟨p, q, hp, hq, hrest⟩ := h.braelist x hx
    exact ⟨p, q, (Function.update_of_ne hxg ..).trans hp, hq, hrest⟩

theorem Fine.cket (h : Fine str opened closed m start len lp b) {g : UInt8} (hg : g ∈ opened) :
    Fine str opened (g :: closed) m start (Function.update len g (m - start g)) lp
      { b with braelist := Function.update b.braelist g (some lp) } where
  nonneg := h.nonneg
  le := h.le
  sub x hx := by
    cases List.mem_cons.mp hx with
    | inl he => exact he ▸ hg
    | inr hx => exact h.sub x hx
  braslist := h.braslist
  braelist x hx := by
    by_cases hxg : x = g
    · subst hxg
      obtain ⟨p, hp, h0, hs, hm⟩ := h.braslist x hg
      refine ⟨p, lp, hp, Function.update_self .., h0, ?_, Int.le_refl _⟩
      rw [Function.update_self]
      exact hm
    · obtain ⟨p, q, hp, hq, hrest⟩ := h.braelist x ((List.mem_cons.mp hx).resolve_left hxg)
      rw [Function.update_of_ne hxg]
      exact ⟨p, q, hp, (Function.update_of_ne hxg ..).trans hq, hrest⟩

theorem Ends.next {P Q : Braces → Prop} {f : Nat → Ran} {g : Nat → Ran} (h : Ends P f)
    (hfg : ∀ fuel, g (fuel + 1) = f fuel) (hPQ : ∀ b, P b → Q b) : Ends Q g := by
  obtain ⟨N, r, b, hb, hN⟩ := h
  refine ⟨N + 1, r, b, hPQ b hb, fun fuel hf => ?_⟩
  obtain ⟨k, rfl⟩ : ∃ k, fuel = k + 1 := ⟨fuel - 1, by omega⟩
  exact (hfg k).trans (hN k (by omega))

theorem Ends.fail {P : Braces → Prop} {g : Nat → Ran} (hb : P b)
    (hg : ∀ fuel, g (fuel + 1) = some (none, b)) : Ends P g :=
  Ends.next ⟨0, none, b, hb, fun _ _ => rfl⟩ hg fun _ h => h

/-- The loop over the places from `lp'` back to `lp`, where the rest ends from each. -/
theorem star_ends (hrest : ∀ {m start len lp b}, Solid m start len l →
      Fine str opened closed m start len lp b →
        Ends (Agrees opened closed b) fun fuel => advance str locs fuel lp (prog l) b)
    (hs : Solid m start len l) (hF : Fine str opened closed m start len lp b)
    (hlt : lp < lp') (hle : lp' ≤ str.length + 1) :
    ∃ N r b', Agrees opened closed b b' ∧ ∀ fuel ≥ N, ∀ k ≥ N,
      backStep (fun lp b => advance str locs fuel lp (prog l) b) locs lp k lp' b = some (r, b') :=
  backStep_ends (fun fuel lp b => advance str locs fuel lp (prog l) b)
    (fun q b' hq hq' ha => by
      obtain ⟨N, r, b'', ha', hN⟩ := hrest hs
        ((hF.move 0 (by omega) (show q ≤ str.length by omega)).agree ha)
      exact ⟨N, r, b'', ha.trans ha', hN⟩)
    hlt hle (Agrees.refl b)

theorem advance_ends (hstr : ∀ x ∈ str, x ≠ 0) (hr : Ready opened closed l) :
    ∀ {m start len lp b}, Solid m start len l → Fine str opened closed m start len lp b →
      Ends (Agrees opened closed b) fun fuel => advance str locs fuel lp (prog l) b := by
  induction hr with
  | nil =>
    intro m start len lp b _ _
    exact Ends.next ⟨0, some lp, b, Agrees.refl b, fun _ _ => rfl⟩ (fun _ => rfl) fun _ h => h
  | @simple opened closed k arg md l hk hm hdeaf h ih =>
    intro m start len lp b hs hF
    cases md with
    | once =>
      obtain ⟨c, hc, hlt⟩ := deref_spec hstr hF.nonneg hF.le
      by_cases ht : k.takes arg c = true
      · have hin := taken_lt hdeaf hlt ht
        have hnext := ih (hs (.inr ⟨c, ht⟩)) (hF.move 1 (Int.le_refl _) (by push_cast; omega))
        refine hnext.next (fun fuel => ?_) fun _ h => h
        rw [advance_single hk, hc, Option.bind_some, if_pos ht]
        rfl
      · refine Ends.fail (Agrees.refl b) fun fuel => ?_
        rw [advance_single hk, hc, Option.bind_some, if_neg ht]
    | star =>
      obtain ⟨N, q, hN⟩ := skip_ends hstr hdeaf hF.nonneg hF.le
      obtain ⟨hpq, hq⟩ := skip_range hstr hdeaf hF.nonneg hF.le (hN N (Nat.le_refl N))
      obtain ⟨N', r, b', ha, hN'⟩ := star_ends ih (hs (.inl rfl)) (hF.move 0 (by omega) hF.le) hpq hq
      refine ⟨N + N' + 1, r, b', ha, fun fuel hf => ?_⟩
      obtain ⟨j, rfl⟩ : ∃ j, fuel = j + 1 := ⟨fuel - 1, by omega⟩
      dsimp only
      rw [advance_star hk, hN j (by omega), Option.bind_some]
      exact hN' j (by omega) j (by omega)
    | rnge lo hi =>
      obtain ⟨res, hres, hall⟩ := atLeast_ends hstr hdeaf lo.toNat hF.nonneg hF.le
      cases res with
      | none =>
        refine Ends.fail (Agrees.refl b) fun fuel => ?_
        rw [advance_rnge hk, hres, Option.bind_some]
      | some curlp =>
        obtain ⟨he, hle, htake⟩ := hall curlp rfl
        have hsize : 0 ≤ if hi = 255 then (20000 : Int) else hi.toNat - lo.toNat := by
          have hlohi : lo.toNat ≤ hi.toNat := hm
          split <;> omega
        have hF' := hF.move lo.toNat (Int.le_of_eq he.symm) hle
        obtain ⟨N, q, hN⟩ := atMost_ends hstr hdeaf _ hsize hF'.nonneg hF'.le
        obtain ⟨hpq, hq⟩ := atMost_range hstr hdeaf _ hsize hF'.nonneg hF'.le (hN N (Nat.le_refl N))
        obtain ⟨N', r, b', ha, hN'⟩ := star_ends ih (hs htake) hF' hpq hq
        refine ⟨N + N' + 1, r, b', ha, fun fuel hf => ?_⟩
        obtain ⟨j, rfl⟩ : ∃ j, fuel = j + 1 := ⟨fuel - 1, by omega⟩
        dsimp only
        rw [advance_rnge hk, hres, Option.bind_some]
        dsimp only
        rw [hN j (by omega), Option.bind_some]
        exact hN' j (by omega) j (by omega)
  | cdol =>
    intro m start len lp b hs hF
    obtain ⟨c, hc, -⟩ := deref_spec hstr hF.nonneg hF.le
    by_cases h0 : c = 0
    · refine Ends.next (f := fun fuel => advance str locs fuel lp (prog []) b) ?_ (fun fuel => ?_)
        fun _ h => h
      · exact Ends.next ⟨0, some lp, b, Agrees.refl b, fun _ _ => rfl⟩ (fun _ => rfl) fun _ h => h
      · rw [advance_cdol, hc, Option.bind_some, if_pos h0]
    · refine Ends.fail (Agrees.refl b) fun fuel => ?_
      rw [advance_cdol, hc, Option.bind_some, if_neg h0]
  | @cbra opened closed g l hg hn h ih =>
    intro m start len lp b hs hF
    refine (ih hs (hF.cbra hg)).next (fun fuel => advance_cbra hn) fun b' ha => ?_
    refine ⟨fun x hx => ?_, ha.2⟩
    have hxg : x ≠ g := fun he => hg (he ▸ hx)
    exact (ha.1 x (List.mem_cons_of_mem _ hx)).trans (Function.update_of_ne hxg ..)
  | @cket opened closed g l hg hc hn h ih =>
    intro m start len lp b hs hF
    refine (ih hs (hF.cket hg)).next (fun fuel => advance_cket hn) fun b' ha => ?_
    refine ⟨ha.1, fun x hx => ?_⟩
    have hxg : x ≠ g := fun he => hc (he ▸ hx)
    exact (ha.2 x (List.mem_cons_of_mem _ hx)).trans (Function.update_of_ne hxg ..)
  | @cback opened closed g starred l hg h ih =>
    intro m start len lp b hs hF
    obtain ⟨p, q, hp, hq, h0, hlen, hle⟩ := hF.braelist g hg
    have hleq := hF.le
    cases starred with
    | false =>
      obtain ⟨same, hsame, hin⟩ := ecmp_ends hstr (show 0 ≤ q - p by omega) h0 (by omega) hF.nonneg
        hF.le
      cases same with
      | true =>
        have hnext := ih hs (hF.move (len g) (show lp + len g ≤ lp + (q - p) by omega) (hin rfl))
        refine hnext.next (fun fuel => ?_) fun _ h => h
        rw [advance_cback hp hq, hsame]
        rfl
      | false =>
        refine Ends.fail (Agrees.refl b) fun fuel => ?_
        rw [advance_cback hp hq, hsame]
        rfl
    | true =>
      obtain ⟨hpos, hs⟩ := hs
      obtain ⟨N, lp', hN⟩ := repeats_ends hstr (show 0 < q - p by omega) h0 (by omega) hF.nonneg
        hF.le
      obtain ⟨-, hge, hle'⟩ := repeats_range hstr (by omega) h0 (by omega) hF.nonneg hF.le
        (hN N (Nat.le_refl N))
      obtain ⟨N', r, b', ha, hN'⟩ := backUp_ends
        (fun fuel lp b => advance str locs fuel lp (prog l) b) (show 0 < q - p by omega)
        (fun x b' (hx : lp ≤ x) (hx' : x < str.length + 1) ha => by
          obtain ⟨N, r, b'', ha', hN⟩ := ih hs
            ((hF.move 0 (by omega) (show x ≤ str.length by omega)).agree ha)
          exact ⟨N, r, b'', ha.trans ha', hN⟩)
        (show lp' < str.length + 1 by omega) (Agrees.refl b)
      refine ⟨N + N' + 1, r, b', ha, fun fuel hf => ?_⟩
      obtain ⟨j, rfl⟩ : ∃ j, fuel = j + 1 := ⟨fuel - 1, by omega⟩
      dsimp only
      rw [advance_cbackStar hp hq, hN j (by omega), Option.bind_some]
      exact hN' j (by omega) j (by omega)

/-- The items fit the line from `m` on with as little as they can take, up to a starred
back-reference to an empty group at its end. -/
def Hollow (str : List UInt8) : Nat → (UInt8 → Nat) → (UInt8 → Nat) → List Item → Prop
  | _, _, _, [] => False
  | m, start, len, .simple k arg md :: l =>
    (∀ i < md.least, ∃ c, str[m + i]? = some c ∧ k.takes arg c = true) ∧
      Hollow str (m + md.least) start len l
  | m, start, len, .cdol :: l => Hollow str m start len l
  | m, start, len, .cbra g :: l => Hollow str m (Function.update start g m) len l
  | m, start, len, .cket g :: l =>
    Hollow str m start (Function.update len g (m - start g)) l
  | m, start, len, .cback g false :: l =>
    (∀ i < len g, str[start g + i]? = str[m + i]?) ∧ Hollow str (m + len g) start len l
  | m, start, len, .cback g true :: l =>
    len g = 0 ∧ m = str.length ∨ 0 < len g ∧ Hollow str m start len l

section fails
variable {adv : Int → Braces → Ran} {P : Braces → Prop} {curlp top : Int} {fuel : Nat}
  {r : Option Int}

/-- Where no place leads to an end, the loop does not. -/
theorem backStep_fails (hadv : ∀ q b r b', curlp ≤ q → q < top → P b → adv q b = some (r, b') →
      r = none ∧ P b') (hlt : curlp < lp) (hle : lp ≤ top) (hb : P b)
    (h : backStep adv locs curlp fuel lp b = some (r, b')) : r = none ∧ P b' := by
  induction fuel generalizing lp b with
  | zero => cases h
  | succ fuel ih =>
    rw [backStep] at h
    dsimp only at h
    split at h
    · cases h
      exact ⟨rfl, hb⟩
    · rw [Option.bind_eq_bind, Option.bind_eq_some_iff] at h
      obtain ⟨⟨r₁, b₁⟩, ha, h⟩ := h
      obtain ⟨rfl, hb₁⟩ := hadv _ b r₁ b₁ (by omega) (by omega) hb ha
      dsimp only at h
      split at h
      · exact ih (by omega) (by omega) hb₁ h
      · cases h
        exact ⟨rfl, hb₁⟩

theorem backUp_fails {ct : Int} (hct : 0 ≤ ct) (hadv : ∀ q b r b', curlp ≤ q → q < top → P b →
      adv q b = some (r, b') → r = none ∧ P b') (hle : lp < top) (hb : P b)
    (h : backUp adv curlp ct fuel lp b = some (r, b')) : r = none ∧ P b' := by
  induction fuel generalizing lp b with
  | zero => cases h
  | succ fuel ih =>
    rw [backUp] at h
    split at h
    · next hin =>
      rw [Option.bind_eq_bind, Option.bind_eq_some_iff] at h
      obtain ⟨⟨r₁, b₁⟩, ha, h⟩ := h
      obtain ⟨rfl, hb₁⟩ := hadv _ b r₁ b₁ hin hle hb ha
      exact ih (by omega) hb₁ h
    · cases h
      exact ⟨rfl, hb⟩

/-- Where the last place leads nowhere, and those before it fail, the loop does not end. -/
theorem backStep_stuck (hlocs : locs < curlp) (hadv : ∀ q b r b', curlp < q → q < top → P b →
      adv q b = some (r, b') → r = none ∧ P b') (hbot : ∀ b, P b → adv curlp b = none)
    (hlt : curlp < lp) (hle : lp ≤ top) (hb : P b) : backStep adv locs curlp fuel lp b = none := by
  induction fuel generalizing lp b with
  | zero => rfl
  | succ fuel ih =>
    rw [backStep]
    dsimp only
    rw [if_neg (by omega)]
    by_cases he : lp - 1 = curlp
    · rw [he, hbot b hb]
      rfl
    · cases ha : adv (lp - 1) b with
      | none => rfl
      | some res =>
        obtain ⟨r₁, b₁⟩ := res
        obtain ⟨rfl, hb₁⟩ := hadv _ b r₁ b₁ (by omega) (by omega) hb ha
        rw [Option.bind_eq_bind, Option.bind_some]
        exact (if_pos (by omega)).trans (ih (by omega) (by omega) hb₁)

theorem backUp_stuck {ct : Int} (hct : 0 < ct) (hadv : ∀ q b r b', curlp < q → q < top → P b →
      adv q b = some (r, b') → r = none ∧ P b') (hbot : ∀ b, P b → adv curlp b = none)
    (hlp : ∃ j : Nat, lp = curlp + j * ct) (hle : lp < top) (hb : P b) :
    backUp adv curlp ct fuel lp b = none := by
  induction fuel generalizing lp b with
  | zero => rfl
  | succ fuel ih =>
    obtain ⟨j, hj⟩ := hlp
    have hge : 0 ≤ j * ct := Int.mul_nonneg (Int.natCast_nonneg j) (Int.le_of_lt hct)
    rw [backUp, if_pos (by omega)]
    cases j with
    | zero =>
      have he : lp = curlp := by rw [hj]; simp
      rw [he, hbot b hb]
      rfl
    | succ j =>
      have hsplit : ((j + 1 : Nat) : Int) * ct = j * ct + ct := by
        rw [Int.natCast_succ, Int.add_mul, Int.one_mul]
      have hge' : 0 ≤ j * ct := Int.mul_nonneg (Int.natCast_nonneg j) (Int.le_of_lt hct)
      cases ha : adv lp b with
      | none => rfl
      | some res =>
        obtain ⟨r₁, b₁⟩ := res
        obtain ⟨rfl, hb₁⟩ := hadv _ b r₁ b₁ (by omega) hle hb ha
        exact ih ⟨j, by omega⟩ (by omega) hb₁

end fails

/- No run gets through the rest of a program from beyond `m`. -/
def Short (str opened closed : List UInt8) (locs : Int) (m : Nat) (start len : UInt8 → Nat)
    (l : List Item) : Prop :=
  ∀ {lp b fuel r b'}, Fine str opened closed m start len lp b → (m : Int) < lp →
    advance str locs fuel lp (prog l) b = some (r, b') → r = none ∧ Agrees opened closed b b'

theorem Short.star (h : Short str opened closed locs m start len l)
    (hF : Fine str opened closed m start len lp b) (hlt : (m : Int) < lp) {q : Int} {fuel fuel' : Nat}
    {r : Option Int} (hq : lp < q) (hle : q ≤ str.length + 1)
    (hadv : backStep (fun lp b => advance str locs fuel lp (prog l) b) locs lp fuel' q b =
      some (r, b')) : r = none ∧ Agrees opened closed b b' :=
  backStep_fails (P := Agrees opened closed b) (fun x b₁ r₁ b₂ hx hx' ha hadv => by
    obtain ⟨hr, ha'⟩ := h ((hF.move 0 (by omega) (show x ≤ str.length by omega)).agree ha)
      (by omega) hadv
    exact ⟨hr, ha.trans ha'⟩) hq hle (Agrees.refl b) hadv

/-- Beyond the least place no run gets through: the line is too short. -/
theorem hollow_short (hstr : ∀ x ∈ str, x ≠ 0) (hr : Ready opened closed l) :
    ∀ {m start len}, Hollow str m start len l → Short str opened closed locs m start len l := by
  induction hr with
  | nil => exact nofun
  | @simple opened closed k arg md l hk hm hdeaf h ih =>
    intro m start len hh lp b fuel r b' hF hlt hadv
    obtain ⟨-, hh⟩ := hh
    cases fuel with
    | zero => cases hadv
    | succ fuel =>
    cases md with
    | once =>
      rw [advance_single hk, Option.bind_eq_some_iff] at hadv
      obtain ⟨c, hc, hadv⟩ := hadv
      split at hadv
      · next ht =>
        obtain ⟨c', hc', hlt'⟩ := deref_spec hstr hF.nonneg hF.le
        cases hc.symm.trans hc'
        have hin := taken_lt hdeaf hlt' ht
        exact ih hh (hF.move 1 (Int.le_refl _) (by push_cast; omega))
          (show ((m + 1 : Nat) : Int) < lp + 1 by omega) hadv
      · cases hadv
        exact ⟨rfl, Agrees.refl b⟩
    | star =>
      rw [advance_star hk, Option.bind_eq_some_iff] at hadv
      obtain ⟨q, hq, hadv⟩ := hadv
      obtain ⟨hpq, hqle⟩ := skip_range hstr hdeaf hF.nonneg hF.le hq
      exact Short.star (ih hh) (hF.move 0 (by omega) hF.le) hlt hpq hqle hadv
    | rnge lo hi =>
      obtain ⟨res, hres, hall⟩ := atLeast_ends hstr hdeaf lo.toNat hF.nonneg hF.le
      rw [advance_rnge hk, hres, Option.bind_some] at hadv
      cases res with
      | none =>
        cases hadv
        exact ⟨rfl, Agrees.refl b⟩
      | some curlp =>
        obtain ⟨he, hle, -⟩ := hall curlp rfl
        have hsize : 0 ≤ if hi = 255 then (20000 : Int) else hi.toNat - lo.toNat := by
          have hlohi : lo.toNat ≤ hi.toNat := hm
          split <;> omega
        rw [Option.bind_eq_some_iff] at hadv
        obtain ⟨q, hq, hadv⟩ := hadv
        have hF' := hF.move lo.toNat (Int.le_of_eq he.symm) hle
        obtain ⟨hpq, hqle⟩ := atMost_range hstr hdeaf _ hsize hF'.nonneg hF'.le hq
        refine Short.star (ih hh) hF' ?_ hpq hqle hadv
        show ((m + lo.toNat : Nat) : Int) < curlp
        omega
  | cdol => exact nofun
  | @cbra opened closed g l hg hn h ih =>
    intro m start len hh lp b fuel r b' hF hlt hadv
    cases fuel with
    | zero => cases hadv
    | succ fuel =>
      rw [advance_cbra hn] at hadv
      obtain ⟨hr, ha⟩ := ih hh (hF.cbra hg) hlt hadv
      refine ⟨hr, fun x hx => ?_, ha.2⟩
      have hxg : x ≠ g := fun he => hg (he ▸ hx)
      exact (ha.1 x (List.mem_cons_of_mem _ hx)).trans (Function.update_of_ne hxg ..)
  | @cket opened closed g l hg hc hn h ih =>
    intro m start len hh lp b fuel r b' hF hlt hadv
    cases fuel with
    | zero => cases hadv
    | succ fuel =>
      rw [advance_cket hn] at hadv
      obtain ⟨hr, ha⟩ := ih hh (hF.cket hg) hlt hadv
      refine ⟨hr, ha.1, fun x hx => ?_⟩
      have hxg : x ≠ g := fun he => hc (he ▸ hx)
      exact (ha.2 x (List.mem_cons_of_mem _ hx)).trans (Function.update_of_ne hxg ..)
  | @cback opened closed g starred l hg h ih =>
    intro m start len hh lp b fuel r b' hF hlt hadv
    obtain ⟨p, q, hp, hq, h0, hlen, hle⟩ := hF.braelist g hg
    have hleq := hF.le
    cases fuel with
    | zero => cases hadv
    | succ fuel =>
    cases starred with
    | false =>
      obtain ⟨-, hh⟩ := hh
      obtain ⟨same, hsame, hin⟩ := ecmp_ends hstr (show 0 ≤ q - p by omega) h0 (by omega) hF.nonneg
        hF.le
      rw [advance_cback hp hq, hsame, Option.bind_some] at hadv
      cases same with
      | true =>
        exact ih hh (hF.move (len g) (show lp + len g ≤ lp + (q - p) by omega) (hin rfl))
          (show ((m + len g : Nat) : Int) < lp + (q - p) by omega) hadv
      | false =>
        cases hadv
        exact ⟨rfl, Agrees.refl b⟩
    | true =>
      cases hh with
      | inl hend => omega
      | inr hh =>
        rw [advance_cbackStar hp hq, Option.bind_eq_some_iff] at hadv
        obtain ⟨lp', hlp', hadv⟩ := hadv
        obtain ⟨-, hge, hle'⟩ := repeats_range hstr (show 0 ≤ q - p by omega) h0 (by omega)
          hF.nonneg hF.le hlp'
        exact backUp_fails (P := Agrees opened closed b) (show 0 ≤ q - p by omega)
          (fun x b₁ r₁ b₂ (hx : lp ≤ x) (hx' : x < str.length + 1) ha hadv => by
            obtain ⟨hr, ha'⟩ := ih hh.2
              ((hF.move 0 (by omega) (show x ≤ str.length by omega)).agree ha) (by omega) hadv
            exact ⟨hr, ha.trans ha'⟩)
          (show lp' < str.length + 1 by omega) (Agrees.refl b) hadv

theorem hollow_le (h : Hollow str m start len l) : m ≤ str.length := by
  induction l generalizing m start len with
  | nil => exact h.elim
  | cons it l ih =>
    cases it with
    | simple k arg md => exact Nat.le_trans (Nat.le_add_right _ _) (ih h.2)
    | cdol => exact ih h
    | cbra g => exact ih h
    | cket g => exact ih h
    | cback g starred =>
      cases starred with
      | false => exact Nat.le_trans (Nat.le_add_right _ _) (ih h.2)
      | true =>
        cases h with
        | inl h => exact Nat.le_of_eq h.2
        | inr h => exact ih h.2

/-- The groups are where they are when everything has taken as little as it can. -/
structure Least (opened closed : List UInt8) (m : Nat) (start len : UInt8 → Nat) (b : Braces) :
    Prop where
  sub : ∀ g ∈ closed, g ∈ opened
  braslist : ∀ g ∈ opened, b.braslist g = some (start g : Int) ∧ start g ≤ m
  braelist : ∀ g ∈ closed, b.braelist g = some (start g + len g : Int) ∧ start g + len g ≤ m

theorem Least.fine (h : Least opened closed m start len b) (hle : m ≤ str.length) :
    Fine str opened closed m start len m b where
  nonneg := Int.natCast_nonneg m
  le := Int.ofNat_le.mpr hle
  sub := h.sub
  braslist g hg := by
    obtain ⟨hb, hs⟩ := h.braslist g hg
    exact ⟨start g, hb, Int.natCast_nonneg _, hs, by omega⟩
  braelist g hg := by
    obtain ⟨hb, -⟩ := h.braslist g (h.sub g hg)
    obtain ⟨he, hs⟩ := h.braelist g hg
    exact ⟨start g, start g + len g, hb, he, Int.natCast_nonneg _, Int.le_refl _, by omega⟩

theorem Least.agree (h : Least opened closed m start len b) (ha : Agrees opened closed b b') :
    Least opened closed m start len b' where
  sub := h.sub
  braslist g hg := by rw [ha.1 g hg]; exact h.braslist g hg
  braelist g hg := by rw [ha.2 g hg]; exact h.braelist g hg

theorem Least.move (h : Least opened closed m start len b) (k : Nat) :
    Least opened closed (m + k) start len b where
  sub := h.sub
  braslist g hg := ⟨(h.braslist g hg).1, Nat.le_trans (h.braslist g hg).2 (Nat.le_add_right _ _)⟩
  braelist g hg := ⟨(h.braelist g hg).1, Nat.le_trans (h.braelist g hg).2 (Nat.le_add_right _ _)⟩

theorem Least.cbra (h : Least opened closed m start len b) {g : UInt8} (hg : g ∉ opened) :
    Least (g :: opened) closed m (Function.update start g m) len
      { b with braslist := Function.update b.braslist g (some m) } where
  sub x hx := List.mem_cons_of_mem _ (h.sub x hx)
  braslist x hx := by
    by_cases hxg : x = g
    · subst hxg
      rw [Function.update_self]
      exact ⟨Function.update_self .., Nat.le_refl m⟩
    · rw [Function.update_of_ne hxg]
      obtain ⟨hb, hs⟩ := h.braslist x ((List.mem_cons.mp hx).resolve_left hxg)
      exact ⟨(Function.update_of_ne hxg ..).trans hb, hs⟩
  braelist x hx := by
    have hxg : x ≠ g := fun he => hg (he ▸ h.sub x hx)
    rw [Function.update_of_ne hxg]
    exact h.braelist x hx

theorem Least.cket (h : Least opened closed m start len b) {g : UInt8} (hg : g ∈ opened) :
    Least opened (g :: closed) m start (Function.update len g (m - start g))
      { b with braelist := Function.update b.braelist g (some m) } where
  sub x hx := by
    cases List.mem_cons.mp hx with
    | inl he => exact he ▸ hg
    | inr hx => exact h.sub x hx
  braslist := h.braslist
  braelist x hx := by
    by_cases hxg : x = g
    · subst hxg
      obtain ⟨-, hs⟩ := h.braslist x hg
      rw [Function.update_self]
      refine ⟨(Function.update_self ..).trans (congrArg some ?_), by omega⟩
      omega
    · rw [Function.update_of_ne hxg]
      obtain ⟨he, hs⟩ := h.braelist x ((List.mem_cons.mp hx).resolve_left hxg)
      exact ⟨(Function.update_of_ne hxg ..).trans he, hs⟩

theorem deref_get {k : Nat} {c : UInt8} (h : str[k]? = some c) : deref str k = some c := by
  have hk := (List.getElem?_eq_some_iff.mp h).1
  rw [deref, if_neg (by omega), Int.toNat_natCast, List.getElem?_append_left hk, h]

theorem atLeast_all {takes : UInt8 → Bool} (low k : Nat)
    (h : ∀ i < low, ∃ c, str[k + i]? = some c ∧ takes c = true) :
    atLeast str takes low k = some (some ((k + low : Nat) : Int)) := by
  induction low generalizing k with
  | zero => rfl
  | succ low ih =>
    obtain ⟨c, hc, ht⟩ := h 0 (Nat.succ_pos low)
    rw [Nat.add_zero] at hc
    rw [atLeast, deref_get hc, Option.bind_eq_bind, Option.bind_some, if_pos ht]
    have hrest := ih (k + 1) fun i hi => by
      obtain ⟨c, hc⟩ := h (i + 1) (by omega)
      rw [show k + 1 + i = k + (i + 1) by omega]
      exact ⟨c, hc⟩
    rw [show k + (low + 1) = k + 1 + low by omega]
    exact hrest

theorem ecmp_same (hstr : ∀ x ∈ str, x ≠ 0) (n p k : Nat) (hp : p + n ≤ str.length)
    (h : ∀ i < n, str[p + i]? = str[k + i]?) : ecmp str p k n = some true := by
  rw [ecmp, if_neg (by omega), Int.toNat_natCast]
  induction n generalizing p k with
  | zero => rfl
  | succ n ih =>
    have hlt : p < str.length := by omega
    have hget : str[p]? = some str[p] := List.getElem?_eq_getElem hlt
    have hsame := h 0 (Nat.succ_pos n)
    rw [Nat.add_zero, Nat.add_zero, hget] at hsame
    rw [strncmpLoop, deref_get hget, deref_get hsame.symm, Option.bind_eq_bind, Option.bind_some,
      Option.bind_some, if_neg (not_not.mpr rfl), if_neg (hstr _ (List.getElem_mem hlt))]
    exact ih (p + 1) (k + 1) (by omega) fun i hi => by
      have hi' := h (i + 1) (by omega)
      rw [show p + 1 + i = p + (i + 1) by omega, show k + 1 + i = k + (i + 1) by omega, hi']

/-- Nothing is repeated without end. -/
theorem repeats_stuck (p q : Int) (fuel : Nat) : repeats str p 0 fuel q = none := by
  induction fuel generalizing q with
  | zero => rfl
  | succ fuel ih => exact ih (q + 0)

theorem star_stuck (hstr : ∀ x ∈ str, x ≠ 0) (hlocs : locs < 0) (hr : Ready opened closed l)
    (hh : Hollow str m start len l) (hL : Least opened closed m start len b)
    (hstuck : ∀ b, Least opened closed m start len b → ∀ fuel,
      advance str locs fuel m (prog l) b = none) {q : Int} (hq : (m : Int) < q)
    (hle : q ≤ str.length + 1) (fuel fuel' : Nat) :
    backStep (fun lp b => advance str locs fuel lp (prog l) b) locs m fuel' q b = none :=
  backStep_stuck (P := Agrees opened closed b) (by omega)
    (fun x b₁ r b₂ hx hx' ha hadv => by
      have hF := (hL.fine (hollow_le hh)).agree ha
      obtain ⟨hr, ha'⟩ := hollow_short hstr hr hh
        (hF.move 0 (by omega) (show x ≤ str.length by omega)) (by omega) hadv
      exact ⟨hr, ha.trans ha'⟩)
    (fun b₁ ha => hstuck b₁ (hL.agree ha) fuel) hq hle (Agrees.refl b)

/-- From the least place the run does not end. -/
theorem hollow_stuck (hstr : ∀ x ∈ str, x ≠ 0) (hlocs : locs < 0) (hr : Ready opened closed l) :
    ∀ {m start len b}, Hollow str m start len l → Least opened closed m start len b → ∀ fuel,
      advance str locs fuel m (prog l) b = none := by
  induction hr with
  | nil => exact nofun
  | @simple opened closed k arg md l hk hm hdeaf h ih =>
    intro m start len b hh hL fuel
    cases fuel with
    | zero => rfl
    | succ fuel =>
    have hF := hL.fine (hollow_le hh)
    obtain ⟨htake, hh⟩ := hh
    have hnext := fun b (hb : Least opened closed (m + md.least) start len b) => ih hh hb
    cases md with
    | once =>
      obtain ⟨c, hc, ht⟩ := htake 0 Nat.one_pos
      rw [Nat.add_zero] at hc
      rw [advance_single hk, deref_get hc, Option.bind_some, if_pos ht]
      exact ih hh (hL.move 1) fuel
    | star =>
      rw [advance_star hk]
      cases hq : skip str (k.takes arg) fuel m with
      | none => rfl
      | some q =>
        obtain ⟨hpq, hqle⟩ := skip_range hstr hdeaf hF.nonneg hF.le hq
        exact star_stuck hstr hlocs h hh (hL.move 0) hnext hpq hqle fuel fuel
    | rnge lo hi =>
      rw [advance_rnge hk, atLeast_all lo.toNat m htake, Option.bind_some]
      dsimp only
      cases hq : atMost str (k.takes arg) fuel (if hi = 255 then 20000 else hi.toNat - lo.toNat)
        ((m + lo.toNat : Nat) : Int) with
      | none => rfl
      | some q =>
        have hsize : 0 ≤ if hi = 255 then (20000 : Int) else hi.toNat - lo.toNat := by
          have hlohi : lo.toNat ≤ hi.toNat := hm
          split <;> omega
        have hle := hollow_le hh
        obtain ⟨hpq, hqle⟩ := atMost_range hstr hdeaf _ hsize (Int.natCast_nonneg _)
          (Int.ofNat_le.mpr hle) hq
        exact star_stuck hstr hlocs h hh (hL.move lo.toNat) hnext hpq hqle fuel fuel
  | cdol => exact nofun
  | @cbra opened closed g l hg hn h ih =>
    intro m start len b hh hL fuel
    cases fuel with
    | zero => rfl
    | succ fuel => exact (advance_cbra hn).trans (ih hh (hL.cbra hg) fuel)
  | @cket opened closed g l hg hc hn h ih =>
    intro m start len b hh hL fuel
    cases fuel with
    | zero => rfl
    | succ fuel => exact (advance_cket hn).trans (ih hh (hL.cket hg) fuel)
  | @cback opened closed g starred l hg h ih =>
    intro m start len b hh hL fuel
    cases fuel with
    | zero => rfl
    | succ fuel =>
    have hF := hL.fine (hollow_le hh)
    have hm := hollow_le hh
    obtain ⟨hp, -⟩ := hL.braslist g (hL.sub g hg)
    obtain ⟨hq, hle⟩ := hL.braelist g hg
    have hct : (start g + len g : Int) - start g = len g := by omega
    cases starred with
    | false =>
      obtain ⟨hsame, hh⟩ := hh
      rw [advance_cback hp hq, hct, ecmp_same hstr (len g) (start g) m (by omega) hsame]
      exact ih hh (hL.move (len g)) fuel
    | true =>
      rw [advance_cbackStar hp hq, hct]
      cases hh with
      | inl hend =>
        rw [hend.1]
        exact congrArg (Option.bind · _) (repeats_stuck _ _ fuel)
      | inr hh =>
        obtain ⟨hpos, hh⟩ := hh
        cases hlp : repeats str (start g) (len g) fuel m with
        | none => rfl
        | some lp' =>
          obtain ⟨hj, hge, hle'⟩ := repeats_range hstr (Int.natCast_nonneg _)
            (Int.natCast_nonneg _) (by omega) hF.nonneg hF.le hlp
          exact backUp_stuck (P := Agrees opened closed b) (by omega)
            (fun x b₁ r b₂ (hx : (m : Int) < x) (hx' : x < str.length + 1) ha hadv => by
              obtain ⟨hr, ha'⟩ := hollow_short hstr h hh
                ((hF.agree ha).move 0 (by omega) (show x ≤ str.length by omega)) (by omega) hadv
              exact ⟨hr, ha.trans ha'⟩)
            (fun b₁ ha => ih hh (hL.agree ha) fuel) hj (show lp' < str.length + 1 by omega)
            (Agrees.refl b)

/-- Where a starred back-reference can be to nothing, there is a line that leads to it. -/
theorem hollow_exists (hr : Ready opened closed l) :
    ∀ {str start len b}, (∀ x ∈ str, x ≠ 0) → Least opened closed str.length start len b →
      ¬ Solid str.length start len l →
        ∃ more, (∀ x ∈ str ++ more, x ≠ 0) ∧ Hollow (str ++ more) str.length start len l := by
  induction hr with
  | nil => exact fun _ _ hs => absurd trivial hs
  | @simple opened closed k arg md l hk hm hdeaf h ih =>
    intro str start len b hstr hL hs
    obtain ⟨hcan, hs⟩ := Classical.not_imp.mp hs
    obtain ⟨c, hc⟩ : ∃ c, c ≠ 0 ∧ (md.least = 0 ∨ k.takes arg c = true) := by
      cases hcan with
      | inl h0 => exact ⟨1, by decide, .inl h0⟩
      | inr ht =>
        obtain ⟨c, ht⟩ := ht
        exact ⟨c, fun h0 => Bool.false_ne_true (hdeaf.symm.trans (h0 ▸ ht)), .inr ht⟩
    have hlen : (str ++ List.replicate md.least c).length = str.length + md.least := by simp
    obtain ⟨more, hmore, hh⟩ := @ih (str ++ List.replicate md.least c) start len b
      (fun x hx => by
        cases List.mem_append.mp hx with
        | inl hx => exact hstr x hx
        | inr hx => exact List.eq_of_mem_replicate hx ▸ hc.1)
      (hlen ▸ hL.move md.least) (hlen ▸ hs)
    rw [hlen, List.append_assoc] at hh
    rw [List.append_assoc] at hmore
    refine ⟨_, hmore, fun i hi => ⟨c, ?_, hc.2.resolve_left (by omega)⟩, hh⟩
    rw [List.getElem?_append_right (Nat.le_add_right _ _), Nat.add_sub_cancel_left,
      List.getElem?_append_left (by simpa using hi), List.getElem?_replicate, if_pos hi]
  | cdol => exact fun _ _ hs => absurd trivial hs
  | @cbra opened closed g l hg hn h ih =>
    intro str start len b hstr hL hs
    exact ih hstr (hL.cbra hg) hs
  | @cket opened closed g l hg hc hn h ih =>
    intro str start len b hstr hL hs
    exact ih hstr (hL.cket hg) hs
  | @cback opened closed g starred l hg h ih =>
    intro str start len b hstr hL hs
    obtain ⟨-, hle⟩ := hL.braelist g hg
    cases starred with
    | false =>
      have hlen : (str ++ (str.drop (start g)).take (len g)).length = str.length + len g := by
        rw [List.length_append, List.length_take, List.length_drop]
        omega
      obtain ⟨more, hmore, hh⟩ := @ih (str ++ (str.drop (start g)).take (len g)) start
        len b
        (fun x hx => by
          cases List.mem_append.mp hx with
          | inl hx => exact hstr x hx
          | inr hx => exact hstr x (List.mem_of_mem_drop (List.mem_of_mem_take hx)))
        (hlen ▸ hL.move (len g)) (hlen ▸ hs)
      rw [hlen, List.append_assoc] at hh
      rw [List.append_assoc] at hmore
      refine ⟨_, hmore, fun i hi => ?_, hh⟩
      have hin : i < ((str.drop (start g)).take (len g)).length := by
        rw [List.length_take, List.length_drop]
        omega
      rw [List.getElem?_append_left (by omega),
        List.getElem?_append_right (Nat.le_add_right _ _), Nat.add_sub_cancel_left,
        List.getElem?_append_left hin, List.getElem?_take_of_lt hi, List.getElem?_drop]
    | true =>
      by_cases hpos : 0 < len g
      · obtain ⟨more, hmore, hh⟩ := ih hstr hL fun h => hs ⟨hpos, h⟩
        exact ⟨more, hmore, .inr ⟨hpos, hh⟩⟩
      · refine ⟨[], by simpa using hstr, .inl ⟨by omega, by simp⟩⟩

end runs

/-- Both return with enough turns, from every place of every string. -/
def Returns (circf : Bool) (p : List UInt8) : Prop :=
  ∀ (str : List UInt8) (locs : Int) (lp : Nat) (b : Braces), (∀ x ∈ str, x ≠ 0) →
    lp ≤ str.length →
      (∃ N r, ∀ fuel ≥ N, advance str locs fuel lp p b = some r) ∧
        ∃ N r, ∀ fuel ≥ N, step str locs circf fuel lp p b = some r

section scan
variable {str : List UInt8} {first : Option UInt8} {adv : Nat → Int → Braces → Ran}

theorem scan_ends (hstr : ∀ x ∈ str, x ≠ 0)
    (hadv : ∀ (lp : Nat) b, lp ≤ str.length → ∃ N r, ∀ fuel ≥ N, adv fuel lp b = some r)
    {p1 : Nat} (hle : p1 ≤ str.length) (b : Braces) :
    ∃ N r, ∀ fuel ≥ N, ∀ k ≥ N, scan str first (adv fuel) k p1 b = some r := by
  obtain ⟨d, hd⟩ : ∃ d, str.length = p1 + d := ⟨str.length - p1, by omega⟩
  induction d generalizing p1 b with
  | zero =>
    have hc : deref str p1 = some 0 := (show p1 = str.length by omega) ▸ deref_end str
    by_cases hf : first.all (· = 0) = true
    · obtain ⟨N, ⟨r, b'⟩, hN⟩ := hadv p1 b hle
      refine ⟨N + 1, (r.map fun loc2 => ((p1 : Int), loc2), b'), fun fuel hfuel k hk => ?_⟩
      obtain ⟨k, rfl⟩ : ∃ k', k = k' + 1 := ⟨k - 1, by omega⟩
      rw [scan, hc, Option.bind_eq_bind, Option.bind_some, if_pos hf, hN fuel (by omega)]
      cases r with
      | some loc2 => rfl
      | none => rfl
    · refine ⟨1, (none, b), fun fuel _ k hk => ?_⟩
      obtain ⟨k, rfl⟩ : ∃ k', k = k' + 1 := ⟨k - 1, by omega⟩
      rw [scan, hc, Option.bind_eq_bind, Option.bind_some, if_neg hf]
      rfl
  | succ d ih =>
    obtain ⟨c, hc, hne⟩ := deref_inside hstr (Int.natCast_nonneg p1) (by omega)
    by_cases hf : first.all (· = c) = true
    · obtain ⟨N, ⟨r, b'⟩, hN⟩ := hadv p1 b hle
      cases r with
      | some loc2 =>
        refine ⟨N + 1, (some (p1, loc2), b'), fun fuel hfuel k hk => ?_⟩
        obtain ⟨k, rfl⟩ : ∃ k', k = k' + 1 := ⟨k - 1, by omega⟩
        rw [scan, hc, Option.bind_eq_bind, Option.bind_some, if_pos hf, hN fuel (by omega)]
        rfl
      | none =>
        obtain ⟨N', r', hN'⟩ := @ih (p1 + 1) (by omega) b' (by omega)
        refine ⟨N + N' + 1, r', fun fuel hfuel k hk => ?_⟩
        obtain ⟨k, rfl⟩ : ∃ k', k = k' + 1 := ⟨k - 1, by omega⟩
        rw [scan, hc, Option.bind_eq_bind, Option.bind_some, if_pos hf, hN fuel (by omega)]
        exact (if_pos hne).trans (hN' fuel (by omega) k (by omega))
    · obtain ⟨N, r, hN⟩ := @ih (p1 + 1) (by omega) b (by omega)
      refine ⟨N + 1, r, fun fuel hfuel k hk => ?_⟩
      obtain ⟨k, rfl⟩ : ∃ k', k = k' + 1 := ⟨k - 1, by omega⟩
      rw [scan, hc, Option.bind_eq_bind, Option.bind_some, if_neg hf]
      exact (if_pos hne).trans (hN fuel (by omega) k (by omega))

end scan

theorem prog_ne_nil (l : List Item) : prog l ≠ [] := by
  cases l with
  | nil => exact List.cons_ne_nil _ _
  | cons it l => exact List.cons_ne_nil _ _

theorem returns_iff {l : List Item} (hr : Ready [] [] l) (circf : Bool) :
    Returns circf (prog l) ↔ Solid 0 (fun _ => 0) (fun _ => 0) l := by
  constructor
  · intro h
    by_contra hs
    have hL : Least [] [] ([] : List UInt8).length (fun _ => 0) (fun _ => 0)
        ⟨fun _ => none, fun _ => none⟩ := ⟨nofun, nofun, nofun⟩
    obtain ⟨more, hmore, hh⟩ := hollow_exists hr (fun _ hx => absurd hx List.not_mem_nil) hL hs
    obtain ⟨⟨N, r, hN⟩, -⟩ := h ([] ++ more) (-1) 0 ⟨fun _ => none, fun _ => none⟩ hmore
      (Nat.zero_le _)
    have hnone := hollow_stuck hmore (show (-1 : Int) < 0 by decide) hr hh hL N
    exact Option.some_ne_none r ((hN N (Nat.le_refl N)).symm.trans hnone)
  · intro hs str locs lp b hstr hle
    have hadv (lp : Nat) (b : Braces) (hle : lp ≤ str.length) :
        ∃ N r, ∀ fuel ≥ N, advance str locs fuel lp (prog l) b = some r := by
      have hF : Fine str [] [] 0 (fun _ => 0) (fun _ => 0) lp b :=
        ⟨Int.natCast_nonneg _, Int.ofNat_le.mpr hle, nofun, nofun, nofun⟩
      obtain ⟨N, r, b', -, hN⟩ := @advance_ends str [] [] locs l hstr hr _ _ _ _ _ hs hF
      exact ⟨N, _, hN⟩
    refine ⟨hadv lp b hle, ?_⟩
    cases circf with
    | true =>
      obtain ⟨N, ⟨r, b'⟩, hN⟩ := hadv lp b hle
      refine ⟨N, (r.map fun loc2 => ((lp : Int), loc2), b'), fun fuel hf => ?_⟩
      show (advance str locs fuel lp (prog l) b).bind _ = _
      rw [hN fuel hf]
      rfl
    | false =>
      have hscan (first : Option UInt8) : ∃ N r, ∀ fuel ≥ N, scan str first
          (fun lp b => advance str locs fuel lp (prog l) b) fuel lp b = some r := by
        obtain ⟨N, r, hN⟩ := @scan_ends str first
          (fun fuel lp b => advance str locs fuel lp (prog l) b) hstr hadv lp hle b
        exact ⟨N, r, fun fuel hf => hN fuel hf fuel hf⟩
      cases l with
      | nil => exact hscan none
      | cons it l =>
        by_cases hop : it.op = CCHR
        · obtain ⟨c, t, he⟩ := List.exists_cons_of_ne_nil
            (show it.args ++ prog l ≠ [] from fun h => prog_ne_nil l (List.append_eq_nil_iff.mp h).2)
          obtain ⟨N, r, hN⟩ := hscan (some c)
          refine ⟨N, r, fun fuel hf => ?_⟩
          have h := hN fuel hf
          rw [prog, he] at h ⊢
          exact ((if_neg Bool.false_ne_true).trans (if_pos hop)).trans h
        · obtain ⟨N, r, hN⟩ := hscan none
          refine ⟨N, r, fun fuel hf => ?_⟩
          have h := hN fuel hf
          rw [prog] at h ⊢
          exact ((if_neg Bool.false_ne_true).trans (if_neg hop)).trans h

section compiled
variable {sed : Bool} {endbuf : Nat} {eof old : UInt8} {text p rest : List UInt8} {circf : Bool}
  {nbra : Nat}

/-- What compile makes of a string is a program of items. -/
theorem compile_prog (h : compile sed endbuf eof old text = .ok (.made p circf nbra rest))
    (hnul : ∀ x ∈ text.dropLast, x ≠ 0) (hgood : ∀ s, (turns sed endbuf eof text).Reachable s →
      ¬ Misplaced eof s ∧ ¬ Unclosed eof s) : ∃ l, Ready [] [] l ∧ prog l = p := by
  obtain ⟨s₀, h₀⟩ : ∃ s₀, (turns sed endbuf eof text).init s₀ := by
    cases text with
    | nil => cases h
    | cons c t =>
      by_cases hend : c = eof ∨ c = newline
      · rw [compile, if_pos hend] at h
        split at h <;> cases h
      · rw [not_or] at hend
        exact ⟨_, c, t, rfl, hend.1, hend.2, rfl⟩
  obtain ⟨circf', fuel, -, he⟩ := compile_loop old h₀
  rw [h] at he
  obtain ⟨s, hrun, hres⟩ := loop_cases sed endbuf eof circf' fuel s₀
  rw [← he] at hres
  obtain hpast | ⟨e, -, hl⟩ | ⟨s', ht, hl⟩ := hres
  · cases hpast
  · cases hl
  cases hl
  have hs : (turns sed endbuf eof text).Reachable s := ⟨s₀, h₀, hrun⟩
  obtain ⟨s₁, h₁, l, opened, closed, hA⟩ := reached_at hgood hs
  obtain ⟨hm, hu⟩ := hgood s hs
  obtain ⟨l, opened, closed, hM, hout, htail, read, c, t, hread, hdeaf⟩ :=
    (turn_moves ht).good hA hm hu
  have hsuf : s₁.text <:+ text := reached_suffix ⟨s₁, h₁, .refl⟩
  obtain ⟨first, hfirst⟩ := hsuf
  have hd : Deaf l := hdeaf fun x hx => hnul x <| by
    rw [← hfirst, ← hread, ← List.append_assoc, List.dropLast_append_of_ne_nil (by simp)]
    exact List.mem_append_left _ (List.mem_append_right _ hx)
  have hprog := bytes_prog l []
  rw [prog, List.append_nil, ← hout] at hprog
  by_cases hdol : Item.cdol ∈ l
  · cases l with
    | nil => cases hdol
    | cons it l =>
      obtain rfl : it = .cdol := by
        cases List.mem_cons.mp hdol with
        | inl he => exact he.symm
        | inr ht => exact absurd ht htail
      cases hM with
      | cdol hM =>
        have hready := hM.ready (fun k arg m hx => hd k arg m (List.mem_cons_of_mem _ hx)) htail
          Ready.cdol
        rw [List.reverse_cons] at hprog
        exact ⟨_, hready, hprog.symm⟩
  · have hready := hM.ready hd hdol Ready.nil
    rw [List.append_nil] at hready
    exact ⟨_, hready, hprog.symm⟩

/-- Matching ends, from every place of every string, just where no starred back-reference can be to
an empty group. The pattern is a string, and has no interval behind what is no simple RE and no
back-reference inside its group. -/
theorem compile_returns_iff
    (h : compile sed endbuf eof old text = .ok (.made p circf nbra rest))
    (hnul : ∀ x ∈ text.dropLast, x ≠ 0) (hgood : ∀ s, (turns sed endbuf eof text).Reachable s →
      ¬ Misplaced eof s ∧ ¬ Unclosed eof s) :
    Returns circf p ↔
      ∀ l, Ready [] [] l → prog l = p → Solid 0 (fun _ => 0) (fun _ => 0) l := by
  constructor
  · rintro hret l hr rfl
    exact (returns_iff hr circf).mp hret
  · intro hs
    obtain ⟨l, hr, rfl⟩ := compile_prog h hnul hgood
    exact (returns_iff hr circf).mpr (hs l hr rfl)

theorem not_bad (hb : backslash ∉ text) {s : St} (h : (turns sed endbuf eof text).Reachable s) :
    ¬ Misplaced eof s ∧ ¬ Unclosed eof s := by
  have hsub := (reached_suffix h).subset
  constructor
  · rintro ⟨op, hop, -⟩
    rw [bound.eq_def] at hop
    split at hop
    · next c c' t ht =>
      split at hop
      · next hc => exact hb (hsub (by rw [ht, hc.1]; exact List.mem_cons_self))
      · cases hop
    · cases hop
  · rintro ⟨c, t, ht, -⟩
    exact hb (hsub (by rw [ht]; exact List.mem_cons_self))

/-- The text `a*b`. -/
theorem compile_returns_star : Returns false [5, 97, 4, 98, 22] ↔
    ∀ l, Ready [] [] l → prog l = [5, 97, 4, 98, 22] → Solid 0 (fun _ => 0) (fun _ => 0) l :=
  @compile_returns_iff false 10 0 0 [97, 42, 98, 0] [5, 97, 4, 98, 22] [] false 0 rfl (by simp)
    fun _ => not_bad (by decide)

/-- The text `\(\)\1*`. -/
theorem compile_hangs :
    compile false 16 0 0 [92, 40, 92, 41, 92, 49, 42, 0] =
        .ok (.made [2, 0, 24, 0, 37, 0, 22] false 1 []) ∧
      ¬ Returns false [2, 0, 24, 0, 37, 0, 22] := by
  refine ⟨rfl, fun h => ?_⟩
  have hr : Ready [] [] [.cbra 0, .cket 0, .cback 0 true] :=
    .cbra (by decide) (by decide) (.cket (by decide) (by decide) (by decide)
      (.cback (by decide) .nil))
  exact Nat.lt_irrefl 0 ((returns_iff hr false).mp h).1

end compiled

end Svr32.Regexp
