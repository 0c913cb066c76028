import Svr32.Regexp.Code

/-! What a turn of compile may do: it reads on in the text, and it puts an element behind the others
or changes the last one; and when it goes past the end of the buffer. -/
namespace Svr32.Regexp
variable {eof : UInt8} {endbuf : Nat} {s s' : St} {n : Next}

theorem bind_ok {α β : Type} {x : Except Stop α} {f : α → Except Stop β} {r : β}
    (h : (x >>= f) = .ok r) : ∃ a, x = .ok a ∧ f a = .ok r := by
  cases x with
  | error e => cases h
  | ok a => exact ⟨a, rfl, h⟩

theorem put_ok {out out' : List UInt8} {b : UInt8} (h : put endbuf out b = .ok out') :
    out' = out ++ [b] := by
  rw [put] at h
  split at h
  · exact (Except.ok.inj h).symm
  · cases h

/-- Two bytes, one behind the other. -/
theorem puts_ok {α : Type} {out : List UInt8} {b b' : UInt8} {f : List UInt8 → Except Stop α} {r : α}
    (h : (do let out ← put endbuf out b; let out ← put endbuf out b'; f out) = .ok r) :
    f (out ++ [b, b']) = .ok r := by
  obtain ⟨out₁, hput, h⟩ := bind_ok h
  obtain ⟨out₂, hput', h⟩ := bind_ok h
  rw [put_ok hput', put_ok hput, List.append_assoc] at h
  exact h

def Kind.code : Kind → UInt8
  | .chr => CCHR
  | .dot => CDOT
  | .cxcl => CXCL
  | .nccl => NCCL
  | .ccl => CCL

section brackets
variable {b b' : Bracket} {c lc : UInt8} {bits bits' text text' out out' : List UInt8} {ep : Nat}

theorem shiftRight_three (c : UInt8) : (c >>> 3).toNat = c.toNat / 8 := by
  simp [UInt8.toNat_shiftRight, Nat.shiftRight_eq_div_pow]

theorem high_iff (c : UInt8) : c &&& 128 = 0 ↔ c.toNat < 128 := by
  rcases c with ⟨b⟩
  revert b
  decide

theorem bit_even (c : UInt8) (h : (c >>> 3).toNat = 0) (h0 : c ≠ 0) : bit c &&& 1 = 0 := by
  rcases c with ⟨b⟩
  revert b
  decide

theorem or_and_one (x y : UInt8) : (x ||| y) &&& 1 = x &&& 1 ||| y &&& 1 :=
  UInt8.toBitVec_inj.mp BitVec.and_or_distrib_right

theorem or_one_and_one (x : UInt8) : (x ||| 1) &&& 1 = 1 := by
  rcases x with ⟨b⟩
  revert b
  decide

theorem isThere_zero (ep : List UInt8) : isThere ep 0 = decide (ep.headD 0 &&& 1 ≠ 0) := by
  cases ep <;> rfl

theorem place_ok (h : place bits c = .ok bits') :
    bits'.length = bits.length ∧ (c ≠ 0 → isThere bits' 0 = isThere bits 0) := by
  rw [place] at h
  split at h
  · obtain rfl := Except.ok.inj h
    refine ⟨List.length_modify _ _ _, fun hc => ?_⟩
    cases bits with
    | nil => rw [List.modify_nil]
    | cons x t =>
      rw [isThere_zero, isThere_zero]
      cases hk : (c >>> 3).toNat with
      | zero =>
        have he := or_and_one x (bit c)
        rw [bit_even c hk hc, UInt8.or_zero] at he
        rw [List.modify_zero_cons, List.headD_cons, List.headD_cons, he]
      | succ k => rfl
  · cases h

theorem placeRun_ok {n : Nat} (h : placeRun n bits lc = .ok bits') (hn : lc.toNat + n ≤ 256) :
    bits'.length = bits.length ∧ (lc ≠ 0 → isThere bits' 0 = isThere bits 0) := by
  induction n generalizing bits lc with
  | zero =>
    obtain rfl := Except.ok.inj h
    exact ⟨rfl, fun _ => rfl⟩
  | succ n ih =>
    obtain ⟨b, hb, hrest⟩ := bind_ok h
    obtain ⟨hlen, hthere⟩ := place_ok hb
    by_cases hn' : n = 0
    · subst hn'
      obtain rfl := Except.ok.inj hrest
      exact ⟨hlen, hthere⟩
    · have hnext : (lc + 1).toNat = lc.toNat + 1 := by
        rw [UInt8.toNat_add]
        exact Nat.mod_eq_of_lt (show lc.toNat + 1 < 2 ^ 8 by omega)
      obtain ⟨hlen', hthere'⟩ := ih hrest (by omega)
      refine ⟨hlen'.trans hlen, fun hlc => (hthere' fun h0 => ?_).trans (hthere hlc)⟩
      rw [h0] at hnext
      cases hnext

/- What a bracket stands for without a ^. -/
def Bracket.kind (b : Bracket) : Kind := if b.iflag then .ccl else .cxcl

/-- The opcode and the number of bytes belong together. -/
def Fits (b : Bracket) : Prop := b.op = b.kind.code ∧ b.bits.length = b.kind.width

theorem Fits.with (h : Fits b) (hlen : bits.length = b.bits.length) :
    Fits { b with bits } := ⟨h.1, hlen.trans h.2⟩

theorem zeros_ok (h : zeros endbuf ep bits = .ok bits') : bits' = bits ++ List.replicate 16 0 := by
  rw [zeros] at h
  split at h
  · exact (Except.ok.inj h).symm
  · cases h

theorem widen_ok (h : widen endbuf ep c b = .ok b') (hb : Fits b) :
    Fits b' ∧ c.toNat < 8 * b'.bits.length ∧ isThere b'.bits 0 = isThere b.bits 0 := by
  have hlt := c.toNat_lt
  rw [widen] at h
  split at h
  · next hw =>
    split at h
    · cases h
    · obtain ⟨bits, hz, h⟩ := bind_ok h
      cases h
      rw [zeros_ok hz]
      obtain ⟨-, hlen⟩ := hb
      rw [Bracket.kind, if_pos hw.2, Kind.width] at hlen
      have hlen' : (b.bits ++ List.replicate 16 0).length = 32 := by
        rw [List.length_append, hlen]
        rfl
      refine ⟨⟨rfl, hlen'⟩, ?_, ?_⟩
      · dsimp only
        omega
      · rw [isThere_zero, isThere_zero]
        cases hbits : b.bits with
        | nil => rw [hbits] at hlen; cases hlen
        | cons x t => rfl
  · next hw =>
    cases h
    refine ⟨hb, ?_, rfl⟩
    obtain ⟨-, hlen⟩ := hb
    rw [Bracket.kind] at hlen
    split at hlen
    · next hi =>
      have hhigh : c &&& 128 = 0 := by
        by_contra hh
        exact hw ⟨hh, hi⟩
      have hsmall := (high_iff c).mp hhigh
      rw [hlen, Kind.width]
      omega
    · rw [hlen, Kind.width]
      omega

theorem member_ok {lc' : Option UInt8} (h : member endbuf ep c lc b text = .ok (lc', b', text'))
    (hb : Fits b) : Fits b' ∧ ∃ t, text = t ++ text' ∧
      ((∀ x ∈ t, x ≠ 0) → isThere b'.bits 0 = isThere b.bits 0) := by
  rw [member] at h
  split at h
  · cases h
  next hc =>
    have hc0 : c ≠ 0 := fun h0 => hc (.inl h0)
    obtain ⟨b₁, hb₁, h⟩ := bind_ok h
    obtain ⟨hf₁, -, hthere₁⟩ := widen_ok hb₁ hb
    split at h
    · next hdash =>
      cases text with
      | nil => cases h
      | cons c' text =>
        dsimp only at h
        split at h
        · obtain ⟨bits, hbits, h⟩ := bind_ok h
          obtain ⟨hlen, hthere⟩ := place_ok hbits
          cases h
          exact ⟨hf₁.with hlen, [c'], rfl, fun _ => (hthere (by decide)).trans hthere₁⟩
        · obtain ⟨b₂, hb₂, h⟩ := bind_ok h
          obtain ⟨hf₂, -, hthere₂⟩ := widen_ok hb₂ hf₁
          obtain ⟨bits, hbits, h⟩ := bind_ok h
          have hlt := c'.toNat_lt
          have hlt' := lc.toNat_lt
          obtain ⟨hlen, hthere⟩ := placeRun_ok hbits (by omega)
          obtain ⟨bits', hbits', h⟩ := bind_ok h
          obtain ⟨hlen', hthere'⟩ := place_ok hbits'
          cases h
          refine ⟨hf₂.with (hlen'.trans hlen), [c'], rfl, fun ht => ?_⟩
          have hc0' := ht c' List.mem_cons_self
          exact (hthere' hc0').trans ((hthere hdash.2).trans (hthere₂.trans hthere₁))
    · obtain ⟨bits, hbits, h⟩ := bind_ok h
      obtain ⟨hlen, hthere⟩ := place_ok hbits
      cases h
      exact ⟨hf₁.with hlen, [], rfl, fun _ => (hthere hc0).trans hthere₁⟩

theorem members_ok {turns : Nat} (h : members endbuf ep turns c lc b text = .ok (b', text'))
    (hb : Fits b) : Fits b' ∧ ∃ t, text = t ++ text' ∧
      ((∀ x ∈ t, x ≠ 0) → isThere b'.bits 0 = isThere b.bits 0) := by
  induction turns generalizing c lc b text with
  | zero => cases h
  | succ turns ih =>
    rw [members] at h
    obtain ⟨⟨lc₁, b₁, text₁⟩, hm, h⟩ := bind_ok h
    obtain ⟨hf₁, t₁, ht₁, hthere₁⟩ := member_ok hm hb
    cases lc₁ with
    | none =>
      cases h
      exact ⟨hf₁, t₁, ht₁, hthere₁⟩
    | some lc₁ =>
      cases text₁ with
      | nil => cases h
      | cons c' text₁ =>
        dsimp only at h
        have hsplit : text = t₁ ++ [c'] ++ text₁ := by rw [ht₁, List.append_assoc]; rfl
        split at h
        · cases h
          exact ⟨hf₁, t₁ ++ [c'], hsplit, fun ht =>
            hthere₁ fun x hx => ht x (List.mem_append_left _ hx)⟩
        · obtain ⟨hf, t, ht, hthere⟩ := ih h hf₁
          refine ⟨hf, t₁ ++ [c'] ++ t, by rw [hsplit, ht]; simp only [List.append_assoc],
            fun hall => ?_⟩
          exact (hthere fun x hx => hall x (List.mem_append_right _ hx)).trans
            (hthere₁ fun x hx => hall x
              (List.mem_append_left _ (List.mem_append_left _ hx)))

/-- A negated bracket is a simple RE that does not take a NUL. -/
theorem negate_fits (hb : Fits b) : ∃ k : Kind, (negate b).op = k.code ∧
    (negate b).bits.length = k.width ∧ k.takes (negate b).bits 0 = false := by
  obtain ⟨hop, hlen⟩ := hb
  cases hbits : b.bits with
  | nil =>
    rw [hbits, Bracket.kind] at hlen
    split at hlen <;> cases hlen
  | cons x t =>
    rw [negate, hbits]
    rw [hbits, Bracket.kind] at hlen
    split at hlen
    · next hi =>
      rw [if_pos hi]
      refine ⟨.nccl, rfl, hlen, ?_⟩
      simp [Kind.takes, isThere_zero, or_one_and_one x]
    · next hi =>
      rw [if_neg hi]
      refine ⟨.cxcl, ?_, ?_, ?_⟩
      · rw [hop, Bracket.kind, if_neg hi]
      · rw [List.length_modify, List.length_map]
        exact hlen
      · have h1 : (x ^^^ 255) &&& 254 &&& 1 = 0 := by
          rw [UInt8.and_assoc]
          exact UInt8.and_zero
        simp [Kind.takes, isThere_zero, h1]

theorem fits_start : Fits ⟨true, CCL, List.replicate 16 0⟩ := ⟨rfl, rfl⟩

theorem bracket_ok (h : bracket endbuf out text = .ok (out', text')) :
    ∃ k arg c t, out' = out ++ Kind.code k :: arg ∧ arg.length = k.width ∧
      text = c :: t ++ text' ∧ ((∀ x ∈ t, x ≠ 0) → k.takes arg 0 = false) := by
  rw [bracket.eq_def] at h
  split at h
  · cases h
  obtain ⟨out₁, -, h⟩ := bind_ok h
  obtain ⟨bits, hz, h⟩ := bind_ok h
  rw [zeros_ok hz, List.nil_append] at h
  cases text with
  | nil => cases h
  | cons c text =>
    dsimp only at h
    split at h
    · cases text with
      | nil => cases h
      | cons c' text =>
        dsimp only at h
        obtain ⟨⟨b, text₁⟩, hm, h⟩ := bind_ok h
        obtain ⟨hb, t, ht, -⟩ := members_ok hm fits_start
        cases h
        obtain ⟨k, hop, hlen, hdeaf⟩ := negate_fits hb
        exact ⟨k, (negate b).bits, c, c' :: t, by rw [hop], hlen, by rw [ht]; rfl, fun _ => hdeaf⟩
    · obtain ⟨⟨b, text₁⟩, hm, h⟩ := bind_ok h
      obtain ⟨hb, t, ht, hthere⟩ := members_ok hm fits_start
      cases h
      refine ⟨b.kind, b.bits, c, t, by rw [hb.1], hb.2, by rw [ht]; rfl, fun hall => ?_⟩
      have hzero := hthere hall
      rw [Bracket.kind]
      split
      · rw [Kind.takes, hzero]
        rfl
      · rw [Kind.takes, hzero]
        rfl

end brackets

section intervals
variable {text text' out out' : List UInt8} {c c' i : UInt8}

theorem digits_ok {x y : Int} (h : digits text c x = .ok (y, c', text')) : text' <:+ text := by
  induction text generalizing c x with
  | nil => cases h
  | cons d text ih =>
    rw [digits] at h
    split at h
    · dsimp only at h
      split at h
      · exact (ih h).trans (List.suffix_cons _ _)
      · cases h
        exact List.suffix_cons _ _
    · cases h

theorem limit_ok (h : limit text = .ok (i, c, text')) : text' <:+ text := by
  cases text with
  | nil => cases h
  | cons d text =>
    rw [limit] at h
    obtain ⟨⟨x, c₁, text₁⟩, hd, h⟩ := bind_ok h
    dsimp only at h
    split at h
    · cases h
    · cases h
      exact (digits_ok hd).trans (List.suffix_cons _ _)

theorem closing_ok (h : closing text = .ok text') : text' <:+ text := by
  cases text with
  | nil => cases h
  | cons d text =>
    rw [closing] at h
    split at h
    · cases h
    · cases h
      exact List.suffix_cons _ _

theorem interval_ok (h : interval endbuf out text = .ok (out', text')) :
    (∃ lo hi, out' = out ++ [lo, hi] ∧ lo ≤ hi) ∧ text' <:+ text := by
  rw [interval] at h
  obtain ⟨⟨i, c, text₁⟩, hi, h⟩ := bind_ok h
  have hsuf := limit_ok hi
  obtain ⟨out₁, hput, h⟩ := bind_ok h
  have hput := put_ok hput
  split at h
  · cases text₁ with
    | nil => cases h
    | cons c₁ rest =>
      dsimp only at h
      split at h
      · obtain ⟨out₂, hput₂, h⟩ := bind_ok h
        have hput₂ := put_ok hput₂
        obtain ⟨text₂, hclose, h⟩ := bind_ok h
        split at h
        · cases h
        · next hle =>
          cases h
          refine ⟨⟨i, 255, by rw [hput₂, hput, List.append_assoc]; rfl, UInt8.not_lt.mp hle⟩, ?_⟩
          exact (closing_ok hclose).trans ((List.suffix_cons _ _).trans hsuf)
      · obtain ⟨⟨j, c₂, text₂⟩, hj, h⟩ := bind_ok h
        obtain ⟨out₂, hput₂, h⟩ := bind_ok h
        have hput₂ := put_ok hput₂
        split at h
        · cases h
        · obtain ⟨text₃, hclose, h⟩ := bind_ok h
          split at h
          · cases h
          · next hle =>
            cases h
            refine ⟨⟨i, j, by rw [hput₂, hput, List.append_assoc]; rfl, UInt8.not_lt.mp hle⟩, ?_⟩
            exact (closing_ok hclose).trans ((limit_ok hj).trans hsuf)
  · obtain ⟨text₂, hclose, h⟩ := bind_ok h
    obtain ⟨out₂, hput₂, h⟩ := bind_ok h
    have hput₂ := put_ok hput₂
    cases h
    refine ⟨⟨i, i, by rw [hput₂, hput, List.append_assoc]; rfl, UInt8.le_refl i⟩, ?_⟩
    exact (closing_ok hclose).trans hsuf

end intervals

/-- What a turn may do; the characters it reads come first. -/
inductive Moves (eof : UInt8) (s : St) : Next → Prop
  | simple {c t text k arg} (ht : s.text = c :: t ++ text) (hne : c ≠ eof ∧ c ≠ newline)
      (hlen : arg.length = Kind.width k)
      (hdeaf : (∀ x ∈ c :: t, x ≠ 0) → k.takes arg 0 = false) :
      Moves eof s (.go { s with text, out := s.out ++ k.code :: arg, lastep := some s.out.length })
  | cdol {c c' text} (ht : s.text = c :: c' :: text) (hne : c ≠ eof ∧ c ≠ newline)
      (hc : c' = eof ∨ c' = newline) :
      Moves eof s (.go { s with
        text := c' :: text, out := s.out ++ [CDOL], lastep := some s.out.length })
  | cbra {c c' text} (ht : s.text = c :: c' :: text) (hne : c ≠ eof ∧ c ≠ newline)
      (hn : s.nbra < NBRA) :
      Moves eof s (.go { s with
        text, out := s.out ++ [CBRA, UInt8.ofNat s.nbra], lastep := some s.out.length,
        bracket := UInt8.ofNat s.nbra :: s.bracket, nbra := s.nbra + 1 })
  | cket {c c' text g bracket} (ht : s.text = c :: c' :: text) (hne : c ≠ eof ∧ c ≠ newline)
      (hb : s.bracket = g :: bracket) :
      Moves eof s (.go { s with
        text, out := s.out ++ [CKET, g], lastep := some s.out.length, bracket,
        closed := s.closed + 1 })
  | cback {c text} (ht : s.text = backslash :: c :: text) (hne : backslash ≠ eof)
      (hc : one ≤ c ∧ c ≤ nine) (hlt : (c - one).toNat < s.closed) :
      Moves eof s (.go { s with
        text, out := s.out ++ [CBACK, c - one], lastep := some s.out.length })
  | star {text p} (ht : s.text = asterisk :: text) (hne : asterisk ≠ eof)
      (hp : s.lastep = some p) (hbra : s.out.getD p 0 ≠ CBRA) (hket : s.out.getD p 0 ≠ CKET) :
      Moves eof s (.go { s with text, out := s.out.modify p (· ||| STAR) })
  | interval {t text p lo hi} (ht : s.text = backslash :: lbrace :: t ++ text)
      (hne : backslash ≠ eof) (hp : s.lastep = some p) (hle : lo ≤ hi) :
      Moves eof s (.go { s with text, out := s.out.modify p (· ||| RNGE) ++ [lo, hi] })
  | ret {c text text' lastep} (ht : s.text = c :: text) (hb : s.bracket = []) :
      Moves eof s (.ret { s with text := text', out := s.out ++ [CCEOF], lastep })

section turns
variable {text : List UInt8} {c : UInt8} {lastep : Option Nat}

theorem defchar_moves {t : List UInt8} {c' : UInt8} (ht : s.text = c' :: t ++ text)
    (hne : c' ≠ eof ∧ c' ≠ newline) (hc : (∀ x ∈ c' :: t, x ≠ 0) → c ≠ 0)
    (h : defchar endbuf c { s with text, lastep } = .ok n) : Moves eof s n := by
  rw [defchar] at h
  have h := puts_ok h
  cases h
  refine .simple (k := .chr) ht hne rfl fun hx => ?_
  simpa [Kind.takes] using hc hx

theorem finish_moves {text' : List UInt8} (ht : s.text = c :: text)
    (h : finish endbuf { s with text := text', lastep } = .ok n) : Moves eof s n := by
  rw [finish] at h
  obtain ⟨out, hput, h⟩ := bind_ok h
  split at h
  · cases h
  · next hb =>
    cases h
    rw [put_ok hput]
    exact .ret ht (not_not.mp hb)

theorem escape_moves (ht : s.text = backslash :: text) (hne : backslash ≠ eof)
    (hlast : lastep = if text.head? = some lbrace then s.lastep else some s.out.length)
    (h : escape endbuf { s with text, lastep } = .ok n) : Moves eof s n := by
  cases htext : text with
  | nil => rw [htext] at h; cases h
  | cons c rest =>
    have hne' : backslash ≠ eof ∧ backslash ≠ newline := ⟨hne, by decide⟩
    rw [htext] at h ht hlast
    rw [escape] at h
    dsimp only at h
    by_cases hbra : c = lparen
    · have hlast' : lastep = some s.out.length := by rw [hlast, hbra]; rfl
      rw [if_pos hbra] at h
      split at h
      · cases h
      · next hn =>
        have h := puts_ok h
        cases h
        rw [hlast']
        exact .cbra ht hne' (Nat.lt_of_not_le hn)
    rw [if_neg hbra] at h
    by_cases hket : c = rparen
    · have hlast' : lastep = some s.out.length := by rw [hlast, hket]; rfl
      rw [if_pos hket] at h
      cases hb : s.bracket with
      | nil => rw [hb] at h; cases h
      | cons g bracket =>
        rw [hb] at h
        have h := puts_ok h
        cases h
        rw [hlast']
        exact .cket ht hne' hb
    rw [if_neg hket] at h
    by_cases hbrace : c = lbrace
    · have hlast' : lastep = s.lastep := by rw [hlast, hbrace]; exact if_pos rfl
      rw [if_pos hbrace, hlast'] at h
      cases hp : s.lastep with
      | none =>
        rw [hp] at h
        exact defchar_moves (t := [c]) ht hne' (fun hx => hx c (by simp)) h
      | some p =>
        rw [hp] at h
        obtain ⟨⟨out, text'⟩, hi, h⟩ := bind_ok h
        obtain ⟨⟨lo, hi', rfl, hle⟩, pre, hpre⟩ := interval_ok hi
        cases h
        have hread : s.text = backslash :: lbrace :: pre ++ text' := by
          rw [ht, hbrace, ← hpre]
          rfl
        rw [← hp]
        exact .interval hread hne hp hle
    rw [if_neg hbrace] at h
    have hlast' : lastep = some s.out.length := by
      rw [hlast]
      exact if_neg fun hh => hbrace (Option.some.inj hh)
    by_cases hnl : c = newline
    · rw [if_pos hnl] at h
      cases h
    rw [if_neg hnl] at h
    by_cases hn : c = letterN
    · rw [if_pos hn] at h
      exact defchar_moves (t := [c]) ht hne' (fun _ => by decide) h
    rw [if_neg hn] at h
    by_cases hdigit : one ≤ c ∧ c ≤ nine
    · rw [if_pos hdigit] at h
      split at h
      · cases h
      · next hlt =>
        have h := puts_ok h
        cases h
        rw [hlast']
        exact .cback ht hne hdigit (Nat.lt_of_not_le hlt)
    rw [if_neg hdigit] at h
    exact defchar_moves (t := [c]) ht hne' (fun hx => hx c (by simp)) h

theorem turn_moves {sed : Bool} (h : turn sed endbuf eof s = .ok n) : Moves eof s n := by
  rw [turn] at h
  split at h
  · cases h
  cases ht : s.text with
  | nil => rw [ht] at h; cases h
  | cons c text =>
    rw [ht] at h
    dsimp only at h
    split at h
    · cases h
    have hlast (hc : c ≠ asterisk) (hc' : c ≠ backslash) :
        decide (c ≠ asterisk ∧ (c ≠ backslash ∨ text.head? ≠ some lbrace)) = true :=
      decide_eq_true ⟨hc, .inl hc'⟩
    by_cases heof : c = eof
    · rw [if_pos heof] at h
      exact finish_moves ht h
    rw [if_neg heof] at h
    by_cases hdot : c = dot
    · rw [if_pos hdot] at h
      obtain ⟨out, hput, h⟩ := bind_ok h
      cases h
      subst hdot
      rw [put_ok hput]
      exact .simple (k := .dot) (t := []) ht ⟨heof, by decide⟩ rfl fun _ => rfl
    rw [if_neg hdot] at h
    by_cases hnl : c = newline
    · rw [if_pos hnl] at h
      split at h
      · exact finish_moves ht h
      · cases h
    rw [if_neg hnl] at h
    by_cases hstar : c = asterisk
    · subst hstar
      have hmoves : decide (asterisk ≠ asterisk ∧ (asterisk ≠ backslash ∨
          text.head? ≠ some lbrace)) = false := decide_eq_false fun hh => hh.1 rfl
      rw [if_pos rfl, hmoves, if_neg Bool.false_ne_true] at h
      cases hp : s.lastep with
      | none =>
        rw [hp] at h
        exact defchar_moves (t := []) ht ⟨heof, by decide⟩ (fun hx => hx _ (by simp)) h
      | some p =>
        rw [hp] at h
        dsimp only at h
        split at h
        · exact defchar_moves (t := []) ht ⟨heof, by decide⟩ (fun hx => hx _ (by simp)) h
        · next hne =>
          cases h
          rw [← hp]
          exact .star ht heof hp (fun he => hne (.inl he)) fun he => hne (.inr he)
    rw [if_neg hstar] at h
    by_cases hdollar : c = dollar
    · rw [if_pos hdollar] at h
      cases htext : text with
      | nil => rw [htext] at h; cases h
      | cons c' rest =>
        rw [htext] at h ht
        dsimp only at h
        split at h
        · exact defchar_moves (t := []) ht ⟨heof, hnl⟩ (fun hx => hx c (by simp)) h
        · obtain ⟨out, hput, h⟩ := bind_ok h
          cases h
          subst hdollar
          rw [put_ok hput]
          exact .cdol ht ⟨heof, hnl⟩ (by tauto)
    rw [if_neg hdollar] at h
    by_cases hlb : c = lbrack
    · rw [if_pos hlb] at h
      obtain ⟨⟨out, text'⟩, hb, h⟩ := bind_ok h
      obtain ⟨k, arg, c', t, rfl, hlen, htext, hdeaf⟩ := bracket_ok hb
      cases h
      subst hlb
      refine .simple (t := c' :: t) (ht.trans (by rw [htext]; rfl)) ⟨heof, hnl⟩ hlen fun hx => ?_
      exact hdeaf fun x hxt => hx x (List.mem_cons_of_mem _ (List.mem_cons_of_mem _ hxt))
    rw [if_neg hlb] at h
    by_cases hbs : c = backslash
    · rw [if_pos hbs] at h
      subst hbs
      refine escape_moves ht heof ?_ h
      by_cases hbrace : text.head? = some lbrace
      · rw [if_pos hbrace, if_neg]
        rw [hbrace]
        decide
      · rw [if_neg hbrace, if_pos]
        exact decide_eq_true ⟨by decide, .inr hbrace⟩
    rw [if_neg hbs] at h
    exact defchar_moves (t := []) ht ⟨heof, hnl⟩ (fun hx => hx c (by simp)) h

/- Whether an interval has a second byte to store. -/
def second (text : List UInt8) : Bool :=
  match limit text with
  | .error _ => false
  | .ok (_, c, text) =>
    if c = comma then
      match text with
      | [] => false
      | c :: rest => c = backslash || (limit (c :: rest)).isOk
    else (closing text).isOk

/- Whether an escape has two bytes to store, or the last one of two. -/
def escapePairs (s : St) : List UInt8 → Bool
  | [] => false
  | c :: text =>
    if c = lparen then s.nbra < NBRA
    else if c = rparen then !s.bracket.isEmpty
    else if c = lbrace then
      match s.lastep with
      | none => true
      | some _ => second text
    else if c = newline then false
    else if c = letterN then true
    else if one ≤ c ∧ c ≤ nine then (c - one).toNat < s.closed
    else true

/- Whether the turn from here stores a byte at ep[1]. -/
def pairs (eof : UInt8) (s : St) : Bool :=
  match s.text with
  | [] => false
  | c :: text =>
    if c = eof then false
    else if c = dot then false
    else if c = newline then false
    else if c = asterisk then
      match s.lastep with
      | none => true
      | some l => s.out.getD l 0 = CBRA ∨ s.out.getD l 0 = CKET
    else if c = dollar then
      match text with
      | [] => false
      | p :: _ => p ≠ eof ∧ p ≠ newline
    else if c = lbrack then false
    else if c = backslash then escapePairs s text
    else true

end turns

end Svr32.Regexp
