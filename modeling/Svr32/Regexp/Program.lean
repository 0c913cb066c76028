import Svr32.Regexp.Turn
import Svr32.Lib.System
import Mathlib.Data.List.Nodup

/-! What compile makes: simple REs, groups and back-references, one behind the other. -/
namespace Svr32.Regexp
open Svr32.Lib

/-- The bytes are opcodes of advance with their operands, up to CCEOF, where `opened` and `closed`
are the groups before them. -/
inductive Parses : List UInt8 → List UInt8 → List UInt8 → Prop
  | cceof {opened closed op} (h : opcode op = some .cceof) : Parses opened closed [op]
  | cdol {opened closed op ep} (h : opcode op = some .cdol) (hep : Parses opened closed ep) :
      Parses opened closed (op :: ep)
  | single {opened closed op ep k} (h : opcode op = some (.single k)) (hk : k.width ≤ ep.length)
      (hep : Parses opened closed (ep.drop k.width)) : Parses opened closed (op :: ep)
  | star {opened closed op ep k} (h : opcode op = some (.star k)) (hk : k.width ≤ ep.length)
      (hep : Parses opened closed (ep.drop k.width)) : Parses opened closed (op :: ep)
  | rnge {opened closed op ep k} (h : opcode op = some (.rnge k)) (hk : k.width + 2 ≤ ep.length)
      (hep : Parses opened closed (ep.drop (k.width + 2))) : Parses opened closed (op :: ep)
  | cbra {opened closed op ep g} (h : opcode op = some .cbra)
      (hep : Parses (g :: opened) closed ep) : Parses opened closed (op :: g :: ep)
  | cket {opened closed op ep g} (h : opcode op = some .cket) (hg : g ∈ opened)
      (hep : Parses opened (g :: closed) ep) : Parses opened closed (op :: g :: ep)
  | cback {opened closed op ep g} (h : opcode op = some .cback ∨ opcode op = some .cbackStar)
      (ho : g ∈ opened) (hc : g ∈ closed) (hep : Parses opened closed ep) :
      Parses opened closed (op :: g :: ep)

inductive Mode where
  | once
  | star
  | rnge (lo hi : UInt8)

inductive Item where
  | simple (k : Kind) (arg : List UInt8) (m : Mode)
  | cdol
  | cbra (g : UInt8)
  | cket (g : UInt8)
  | cback (g : UInt8) (starred : Bool)

def Mode.flag : Mode → UInt8
  | .once => 0
  | .star => STAR
  | .rnge _ _ => RNGE

def Mode.args : Mode → List UInt8
  | .once => []
  | .star => []
  | .rnge lo hi => [lo, hi]

/- Up to so many, but not fewer. -/
def Mode.Ordered : Mode → Prop
  | .once => True
  | .star => True
  | .rnge lo hi => lo ≤ hi

def Item.op : Item → UInt8
  | .simple k _ m => k.code ||| m.flag
  | .cdol => CDOL
  | .cbra _ => CBRA
  | .cket _ => CKET
  | .cback _ starred => if starred then CBACK ||| STAR else CBACK

def Item.args : Item → List UInt8
  | .simple _ arg m => arg ++ m.args
  | .cdol => []
  | .cbra g => [g]
  | .cket g => [g]
  | .cback g _ => [g]

/- The bytes of items, the last one first. -/
def bytes : List Item → List UInt8
  | [] => []
  | it :: l => bytes l ++ it.op :: it.args

/-- The items, the last one first, with the groups opened and closed by them, and the stack of those
still open. -/
inductive Made : List Item → List UInt8 → List UInt8 → List UInt8 → Prop
  | nil : Made [] [] [] []
  | simple {l opened closed open' k arg} (m : Mode) (h : Made l opened closed open')
      (hk : arg.length = k.width) (hm : m.Ordered) :
      Made (.simple k arg m :: l) opened closed open'
  | cdol {l opened closed open'} (h : Made l opened closed open') :
      Made (.cdol :: l) opened closed open'
  | cbra {l opened closed open'} (h : Made l opened closed open') (hn : opened.length < NBRA) :
      Made (.cbra (UInt8.ofNat opened.length) :: l) (UInt8.ofNat opened.length :: opened) closed
        (UInt8.ofNat opened.length :: open')
  | cket {l opened closed open' g} (h : Made l opened closed (g :: open')) :
      Made (.cket g :: l) opened (g :: closed) open'
  | cback {l opened closed open' g} (starred : Bool) (h : Made l opened closed open')
      (hg : g ∈ closed) : Made (.cback g starred :: l) opened closed open'

variable {l : List Item} {opened closed open' : List UInt8}

theorem Made.length_le (h : Made l opened closed open') : opened.length ≤ NBRA := by
  induction h with
  | nil => exact Nat.zero_le _
  | cbra _ hn _ => exact hn
  | simple | cdol | cket | cback => assumption

theorem Made.length_eq (h : Made l opened closed open') :
    opened.length = closed.length + open'.length := by
  induction h with
  | nil => rfl
  | simple _ _ _ _ ih => exact ih
  | cdol _ ih => exact ih
  | cbra _ _ ih => simp only [List.length_cons]; omega
  | cket _ ih => simp only [List.length_cons] at ih ⊢; omega
  | cback _ _ _ ih => exact ih

theorem Made.mem_iff (h : Made l opened closed open') (g : UInt8) :
    g ∈ opened ↔ g ∈ closed ∨ g ∈ open' := by
  induction h with
  | nil => simp
  | simple _ _ _ _ ih => exact ih
  | cdol _ ih => exact ih
  | cbra _ _ ih => rw [List.mem_cons, List.mem_cons, ih]; tauto
  | cket _ ih => rw [ih, List.mem_cons, List.mem_cons]; tauto
  | cback _ _ _ ih => exact ih

/-- The groups are numbered from 0 on. -/
theorem Made.opened_iff (h : Made l opened closed open') (g : UInt8) :
    g ∈ opened ↔ g.toNat < opened.length := by
  induction h with
  | nil => simp
  | simple _ _ _ _ ih => exact ih
  | cdol _ ih => exact ih
  | @cbra _ opened _ _ h hn ih =>
    have hof : (UInt8.ofNat opened.length).toNat = opened.length :=
      Nat.mod_eq_of_lt (Nat.lt_trans hn (by decide))
    rw [List.mem_cons, ih, List.length_cons, ← UInt8.toNat_inj, hof]
    omega
  | cket _ ih => exact ih
  | cback _ _ _ ih => exact ih

theorem Made.fresh (h : Made l opened closed open') (hn : opened.length < NBRA) :
    UInt8.ofNat opened.length ∉ opened := by
  rw [h.opened_iff]
  have hof : (UInt8.ofNat opened.length).toNat = opened.length :=
    Nat.mod_eq_of_lt (Nat.lt_trans hn (by decide))
  omega

theorem Made.nodup (h : Made l opened closed open') : (closed ++ open').Nodup := by
  induction h with
  | nil => exact .nil
  | simple _ _ _ _ ih => exact ih
  | cdol _ ih => exact ih
  | cbra h hn ih =>
    rw [List.perm_middle.nodup_iff, List.nodup_cons, List.mem_append, ← h.mem_iff]
    exact ⟨h.fresh hn, ih⟩
  | cket _ ih =>
    rw [List.perm_middle.nodup_iff] at ih
    exact ih
  | cback _ _ _ ih => exact ih

theorem Made.disjoint (h : Made l opened closed open') {g : UInt8} (hc : g ∈ closed) :
    g ∉ open' :=
  List.disjoint_of_nodup_append h.nodup hc

theorem opcode_single (k : Kind) : opcode (k.code ||| Mode.once.flag) = some (.single k) := by
  cases k <;> rfl

theorem opcode_star (k : Kind) : opcode (k.code ||| Mode.star.flag) = some (.star k) := by
  cases k <;> rfl

theorem opcode_rnge (k : Kind) (lo hi : UInt8) :
    opcode (k.code ||| (Mode.rnge lo hi).flag) = some (.rnge k) := by
  rw [Mode.flag]
  cases k <;> rfl

theorem opcode_cback (g : UInt8) (starred : Bool) :
    opcode (Item.cback g starred).op = some (if starred then .cbackStar else .cback) := by
  cases starred <;> rfl

/-- A simple RE that stands alone does not take a NUL. -/
def Deaf (l : List Item) : Prop := ∀ k arg m, Item.simple k arg m ∈ l → k.takes arg 0 = false

/- The place of the last item. -/
def last : List Item → Option Nat
  | [] => none
  | _ :: l => some (bytes l).length

/-- What is so before a turn, with `l` in the buffer. -/
structure At (eof : UInt8) (whole : List UInt8) (s : St) (l : List Item)
    (opened closed : List UInt8) : Prop where
  made : Made l opened closed s.bracket
  out : s.out = bytes l
  nbra : s.nbra = opened.length
  closed : s.closed = closed.length
  lastep : s.lastep = last l
  cdol : l.head? = some .cdol → ∃ c ∈ s.text.head?, c = eof ∨ c = newline
  tail : Item.cdol ∉ l.tail
  deaf : ∃ read, read ++ s.text = whole ∧ ((∀ x ∈ read, x ≠ 0) → Deaf l)

/-- After a turn: the loop goes on, or the program is whole. -/
def Good (eof : UInt8) (whole : List UInt8) : Next → Prop
  | .go s => ∃ l opened closed, At eof whole s l opened closed
  | .ret s => ∃ l opened closed, Made l opened closed [] ∧ s.out = bytes l ++ [CCEOF] ∧
      Item.cdol ∉ l.tail ∧ ∃ read c text, read ++ c :: text = whole ∧ ((∀ x ∈ read, x ≠ 0) → Deaf l)

/- *lastep at a `\x7b`, where it is set. -/
def bound (eof : UInt8) (s : St) : Option UInt8 :=
  match s.text with
  | c :: c' :: _ =>
    if c = backslash ∧ c' = lbrace ∧ c ≠ eof then s.lastep.map fun l => s.out.getD l 0 else none
  | _ => none

/- An interval behind what is no simple RE. -/
def Misplaced (eof : UInt8) (s : St) : Prop :=
  ∃ op ∈ bound eof s, ∀ k, opcode op ≠ some (.single k) ∧ opcode op ≠ some (.star k)

/- A back-reference to a group that is still open. -/
def Unclosed (eof : UInt8) (s : St) : Prop :=
  ∃ c text, s.text = backslash :: c :: text ∧ backslash ≠ eof ∧ one ≤ c ∧ c ≤ nine ∧
    (c - one).toNat < s.closed ∧ c - one ∈ s.bracket


variable {eof : UInt8} {s s' : St} {n : Next} {it : Item}

theorem modify_behind (a b : List UInt8) (k : Nat) (f : UInt8 → UInt8) :
    (a ++ b).modify (a.length + k) f = a ++ b.modify k f := by
  induction a with
  | nil => rw [List.length_nil, Nat.zero_add]; rfl
  | cons x a ih =>
    rw [List.length_cons, Nat.add_right_comm, List.cons_append, List.modify_succ_cons, ih]
    rfl

theorem modify_last (l : List Item) (it : Item) (f : UInt8 → UInt8) :
    (bytes (it :: l)).modify (bytes l).length f = bytes l ++ f it.op :: it.args :=
  modify_behind (bytes l) (it.op :: it.args) 0 f

theorem getD_last (l : List Item) (it : Item) :
    (bytes (it :: l)).getD (bytes l).length 0 = it.op := by
  rw [bytes, List.getD_eq_getElem?_getD, List.getElem?_append_right (Nat.le_refl _), Nat.sub_self]
  rfl

section turns
variable {whole text : List UInt8}

/-- An item goes behind the others. -/
theorem At.push (hA : At eof whole s l opened closed) {opened' closed' t : List UInt8} {c : UInt8}
    (ht : s.text = c :: t ++ s'.text) (hne : c ≠ eof ∧ c ≠ newline) (hout : s'.out = s.out ++ it.op :: it.args)
    (hlast : s'.lastep = some s.out.length) (hM : Made (it :: l) opened' closed' s'.bracket)
    (hn : s'.nbra = opened'.length) (hc : s'.closed = closed'.length)
    (hd : it = .cdol → ∃ c ∈ s'.text.head?, c = eof ∨ c = newline)
    (hdeaf : (∀ x ∈ c :: t, x ≠ 0) → Deaf [it]) :
    At eof whole s' (it :: l) opened' closed' where
  made := hM
  out := by rw [hout, hA.out, bytes]
  nbra := hn
  closed := hc
  lastep := by rw [hlast, hA.out, last]
  cdol h := hd (Option.some.inj h)
  tail hmem := by
    have hnot := hA.tail
    cases l with
    | nil => cases hmem
    | cons it' l =>
      cases List.mem_cons.mp hmem with
      | inl he =>
        obtain ⟨c', hc', hor⟩ := hA.cdol (congrArg some he.symm)
        rw [ht] at hc'
        cases hc'
        exact hor.elim hne.1 hne.2
      | inr hmem => exact hnot hmem
  deaf := by
    obtain ⟨read, hread, hall⟩ := hA.deaf
    refine ⟨read ++ c :: t, by rw [List.append_assoc, ← ht, hread], fun hx k arg m hmem => ?_⟩
    cases List.mem_cons.mp hmem with
    | inl he => exact hdeaf (fun x hxt => hx x (List.mem_append_right _ hxt)) k arg m (by simp [he])
    | inr hmem => exact hall (fun x hxr => hx x (List.mem_append_left _ hxr)) k arg m hmem

/-- The last item is another one, with more behind it. -/
theorem At.change (hA : At eof whole s (it :: l) opened closed) {it' : Item} {f : UInt8 → UInt8}
    {more t : List UInt8} (ht : s.text = t ++ s'.text)
    (hout : s'.out = s.out.modify (bytes l).length f ++ more) (hlast : s'.lastep = s.lastep)
    (hb : s'.bracket = s.bracket) (hn : s'.nbra = s.nbra) (hc : s'.closed = s.closed)
    (hop : it'.op = f it.op) (hargs : it'.args = it.args ++ more)
    (hM : Made (it' :: l) opened closed s.bracket) (hd : it' ≠ .cdol)
    (hsame : ∀ k arg m, it' = .simple k arg m → ∃ m', it = .simple k arg m') :
    At eof whole s' (it' :: l) opened closed where
  made := hb ▸ hM
  out := by
    rw [hout, hA.out, modify_last, bytes, hop, hargs, List.append_assoc, List.cons_append]
  nbra := hn.trans hA.nbra
  closed := hc.trans hA.closed
  lastep := hlast.trans hA.lastep
  cdol h := absurd (Option.some.inj h) hd
  tail := hA.tail
  deaf := by
    obtain ⟨read, hread, hall⟩ := hA.deaf
    refine ⟨read ++ t, by rw [List.append_assoc, ← ht, hread], fun hx k arg m hmem => ?_⟩
    have hdeaf := hall fun x hxr => hx x (List.mem_append_left _ hxr)
    cases List.mem_cons.mp hmem with
    | inl he =>
      obtain ⟨m', he'⟩ := hsame k arg m he.symm
      exact hdeaf k arg m' (by simp [he'])
    | inr hmem => exact hdeaf k arg m (List.mem_cons_of_mem _ hmem)

/- *lastep |= STAR -/
def Item.starred : Item → Item
  | .simple k arg .once => .simple k arg .star
  | .cback g _ => .cback g true
  | it => it

theorem Item.starred_op (it : Item) (h : it ≠ .cdol) (hbra : it.op ≠ CBRA) (hket : it.op ≠ CKET) :
    it.starred.op = it.op ||| STAR ∧ it.starred.args = it.args := by
  cases it with
  | simple k arg m =>
    have hstar : k.code ||| STAR ||| STAR = k.code ||| STAR := by cases k <;> decide
    have hrnge : k.code ||| RNGE ||| STAR = k.code ||| RNGE := by cases k <;> decide
    cases m with
    | once => exact ⟨congrArg (· ||| STAR) (UInt8.or_zero (a := k.code)).symm, rfl⟩
    | star => exact ⟨hstar.symm, rfl⟩
    | rnge lo hi => exact ⟨hrnge.symm, rfl⟩
  | cdol => exact absurd rfl h
  | cbra g => exact absurd rfl hbra
  | cket g => exact absurd rfl hket
  | cback g starred =>
    cases starred with
    | false => exact ⟨rfl, rfl⟩
    | true => exact ⟨(by decide : CBACK ||| STAR = CBACK ||| STAR ||| STAR), rfl⟩

theorem Made.starred (h : Made (it :: l) opened closed open') :
    Made (it.starred :: l) opened closed open' := by
  cases h with
  | simple m h hk hm => cases m <;> exact h.simple _ hk (by trivial)
  | cdol h => exact h.cdol
  | cbra h hn => exact h.cbra hn
  | cket h => exact h.cket
  | cback starred h hg => exact h.cback true hg

theorem Made.simple_inv {k : Kind} {arg : List UInt8} {m : Mode}
    (h : Made (.simple k arg m :: l) opened closed open') :
    Made l opened closed open' ∧ arg.length = k.width := by
  cases h with
  | simple m h hk _ => exact ⟨h, hk⟩

/- *lastep |= RNGE -/
theorem flag_rnge (k : Kind) {m : Mode} (h : m.args = []) :
    k.code ||| m.flag ||| RNGE = k.code ||| RNGE := by
  cases m with
  | once => exact congrArg (· ||| RNGE) UInt8.or_zero
  | star => cases k <;> decide
  | rnge lo hi => cases h

/-- What an interval may stand behind. -/
theorem Item.single_of_opcode {k : Kind}
    (h : opcode it.op = some (.single k) ∨ opcode it.op = some (.star k)) :
    ∃ k arg m, it = .simple k arg m ∧ m.args = [] := by
  cases it with
  | simple k arg m =>
    refine ⟨k, arg, m, rfl, ?_⟩
    cases m with
    | once => rfl
    | star => rfl
    | rnge lo hi =>
      rw [Item.op, opcode_rnge] at h
      cases h <;> rename_i h <;> cases h
  | cdol => cases h <;> rename_i h <;> cases h
  | cbra g => cases h <;> rename_i h <;> cases h
  | cket g => cases h <;> rename_i h <;> cases h
  | cback g starred => cases starred <;> cases h <;> rename_i h <;> cases h

/-- A turn that neither sets an interval where it does not belong nor goes back into an open group
leaves the buffer with items. -/
theorem Moves.good (h : Moves eof s n) (hA : At eof whole s l opened closed)
    (hm : ¬ Misplaced eof s) (hu : ¬ Unclosed eof s) : Good eof whole n := by
  cases h with
  | @simple c t text k arg ht hne hlen hdeaf =>
    refine ⟨.simple k arg .once :: l, opened, closed, hA.push ht hne ?_ rfl
      (hA.made.simple _ hlen trivial) hA.nbra hA.closed nofun fun hx k' arg' m' hmem => ?_⟩
    · rw [Item.op, Item.args, Mode.flag, Mode.args, UInt8.or_zero, List.append_nil]
    · cases List.mem_singleton.mp hmem
      exact hdeaf hx
  | @cdol c c' text ht hne hc =>
    refine ⟨.cdol :: l, opened, closed, hA.push (t := []) ht hne rfl rfl hA.made.cdol hA.nbra hA.closed
      (fun _ => ⟨c', rfl, hc⟩) fun _ _ _ _ hmem => ?_⟩
    cases List.mem_singleton.mp hmem
  | @cbra c c' text ht hne hn =>
    rw [hA.nbra] at hn ⊢
    refine ⟨.cbra (UInt8.ofNat opened.length) :: l, UInt8.ofNat opened.length :: opened, closed,
      hA.push (t := [c']) ht hne rfl rfl (hA.made.cbra hn) rfl hA.closed nofun
        fun _ _ _ _ hmem => ?_⟩
    cases List.mem_singleton.mp hmem
  | @cket c c' text g bracket ht hne hb =>
    have hM := hA.made
    rw [hb] at hM
    refine ⟨.cket g :: l, opened, g :: closed, hA.push (t := [c']) ht hne rfl rfl hM.cket hA.nbra ?_
      nofun fun _ _ _ _ hmem => ?_⟩
    · rw [hA.closed]
      rfl
    · cases List.mem_singleton.mp hmem
  | @cback c text ht hne hc hlt =>
    have hnot : c - one ∉ s.bracket := fun hin =>
      hu ⟨c, text, ht, hne, hc.1, hc.2, hlt, hin⟩
    have hopened : c - one ∈ opened := by
      rw [hA.made.opened_iff, hA.made.length_eq, ← hA.closed]
      omega
    have hclosed := ((hA.made.mem_iff _).mp hopened).resolve_right hnot
    refine ⟨.cback (c - one) false :: l, opened, closed, hA.push (t := [c]) ht ⟨hne, by decide⟩ rfl rfl
      (hA.made.cback false hclosed) hA.nbra hA.closed nofun fun _ _ _ _ hmem => ?_⟩
    cases List.mem_singleton.mp hmem
  | @star text p ht hne hp hbra hket =>
    rw [hA.lastep] at hp
    cases l with
    | nil => cases hp
    | cons it l =>
      cases hp
      rw [hA.out, getD_last] at hbra hket
      have hdol : it ≠ .cdol := fun he => by
        obtain ⟨c', hc', hor⟩ := hA.cdol (congrArg some he)
        rw [ht] at hc'
        cases hc'
        cases hor with
        | inl he => exact hne he
        | inr he => exact absurd he (by decide)
      obtain ⟨hop, hargs⟩ := it.starred_op hdol hbra hket
      refine ⟨it.starred :: l, opened, closed, hA.change (f := (· ||| STAR)) (t := [asterisk]) ht
        (List.append_nil _).symm rfl rfl rfl rfl hop (hargs.trans (List.append_nil _).symm)
          hA.made.starred ?_ fun k arg m he => ?_⟩
      · cases it with
        | simple k arg m => cases m <;> nofun
        | cdol => exact absurd rfl hdol
        | cbra g => nofun
        | cket g => nofun
        | cback g starred => nofun
      · cases it with
        | simple k' arg' m' => cases m' <;> cases he <;> exact ⟨_, rfl⟩
        | cdol => cases he
        | cbra g => cases he
        | cket g => cases he
        | cback g starred => cases he
  | @interval t text p lo hi ht hne hp hle =>
    have hp' := hp
    rw [hA.lastep] at hp'
    cases l with
    | nil => cases hp'
    | cons it l =>
      cases hp'
      have hbound : bound eof s = some it.op := by
        rw [bound, ht, hp, hA.out]
        refine (if_pos ⟨rfl, rfl, hne⟩).trans ?_
        rw [Option.map_some, getD_last]
      have hop : ∃ k, opcode it.op = some (.single k) ∨ opcode it.op = some (.star k) := by
        by_contra hno
        exact hm ⟨it.op, hbound, fun k => ⟨fun hk => hno ⟨k, .inl hk⟩, fun hk => hno ⟨k, .inr hk⟩⟩⟩
      obtain ⟨k₀, hop⟩ := hop
      obtain ⟨k, arg, m, rfl, hargs⟩ := Item.single_of_opcode hop
      obtain ⟨hM, hk⟩ := hA.made.simple_inv
      refine ⟨.simple k arg (.rnge lo hi) :: l, opened, closed, hA.change ht rfl rfl rfl rfl rfl
        (flag_rnge k hargs).symm ?_ (hM.simple _ hk hle) nofun fun k' arg' m' he => ?_⟩
      · rw [Item.args, Item.args, hargs, List.append_nil]
        rfl
      · cases he
        exact ⟨m, rfl⟩
  | @ret c text text' lastep ht hb =>
    obtain ⟨read, hread, hdeaf⟩ := hA.deaf
    have hM := hA.made
    rw [hb] at hM
    exact ⟨l, opened, closed, hM, by rw [← hA.out], hA.tail, read, c, text, by rw [← ht, hread], hdeaf⟩

theorem Parses.inv {op : UInt8} {ep : List UInt8} (h : Parses opened closed (op :: ep)) :
    match opcode op with
    | none => False
    | some .cceof => ep = []
    | some .cdol => Parses opened closed ep
    | some (.single k) => Parses opened closed (ep.drop k.width)
    | some (.star k) => Parses opened closed (ep.drop k.width)
    | some (.rnge k) => Parses opened closed (ep.drop (k.width + 2))
    | some .cbra => ∃ g t, ep = g :: t ∧ Parses (g :: opened) closed t
    | some .cket => ∃ g t, ep = g :: t ∧ Parses opened (g :: closed) t
    | some .cback => ∃ g t, ep = g :: t ∧ g ∈ closed ∧ Parses opened closed t
    | some .cbackStar => ∃ g t, ep = g :: t ∧ g ∈ closed ∧ Parses opened closed t := by
  cases h with
  | cceof h => rw [h]
  | cdol h hep => rw [h]; exact hep
  | single h _ hep => rw [h]; exact hep
  | star h _ hep => rw [h]; exact hep
  | rnge h _ hep => rw [h]; exact hep
  | cbra h hep => rw [h]; exact ⟨_, _, rfl, hep⟩
  | cket h _ hep => rw [h]; exact ⟨_, _, rfl, hep⟩
  | cback h _ hc hep =>
    cases h with
    | inl h => rw [h]; exact ⟨_, _, rfl, hc, hep⟩
    | inr h => rw [h]; exact ⟨_, _, rfl, hc, hep⟩

/-- What stands behind the items is run after them. -/
theorem Made.behind (h : Made l opened closed open') :
    ∀ {ep}, Parses [] [] (bytes l ++ ep) → Parses opened closed ep := by
  induction h with
  | nil => exact id
  | @simple l _ _ _ k arg m h hk _ ih =>
    intro ep hep
    rw [bytes, List.append_assoc, List.cons_append] at hep
    have hinv := (ih hep).inv
    rw [Item.op] at hinv
    cases m with
    | once =>
      rw [opcode_single] at hinv
      simpa [Item.args, Mode.args, ← hk] using hinv
    | star =>
      rw [opcode_star] at hinv
      simpa [Item.args, Mode.args, ← hk] using hinv
    | rnge lo hi =>
      have hlen : k.width + 2 = (arg ++ [lo, hi]).length := by simp [hk]
      rw [opcode_rnge] at hinv
      dsimp only at hinv
      rw [Item.args, Mode.args, hlen, List.drop_left] at hinv
      exact hinv
  | cdol h ih =>
    intro ep hep
    rw [bytes, List.append_assoc, List.cons_append] at hep
    exact (ih hep).inv
  | cbra h hn ih =>
    intro ep hep
    rw [bytes, List.append_assoc, List.cons_append] at hep
    obtain ⟨g, t, he, hp⟩ := (ih hep).inv
    cases he
    exact hp
  | cket h ih =>
    intro ep hep
    rw [bytes, List.append_assoc, List.cons_append] at hep
    obtain ⟨g, t, he, hp⟩ := (ih hep).inv
    cases he
    exact hp
  | cback starred h hg ih =>
    intro ep hep
    rw [bytes, List.append_assoc, List.cons_append] at hep
    have hinv := (ih hep).inv
    rw [opcode_cback] at hinv
    cases starred with
    | false =>
      obtain ⟨g, t, he, -, hp⟩ := hinv
      cases he
      exact hp
    | true =>
      obtain ⟨g, t, he, -, hp⟩ := hinv
      cases he
      exact hp

/- What no run gets past: an opcode advance has no case for, or a group that is not closed. -/
def Bad (closed : List UInt8) (op g : UInt8) : Prop :=
  (op = CBRA ||| RNGE ∨ op = CKET ||| RNGE ∨ op = CBACK ||| RNGE) ∨
    (op = CBACK ∨ op = CBACK ||| STAR) ∧ g ∉ closed

/-- The buffer has something bad, and what is changed is behind it. -/
def Broken (s : St) : Prop :=
  ∃ l opened closed open' op g rest q, Made l opened closed open' ∧
    s.out = bytes l ++ op :: g :: rest ∧ Bad closed op g ∧ s.lastep = some q ∧
      (q = (bytes l).length ∨ (bytes l).length + 2 ≤ q)

theorem Broken.append (h : Broken s) {more : List UInt8} (hout : s'.out = s.out ++ more)
    (hlast : s'.lastep = some s.out.length) : Broken s' := by
  obtain ⟨l, opened, closed, open', op, g, rest, q, hM, hs, hb, -, -⟩ := h
  refine ⟨l, opened, closed, open', op, g, rest ++ more, s.out.length, hM, ?_, hb, hlast, ?_⟩
  · rw [hout, hs, List.append_assoc]
    rfl
  · rw [hs, List.length_append, List.length_cons, List.length_cons]
    omega

/-- *lastep changes. -/
theorem Broken.modify (h : Broken s) {f : UInt8 → UInt8} {more : List UInt8} {p : Nat}
    (hf : ∀ closed op g, Bad closed op g → Bad closed (f op) g) (hp : s.lastep = some p)
    (hout : s'.out = s.out.modify p f ++ more) (hlast : s'.lastep = s.lastep) : Broken s' := by
  obtain ⟨l, opened, closed, open', op, g, rest, q, hM, hs, hb, hq, hor⟩ := h
  obtain rfl : q = p := Option.some.inj (hq.symm.trans hp)
  cases hor with
  | inl he =>
    refine ⟨l, opened, closed, open', f op, g, rest ++ more, q, hM, ?_, hf _ _ _ hb,
      hlast.trans hq, .inl he⟩
    have hm := modify_behind (bytes l) (op :: g :: rest) 0 f
    rw [Nat.add_zero] at hm
    rw [hout, hs, he, hm, List.append_assoc]
    rfl
  | inr hge =>
    obtain ⟨k, hk⟩ : ∃ k, q = (bytes l).length + (k + 2) := ⟨q - (bytes l).length - 2, by omega⟩
    refine ⟨l, opened, closed, open', op, g, rest.modify k f ++ more, q, hM, ?_, hb,
      hlast.trans hq, .inr hge⟩
    rw [hout, hs, hk, modify_behind, List.append_assoc]
    rfl

variable {sed : Bool} {endbuf : Nat} {c : UInt8}

/- The turns of compile, where it gets to them. -/
def turns (sed : Bool) (endbuf : Nat) (eof : UInt8) (text : List UInt8) : System St where
  init s := ∃ c rest, text = c :: rest ∧ c ≠ eof ∧ c ≠ newline ∧
    s = start (if c = caret then rest else text)
  step s s' := turn sed endbuf eof s = .ok (.go s')

theorem at_start (eof : UInt8) (text : List UInt8) : At eof text (start text) [] [] [] where
  made := .nil
  out := rfl
  nbra := rfl
  closed := rfl
  lastep := rfl
  cdol := nofun
  tail := nofun
  deaf := ⟨[], rfl, fun _ _ _ _ => nofun⟩

/-- compile runs its loop, with turns enough. -/
theorem compile_loop (old : UInt8) (h : (turns sed endbuf eof text).init s) :
    ∃ circf fuel, s.text.length < fuel ∧
      compile sed endbuf eof old text = loop sed endbuf eof circf fuel s := by
  obtain ⟨c, rest, rfl, heof, hnl, rfl⟩ := h
  rw [compile, if_neg (not_or.mpr ⟨heof, hnl⟩)]
  by_cases hc : c = caret
  · rw [if_pos hc, if_pos hc]
    exact ⟨true, _, Nat.lt_succ_self _, rfl⟩
  · rw [if_neg hc, if_neg hc]
    exact ⟨false, _, Nat.lt_succ_self _, rfl⟩

/-- The loop stops with what some turn stops with, or with a program of the last turn. -/
theorem loop_cases (sed : Bool) (endbuf : Nat) (eof : UInt8) (circf : Bool) (fuel : Nat) (s : St) :
    ∃ s',
    Relation.ReflTransGen (fun s s' => turn sed endbuf eof s = .ok (.go s')) s s' ∧
      ((loop sed endbuf eof circf fuel s = .error .past) ∨
        (∃ e, turn sed endbuf eof s' = .error e ∧ loop sed endbuf eof circf fuel s = .error e) ∨
          ∃ s'', turn sed endbuf eof s' = .ok (.ret s'') ∧
            loop sed endbuf eof circf fuel s = .ok (.made s''.out circf s''.nbra s''.text)) := by
  induction fuel generalizing s with
  | zero => exact ⟨s, .refl, .inl rfl⟩
  | succ fuel ih =>
    cases ht : turn sed endbuf eof s with
    | error e =>
      refine ⟨s, .refl, .inr (.inl ⟨e, ht, ?_⟩)⟩
      rw [loop, ht]
      rfl
    | ok n =>
      cases n with
      | go s₁ =>
        obtain ⟨s', hrun, hres⟩ := ih s₁
        have hloop : loop sed endbuf eof circf (fuel + 1) s = loop sed endbuf eof circf fuel s₁ := by
          rw [loop, ht]
          rfl
        rw [hloop]
        exact ⟨s', .head ht hrun, hres⟩
      | ret s₁ =>
        refine ⟨s, .refl, .inr (.inr ⟨s₁, ht, ?_⟩)⟩
        rw [loop, ht]
        rfl

theorem turn_suffix (h : turn sed endbuf eof s = .ok (.go s')) : s'.text <:+ s.text := by
  cases turn_moves h with
  | simple ht _ _ _ => exact ⟨_, ht.symm⟩
  | cdol ht _ _ => exact ⟨[_], ht.symm⟩
  | cbra ht _ _ => exact ⟨[_, _], ht.symm⟩
  | cket ht _ _ => exact ⟨[_, _], ht.symm⟩
  | cback ht _ _ _ => exact ⟨[_, _], ht.symm⟩
  | star ht _ _ _ _ => exact ⟨[_], ht.symm⟩
  | interval ht _ _ _ => exact ⟨_, ht.symm⟩

theorem reached_suffix (h : (turns sed endbuf eof text).Reachable s) : s.text <:+ text := by
  refine System.invariant (fun s => s.text <:+ text) (fun s hs => ?_)
    (fun s s' hs ht => (turn_suffix ht).trans hs) h
  obtain ⟨c, rest, rfl, -, -, rfl⟩ := hs
  by_cases hc : c = caret
  · rw [if_pos hc]
    exact List.suffix_cons _ _
  · rw [if_neg hc]
    exact List.suffix_refl _

/-- Where no turn goes wrong, there are items in the buffer. -/
theorem reached_at (hgood : ∀ s, (turns sed endbuf eof text).Reachable s →
      ¬ Misplaced eof s ∧ ¬ Unclosed eof s) (h : (turns sed endbuf eof text).Reachable s) :
    ∃ s₀, (turns sed endbuf eof text).init s₀ ∧ ∃ l opened closed, At eof s₀.text s l opened closed := by
  obtain ⟨s₀, h₀, hrun⟩ := h
  refine ⟨s₀, h₀, ?_⟩
  induction hrun with
  | refl =>
    obtain ⟨c, rest, rfl, -, -, rfl⟩ := h₀
    exact ⟨[], [], [], at_start _ _⟩
  | @tail s₁ s₂ hrun hst ih =>
    obtain ⟨l, opened, closed, hA⟩ := ih
    obtain ⟨hm, hu⟩ := hgood s₁ ⟨s₀, h₀, hrun⟩
    exact (turn_moves hst).good hA hm hu

end turns

end Svr32.Regexp
