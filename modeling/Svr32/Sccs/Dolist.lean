import Svr32.Sccs.Newsid
import Mathlib.Data.List.Nodup
import Mathlib.Data.List.Count
import Mathlib.Data.List.Perm.Subperm

/-! sccs dolist.c: the deltas that a list of SIDs and ranges names. -/
namespace Svr32.Sccs
open Svr32.Lib

/- Numbers are taken to fit an int. -/
def sid_ab (p : Text) : Sid × Text :=
  let dot p := if byte p 0 = 46 then p.drop 1 else p
  let rel := readFrom 0 p
  let lev := readFrom 0 (dot rel.2)
  let br := readFrom 0 (dot lev.2)
  let seq := readFrom 0 (dot br.2)
  (⟨rel.1, lev.1, br.1, seq.1⟩, seq.2)

/- The calls of fatal, "delta list syntax" and "bad range". -/
inductive ListError where
  | dls
  | br
  | outOfFuel
deriving DecidableEq

section
variable (e : Editing)

/- for ( ; n = sidtoser(&sid,pkt); b++) enter(pkt,ch,n,&sid), for at most the given turns, with
`b` the number of the SID that counts up. The calls of enter, by their serial and SID. -/
def enters (sid : Nat → Sid) : Nat → Nat → List (Nat × Sid)
  | 0, _ => []
  | turns + 1, b =>
    let n := sidtoser e (sid b)
    if n = 0 then [] else (n, sid b) :: enters sid turns (b + 1)

/- The levels of a release; no more of them are found than there are deltas. -/
def levels (rel lev : Nat) : List (Nat × Sid) :=
  enters e (fun lev => ⟨rel, lev, 0, 0⟩) (e.maxser + 1) lev

/- The releases of a range on the trunk, from `rel` on. -/
def releases (lowsid : Sid) : Nat → Nat → List (Nat × Sid)
  | 0, _ => []
  | turns + 1, rel =>
    levels e rel (if rel = lowsid.s_rel then lowsid.s_lev else 1) ++
      releases lowsid turns (rel + 1)

def range (lowsid highsid : Sid) : Except ListError (List (Nat × Sid)) :=
  if lowsid.s_br = 0 then
    if highsid.s_br ≠ 0 ∨ highsid.s_seq ≠ 0 ∨ highsid.s_rel < lowsid.s_rel ∨
        highsid.s_rel = lowsid.s_rel ∧ highsid.s_lev < lowsid.s_lev then throw .br
    else pure (releases e lowsid (highsid.s_rel + 1 - lowsid.s_rel) lowsid.s_rel)
  else if ¬ (highsid.s_rel = lowsid.s_rel ∧ highsid.s_lev = lowsid.s_lev ∧
      highsid.s_br = lowsid.s_br ∧ lowsid.s_seq ≤ highsid.s_seq) then throw .br
  else pure (enters e (fun seq => { lowsid with s_seq := seq })
    (highsid.s_seq + 1 - lowsid.s_seq) lowsid.s_seq)

def single (lowsid : Sid) : List (Nat × Sid) :=
  if sidtoser e lowsid = 0 then [] else [(sidtoser e lowsid, lowsid)]

end

/- What a list is made of. -/
inductive Entry where
  | sid (s : Sid)
  | range (low high : Sid)

/- A SID of the trunk or of a branch, fully given. -/
def Full (s : Sid) : Prop :=
  s.s_rel ≠ 0 ∧ s.s_lev ≠ 0 ∧ (s.s_br = 0 ↔ s.s_seq = 0)

/- By release, then by level. -/
def TrunkLe (s t : Sid) : Prop := s.s_rel < t.s_rel ∨ s.s_rel = t.s_rel ∧ s.s_lev ≤ t.s_lev

def SameBranch (s t : Sid) : Prop :=
  s.s_rel = t.s_rel ∧ s.s_lev = t.s_lev ∧ s.s_br = t.s_br

/- A range goes up, on the trunk or on one branch. -/
def Entry.Valid : Entry → Prop
  | .sid s => Full s
  | .range low high => Full low ∧ Full high ∧
    (low.s_br = 0 ∧ high.s_br = 0 ∧ TrunkLe low high ∨
      low.s_br ≠ 0 ∧ SameBranch low high ∧ low.s_seq ≤ high.s_seq)

/- The SIDs that are listed or lie in the range. -/
def Entry.Names (s : Sid) : Entry → Prop
  | .sid t => s = t
  | .range low high =>
    if low.s_br = 0 then s.s_br = 0 ∧ TrunkLe low s ∧ TrunkLe s high
    else SameBranch low s ∧ low.s_seq ≤ s.s_seq ∧ s.s_seq ≤ high.s_seq

/- The SIDs that the loops come to: on the trunk all levels of the last release. -/
def Entry.Reaches (s : Sid) : Entry → Prop
  | .sid t => s = t
  | .range low high =>
    if low.s_br = 0 then s.s_br = 0 ∧ TrunkLe low s ∧ s.s_rel ≤ high.s_rel
    else SameBranch low s ∧ low.s_seq ≤ s.s_seq ∧ s.s_seq ≤ high.s_seq

instance (s t : Sid) : Decidable (TrunkLe s t) := inferInstanceAs (Decidable (_ ∨ _))
instance (s t : Sid) : Decidable (SameBranch s t) := inferInstanceAs (Decidable (_ ∧ _))
instance (s : Sid) : Decidable (Full s) := inferInstanceAs (Decidable (_ ∧ _))

instance (s : Sid) (i : Entry) : Decidable (i.Names s) :=
  match i with
  | .sid t => inferInstanceAs (Decidable (s = t))
  | .range low _ => inferInstanceAs (Decidable (if low.s_br = 0 then _ else _))

instance (s : Sid) (i : Entry) : Decidable (i.Reaches s) :=
  match i with
  | .sid t => inferInstanceAs (Decidable (s = t))
  | .range low _ => inferInstanceAs (Decidable (if low.s_br = 0 then _ else _))

/- A delta that has not been removed: the table has its SID. -/
def IsDelta (e : Editing) (n : Nat) : Prop := 0 < n ∧ n ≤ e.maxser ∧ Full (e.p_idel n)

instance (e : Editing) (n : Nat) : Decidable (IsDelta e n) := inferInstanceAs (Decidable (_ ∧ _))

/-- No two deltas have one SID, and levels and sequence numbers are consecutive. -/
structure Tree (e : Editing) : Prop where
  distinct : ∀ m n, IsDelta e m → IsDelta e n → e.p_idel m = e.p_idel n → m = n
  levels : ∀ m rel lev, IsDelta e m → e.p_idel m = ⟨rel, lev + 1, 0, 0⟩ → lev ≠ 0 →
    ∃ n, IsDelta e n ∧ e.p_idel n = ⟨rel, lev, 0, 0⟩
  sequences : ∀ m rel lev br seq, IsDelta e m → e.p_idel m = ⟨rel, lev, br, seq + 1⟩ → seq ≠ 0 →
    ∃ n, IsDelta e n ∧ e.p_idel n = ⟨rel, lev, br, seq⟩

/- Digits that make the number. -/
structure Numeral (x : Nat) (t : Text) : Prop where
  some : t ≠ []
  digits : ∀ c ∈ t, IsDigit c
  value : (readFrom 0 t).1 = x

inductive SidText : Sid → Text → Prop where
  | trunk {r l a b} : Numeral r a → Numeral l b → SidText ⟨r, l, 0, 0⟩ (a ++ 46 :: b)
  | branch {r l b s t u v w} : Numeral r t → Numeral l u → Numeral b v → Numeral s w →
      SidText ⟨r, l, b, s⟩ (t ++ 46 :: (u ++ 46 :: (v ++ 46 :: w)))

inductive EntryText : Entry → Text → Prop where
  | sid {s t} : SidText s t → EntryText (.sid s) t
  | range {low high t u} : SidText low t → SidText high u →
      EntryText (.range low high) (t ++ 45 :: u)

end Svr32.Sccs

/-! sccs dolist.c: what the loops of dolist come to, and when it is what the list names. -/
namespace Svr32.Sccs
open Svr32.Lib

variable {e : Editing}

/-- SIDs that count up, and are found without a gap. -/
structure Counts (e : Editing) (sid : Nat → Sid) : Prop where
  full : ∀ b, b ≠ 0 → Full (sid b)
  inj : ∀ a b, sid a = sid b → a = b
  gapless : ∀ b, b ≠ 0 → sidtoser e (sid (b + 1)) ≠ 0 → sidtoser e (sid b) ≠ 0

theorem Counts.below {sid : Nat → Sid} (hc : Counts e sid) {a b : Nat} (ha : a ≠ 0) (hab : a ≤ b)
    (hb : sidtoser e (sid b) ≠ 0) : sidtoser e (sid a) ≠ 0 := by
  induction b, hab using Nat.le_induction with
  | base => exact hb
  | succ b hab ih => exact ih (hc.gapless b (by omega) hb)

/- The calls of enter for an entry. -/
def Entry.calls (e : Editing) : Entry → List (Nat × Sid)
  | .sid s => single e s
  | .range low high =>
    if low.s_br = 0 then releases e low (high.s_rel + 1 - low.s_rel) low.s_rel
    else enters e (fun seq => { low with s_seq := seq }) (high.s_seq + 1 - low.s_seq) low.s_seq

theorem readFrom_append {sum : Nat} {t p : Text} (ht : ∀ c ∈ t, IsDigit c) (hp : Stops p) :
    readFrom sum (t ++ p) = ((readFrom sum t).1, p) := by
  induction t generalizing sum with
  | nil => exact readFrom_end sum hp
  | cons c t ih =>
    have hc := ht c (by simp)
    rw [List.cons_append, readFrom, if_pos hc, readFrom, if_pos hc]
    exact ih fun d hd => ht d (List.mem_cons_of_mem c hd)

theorem Numeral.read {x : Nat} {t p : Text} (h : Numeral x t) (hp : Stops p) :
    readFrom 0 (t ++ p) = (x, p) := by
  rw [readFrom_append h.digits hp, h.value]

/- What may follow a SID. -/
def Separates (p : Text) : Prop := Stops p ∧ byte p 0 ≠ 46

theorem byte_zero (c : Nat) (p : Text) : byte (c :: p) 0 = c := rfl

theorem sid_ab_text {s : Sid} {t p : Text} (h : SidText s t) (hp : Separates p) :
    sid_ab (t ++ p) = (s, p) := by
  have hdot : ∀ q : Text, Stops (46 :: q) := fun q => show ¬ IsDigit 46 by decide
  have hend : readFrom 0 p = (0, p) := readFrom_end 0 hp.1
  cases h with
  | trunk ha hb =>
    simp only [List.append_assoc, List.cons_append, sid_ab, ha.read (hdot _), hb.read hp.1,
      byte_zero, if_true, if_neg hp.2, hend, List.drop_one, List.tail_cons]
  | branch ha hb hc hd =>
    simp only [List.append_assoc, List.cons_append, sid_ab, ha.read (hdot _), hb.read (hdot _),
      hc.read (hdot _), hd.read hp.1, byte_zero, if_true, List.drop_one, List.tail_cons]

theorem SidText.ne_nil {s : Sid} {t : Text} (h : SidText s t) : t ≠ [] := by
  cases h <;> simp

/- What may follow an entry. -/
def Follows (p : Text) : Prop := p = [] ∨ ∃ q, p = 44 :: q

theorem EntryText.ne_nil {i : Entry} {t : Text} (h : EntryText i t) : t ≠ [] := by
  cases h with
  | sid h => exact h.ne_nil
  | range => simp

/-- No delta is named twice, and a range on the trunk ends with the last level of its release. -/
structure Clear (e : Editing) (is : List Entry) : Prop where
  once : ∀ n, IsDelta e n → is.countP (Entry.Names (e.p_idel n)) ≤ 1
  last : ∀ low high, .range low high ∈ is → low.s_br = 0 → ∀ n, IsDelta e n →
    (e.p_idel n).s_br = 0 → (e.p_idel n).s_rel = high.s_rel → (e.p_idel n).s_lev ≤ high.s_lev

/- Deltas 1.1, 1.2 and 1.3. -/
def three : Editing where
  maxser := 3
  p_idel n := ⟨1, n, 0, 0⟩
  p_maxr := 1
  deft := none
  pfile := none
  joint := false
  branch := false
  HADT := false
  HADC := false

end Svr32.Sccs
