import Svr32.Lib.Probe
import Svr32.Sccs.Packet

/-! sccs get.c: the SID that a delta for editing is to have. -/
namespace Svr32.Sccs
open Svr32.Lib Svr32.Lib.Probe

def MAX : Nat := 9999

/- What get has read: the delta table, of which `p_idel 1` to `p_idel maxser` are the SIDs, and the
greatest release in it; the d flag, with whether text is left behind its SID; what there is of a
p-file, by the new SIDs of its lines; and whether the j flag, -b with the b flag, -t and -c are
given. -/
structure Editing where
  maxser : Nat
  p_idel : Nat → Sid
  p_maxr : Nat
  deft : Option (Sid × Bool)
  pfile : Option (List Sid)
  joint : Bool
  branch : Bool
  HADT : Bool
  HADC : Bool

def chksid (rest : Bool) (sp : Sid) : Bool :=
  !(rest || (sp.s_rel = 0 && sp.s_lev ≠ 0) || (sp.s_lev = 0 && sp.s_br ≠ 0) ||
    (sp.s_br = 0 && sp.s_seq ≠ 0))

/- The highest serial from `n` down that has the property, or 0. -/
def serialFrom (e : Editing) (ok : Sid → Bool) : Nat → Nat
  | 0 => 0
  | n + 1 => if ok (e.p_idel (n + 1)) then n + 1 else serialFrom e ok n

def sidtoser (e : Editing) (sp : Sid) : Nat := serialFrom e (fun sid => sid = sp) e.maxser

/- getser for a release: the serial, and the release that it has come to. -/
def trunkFrom (e : Editing) (req : Sid) : Nat → Nat → Nat → Nat
  | 0, ser, _ => ser
  | n + 1, ser, rel =>
    let sid := e.p_idel (n + 1)
    if (sid.s_br = 0 ∨ e.HADT = true) ∧ sid.s_rel ≤ req.s_rel ∧ rel < sid.s_rel then
      trunkFrom e req n (n + 1) sid.s_rel
    else trunkFrom e req n ser rel

/- The requested SID that getser works on, and whether it is the default of a file with no d flag. -/
def defaulted (e : Editing) (req : Sid) : Option (Sid × Bool) :=
  if req.s_rel ≠ 0 then some (req, false)
  else
    match e.deft with
    | some (sid, rest) => if chksid rest sid then some (sid, false) else none
    | none => some ({ req with s_rel := MAX }, true)

/- getser: the serial with the requested and the gotten SID; `none` where it calls fatal. -/
def getser (e : Editing) (req : Sid) : Option (Nat × Sid × Sid) := do
  let (req, dflt) ← defaulted e req
  let ser :=
    if req.s_lev = 0 then trunkFrom e req e.maxser 0 0
    else if req.s_br = 0 ∧ e.HADT = true then
      serialFrom e (fun sid => sid.s_rel = req.s_rel && sid.s_lev = req.s_lev) e.maxser
    else if req.s_br ≠ 0 ∧ req.s_seq = 0 then
      serialFrom e (fun sid => sid.s_rel = req.s_rel && sid.s_lev = req.s_lev &&
        sid.s_br = req.s_br) e.maxser
    else sidtoser e req
  if ser = 0 then none
  else
    let got := e.p_idel ser
    if dflt = true ∨ req.s_lev = 0 ∧ req.s_rel = got.s_rel then some (ser, got, got)
    else some (ser, req, got)

/- Whether a line of the p-file has the SID. Where none has, the source returns what fclose left,
which is 0. -/
def in_pfile (e : Editing) (sp : Sid) : Bool :=
  e.joint && match e.pfile with
    | some lines => lines.any fun sid => sid = sp
    | none => false

/- The SID that newsid begins with, and whether it is to be searched from. -/
def candidate (e : Editing) (req got : Sid) : Sid × Nat :=
  if req.s_br = 0 then
    let req := { req with s_lev := req.s_lev + 1 }
    if sidtoser e req ≠ 0 ∨ req.s_rel < e.p_maxr ∨ e.branch = true ∨ in_pfile e req = true then
      (⟨got.s_rel, got.s_lev, got.s_br + 1, 1⟩, 1)
    else (req, 0)
  else if req.s_seq = 0 ∧ e.branch = false then ({ req with s_seq := got.s_seq + 1 }, 0)
  else
    let req := { req with s_seq := req.s_seq + 1 }
    if e.branch = true ∨ sidtoser e req ≠ 0 ∨ in_pfile e req = true then
      ({ req with s_br := req.s_br + 1, s_seq := 1 }, 1)
    else (req, 0)

inductive Newsid where
  | sid (s : Sid)
  | fatal
deriving DecidableEq

/- newsid, of which each loop goes round less than `fuel` times. -/
def newsid (e : Editing) (fuel : Nat) (req got : Sid) : Option Newsid := do
  let c := candidate e req got
  let br ← probe (fun b => in_pfile e { c.1 with s_br := b })
    (fun b => sidtoser e { c.1 with s_br := b } ≠ 0) fuel fuel c.1.s_br c.2
  let sid := { c.1 with s_br := br }
  if sidtoser e sid ≠ 0 ∨ in_pfile e sid = true then some .fatal else some (.sid sid)

/- get -e: what newsid is given. -/
def requested (e : Editing) (req : Sid) : Option (Sid × Sid) := do
  let (_, req, got) ← getser e req
  if e.HADC = true ∨ req.s_rel = 0 then some (got, got) else some (req, got)

/-- No delta has the SID and, under joint edit, no line of the p-file. -/
def Free (e : Editing) (s : Sid) : Prop :=
  (∀ n, 0 < n → n ≤ e.maxser → e.p_idel n ≠ s) ∧
    (e.joint = true → ∀ lines, e.pfile = some lines → s ∉ lines)

/-- newsid returns, and with a SID that is free. -/
def Assigns (e : Editing) (req got : Sid) : Prop :=
  ∃ n, ∀ fuel, n ≤ fuel → ∃ s, newsid e fuel req got = some (.sid s) ∧ Free e s

theorem serialFrom_eq_zero {e : Editing} {ok : Sid → Bool} (n : Nat) :
    serialFrom e ok n = 0 ↔ ∀ m, 0 < m → m ≤ n → ok (e.p_idel m) = false := by
  induction n with
  | zero =>
    refine iff_of_true rfl ?_
    intro m hm hm'
    omega
  | succ n ih =>
    rw [serialFrom]
    constructor
    · intro h m hm hm'
      split at h
      · cases h
      · rename_i hno
        by_cases hmn : m = n + 1
        · rw [hmn]
          simpa using hno
        · exact ih.mp h m hm (by omega)
    · intro h
      have hlast := h (n + 1) (by omega) (Nat.le_refl _)
      rw [if_neg (by simp [hlast])]
      exact ih.mpr fun m hm hm' => h m hm (by omega)

theorem sidtoser_eq_zero {e : Editing} {sp : Sid} :
    sidtoser e sp = 0 ↔ ∀ n, 0 < n → n ≤ e.maxser → e.p_idel n ≠ sp := by
  rw [sidtoser, serialFrom_eq_zero]
  simp

theorem in_pfile_eq_false {e : Editing} {sp : Sid} :
    in_pfile e sp = false ↔ (e.joint = true → ∀ lines, e.pfile = some lines → sp ∉ lines) := by
  rw [in_pfile]
  cases e.joint <;> cases e.pfile <;> simp
  grind

theorem free_iff {e : Editing} {s : Sid} :
    Free e s ↔ sidtoser e s = 0 ∧ in_pfile e s = false := by
  rw [Free, sidtoser_eq_zero, in_pfile_eq_false]

/- The branch numbers that are in use. -/
def branches (e : Editing) : List Nat :=
  (e.pfile.getD []).map Sid.s_br ++ (List.range (e.maxser + 1)).map fun n => (e.p_idel n).s_br

theorem in_pfile_branch {e : Editing} {s : Sid} (h : in_pfile e s = true) : s.s_br ∈ branches e := by
  rw [in_pfile] at h
  cases hp : e.pfile with
  | none => simp [hp] at h
  | some lines =>
    simp only [hp, Bool.and_eq_true, List.any_eq_true, decide_eq_true_eq] at h
    obtain ⟨-, t, ht, rfl⟩ := h
    refine List.mem_append_left _ ?_
    rw [hp]
    exact List.mem_map_of_mem ht

theorem sidtoser_branch {e : Editing} {s : Sid} (h : sidtoser e s ≠ 0) : s.s_br ∈ branches e := by
  by_contra hno
  apply h
  rw [sidtoser_eq_zero]
  intro n _ hn hs
  apply hno
  apply List.mem_append_right
  rw [← hs]
  exact List.mem_map_of_mem (f := fun n => (e.p_idel n).s_br) (List.mem_range.mpr (by omega))

/- With a search to be made, or with a SID that is free, newsid gets to a free one. -/
theorem newsid_assigns {e : Editing} {req got : Sid}
    (h : (candidate e req got).2 ≠ 0 ∨ Free e (candidate e req got).1) :
    Assigns e req got := by
  have hp : ∀ c : Sid, ∀ b, in_pfile e { c with s_br := b } = true → b ∈ branches e :=
    fun c b hb => in_pfile_branch hb
  have hq : ∀ c : Sid, ∀ b, decide (sidtoser e { c with s_br := b } ≠ 0) = true → b ∈ branches e :=
    fun c b hb => sidtoser_branch (of_decide_eq_true hb)
  refine ⟨(candidate e req got).2 + ahead (branches e) (candidate e req got).1.s_br + 1, ?_⟩
  intro fuel hfuel
  rw [newsid]
  generalize candidate e req got = c at h hfuel
  have hstart : c.2 ≠ 0 ∨ in_pfile e { c.1 with s_br := c.1.s_br } = false ∧
      decide (sidtoser e { c.1 with s_br := c.1.s_br } ≠ 0) = false := by
    refine h.imp id fun hfree => ?_
    obtain ⟨hser, hpf⟩ := free_iff.mp hfree
    exact ⟨hpf, by simpa using hser⟩
  obtain ⟨b, hb, hpf, hser⟩ := probe_spec (hp c.1) (hq c.1) fuel fuel c.1.s_br c.2 (by omega)
    (by omega) hstart
  have hser' : sidtoser e { c.1 with s_br := b } = 0 := by simpa using hser
  refine ⟨{ c.1 with s_br := b }, ?_, free_iff.mpr ⟨hser', hpf⟩⟩
  have hgood : ¬ (sidtoser e { c.1 with s_br := b } ≠ 0 ∨
      in_pfile e { c.1 with s_br := b } = true) := by
    rw [hser', hpf]
    simp
  dsimp only
  rw [hb]
  exact if_neg hgood

/- A SID that is not to be searched from is what newsid gives, or calls bad. -/
theorem newsid_fatal {e : Editing} {req got : Sid} (hc : (candidate e req got).2 = 0)
    (hf : ¬ Free e (candidate e req got).1) : ¬ Assigns e req got := by
  rintro ⟨n, h⟩
  obtain ⟨s, hs, -⟩ := h (n + 1) (by omega)
  rw [newsid] at hs
  generalize candidate e req got = c at hc hf hs
  have hprobe : probe (fun b => in_pfile e { c.1 with s_br := b })
      (fun b => sidtoser e { c.1 with s_br := b } ≠ 0) (n + 1) (n + 1) c.1.s_br c.2 =
        some c.1.s_br := by
    rw [probe, if_pos hc]
  have hbad : sidtoser e c.1 ≠ 0 ∨ in_pfile e c.1 = true := by
    by_contra hno
    apply hf
    rw [free_iff]
    exact ⟨by simpa using fun h => hno (.inl h), by simpa using fun h => hno (.inr h)⟩
  rw [hprobe] at hs
  dsimp only [Option.bind_eq_bind, Option.bind_some] at hs
  rw [if_pos hbad] at hs
  cases hs

/-- newsid assigns a SID that is free unless the request is for a branch, without -b, and the SID
after the gotten one is taken: that is the one rule that makes no search. -/
theorem assigns_iff (e : Editing) (req got : Sid) :
    Assigns e req got ↔ ¬ (req.s_br ≠ 0 ∧ req.s_seq = 0 ∧ e.branch = false ∧
      ¬ Free e { req with s_seq := got.s_seq + 1 }) := by
  by_cases hrule : req.s_br ≠ 0 ∧ req.s_seq = 0 ∧ e.branch = false
  · obtain ⟨hbr, hseq, hb⟩ := hrule
    have hc : candidate e req got = ({ req with s_seq := got.s_seq + 1 }, 0) := by
      rw [candidate, if_neg hbr, if_pos ⟨hseq, hb⟩]
    constructor
    · rintro h ⟨-, -, -, hno⟩
      exact newsid_fatal (by rw [hc]) (by rwa [hc]) h
    · intro h
      apply newsid_assigns
      rw [hc]
      by_contra hno
      exact h ⟨hbr, hseq, hb, fun hf => hno (.inr hf)⟩
  · refine iff_of_true ?_ fun h => hrule ⟨h.1, h.2.1, h.2.2.1⟩
    apply newsid_assigns
    rw [candidate, free_iff]
    by_cases hbr : req.s_br = 0
    · rw [if_pos hbr]
      dsimp only
      split
      · exact .inl (by simp)
      · rename_i hno
        refine .inr ⟨?_, ?_⟩
        · exact by_contra fun h => hno (.inl h)
        · exact by_contra fun h => hno (.inr (.inr (.inr (by simpa using h))))
    · rw [if_neg hbr, if_neg fun h => hrule ⟨hbr, h⟩]
      dsimp only
      split
      · exact .inl (by simp)
      · rename_i hno
        refine .inr ⟨?_, ?_⟩
        · exact by_contra fun h => hno (.inr (.inl h))
        · exact by_contra fun h => hno (.inr (.inr (by simpa using h)))

/- Deltas 1.1 and 1.1.1.1, and a p-file in which 1.1.1.2 is reserved. -/
def reserved : Editing where
  maxser := 2
  p_idel n := if n = 2 then ⟨1, 1, 1, 1⟩ else ⟨1, 1, 0, 0⟩
  p_maxr := 1
  deft := none
  pfile := some [⟨1, 1, 1, 2⟩]
  joint := true
  branch := false
  HADT := false
  HADC := false

/-- Under joint edit the branch 1.1.1 is got for editing a second time: newsid calls fatal. -/
theorem second_editor_refused : ¬ ∀ (e : Editing) (req₀ req got : Sid),
    requested e req₀ = some (req, got) → Assigns e req got := by
  intro h
  have hreq : requested reserved ⟨1, 1, 1, 0⟩ = some (⟨1, 1, 1, 0⟩, ⟨1, 1, 1, 1⟩) := by decide
  obtain ⟨n, hn⟩ := h _ _ _ _ hreq
  obtain ⟨s, hs, -⟩ := hn (n + 1) (by omega)
  have hbad : newsid reserved (n + 1) ⟨1, 1, 1, 0⟩ ⟨1, 1, 1, 1⟩ = some .fatal := rfl
  rw [hbad] at hs
  cases hs

end Svr32.Sccs
