import Svr32.Sccs.Packet
import Svr32.Lib.Weave
import Svr32.Sccs.Delta

/-! sccs rdmod.c: readmod reads the body of an s-file as a weave of deltas. -/
namespace Svr32.Sccs
open Svr32.Lib Svr32.Lib.Weave

section
variable (signed : Bool)

/- while (readmod(pkt)); the lines, each with the SID that inserted it, and the call of fatal, if
there is one. -/
def readingsLoop : Nat → Packet → List (Text × Sid) × Option Fatal
  | 0, _ => ([], some .outOfFuel)
  | fuel + 1, pkt =>
    match readmod signed pkt with
    | .error e => ([], some e)
    | .ok (pkt, true) =>
      let r := readingsLoop fuel pkt
      ((pkt.p_line, pkt.p_inssid) :: r.1, r.2)
    | .ok (_, false) => ([], none)

def readings (pkt : Packet) : List (Text × Sid) × Option Fatal :=
  readingsLoop signed (left pkt + 1) pkt

end

/- A line of the body, as readmod takes it; `none` for a control line that it cannot read. -/
def item (maxser : Int) (l : Text) : Option (Item Nat Text) :=
  if byte l 0 = CTLCHAR then
    let ser := (satoi (nonblank (l.drop 2))).1
    if 0 < ser ∧ ser ≤ maxser then
      if byte l 1 = INS then some (.ins ser.toNat)
      else if byte l 1 = DEL then some (.del ser.toNat)
      else if byte l 1 = END then some (.fin ser.toNat)
      else none
    else none
  else some (.line l)

def items (maxser : Int) (ls : List Text) : Option (List (Item Nat Text)) :=
  ls.mapM (item maxser)

/- The lines that fgets makes of a text. -/
inductive Reads : Text → List Text → Prop where
  | nil : Reads [] []
  | cons {s l rest ls} : fgets BUFSIZ s = some (l, rest) → Reads rest ls → Reads s (l :: ls)

/- The queue entry of an open block. -/
def entry (A : Nat → Bool) (m : Mark Nat) : Queue :=
  if m.ins then ⟨m.ser, if A m.ser then YES else NO, INS⟩
  else ⟨m.ser, if A m.ser then NO else 0, DEL⟩

/- The serial that null pointers have is opened, and all that are open are higher. -/
def Trips (null : Int) (q : List (Mark Nat)) (s : Nat) : Prop := null = s ∧ ∀ m ∈ q, s < m.ser

instance (null : Int) (q : List (Mark Nat)) (s : Nat) : Decidable (Trips null q s) :=
  inferInstanceAs (Decidable (null = s ∧ ∀ m ∈ q, s < m.ser))

/- The serial of a block that an item opens. -/
def opens : Item Nat Text → Option Nat
  | .ins s => some s
  | .del s => some s
  | _ => none

/- Where that happens, the version has no lines after it. -/
def Quiet (A : Nat → Bool) (null : Int) : List (Mark Nat) → List (Item Nat Text) → Prop
  | _, [] => True
  | q, x :: w =>
    (∀ s, opens x = some s → Trips null q s → shown A (next q x) w = []) ∧
      Quiet A null (next q x) w

/- addq and remq on the open blocks; `none` for a format error. -/
def queued (null : Int) (k : List (Mark Nat)) : Item Nat Text → Option (List (Mark Nat))
  | .ins s => if IsOpen s k ∨ Trips null k s then none else some (enter ⟨s, true⟩ k)
  | .del s => if IsOpen s k ∨ Trips null k s then none else some (enter ⟨s, false⟩ k)
  | .fin s => if IsOpen s k then some (k.eraseP fun m => m.ser = s) else none
  | .line _ => some k

/- What readmod returns at an item. -/
def out (A : Nat → Bool) (idel : Nat → Sid) (k : List (Mark Nat)) :
    Item Nat Text → List (Text × Sid)
  | .line t => (verdict A k).toList.map fun s => (t, idel s)
  | _ => []

/- readmod over the lines of a body, up to its end or to a format error. -/
inductive Course (A : Nat → Bool) (idel : Nat → Sid) (maxser null : Int) :
    List (Mark Nat) → List Text → List (Text × Sid) × Option Fatal → Prop where
  | last {k e} : e = none ∧ k = [] ∨ e = some .prematureEof →
      Course A idel maxser null k [] ([], e)
  | bad {k l ls n} : (item maxser l).bind (queued null k) = none →
      Course A idel maxser null k (l :: ls) ([], some (.formatError n))
  | on {k k' l x ls r} : item maxser l = some x → queued null k x = some k' →
      Course A idel maxser null k' ls r →
      Course A idel maxser null k (l :: ls) (out A idel k x ++ r.1, r.2)

section
variable {A : Nat → Bool} {idel : Nat → Sid} {maxser null : Int}

theorem items_cons {l : Text} {ls : List Text} {w : List (Item Nat Text)}
    (h : items maxser (l :: ls) = some w) :
    ∃ x w', item maxser l = some x ∧ items maxser ls = some w' ∧ w = x :: w' := by
  rw [items, List.mapM_cons] at h
  obtain ⟨x, hx, h⟩ := Option.bind_eq_some_iff.mp h
  obtain ⟨w', hw, h⟩ := Option.bind_eq_some_iff.mp h
  cases h
  exact ⟨x, w', hx, hw, rfl⟩

theorem queued_some {k k' q : List (Mark Nat)} {x : Item Nat Text} (hk : Desc k) (hp : k.Perm q)
    (h : queued null k x = some k') : Ends q x ∧ Desc k' ∧ k'.Perm (next q x) := by
  have hopen : ∀ s b, (if IsOpen s k ∨ Trips null k s then none else some (enter ⟨s, b⟩ k)) =
      some k' → Desc k' ∧ k'.Perm (⟨s, b⟩ :: q) := by
    intro s b h
    split at h
    · cases h
    · rename_i hno
      cases h
      exact ⟨hk.enter fun ho => hno (.inl ho), (enter_perm _ _).trans (hp.cons _)⟩
  cases x with
  | ins s => exact ⟨trivial, hopen s true h⟩
  | del s => exact ⟨trivial, hopen s false h⟩
  | fin s =>
    rw [queued] at h
    split at h
    · rename_i ho
      cases h
      obtain ⟨m, hm, hs⟩ := ho
      exact ⟨⟨m, hp.mem_iff.mp hm, hs⟩, hk.sublist List.eraseP_sublist, erase_perm hk hp s⟩
    · cases h
  | line t =>
    cases h
    exact ⟨trivial, hk, hp⟩

theorem trips_perm {k q : List (Mark Nat)} (hp : k.Perm q) (s : Nat) :
    Trips null k s ↔ Trips null q s := by
  simp [Trips, hp.mem_iff]

theorem isOpen_perm {k q : List (Mark Nat)} (hp : k.Perm q) (s : Nat) :
    IsOpen s k ↔ IsOpen s q := by
  simp [Weave.IsOpen, hp.mem_iff]

/- An item that fits is refused only where the null pointer's serial is opened. -/
theorem queued_none {k q : List (Mark Nat)} {x : Item Nat Text} (hp : k.Perm q) (hf : Fit q x)
    (h : queued null k x = none) : ∃ s, opens x = some s ∧ Trips null q s := by
  have hopen : ∀ s b, ¬ IsOpen s q →
      (if IsOpen s k ∨ Trips null k s then none else some (enter ⟨s, b⟩ k)) = none →
        Trips null q s := by
    intro s b hs h
    split at h
    · rename_i hor
      rcases hor with ho | ht
      · exact absurd ((isOpen_perm hp s).mp ho) hs
      · exact (trips_perm hp s).mp ht
    · cases h
  cases x with
  | ins s => exact ⟨s, rfl, hopen s true hf.1 h⟩
  | del s => exact ⟨s, rfl, hopen s false hf h⟩
  | fin s =>
    rw [queued, if_pos ((isOpen_perm hp s).mpr hf)] at h
    cases h
  | line t => cases h

theorem queued_trips {k k' q : List (Mark Nat)} {x : Item Nat Text} (hp : k.Perm q)
    (h : queued null k x = some k') {s : Nat} (hs : opens x = some s) : ¬ Trips null q s := by
  intro ht
  have ht' := (trips_perm hp s).mpr ht
  cases x with
  | ins t =>
    cases hs
    rw [queued, if_pos (.inr ht')] at h
    cases h
  | del t =>
    cases hs
    rw [queued, if_pos (.inr ht')] at h
    cases h
  | fin t => cases hs
  | line t => cases hs

theorem quiet_of_shown_nil (null : Int) {q : List (Mark Nat)} {w : List (Item Nat Text)}
    (h : shown A q w = []) : Quiet A null q w := by
  induction w generalizing q with
  | nil => trivial
  | cons x w ih =>
    rw [shown, List.append_eq_nil_iff] at h
    exact ⟨fun _ _ _ => h.2, ih h.2⟩

/- The lines of the version, with the SIDs of their deltas. -/
def version (A : Nat → Bool) (idel : Nat → Sid) (q : List (Mark Nat)) (w : List (Item Nat Text)) :
    List (Text × Sid) :=
  (shown A q w).map fun p => (p.1, idel p.2)

theorem out_eq {k q : List (Mark Nat)} (hk : Desc k) (hp : k.Perm q) (hn : Nested q)
    (x : Item Nat Text) : out A idel k x = (line A q x).map fun p => (p.1, idel p.2) := by
  cases x with
  | line t => simp [out, line, verdict_eq_source hk hp hn]
  | ins s => rfl
  | del s => rfl
  | fin s => rfl

/-- In a proper body readmod returns the lines of the version, unless it stumbles. -/
theorem Course.lines_iff {k : List (Mark Nat)} {ls : List Text}
    {r : List (Text × Sid) × Option Fatal} (h : Course A idel maxser null k ls r) {q : List (Mark Nat)} {w : List (Item Nat Text)}
    (hk : Desc k) (hp : k.Perm q) (hn : Nested q) (hw : items maxser ls = some w)
    (hf : Along Fit q w) : r.1 = version A idel q w ↔ Quiet A null q w := by
  induction h generalizing q w with
  | last =>
    cases hw
    exact iff_of_true rfl trivial
  | @bad k l ls n hbad =>
    obtain ⟨x, w, hx, hw, rfl⟩ := items_cons hw
    rw [hx] at hbad
    obtain ⟨s, hs, ht⟩ := queued_none hp hf.1 hbad
    have hline : line A q x = [] := by
      cases x with
      | line t => cases hs
      | _ => rfl
    have hver : version A idel q (x :: w) = [] ↔ shown A (next q x) w = [] := by
      simp [version, shown, hline]
    constructor
    · intro h
      have hnil := hver.mp h.symm
      exact ⟨fun _ _ _ => hnil, quiet_of_shown_nil null hnil⟩
    · intro h
      exact (hver.mpr (h.1 s hs ht)).symm
  | @on k k' l x ls r hx ht _ ih =>
    obtain ⟨y, w, hy, hrest, rfl⟩ := items_cons hw
    cases hx.symm.trans hy
    obtain ⟨-, hk', hp'⟩ := queued_some hk hp ht
    have hlines := ih hk' hp' (hn.next hf.1) hrest hf.2
    have hver : version A idel q (x :: w) = out A idel k x ++ version A idel (next q x) w := by
      rw [out_eq hk hp hn, version, shown, List.map_append, version]
    rw [hver, List.append_cancel_left_eq, hlines, Quiet]
    exact ⟨fun h => ⟨fun s hs hts => absurd hts (queued_trips hp ht hs), h⟩, fun h => h.2⟩

/-- What readmod does not complain about is balanced. -/
theorem Course.reports {k : List (Mark Nat)} {ls : List Text}
    {r : List (Text × Sid) × Option Fatal} (h : Course A idel maxser null k ls r) {q : List (Mark Nat)} {w : List (Item Nat Text)}
    (hk : Desc k) (hp : k.Perm q) (hw : items maxser ls = some w) :
    (∃ n, r.2 = some (.formatError n)) ∨ r.2 = some .prematureEof ∨
      Along Ends q w ∧ nexts q w = [] := by
  induction h generalizing q w with
  | @last k e h =>
    cases hw
    rcases h with ⟨-, rfl⟩ | rfl
    · exact .inr (.inr ⟨trivial, hp.nil_eq.symm⟩)
    · exact .inr (.inl rfl)
  | bad => exact .inl ⟨_, rfl⟩
  | @on k k' l x ls r hx ht _ ih =>
    obtain ⟨y, w, hy, hrest, rfl⟩ := items_cons hw
    cases hx.symm.trans hy
    obtain ⟨hends, hk', hp'⟩ := queued_some hk hp ht
    rcases ih hk' hp' hrest with h | h | ⟨h, hnil⟩
    · exact .inl h
    · exact .inr (.inl h)
    · exact .inr (.inr ⟨⟨hends, h⟩, hnil⟩)

end
end Svr32.Sccs

/-! sccs rdmod.c: the queue of a packet holds the open blocks, and readmod takes its course. -/
namespace Svr32.Sccs
open Svr32.Lib Svr32.Lib.Weave

variable {signed : Bool} {A : Nat → Bool} {idel : Nat → Sid} {maxser null : Int}

/-- The packet stands at the lines `ls` of a body, with the blocks of `k` open. -/
structure At (signed : Bool) (A : Nat → Bool) (idel : Nat → Sid) (maxser null : Int) (pkt : Packet)
    (k : List (Mark Nat)) (ls : List Text) : Prop where
  apply : pkt.p_apply = A
  sids : pkt.p_idel = idel
  maxser : pkt.maxser = maxser
  null : pkt.null = null
  queue : pkt.p_q = k.map (entry A)
  desc : Desc k
  told : ∀ s, verdict A k = some s → pkt.p_keep = YES ∧ pkt.p_inssid = idel s
  untold : verdict A k = none → pkt.p_keep ≠ YES
  text : ∃ s, pkt.p_iop = some s ∧ Reads s ls
  sum : pkt.do_chksum = true →
    (ls.foldl (addChars signed) pkt.p_chash - pkt.p_ihash) % 2 ^ 16 = 0

theorem Reads.length {s : Text} {ls : List Text} (h : Reads s ls) : ls.length ≤ s.length := by
  induction h with
  | nil => exact Nat.le_refl _
  | cons hf _ ih =>
    have hlt := fgets_length (by decide) hf
    rw [List.length_cons]
    omega

theorem verdict_find (A : Nat → Bool) (k : List (Mark Nat)) :
    (∀ s, verdict A k = some s →
      (k.map (entry A)).find? (fun q => q.q_keep ≠ 0) = some ⟨s, YES, INS⟩) ∧
    (verdict A k = none →
      ∀ q, (k.map (entry A)).find? (fun q => q.q_keep ≠ 0) = some q → q.q_keep = NO) := by
  induction k with
  | nil => exact ⟨fun s h => (nomatch h), fun _ q h => (nomatch h)⟩
  | cons m k ih =>
    obtain ⟨t, i⟩ := m
    cases i with
    | true =>
      cases ha : A t with
      | true => simp [verdict, entry, ha, YES]
      | false => simp [verdict, entry, ha, NO]
    | false =>
      cases ha : A t with
      | true => simp [verdict, entry, ha, NO]
      | false => simpa [verdict, entry, ha] using ih

/- What setkeep sets, by the open blocks. -/
theorem setkeep_told (pkt : Packet) {k : List (Mark Nat)} (hq : pkt.p_q = k.map (entry A)) :
    (∀ s, verdict A k = some s →
      setkeep pkt = { pkt with p_keep := YES, p_inssid := pkt.p_idel s }) ∧
    (verdict A k = none → setkeep pkt = { pkt with p_keep := NO }) := by
  obtain ⟨hsome, hnone⟩ := verdict_find A k
  constructor
  · intro s hs
    rw [setkeep, hq, hsome s hs]
    rfl
  · intro hs
    rw [setkeep, hq]
    split
    · rename_i q hf
      rw [hnone hs q hf, if_neg (by decide)]
    · rfl

theorem At.keeps {pkt : Packet} {k k' : List (Mark Nat)} {ls : List Text}
    (h : At signed A idel maxser null pkt k ls) (hk : Desc k') :
    At signed A idel maxser null (setkeep { pkt with p_q := k'.map (entry A) }) k' ls := by
  obtain ⟨hsome, hnone⟩ := setkeep_told { pkt with p_q := k'.map (entry A) } rfl
  cases hv : verdict A k' with
  | some s =>
    rw [hsome s hv]
    refine ⟨h.apply, h.sids, h.maxser, h.null, rfl, hk, ?_, ?_, h.text, h.sum⟩
    · intro t ht
      cases hv.symm.trans ht
      exact ⟨rfl, congrFun h.sids s⟩
    · intro hn
      cases hv.symm.trans hn
  | none =>
    rw [hnone hv]
    refine ⟨h.apply, h.sids, h.maxser, h.null, rfl, hk, ?_, ?_, h.text, h.sum⟩
    · intro t ht
      cases hv.symm.trans ht
    · intro _ (hkeep : NO = YES)
      exact absurd hkeep (by decide)

theorem entry_ser (A : Nat → Bool) (m : Mark Nat) : (entry A m).q_sernum = m.ser := by
  rw [entry]
  split <;> rfl

theorem enqueue_entry (A : Nat → Bool) (null : Int) {k : List (Mark Nat)} (hk : Desc k)
    (m : Mark Nat) :
    enqueue null (entry A m) (k.map (entry A)) =
      if IsOpen m.ser k ∨ Trips null k m.ser then none else some ((enter m k).map (entry A)) := by
  induction k with
  | nil =>
    rw [List.map_nil, enqueue, entry_ser]
    simp [Weave.IsOpen, Trips, enter]
  | cons x k ih =>
    obtain ⟨hx, hk'⟩ := List.pairwise_cons.mp hk
    rw [List.map_cons, enqueue, entry_ser, entry_ser, enter]
    by_cases hle : x.ser ≤ m.ser
    · rw [if_pos hle, if_pos hle]
      by_cases heq : x.ser = m.ser
      · rw [if_pos heq, if_pos (.inl ⟨x, by simp, heq⟩)]
      · rw [if_neg heq, if_neg]
        · rfl
        · rintro (⟨y, hy, hs⟩ | ⟨-, hlow⟩)
          · rcases List.mem_cons.mp hy with rfl | hy
            · exact heq hs
            · have := hx y hy
              omega
          · have := hlow x (by simp)
            omega
    · rw [if_neg hle, if_neg hle, ih hk']
      have hiff : (IsOpen m.ser (x :: k) ∨ Trips null (x :: k) m.ser) ↔
          (IsOpen m.ser k ∨ Trips null k m.ser) := by
        have hne : x.ser ≠ m.ser := by omega
        have hlt : m.ser < x.ser := by omega
        simp [Weave.IsOpen, Trips, hne, hlt]
      by_cases hc : IsOpen m.ser k ∨ Trips null k m.ser
      · rw [if_pos hc, if_pos (hiff.mpr hc)]
        rfl
      · rw [if_neg hc, if_neg (mt hiff.mp hc)]
        rfl

theorem isOpen_any (A : Nat → Bool) (k : List (Mark Nat)) (s : Nat) :
    ((k.map (entry A)).any fun cur => cur.q_sernum = s) = true ↔ IsOpen s k := by
  simp [Weave.IsOpen, entry_ser]

theorem eraseP_entry (A : Nat → Bool) (k : List (Mark Nat)) (s : Nat) :
    (k.map (entry A)).eraseP (fun cur => cur.q_sernum = s) =
      (k.eraseP fun m => m.ser = s).map (entry A) := by
  rw [List.eraseP_map]
  simp [Function.comp_def, entry_ser]

/-- A routine ends with a format error, or with the blocks of `o` open. -/
def Does (signed : Bool) (A : Nat → Bool) (idel : Nat → Sid) (maxser null : Int) (pkt : Packet)
    (ls : List Text) (o : Option (List (Mark Nat))) (r : Except Fatal Packet) : Prop :=
  match o with
  | none => r = .error (.formatError pkt.p_slnno)
  | some k => ∃ p, r = .ok p ∧ At signed A idel maxser null p k ls

theorem At.adds {pkt : Packet} {k : List (Mark Nat)} {ls : List Text}
    (h : At signed A idel maxser null pkt k ls) (m : Mark Nat) :
    Does signed A idel maxser null pkt ls
      (if IsOpen m.ser k ∨ Trips null k m.ser then none else some (enter m k))
      (addq pkt m.ser (entry A m).q_keep (entry A m).q_iord) := by
  have henq : enqueue pkt.null (entry A m) pkt.p_q =
      if IsOpen m.ser k ∨ Trips null k m.ser then none
      else some ((enter m k).map (entry A)) := by
    rw [h.null, h.queue]
    exact enqueue_entry A null h.desc m
  have hm : (⟨m.ser, (entry A m).q_keep, (entry A m).q_iord⟩ : Queue) = entry A m := by
    rw [← entry_ser A m]
  rw [addq, hm, henq]
  by_cases hc : IsOpen m.ser k ∨ Trips null k m.ser
  · rw [if_pos hc, if_pos hc]
    rfl
  · rw [if_neg hc, if_neg hc]
    exact ⟨_, rfl, h.keeps (h.desc.enter fun ho => hc (.inl ho))⟩

theorem At.removes {pkt : Packet} {k : List (Mark Nat)} {ls : List Text}
    (h : At signed A idel maxser null pkt k ls) (s : Nat) :
    Does signed A idel maxser null pkt ls (queued null k (.fin s)) (remq pkt s) := by
  rw [remq, h.queue, queued]
  by_cases ho : IsOpen s k
  · rw [if_pos ho, if_pos ((isOpen_any A k s).mpr ho), eraseP_entry]
    exact ⟨_, rfl, h.keeps (h.desc.sublist List.eraseP_sublist)⟩
  · rw [if_neg ho, if_neg (mt (isOpen_any A k s).mp ho)]
    rfl

/- What control does at a control line of the body. -/
theorem At.controls {pkt : Packet} {k : List (Mark Nat)} {ls : List Text}
    (h : At signed A idel maxser null pkt k ls) (hc : byte pkt.p_line 0 = CTLCHAR) :
    Does signed A idel maxser null pkt ls ((item maxser pkt.p_line).bind (queued null k))
      (control pkt) := by
  rw [control, item, if_pos hc, h.maxser, h.apply]
  dsimp only
  generalize (satoi (nonblank (pkt.p_line.drop 2))).1 = ser
  by_cases hr : 0 < ser ∧ ser ≤ maxser
  · rw [if_pos hr, if_pos hr]
    by_cases hi : byte pkt.p_line 1 = INS
    · have hadd := h.adds ⟨ser.toNat, true⟩
      rw [hi, if_pos rfl, if_pos (.inl rfl), if_neg (by decide), if_pos rfl, if_pos rfl]
      cases ha : A ser.toNat with
      | true => simpa [entry, queued, ha] using hadd
      | false => simpa [entry, queued, ha] using hadd
    · rw [if_neg hi, if_neg hi, if_neg hi]
      by_cases hd : byte pkt.p_line 1 = DEL
      · have hadd := h.adds ⟨ser.toNat, false⟩
        rw [hd, if_pos rfl, if_pos (.inr (.inl rfl)), if_neg (by decide)]
        cases ha : A ser.toNat with
        | true => simpa [entry, queued, ha] using hadd
        | false => simpa [entry, queued, ha] using hadd
      · rw [if_neg hd]
        by_cases he : byte pkt.p_line 1 = END
        · rw [if_pos he, if_pos (.inr (.inr he)), if_pos he]
          exact h.removes ser.toNat
        · rw [if_neg he, if_neg (by simp [hi, hd, he])]
          rfl
  · rw [if_neg hr, if_neg hr]
    split <;> rfl

theorem At.written {pkt : Packet} {k : List (Mark Nat)} {ls : List Text}
    (h : At signed A idel maxser null pkt k ls) :
    At signed A idel maxser null (writeOut signed pkt) k ls := by
  have hput : ∀ {q : Packet}, At signed A idel maxser null q k ls → ∀ p,
      At signed A idel maxser null (putText signed q p) k ls := fun h p =>
    ⟨h.apply, h.sids, h.maxser, h.null, h.queue, h.desc, h.told, h.untold, h.text, h.sum⟩
  rw [writeOut]
  split
  · rw [putline]
    split
    · exact h
    · dsimp only
      refine hput (q := { pkt with p_wrttn := (pkt.p_wrttn + 1) % 256 }) ?_ _
      exact
        ⟨h.apply, h.sids, h.maxser, h.null, h.queue, h.desc, h.told, h.untold, h.text, h.sum⟩
  · exact h

/- getline at a line of the body. -/
theorem At.next_line {pkt : Packet} {k : List (Mark Nat)} {l : Text} {ls : List Text}
    (h : At signed A idel maxser null pkt k (l :: ls)) :
    ∃ p, getline signed pkt = .ok (p, true) ∧ p.p_line = l ∧
      At signed A idel maxser null p k ls := by
  have hw := h.written
  obtain ⟨s, hs, hr⟩ := hw.text
  cases hr with
  | cons hf hrest =>
    refine ⟨_, readline_line hs hf, rfl, ?_⟩
    exact ⟨hw.apply, hw.sids, hw.maxser, hw.null, hw.queue, hw.desc, hw.told, hw.untold,
      ⟨_, rfl, hrest⟩, hw.sum⟩

/- getline at the end of it. -/
theorem At.eof {pkt : Packet} {k : List (Mark Nat)}
    (h : At signed A idel maxser null pkt k []) :
    getline signed pkt = .error .prematureEof ∨
      ∃ p, getline signed pkt = .ok (p, false) ∧ p.p_q = k.map (entry A) := by
  have hw := h.written
  obtain ⟨s, hs, hr⟩ := hw.text
  cases hr
  have hsum := hw.sum
  rw [getline, readline_eof hs, getlineEof]
  split
  · exact .inl rfl
  · rw [if_neg (by rintro ⟨hd, hne⟩; exact hne (hsum hd))]
    split
    · exact .inr ⟨_, rfl, hw.queue⟩
    · exact .inr ⟨_, rfl, hw.queue⟩

/- What readings makes of the end of a readmod. -/
def following (signed : Bool) (n : Nat) :
    Except Fatal (Packet × Bool) → List (Text × Sid) × Option Fatal
  | .error e => ([], some e)
  | .ok (pkt, true) =>
    ((pkt.p_line, pkt.p_inssid) :: (readingsLoop signed n pkt).1, (readingsLoop signed n pkt).2)
  | .ok (_, false) => ([], none)

theorem readingsLoop_succ (n : Nat) (pkt : Packet) :
    readingsLoop signed (n + 1) pkt = following signed n (readmod signed pkt) := by
  rw [readingsLoop]
  cases readmod signed pkt with
  | error e => rfl
  | ok r =>
    obtain ⟨p, got⟩ := r
    cases got <;> rfl

/-- However many of the lines its calls take, readmod takes its course over the body. -/
theorem At.course {ls : List Text} {pkt : Packet} {k : List (Mark Nat)}
    (h : At signed A idel maxser null pkt k ls) {fuel n : Nat} (hfuel : ls.length < fuel)
    (hn : ls.length ≤ n) :
    Course A idel maxser null k ls (following signed n (readmodLoop signed fuel pkt)) := by
  induction ls generalizing pkt k fuel n with
  | nil =>
    obtain ⟨fuel, rfl⟩ : ∃ f, fuel = f + 1 := ⟨fuel - 1, by simp at hfuel; omega⟩
    rw [readmodLoop]
    rcases h.eof with he | ⟨p, hp, hq⟩
    · rw [he]
      exact .last (.inr rfl)
    · rw [hp]
      change Course A idel maxser null k [] (following signed n
        (if p.p_q = [] then pure (p, false) else throw .prematureEof))
      rw [hq]
      cases k with
      | nil => exact .last (.inl ⟨rfl, rfl⟩)
      | cons m k => exact .last (.inr rfl)
  | cons l ls ih =>
    obtain ⟨fuel, rfl⟩ : ∃ f, fuel = f + 1 := ⟨fuel - 1, by simp at hfuel; omega⟩
    have hfuel' : ls.length < fuel := by simpa using hfuel
    have hn' : ls.length < n := hn
    obtain ⟨p, hp, rfl, hat⟩ := h.next_line
    rw [readmodLoop, hp]
    change Course A idel maxser null k (p.p_line :: ls) (following signed n
      (if byte p.p_line 0 = CTLCHAR then control p >>= readmodLoop signed fuel
      else if p.p_keep = YES then pure ({ p with p_glnno := p.p_glnno + 1 }, true)
      else readmodLoop signed fuel p))
    by_cases hc : byte p.p_line 0 = CTLCHAR
    · rw [if_pos hc]
      have hdoes := hat.controls hc
      cases ho : (item maxser p.p_line).bind (queued null k) with
      | none =>
        rw [ho] at hdoes
        rw [show control p = _ from hdoes]
        exact .bad ho
      | some k' =>
        rw [ho] at hdoes
        obtain ⟨p', hp', hat'⟩ := hdoes
        obtain ⟨x, hx, ht⟩ := Option.bind_eq_some_iff.mp ho
        have hout : out A idel k x = [] := by
          cases x with
          | line t =>
            rw [item, if_pos hc] at hx
            dsimp only at hx
            split at hx
            · split at hx
              · cases hx
              · split at hx
                · cases hx
                · split at hx <;> cases hx
            · cases hx
          | _ => rfl
        have hrest := Course.on hx ht (ih hat' hfuel' (Nat.le_of_lt hn'))
        rw [hout] at hrest
        rw [hp']
        exact hrest
    · rw [if_neg hc]
      have hx : item maxser p.p_line = some (.line p.p_line) := if_neg hc
      cases hv : verdict A k with
      | some s =>
        obtain ⟨hkeep, hsid⟩ := hat.told s hv
        obtain ⟨n, rfl⟩ : ∃ m, n = m + 1 := ⟨n - 1, by omega⟩
        rw [if_pos hkeep]
        have hq : At signed A idel maxser null { p with p_glnno := p.p_glnno + 1 } k ls :=
          ⟨hat.apply, hat.sids, hat.maxser, hat.null, hat.queue, hat.desc, hat.told, hat.untold,
            hat.text, hat.sum⟩
        obtain ⟨s', hs', hr'⟩ := hq.text
        have hleft : ls.length < left { p with p_glnno := p.p_glnno + 1 } + 1 := by
          have := hr'.length
          rw [left, hs']
          simp only [Option.getD_some]
          omega
        have hrest := Course.on hx rfl (ih hq hleft (Nat.le_of_lt_succ hn'))
        rw [← readmod, ← readingsLoop_succ] at hrest
        simp only [out, hv, Option.toList_some, List.map_cons, List.map_nil] at hrest
        rw [← hsid] at hrest
        exact hrest
      | none =>
        rw [if_neg (hat.untold hv)]
        have hrest := Course.on hx rfl (ih hat hfuel' (Nat.le_of_lt hn'))
        simpa [out, hv] using hrest

/-- The packet as readmod has it at the begin of the body `ls`, the sum of the file being right. -/
structure Begun (signed : Bool) (pkt : Packet) (ls : List Text) : Prop where
  queue : pkt.p_q = []
  keep : pkt.p_keep ≠ YES
  text : ∃ s, pkt.p_iop = some s ∧ Reads s ls
  sum : pkt.do_chksum = true →
    (ls.foldl (addChars signed) pkt.p_chash - pkt.p_ihash) % 2 ^ 16 = 0

theorem Begun.course {pkt : Packet} {ls : List Text} (h : Begun signed pkt ls) :
    Course pkt.p_apply pkt.p_idel pkt.maxser pkt.null [] ls (readings signed pkt) := by
  have hat : At signed pkt.p_apply pkt.p_idel pkt.maxser pkt.null pkt [] ls :=
    ⟨rfl, rfl, rfl, rfl, h.queue, List.Pairwise.nil, fun s hs => (nomatch hs), fun _ => h.keep,
      h.text, h.sum⟩
  obtain ⟨s, hs, hr⟩ := h.text
  have hleft : ls.length ≤ left pkt := by
    rw [left, hs]
    exact hr.length
  rw [readings, readingsLoop_succ]
  exact hat.course (Nat.lt_succ_of_le hleft) hleft

/-- The reading of a body as a weave: of a proper one the lines of the version, each with the SID
of the delta that it comes from, and a complaint about every one that is not balanced. -/
structure Woven (signed : Bool) (pkt : Packet) (w : List (Item Nat Text)) : Prop where
  lines : Proper w → (readings signed pkt).1 = version pkt.p_apply pkt.p_idel [] w
  complains : ¬ Balanced w → (∃ n, (readings signed pkt).2 = some (.formatError n)) ∨
    (readings signed pkt).2 = some .prematureEof

/-- readmod reads a body as the weave that it is exactly if, where a proper one opens the serial
that the null pointer has while no lower one is open, no line of the version comes after. -/
theorem readmod_woven_iff {pkt : Packet} {ls : List Text} {w : List (Item Nat Text)}
    (h : Begun signed pkt ls) (hw : items pkt.maxser ls = some w) :
    Woven signed pkt w ↔ (Proper w → Quiet pkt.p_apply pkt.null [] w) := by
  have hcourse := h.course
  have hlines := fun hf => hcourse.lines_iff (w := w) List.Pairwise.nil (List.Perm.refl _)
    List.Pairwise.nil hw hf
  constructor
  · intro hwov hp
    exact (hlines hp.1).mp (hwov.lines hp)
  · intro hq
    refine ⟨fun hp => (hlines hp.1).mpr (hq hp), fun hb => ?_⟩
    rcases hcourse.reports List.Pairwise.nil (List.Perm.refl _) hw with h | h | h
    · exact .inl h
    · exact .inr h
    · exact absurd h hb

/- get before the body of a file, with all of its 2000 deltas applied. -/
def reading (body : Text) : Packet :=
  { opened body with
    p_apply := fun _ => true
    p_idel := fun n => ⟨1, n, 0, 0⟩
    maxser := 2000
    p_chkeof := true
    do_chksum := false }

def wovenLines : List Text :=
  [ctlline INS 2, [104, 105, 10], ctlline DEL 3, [121, 111, 10], ctlline END 2, ctlline END 3]

theorem readmod_woven_iff_two :
    Woven true (reading wovenLines.flatten)
      [.ins 2, .line [104, 105, 10], .del 3, .line [121, 111, 10], .fin 2, .fin 3] := by
  have hbegun : Begun true (reading wovenLines.flatten) wovenLines :=
    ⟨rfl, by decide,
      ⟨_, rfl, .cons rfl (.cons rfl (.cons rfl (.cons rfl (.cons rfl (.cons rfl .nil)))))⟩,
      by decide⟩
  refine (readmod_woven_iff hbegun (by decide)).mpr ?_
  intro _
  simp [Quiet, opens, Trips, reading, opened, gates]

/-- The first delta of the body has the serial that the null pointer has. -/
theorem readmod_gates :
    ¬ Woven true (reading (ctlline INS 1164 ++ [104, 105, 10] ++ ctlline END 1164))
      [.ins 1164, .line [104, 105, 10], .fin 1164] := by
  intro h
  have hlines := h.lines ⟨by simp [Along, Fit, Weave.IsOpen, next], rfl⟩
  exact absurd hlines (by decide +kernel)

end Svr32.Sccs
