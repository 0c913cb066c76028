import Svr32.Sccs.Delta
import Mathlib.Algebra.GroupWithZero.Nat

/-! sccs: the sum that putline gathers is that of what it has written after the first line. -/
namespace Svr32.Sccs
open Svr32.Lib

def chars (signed : Bool) (p : Text) : Int := (p.map (charval signed)).sum

@[simp] theorem chars_append (signed : Bool) (p q : Text) :
    chars signed (p ++ q) = chars signed p + chars signed q := by
  simp [chars]

theorem i32_mod (x : Int) : i32 x % 2 ^ 16 = x % 2 ^ 16 := by
  rw [i32, Int.bmod_def]
  split <;> omega

theorem foldl_mod (f : Nat → Int) (p : Text) (h : Int) :
    (p.foldl (fun h c => i32 (h + f c)) h) % 2 ^ 16 = (h + (p.map f).sum) % 2 ^ 16 := by
  induction p generalizing h with
  | nil => simp
  | cons c p ih =>
    have hc := i32_mod (h + f c)
    rw [List.foldl_cons, ih, List.map_cons, List.sum_cons]
    omega

theorem addChars_mod (signed : Bool) (h : Int) (p : Text) :
    addChars signed h p % 2 ^ 16 = (h + chars signed (cstr p)) % 2 ^ 16 :=
  foldl_mod _ _ _

section
variable (signed : Bool)

/-- A property of the packet that reading and writing lines keep, and that looks at nothing else
but the x-file, its sum, and the two flags that they obey. -/
structure Kept (I : Packet → Prop) : Prop where
  getline : ∀ {pkt r}, I pkt → getline signed pkt = .ok r → I r.1
  putline : ∀ {pkt} s, I pkt → I (putline signed pkt s)
  same : ∀ {pkt pkt'}, I pkt → pkt'.p_upd = pkt.p_upd → pkt'.Xcreate = pkt.Xcreate →
    pkt'.p_reopen = pkt.p_reopen → pkt'.Xiop = pkt.Xiop → pkt'.p_nhash = pkt.p_nhash → I pkt'

variable {signed} {I : Packet → Prop} {pkt : Packet}

theorem Kept.setkeep (hk : Kept signed I) (hs : I pkt) : I (setkeep pkt) := by
  rw [Sccs.setkeep]
  split
  · split
    · exact hk.same hs rfl rfl rfl rfl rfl
    · exact hk.same hs rfl rfl rfl rfl rfl
  · exact hk.same hs rfl rfl rfl rfl rfl

theorem Kept.control (hk : Kept signed I) (hs : I pkt) {r : Packet} (h : control pkt = .ok r) :
    I r := by
  have hadd : ∀ ser keep iord, addq pkt ser keep iord = .ok r → I r := by
    intro ser keep iord h
    rw [addq] at h
    split at h
    · cases h
    · cases h
      exact hk.setkeep (hk.same hs rfl rfl rfl rfl rfl)
  rw [Sccs.control] at h
  dsimp only at h
  split at h
  · split at h
    · split at h
      · rw [remq] at h
        split at h
        · cases h
          exact hk.setkeep (hk.same hs rfl rfl rfl rfl rfl)
        · cases h
      · split at h
        · exact hadd _ _ _ h
        · exact hadd _ _ _ h
    · cases h
  · cases h

theorem Kept.readmodLoop (fuel : Nat) (hk : Kept signed I) (hs : I pkt) {r : Packet × Bool}
    (h : readmodLoop signed fuel pkt = .ok r) : I r.1 := by
  induction fuel generalizing pkt with
  | zero => cases h
  | succ fuel ih =>
    rw [Sccs.readmodLoop] at h
    obtain ⟨⟨p, got⟩, hg, h⟩ := bind_ok h
    have hp := hk.getline hs hg
    dsimp only at h hp
    split at h
    · split at h
      · obtain ⟨q, hq, h⟩ := bind_ok h
        exact ih (hk.control hp hq) h
      · split at h
        · cases h
          exact hk.same hp rfl rfl rfl rfl rfl
        · exact ih hp h
    · split at h
      · cases h
        exact hp
      · cases h

theorem Kept.readmod (hk : Kept signed I) (hs : I pkt) {r : Packet × Bool}
    (h : readmod signed pkt = .ok r) : I r.1 :=
  hk.readmodLoop _ hs h

theorem Kept.readmodsLoop (fuel : Nat) (hk : Kept signed I) (hs : I pkt) {r : Packet × List Text}
    (h : readmodsLoop signed fuel pkt = .ok r) : I r.1 := by
  induction fuel generalizing pkt r with
  | zero => cases h
  | succ fuel ih =>
    rw [Sccs.readmodsLoop] at h
    obtain ⟨⟨p, got⟩, hg, h⟩ := bind_ok h
    have hp := hk.readmod hs hg
    dsimp only at h hp
    split at h
    · obtain ⟨x, hq, h⟩ := bind_ok h
      cases h
      have hx := ih hp hq
      exact hx
    · cases h
      exact hp

theorem Kept.flushtoLoop (ch put fuel : Nat) (hk : Kept signed I) (hs : I pkt) {r : Packet}
    (h : flushtoLoop signed ch put fuel pkt = .ok r) : I r := by
  induction fuel generalizing pkt with
  | zero => cases h
  | succ fuel ih =>
    rw [Sccs.flushtoLoop] at h
    obtain ⟨⟨p, got⟩, hg, h⟩ := bind_ok h
    have hp := hk.getline hs hg
    dsimp only at h hp
    split at h
    · split at h
      · cases h
        exact hk.putline none hp
      · refine ih ?_ h
        exact hk.same hp rfl rfl rfl rfl rfl
    · cases h

theorem Kept.getlinesLoop (fuel : Nat) (hk : Kept signed I) (hs : I pkt) {r : Packet}
    (h : getlinesLoop signed fuel pkt = .ok r) : I r := by
  induction fuel generalizing pkt with
  | zero => cases h
  | succ fuel ih =>
    rw [Sccs.getlinesLoop] at h
    obtain ⟨⟨p, got⟩, hg, h⟩ := bind_ok h
    have hp := hk.getline hs hg
    dsimp only at h hp
    split at h
    · exact ih hp h
    · cases h
      exact hp

theorem Kept.beforeLoop (n : Int) (fuel : Nat) (hk : Kept signed I) (hs : I pkt) {r : Packet}
    (h : beforeLoop signed n fuel pkt = .ok r) : I r := by
  induction fuel generalizing pkt with
  | zero => cases h
  | succ fuel ih =>
    rw [Sccs.beforeLoop] at h
    split at h
    · obtain ⟨⟨p, got⟩, hg, h⟩ := bind_ok h
      have hp := hk.readmod hs hg
      dsimp only at h hp
      split at h
      · exact ih hp h
      · cases h
        exact hp
    · cases h
      exact hs

theorem Kept.after (n : Int) (hk : Kept signed I) (hs : I pkt) {r : Packet}
    (h : after signed pkt n = .ok r) : I r := by
  obtain ⟨p, hp, h⟩ := bind_ok h
  have hs' := hk.beforeLoop n _ hs hp
  split at h
  · cases h
    exact hk.putline none hs'
  · cases h
    exact hs'

theorem Kept.insertLines (n : Nat) (Diffin str : Text) (hk : Kept signed I) (hs : I pkt) :
    I (insertLines signed n pkt Diffin str).1 := by
  induction n generalizing pkt Diffin str with
  | zero => exact hs
  | succ n ih => exact ih _ _ (hk.putline _ hs)

theorem Kept.applydiff (type : Nat) (linenum n : Int) (newser : Nat) {w r : Weaver}
    (hk : Kept signed I) (hs : I w.pkt) (h : applydiff signed w type linenum n newser = .ok r) :
    I r.pkt := by
  rw [Sccs.applydiff] at h
  split at h
  · obtain ⟨⟨p, rest⟩, hp, h⟩ := bind_ok h
    obtain ⟨q, hq, hp⟩ := bind_ok hp
    cases h
    cases hp
    have hins := hk.insertLines (rounds n) w.Diffin (ctlline INS newser ++ [0])
      (hk.putline (some (ctlline INS newser)) (hk.after _ hs hq))
    exact hk.putline (some (ctlline END newser)) hins
  · obtain ⟨p, hp, h⟩ := bind_ok h
    obtain ⟨q, hq, hp⟩ := bind_ok hp
    obtain ⟨q', hq', hp⟩ := bind_ok hp
    cases h
    cases hp
    have hdel := hk.putline (some (ctlline DEL newser)) (hk.beforeLoop _ _ hs hq)
    exact hk.putline (some (ctlline END newser)) (hk.after _ hdel hq')

theorem getdiff_pkt {w : Weaver} {r : Weaver × Nat × Int × Int} (h : getdiff w = .ok r) :
    r.1.pkt = w.pkt := by
  rw [getdiff] at h
  split at h
  · cases h
    rfl
  · dsimp only at h
    repeat' split at h
    all_goals cases h
    all_goals rfl

theorem Kept.weaveLoop (newser fuel : Nat) {w r : Weaver} (hk : Kept signed I) (hs : I w.pkt)
    (h : weaveLoop signed newser fuel w = .ok r) : I r.pkt := by
  induction fuel generalizing w with
  | zero => cases h
  | succ fuel ih =>
    rw [Sccs.weaveLoop] at h
    obtain ⟨⟨v, type, linenum, n⟩, hv, h⟩ := bind_ok h
    have hpkt : v.pkt = w.pkt := getdiff_pkt hv
    rw [← hpkt] at hs
    dsimp only at h
    split at h
    · cases h
      exact hs
    · obtain ⟨u, hu, h⟩ := bind_ok h
      exact ih (hk.applydiff _ _ _ _ hs hu) h

theorem Kept.weave (newser : Nat) {w r : Weaver} (hk : Kept signed I) (hs : I w.pkt)
    (h : weave signed newser w = .ok r) : I r.pkt := by
  obtain ⟨v, hv, h⟩ := bind_ok h
  have hs' := hk.weaveLoop _ _ hs hv
  split at h
  · obtain ⟨⟨p, ls⟩, hp, h⟩ := bind_ok h
    cases h
    exact hk.readmodsLoop _ hs' hp
  · cases h
    exact hs'

theorem Kept.rmbodyLoop (D_serial : Int) (fuel : Nat) (keep : Int) (hk : Kept signed I) (hs : I pkt)
    {r : Packet} (h : rmbodyLoop signed D_serial fuel pkt keep = .ok r) :
    I r := by
  induction fuel generalizing pkt keep with
  | zero => cases h
  | succ fuel ih =>
    rw [Sccs.rmbodyLoop] at h
    obtain ⟨⟨p, got⟩, hg, h⟩ := bind_ok h
    have hp := hk.getline hs hg
    dsimp only at h hp
    split at h
    · obtain ⟨⟨q, keep'⟩, hq, h⟩ := bind_ok h
      have hline : I q := by
        rw [rmline] at hq
        dsimp only at hq
        repeat' split at hq
        all_goals cases hq
        all_goals exact hk.same hp rfl rfl rfl rfl rfl
      exact ih _ hline h
    · cases h
      exact hp

theorem Kept.headerStep (x : HeaderStep) (hk : Kept signed I) (hs : I pkt) {r : Packet}
    (h : headerStep signed pkt x = .ok r) : I r := by
  cases x with
  | getline =>
    obtain ⟨⟨p, got⟩, hg, h⟩ := bind_ok h
    cases h
    exact hk.getline hs hg
  | edit line =>
    cases h
    exact hk.same hs rfl rfl rfl rfl rfl
  | put str =>
    cases h
    exact hk.putline _ hs
  | putCurrent =>
    cases h
    exact hk.putline _ hs
  | drop =>
    cases h
    exact hk.same hs rfl rfl rfl rfl rfl

theorem Kept.headerSteps (xs : List HeaderStep) (hk : Kept signed I) (hs : I pkt) {r : Packet}
    (h : headerSteps signed pkt xs = .ok r) : I r := by
  induction xs generalizing pkt with
  | nil =>
    cases h
    exact hs
  | cons x xs ih =>
    obtain ⟨p, hp, h⟩ := bind_ok h
    exact ih (hk.headerStep x hs hp) h


variable (signed) in
/-- The x-file is open and begins with `top`; of the rest, and `c` more, the packet has the sum. -/
structure Sums (top : Text) (c : Int) (pkt : Packet) : Prop where
  upd : pkt.p_upd = true
  created : pkt.Xcreate = true
  once : pkt.p_reopen = false
  written : ∃ b, pkt.Xiop = top ++ b ∧ 0 ∉ b ∧
    pkt.p_nhash % 2 ^ 16 = (c + chars signed b) % 2 ^ 16

variable {top : Text} {c : Int}

/- A packet that differs in nothing that is written. -/
theorem Sums.same (hs : Sums signed top c pkt) {pkt' : Packet} (hu : pkt'.p_upd = pkt.p_upd)
    (hc : pkt'.Xcreate = pkt.Xcreate) (hr : pkt'.p_reopen = pkt.p_reopen)
    (hx : pkt'.Xiop = pkt.Xiop) (hn : pkt'.p_nhash = pkt.p_nhash) : Sums signed top c pkt' := by
  refine ⟨hu.trans hs.upd, hc.trans hs.created, hr.trans hs.once, ?_⟩
  rw [hx, hn]
  exact hs.written

theorem Sums.putText (hs : Sums signed top c pkt) (p : Text) :
    Sums signed top c (putText signed pkt p) := by
  obtain ⟨b, hb, h0, hsum⟩ := hs.written
  refine ⟨hs.upd, rfl, hs.once, b ++ cstr p, ?_, ?_, ?_⟩
  · simp [Sccs.putText, hs.created, hb]
  · simpa [h0] using zero_notMem_cstr p
  · have hadd := addChars_mod signed pkt.p_nhash p
    simp only [Sccs.putText, hs.created, if_true, chars_append]
    omega

theorem Sums.putline (hs : Sums signed top c pkt) (newline : Option Text) :
    Sums signed top c (putline signed pkt newline) := by
  unfold Sccs.putline
  rw [if_neg (by simp [hs.upd])]
  cases newline with
  | some p => exact hs.putText p
  | none =>
    dsimp only
    split
    · refine Sums.putText ?_ _
      exact hs.same rfl rfl rfl rfl rfl
    · refine Sums.putText ?_ _
      exact hs.same rfl rfl rfl rfl rfl

theorem Sums.readline (hs : Sums signed top c pkt) {r : Packet × Bool}
    (h : readline signed pkt = .ok r) : Sums signed top c r.1 := by
  rw [Sccs.readline] at h
  split at h
  · cases h
  · split at h
    · rw [getlineEof] at h
      split at h
      · cases h
      split at h
      · cases h
      rw [if_neg (by simp [hs.once])] at h
      cases h
      exact hs.same rfl rfl rfl rfl rfl
    · cases h
      exact hs.same rfl rfl rfl rfl rfl

theorem Sums.writeOut (hs : Sums signed top c pkt) : Sums signed top c (writeOut signed pkt) := by
  rw [Sccs.writeOut]
  split
  · exact hs.putline none
  · exact hs

theorem sums_kept : Kept signed (Sums signed top c) where
  getline hs h := hs.writeOut.readline h
  putline s hs := hs.putline s
  same hs := hs.same

end
end Svr32.Sccs
