import Svr32.RecLock.Turn

/-! flckadj keeps the lock list: each case of its switch, the loop, the insertion. -/
namespace Svr32.RecLock
open Svr32.Lib
variable {I : Type*} [DecidableEq I]
variable {recs : Nat} {k : Table I} {ls : ListId I → List Nat} {li : ListId I} {u : Owner}
  {pre post : List Nat} {insrtp : Option Nat} {ld : Flock} {flp : Nat}

/-- The switch over the regions, case by case. -/
theorem adjOwn_spec (h : Rep recs k ls) (hli : li ≠ .free) (hl : ls li = pre ++ flp :: post)
    (hi : AdjInv u k.set pre (flp :: post) insrtp ld) (ho : (k.set flp).owner = u) :
    ∃ r, adjOwn recs u li insrtp ld flp k = some r ∧ AdjOk recs u li k ls post.length r := by
  have hL := hi.locked
  have hv := hL.valid flp (by simp)
  have hvle := hv.le
  have hle := hi.asked.le
  have hst := hi.asked.start
  have hn := h.lists.next_eq hl
  have hp := h.lists.prev_eq hl
  obtain ⟨hs, he⟩ := regflck_spec (f := k.set flp) hle
  have hafter : ∀ r ∈ post, (k.set r).owner = u → (k.set flp).lEnd < (k.set r).lStart ∧
      ((k.set flp).lType = (k.set r).lType → (k.set flp).lEnd + 1 < (k.set r).lStart) :=
    fun r hr hro => hL.own_after hr (hro.trans ho.symm)
  have hgrown : ∀ ld' : Flock, ld.lType = (k.set flp).lType → (k.set flp).lStart ≤ ld.lEnd + 1 →
      ld.lStart ≤ (k.set flp).lEnd + 1 → ld'.lType = ld.lType →
      (ld'.lStart = ld.lStart ∨ ld'.lStart = (k.set flp).lStart) →
      (ld'.lEnd = ld.lEnd ∨ ld'.lEnd = (k.set flp).lEnd) → ld'.lStart ≤ ld'.lEnd →
      Grown ld (k.set flp) ld' := by
    intro ld' ht h₁ h₂ ht' h₃ h₄ h₅
    have hm := hi.asked.max
    have hvm := hv.max
    have hvs := hv.start
    refine ⟨⟨?_, h₅, ?_, ht' ▸ hi.asked.type⟩, ht', .inr ⟨ht, h₁, h₂, h₃, h₄⟩⟩ <;> omega
  cases hreg : regflck ld (k.set flp) with
  | mk a b =>
    rw [hreg] at hs he
    simp only [adjOwn, hreg, hn, hp]
    cases a with
    | before =>
      simp only [Region.StartAt] at hs
      have hrem : ld.lType ≠ .unlck → Cursor k.set (pre ++ post) ld.lStart insrtp :=
        fun ht => (hi.cursor ht).remove hs
      cases b with
      | before =>
        simp only [Region.EndAt] at he
        refine ⟨_, rfl, adjOk_keep h hl hi (fun _ => ⟨by omega, fun _ => by omega⟩) hi.cursor
          (.inr ⟨rfl, fun r hr hro => ?_⟩)⟩
        have hr := (hafter r hr hro).1
        exact ⟨by omega, fun _ => by omega⟩
      | start =>
        simp only [Region.EndAt] at he
        by_cases ht : ld.lType = (k.set flp).lType
        · refine ⟨_, by simp only [decide_eq_true ht, if_true]; rfl, ?_⟩
          refine adjOk_drop h hli hl hi ho (hgrown { ld with lEnd := (k.set flp).lEnd } ht (by omega)
            (by omega) rfl (.inl rfl) (.inr rfl) (by simp only; omega)) hrem (.inr ⟨rfl, fun r hr hro => ?_⟩)
          have hr := hafter r hr hro
          exact ⟨.inl hr.1, fun hty => .inl (hr.2 (ht.symm.trans hty))⟩
        · refine ⟨_, by simp only [decide_eq_false ht]; rfl, ?_⟩
          refine adjOk_keep h hl hi (fun _ => ⟨by omega, fun hty => absurd hty ht⟩) hi.cursor
            (.inr ⟨rfl, fun r hr hro => ?_⟩)
          have hr := (hafter r hr hro).1
          exact ⟨by omega, fun _ => by omega⟩
      | middle =>
        simp only [Region.EndAt] at he
        exact adjMiddle_spec h hli hl hi ho he.1 he.2 (fun _ => rfl) hrem
      | finish =>
        simp only [Region.EndAt] at he
        refine ⟨_, rfl, adjOk_drop h hli hl hi ho (.refl hi.asked) hrem ?_⟩
        by_cases ht : ld.lType = (k.set flp).lType
        · simp only [decide_eq_true ht, if_true]
          refine .inr ⟨rfl, fun r hr hro => ?_⟩
          have hr := hafter r hr hro
          rw [← he, ← ht] at hr
          exact ⟨.inl hr.1, fun hty => .inl (hr.2 hty)⟩
        · simp only [decide_eq_false ht]
          exact .inl rfl
      | after => exact ⟨_, rfl, adjOk_drop h hli hl hi ho (.refl hi.asked) hrem (.inl rfl)⟩
    | start =>
      simp only [Region.StartAt] at hs
      have hprev : ld.lType ≠ .unlck → Cursor k.set (pre ++ post) ld.lStart pre.getLast? :=
        fun _ => hL.cursor_prev hs.symm
      cases b with
      | before =>
        simp only [Region.EndAt] at he
        omega
      | start =>
        simp only [Region.EndAt] at he
        omega
      | middle =>
        simp only [Region.EndAt] at he
        by_cases ht : ld.lType = (k.set flp).lType
        · exact ⟨_, by simp only [decide_eq_true ht, if_true], adjOk_ret h hl hi ld none⟩
        · simp only [decide_eq_false ht]
          exact adjMiddle_spec h hli hl hi ho he.1 he.2 (fun _ => rfl) hprev
      | finish =>
        by_cases ht : ld.lType = (k.set flp).lType
        · exact ⟨_, by simp only [decide_eq_true ht, if_true], adjOk_ret h hl hi ld none⟩
        · exact ⟨_, by simp only [decide_eq_false ht]; rfl,
            adjOk_drop h hli hl hi ho (.refl hi.asked) hprev (.inl rfl)⟩
      | after => exact ⟨_, rfl, adjOk_drop h hli hl hi ho (.refl hi.asked) hprev (.inl rfl)⟩
    | middle =>
      simp only [Region.StartAt] at hs
      cases b with
      | before =>
        simp only [Region.EndAt] at he
        omega
      | start =>
        simp only [Region.EndAt] at he
        omega
      | middle =>
        simp only [Region.EndAt] at he
        by_cases ht : ld.lType = (k.set flp).lType
        · exact ⟨_, by simp only [decide_eq_true ht, if_true], adjOk_ret h hl hi ld none⟩
        · simp only [decide_eq_false ht]
          exact adjMiddle_spec h hli hl hi ho he.1 he.2 (fun hty => absurd hty ht) hs.1
      | finish =>
        by_cases ht : ld.lType = (k.set flp).lType
        · exact ⟨_, by simp only [decide_eq_true ht, if_true], adjOk_ret h hl hi ld none⟩
        · exact ⟨_, by simp only [decide_eq_false ht]; rfl, adjOk_cut h hl hi ho ht hs.1 hs.2⟩
      | after =>
        by_cases ht : ld.lType = (k.set flp).lType
        · refine ⟨_, by simp only [decide_eq_true ht, if_true]; rfl, ?_⟩
          exact adjOk_drop h hli hl hi ho (hgrown { ld with lStart := (k.set flp).lStart } ht
            (by omega) (by omega) rfl (.inr rfl) (.inl rfl) (by simp only; omega)) (fun _ => hL.cursor_prev rfl) (.inl rfl)
        · exact ⟨_, by simp only [decide_eq_false ht]; rfl, adjOk_cut h hl hi ho ht hs.1 hs.2⟩
    | finish =>
      simp only [Region.StartAt] at hs
      cases b with
      | after =>
        by_cases ht : ld.lType = (k.set flp).lType
        · refine ⟨_, by simp only [decide_eq_true ht, if_true]; rfl, ?_⟩
          exact adjOk_drop h hli hl hi ho (hgrown { ld with lStart := (k.set flp).lStart } ht
            (by omega) (by omega) rfl (.inr rfl) (.inl rfl) (by simp only; omega)) (fun _ => hL.cursor_prev rfl) (.inl rfl)
        · exact ⟨_, by simp only [decide_eq_false ht]; rfl,
            adjOk_keep h hl hi (fun _ => ⟨by omega, fun hty => absurd hty ht⟩) hi.cursor (.inl rfl)⟩
      | _ =>
        simp only [Region.EndAt] at he
        omega
    | after =>
      simp only [Region.StartAt] at hs
      cases b with
      | after =>
        exact ⟨_, rfl, adjOk_keep h hl hi (fun _ => ⟨by omega, fun _ => by omega⟩)
          (fun _ => ⟨by simp, by omega⟩) (.inl rfl)⟩
      | _ =>
        simp only [Region.EndAt] at he
        omega

/- What flckadj leaves. -/
def FlckadjOk (recs : Nat) (li : ListId I) (k : Table I) (ls : ListId I → List Nat)
    (r : Option (Table I × Flock × Option Errno)) : Prop :=
  ∃ k' ld' retval ls', r = some (k', ld', retval) ∧ Rep recs k' ls' ∧ Frame li k ls k' ls' ∧
    Locked k'.set (ls' li)

/-- The new lock goes in behind the cursor. -/
theorem adjInsert_spec (h : Rep recs k ls) (hli : li ≠ .free)
    (hi : AdjInv u k.set (ls li) [] insrtp ld) :
    FlckadjOk recs li k ls (adjInsert recs u li insrtp ld k) := by
  have hL : Locked k.set (ls li) := by simpa using hi.locked
  by_cases ht : ld.lType = .unlck
  · exact ⟨k, ld, none, ls, if_pos ht, h, .refl li k ls, hL⟩
  have hothers := hi.others ht
  have hcur := hi.cursor ht
  have hown := hi.own
  rw [List.append_nil] at hothers hcur
  have hv : ({ ld with lPid := u.pid, lSysid := u.sysid } : Flock).Valid :=
    ⟨hi.asked.start, hi.asked.le, hi.asked.max, by
      cases hi.asked.type with
      | inl hr => exact .inl hr
      | inr hw => exact .inr (hw.resolve_right ht)⟩
  have hc : ∀ r ∈ ls li, ({ ld with lPid := u.pid, lSysid := u.sysid } : Flock).Coexist (k.set r) :=
    fun r hr => ⟨fun ho => hown r hr ho.symm, fun ho => hothers r hr fun he => ho he.symm⟩
  -- at any place where the starts stay in order
  have hplace : ∀ pre post, ls li = pre ++ post → (∀ r ∈ pre, (k.set r).lStart ≤ ld.lStart) →
      (∀ r ∈ post, ld.lStart ≤ (k.set r).lStart) →
      FlckadjOk recs li k ls (some (adjPlace u li ld k pre.getLast?)) := by
    intro pre post hl hpre hpost
    simp only [adjPlace]
    cases hins : insflck u li ld pre.getLast? k with
    | none => exact ⟨k, ld, _, ls, rfl, h, .refl li k ls, hL⟩
    | some p =>
      obtain ⟨ls', hR, hl', hF, hnew, hset, -, -⟩ := h.insflck hli hl hins
      refine ⟨p.2, ld, none, ls', rfl, hR, hF, ?_⟩
      rw [hl', hset]
      rw [hl] at hL hc
      exact hL.insert (hl ▸ hnew li hli) hv hc hpre hpost
  simp only [adjInsert, if_neg ht]
  cases insrtp with
  | none => exact hplace [] (ls li) rfl (by simp) hcur
  | some x =>
    obtain ⟨pre, post, hl⟩ := List.append_of_mem hcur.1
    obtain ⟨mid, post', i, rfl, hip, hlast, hfront, hback⟩ := insPoint_spec h hL hl hcur.2
    have hp := hplace (pre ++ x :: mid) post' (by simp [hl]) hfront hback
    rw [hlast] at hp
    simpa only [hip, Option.map_some] using hp

theorem adjLoop_spec (fuel : Nat) (h : Rep recs k ls) (hli : li ≠ .free) (hl : ls li = pre ++ post)
    (hi : AdjInv u k.set pre post insrtp ld) (hfuel : post.length ≤ fuel) :
    FlckadjOk recs li k ls (adjLoop recs u li fuel insrtp post.head? ld k) := by
  induction fuel generalizing k ls pre post insrtp ld with
  | zero =>
    have hnil : post = [] := List.eq_nil_of_length_eq_zero (by omega)
    subst hnil
    rw [List.append_nil] at hl
    exact adjInsert_spec h hli (hl ▸ hi)
  | succ fuel ih =>
    cases post with
    | nil =>
      rw [List.append_nil] at hl
      exact adjInsert_spec h hli (hl ▸ hi)
    | cons flp post =>
      simp only [List.length_cons] at hfuel
      by_cases ho : (k.set flp).owner = u
      · obtain ⟨r, hr, hok⟩ := adjOwn_spec h hli hl hi ho
        simp only [List.head?_cons, adjLoop, if_pos ho, hr, Option.bind_some]
        cases r with
        | ret k' ld' retval =>
          obtain ⟨ls', hR, hF, hL⟩ := hok
          exact ⟨k', ld', retval, ls', rfl, hR, hF, hL⟩
        | next k' insrtp' nflp ld' =>
          obtain ⟨ls', pre', post', hR, hl', hF, rfl, hlen, hi'⟩ := hok
          obtain ⟨k'', ld'', retval, ls'', hr', hR', hF', hL⟩ := ih hR hl' hi' (by omega)
          exact ⟨k'', ld'', retval, ls'', hr', hR', hF.trans hF', hL⟩
      · simp only [List.head?_cons, adjLoop, if_neg ho, h.lists.next_eq hl]
        exact ih h (by simpa using hl) (hi.keep (fun he => absurd he ho) hi.cursor) (by omega)

/-- flckadj returns, and keeps the lock list: `pre` is what lies in front of the record it
starts at. -/
theorem flckadj_spec (h : Rep recs k ls) (hli : li ≠ .free) (hl : ls li = pre ++ post)
    (hstart : insrtp.or (k.links.head li) = post.head?)
    (hi : AdjInv u k.set pre post insrtp ld) :
    FlckadjOk recs li k ls (flckadj recs u li insrtp ld k) := by
  have hlen := h.length_le li
  rw [hl, List.length_append] at hlen
  rw [flckadj, hstart]
  exact adjLoop_spec (recs + 1) h hli hl hi (by omega)

end Svr32.RecLock

/-! blocked: which lock stands in the way of a new one, and where flckadj has to begin
when none does. -/
namespace Svr32.RecLock
open Svr32.Lib
variable {I : Type*}

/- The test of both loops of blocked for a lock of another process. -/
def conflicts (f lckdat : Flock) : Bool :=
  decide (f.lType = .wrlck) || (decide (f.lType = .rdlck) && decide (lckdat.lType = .wrlck))

/- The first loop: *insrt, and the blocking lock or where the loop breaks. -/
def blockedFront (u : Owner) (lckdat : Flock) (k : Table I) :
    Nat → Option Nat → Option Nat → Option (Option Nat × (Nat ⊕ Option Nat))
  | _, insrt, none => some (insrt, .inr none)
  | 0, _, some _ => none
  | fuel + 1, insrt, some f =>
    if (k.set f).lStart < lckdat.lStart then
      if (k.set f).owner = u then
        if lckdat.lStart - 1 ≤ (k.set f).lEnd then some (some f, .inr (some f))
        else blockedFront u lckdat k fuel (some f) (k.links.next f)
      else if lckdat.lStart ≤ (k.set f).lEnd ∧ conflicts (k.set f) lckdat then
        some (some f, .inl f)
      else blockedFront u lckdat k fuel (some f) (k.links.next f)
    else some (insrt, .inr (some f))

/- The second loop. -/
def blockedBack (u : Owner) (lckdat : Flock) (k : Table I) :
    Nat → Option Nat → Option (Option Nat)
  | _, none => some none
  | 0, some _ => none
  | fuel + 1, some f =>
    if lckdat.lEnd < (k.set f).lStart then some none
    else if lckdat.lStart ≤ (k.set f).lEnd ∧ (k.set f).owner ≠ u ∧
        conflicts (k.set f) lckdat then some (some f)
    else blockedBack u lckdat k fuel (k.links.next f)

/- blocked(flp, lckdat, &insrt): the blocking lock and *insrt. -/
def blocked (recs : Nat) (u : Owner) (flp : Option Nat) (lckdat : Flock) (k : Table I) :
    Option (Option Nat × Option Nat) :=
  (blockedFront u lckdat k (recs + 1) none flp).bind fun
    | (insrt, .inl found) => some (some found, insrt)
    | (insrt, .inr f) =>
      (blockedBack u lckdat k (recs + 1) f).map fun found => (found, insrt)

variable {recs : Nat} {k : Table I} {ls : ListId I → List Nat} {li : ListId I} {u : Owner}
  {pre post : List Nat} {lckdat : Flock}

theorem compatible_of_not_conflicts {f : Flock} (hf : f.Valid)
    (hc : ¬ (lckdat.lStart ≤ f.lEnd ∧ conflicts f lckdat)) : lckdat.Compatible f := by
  by_cases hle : lckdat.lStart ≤ f.lEnd
  · have hn : conflicts f lckdat = false := by simpa [hle] using hc
    refine .inr (.inr ?_)
    simp only [conflicts, Bool.or_eq_false_iff, Bool.and_eq_false_iff, decide_eq_false_iff_not] at hn
    refine ⟨?_, hn.1⟩
    cases hn.2 with
    | inl hr => exact absurd (hf.type.resolve_right hn.1) hr
    | inr hw => exact hw
  · exact .inr (.inl (by omega))

theorem not_compatible_of_conflicts {f : Flock} (hs : lckdat.lStart ≤ f.lEnd)
    (he : f.lStart ≤ lckdat.lEnd) (hc : conflicts f lckdat) : ¬ lckdat.Compatible f := by
  intro h
  simp only [conflicts, Bool.or_eq_true, Bool.and_eq_true, decide_eq_true_eq] at hc
  simp only [Flock.Compatible] at h
  have hw := h.resolve_left (by omega)
  have hw := hw.resolve_left (by omega)
  cases hc with
  | inl hc => exact hw.2 hc
  | inr hc => exact hw.1 hc.2

/- What the first loop knows of a lock behind it. -/
structure Passed (u : Owner) (lckdat f : Flock) : Prop where
  start : f.lStart < lckdat.lStart
  own : f.owner = u → f.lEnd + 1 < lckdat.lStart
  other : f.owner ≠ u → lckdat.Compatible f

theorem blockedFront_spec (fuel : Nat) (h : Lists k.links ls) (hl : ls li = pre ++ post)
    (hv : ∀ r ∈ ls li, (k.set r).Valid) (hd : lckdat.Valid)
    (hs : post.Pairwise fun r r' => (k.set r).lStart ≤ (k.set r').lStart)
    (hpass : ∀ r ∈ pre, Passed u lckdat (k.set r)) (hfuel : post.length ≤ fuel) :
    (∃ insrt found, blockedFront u lckdat k fuel pre.getLast? post.head? =
        some (insrt, .inl found) ∧ found ∈ post ∧ (k.set found).owner ≠ u ∧
        ¬ lckdat.Compatible (k.set found)) ∨
    ∃ insrt pre' post', blockedFront u lckdat k fuel pre.getLast? post.head? =
        some (insrt, .inr post'.head?) ∧ ls li = pre' ++ post' ∧
        (∀ r ∈ pre', Passed u lckdat (k.set r)) ∧
        ((insrt = pre'.getLast? ∧ ∀ r ∈ post', lckdat.lStart ≤ (k.set r).lStart) ∨
          ∃ f, insrt = some f ∧ post'.head? = some f ∧ (k.set f).lStart < lckdat.lStart) := by
  induction fuel generalizing pre post with
  | zero =>
    have hnil : post = [] := List.eq_nil_of_length_eq_zero (by omega)
    subst hnil
    exact .inr ⟨_, pre, [], by simp [blockedFront], hl, hpass, .inl ⟨rfl, by simp⟩⟩
  | succ fuel ih =>
    cases post with
    | nil => exact .inr ⟨_, pre, [], by simp [blockedFront], hl, hpass, .inl ⟨rfl, by simp⟩⟩
    | cons f post =>
      obtain ⟨hf, hs'⟩ := List.pairwise_cons.mp hs
      have hvf := hv f (by simp [hl])
      have hdle := hd.le
      have hfle := hvf.le
      have hgo : Passed u lckdat (k.set f) → _ := fun hp =>
        @ih (pre ++ [f]) post (by simpa using hl) hs'
          (by
            intro r hr
            cases List.mem_append.mp hr with
            | inl hr => exact hpass r hr
            | inr hr => exact List.mem_singleton.mp hr ▸ hp) (by simpa using hfuel)
      rw [List.getLast?_concat] at hgo
      simp only [List.head?_cons, blockedFront, h.next_eq hl]
      by_cases hlt : (k.set f).lStart < lckdat.lStart
      · simp only [if_pos hlt]
        by_cases ho : (k.set f).owner = u
        · simp only [if_pos ho]
          by_cases he : lckdat.lStart - 1 ≤ (k.set f).lEnd
          · refine .inr ⟨some f, pre, f :: post, by simp [he], hl, hpass, .inr ⟨f, rfl, rfl, hlt⟩⟩
          · simp only [if_neg he]
            have hg := hgo ⟨hlt, fun _ => by omega, fun hno => absurd ho hno⟩
            exact hg.imp_left fun ⟨i, g, h₁, h₂, h₃⟩ => ⟨i, g, h₁, List.mem_cons_of_mem f h₂, h₃⟩
        · simp only [if_neg ho]
          by_cases hc : lckdat.lStart ≤ (k.set f).lEnd ∧ conflicts (k.set f) lckdat
          · refine .inl ⟨some f, f, by simp [hc], by simp, ho, ?_⟩
            exact not_compatible_of_conflicts hc.1 (by omega) hc.2
          · simp only [if_neg hc]
            have hg := hgo ⟨hlt, fun hno => absurd hno ho,
              fun _ => compatible_of_not_conflicts hvf hc⟩
            exact hg.imp_left fun ⟨i, g, h₁, h₂, h₃⟩ => ⟨i, g, h₁, List.mem_cons_of_mem f h₂, h₃⟩
      · refine .inr ⟨pre.getLast?, pre, f :: post, by simp [hlt], hl, hpass, .inl ⟨rfl, ?_⟩⟩
        intro r hr
        cases List.mem_cons.mp hr with
        | inl he => rw [he]; omega
        | inr hr => have := hf r hr; omega

theorem blockedBack_spec (fuel : Nat) (h : Lists k.links ls) (hl : ls li = pre ++ post)
    (hv : ∀ r ∈ ls li, (k.set r).Valid)
    (hs : post.Pairwise fun r r' => (k.set r).lStart ≤ (k.set r').lStart)
    (hfuel : post.length ≤ fuel) :
    (∃ found ∈ post, blockedBack u lckdat k fuel post.head? = some (some found) ∧
        (k.set found).owner ≠ u ∧ ¬ lckdat.Compatible (k.set found)) ∨
    (blockedBack u lckdat k fuel post.head? = some none ∧
      ∀ r ∈ post, (k.set r).owner ≠ u → lckdat.Compatible (k.set r)) := by
  induction fuel generalizing pre post with
  | zero =>
    have hnil : post = [] := List.eq_nil_of_length_eq_zero (by omega)
    subst hnil
    exact .inr ⟨by simp [blockedBack], by simp⟩
  | succ fuel ih =>
    cases post with
    | nil => exact .inr ⟨by simp [blockedBack], by simp⟩
    | cons f post =>
      obtain ⟨hf, hs'⟩ := List.pairwise_cons.mp hs
      simp only [List.head?_cons, blockedBack, h.next_eq hl]
      by_cases he : lckdat.lEnd < (k.set f).lStart
      · simp only [if_pos he]
        refine .inr ⟨trivial, fun r hr _ => .inl ?_⟩
        cases List.mem_cons.mp hr with
        | inl hrf => exact hrf ▸ he
        | inr hr => exact Int.lt_of_lt_of_le he (hf r hr)
      · simp only [if_neg he]
        by_cases hc : lckdat.lStart ≤ (k.set f).lEnd ∧ (k.set f).owner ≠ u ∧
            conflicts (k.set f) lckdat
        · simp only [if_pos hc]
          exact .inl ⟨f, by simp, rfl, hc.2.1, not_compatible_of_conflicts hc.1 (by omega) hc.2.2⟩
        · simp only [if_neg hc]
          cases @ih (pre ++ [f]) _ (by simpa using hl) hs' (by simpa using hfuel) with
          | inl hi =>
            obtain ⟨found, hm, hi⟩ := hi
            exact .inl ⟨found, List.mem_cons_of_mem f hm, hi⟩
          | inr hi =>
            refine .inr ⟨hi.1, fun r hr hro => ?_⟩
            cases List.mem_cons.mp hr with
            | inl hrf =>
              subst hrf
              exact compatible_of_not_conflicts (hv r (by simp [hl]))
                fun hn => hc ⟨hn.1, hro, hn.2⟩
            | inr hr => exact hi.2 r hr hro

/-- blocked returns a lock of another process that cannot stand beside the new one, or
NULL when there is none; then *insrt is where flckadj has to begin. -/
theorem blocked_spec (h : Rep recs k ls) (hL : Locked k.set (ls li)) (hd : lckdat.Valid)
    (u : Owner) :
    ∃ found insrt, blocked recs u (k.links.head li) lckdat k = some (found, insrt) ∧
      match found with
      | some r => r ∈ ls li ∧ (k.set r).owner ≠ u ∧ ¬ lckdat.Compatible (k.set r)
      | none => ∃ pre post, ls li = pre ++ post ∧
          insrt.or (k.links.head li) = post.head? ∧ AdjInv u k.set pre post insrt lckdat := by
  have hlen := h.length_le li
  have hhead := h.lists.head_eq li
  have hask : lckdat.Asked := ⟨hd.start, hd.le, hd.max, hd.type.imp_right .inl⟩
  have hF := (@blockedFront_spec _ _ _ _ u []) (recs + 1) h.lists rfl hL.valid hd hL.sorted
    (by simp) (by omega)
  simp only [List.getLast?_nil, ← hhead] at hF
  cases hF with
  | inl hF =>
    obtain ⟨insrt, found, hF, hm, ho, hc⟩ := hF
    exact ⟨some found, insrt, by rw [blocked, hF]; rfl, hm, ho, hc⟩
  | inr hF =>
    obtain ⟨insrt, pre, post, hF, hl, hpass, hstop⟩ := hF
    have hs : post.Pairwise fun r r' => (k.set r).lStart ≤ (k.set r').lStart := by
      have hs := hL.sorted
      rw [hl] at hs
      exact (List.pairwise_append.mp hs).2.1
    have hlen' : post.length ≤ recs + 1 := by
      rw [hl, List.length_append] at hlen
      omega
    cases blockedBack_spec (u := u) (recs + 1) h.lists hl hL.valid hs hlen' with
    | inl hB =>
      obtain ⟨found, hm, hB, ho, hc⟩ := hB
      refine ⟨some found, insrt, by rw [blocked, hF]; simp [hB], ?_, ho, hc⟩
      rw [hl]
      exact List.mem_append_right pre hm
    | inr hB =>
      refine ⟨none, insrt, by rw [blocked, hF]; simp [hB.1], ?_⟩
      have hothers : ∀ r ∈ ls li, (k.set r).owner ≠ u → lckdat.Compatible (k.set r) := by
        intro r hr ho
        rw [hl] at hr
        cases List.mem_append.mp hr with
        | inl hr => exact (hpass r hr).other ho
        | inr hr => exact hB.2 r hr ho
      have hown : ∀ r ∈ pre, (k.set r).owner = u → lckdat.Apart (k.set r) := by
        intro r hr ho
        have he := (hpass r hr).own ho
        exact ⟨.inr (by omega), fun _ => .inr he⟩
      -- the cursor is the last lock in front, or the process's own lock that reaches over
      have hinv : ∀ p q, ls li = p ++ q → (∀ r ∈ p, r ∈ pre) →
          Cursor k.set (ls li) lckdat.lStart insrt → AdjInv u k.set p q insrt lckdat := by
        intro p q hpq hsub hcur
        rw [hpq] at hL hothers hcur
        exact ⟨hL, hask, fun _ => hothers, fun r hr => hown r (hsub r hr), fun _ => hcur⟩
      cases hstop with
      | inl hstop =>
        obtain ⟨rfl, hback⟩ := hstop
        cases hp : pre.getLast? with
        | none =>
          rw [List.getLast?_eq_none_iff] at hp
          subst hp
          refine ⟨[], ls li, rfl, by simp [hhead], hinv [] (ls li) rfl (by simp) ?_⟩
          simpa [hl, Cursor] using hback
        | some x =>
          obtain ⟨p, rfl⟩ := List.getLast?_eq_some_iff.mp hp
          refine ⟨p, x :: post, by simp [hl], by simp, ?_⟩
          rw [← hp]
          refine hinv p (x :: post) (by simp [hl]) (fun r hr => by simp [hr]) ?_
          rw [hp]
          exact ⟨by simp [hl], Int.le_of_lt (hpass x (by simp)).start⟩
      | inr hstop =>
        obtain ⟨f, rfl, hf, hlt⟩ := hstop
        have hm : f ∈ ls li := by
          rw [hl]
          exact List.mem_append_right pre (List.mem_of_mem_head? hf)
        exact ⟨pre, post, hl, by simp [hf], hinv pre post hl (fun r hr => hr)
          ⟨hm, Int.le_of_lt hlt⟩⟩

end Svr32.RecLock
