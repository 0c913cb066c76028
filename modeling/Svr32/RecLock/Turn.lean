import Svr32.RecLock.Adjust

/-! One turn of the loop of flckadj: what keeping, dropping, cutting and splitting a
record do to the invariant. -/
namespace Svr32.RecLock
open Svr32.Lib
variable {I : Type*}
variable {recs : Nat} {k : Table I} {ls : ListId I → List Nat} {li : ListId I} {u : Owner}
  {pre post : List Nat} {insrtp : Option Nat} {ld : Flock} {flp : Nat} {set : Nat → Flock}

theorem insPoint_from (h : Lists k.links ls) (start : Int) (fuel : Nat) (pre post : List Nat)
    (ins : Nat) (hl : ls li = pre ++ post) (hs : post.Pairwise fun r r' => (k.set r).lStart ≤ (k.set r').lStart)
    (hins : pre.getLast? = some ins) (hfuel : post.length ≤ fuel) :
    ∃ mid post' i, post = mid ++ post' ∧ insPoint k start fuel ins post.head? = some i ∧
      (pre ++ mid).getLast? = some i ∧ (∀ r ∈ mid, (k.set r).lStart ≤ start) ∧
      ∀ r ∈ post', start ≤ (k.set r).lStart := by
  induction fuel generalizing pre post ins with
  | zero =>
    have hnil : post = [] := List.eq_nil_of_length_eq_zero (by omega)
    subst hnil
    exact ⟨[], [], ins, rfl, rfl, by simpa using hins, by simp, by simp⟩
  | succ fuel ih =>
    cases post with
    | nil => exact ⟨[], [], ins, rfl, rfl, by simpa using hins, by simp, by simp⟩
    | cons x post =>
      obtain ⟨hx, hs'⟩ := List.pairwise_cons.mp hs
      by_cases hlt : (k.set x).lStart < start
      · have hn := h.next_eq hl
        obtain ⟨mid, post', i, rfl, hi, hlast, hmid, hpost⟩ := ih (pre ++ [x]) post x
          (by simpa using hl) hs' (by simp) (by simpa using hfuel)
        refine ⟨x :: mid, post', i, rfl, ?_, by simpa using hlast, ?_, hpost⟩
        · simp only [insPoint, List.head?_cons, hlt, if_true, hn, hi]
        · simp only [List.mem_cons, forall_eq_or_imp]
          exact ⟨by omega, hmid⟩
      · refine ⟨[], x :: post, ins, rfl, by simp [insPoint, hlt], by simpa using hins, by simp, ?_⟩
        simp only [List.mem_cons, forall_eq_or_imp]
        exact ⟨by omega, fun r hr => by have := hx r hr; omega⟩

/-- The scan from the cursor `flp` ends where the starts stay in order. -/
theorem insPoint_spec (h : Rep recs k ls) (hL : Locked k.set (ls li))
    (hl : ls li = pre ++ flp :: post) {start : Int} (hs : (k.set flp).lStart ≤ start) :
    ∃ mid post' i, post = mid ++ post' ∧ insPoint k start (recs + 1) flp (some flp) = some i ∧
      (pre ++ flp :: mid).getLast? = some i ∧
      (∀ r ∈ pre ++ flp :: mid, (k.set r).lStart ≤ start) ∧
      ∀ r ∈ post', start ≤ (k.set r).lStart := by
  have hlen := h.length_le li
  rw [hl] at hL hlen
  have hpre : ∀ r ∈ pre, (k.set r).lStart ≤ start := fun r hr =>
    Int.le_trans (hL.before hr) hs
  by_cases hlt : (k.set flp).lStart < start
  · have hsort := (List.pairwise_cons.mp (List.pairwise_append.mp hL.sorted).2.1).2
    simp only [List.length_append, List.length_cons] at hlen
    obtain ⟨mid, post', i, hpost, hi, hlast, hmid, hback⟩ := insPoint_from h.lists start recs
      (pre ++ [flp]) post flp (by simpa using hl) hsort (by simp) (by omega)
    refine ⟨mid, post', i, hpost, ?_, by simpa using hlast, ?_, hback⟩
    · simp only [insPoint, hlt, if_true, h.lists.next_eq hl, hi]
    · intro r hr
      cases List.mem_append.mp hr with
      | inl hr => exact hpre r hr
      | inr hr =>
        cases List.mem_cons.mp hr with
        | inl he => exact he ▸ hs
        | inr hr => exact hmid r hr
  · refine ⟨[], post, flp, rfl, by simp [insPoint, hlt], by simp, ?_, fun r hr => ?_⟩
    · intro r hr
      cases List.mem_append.mp hr with
      | inl hr => exact hpre r hr
      | inr hr => exact (List.mem_singleton.mp hr) ▸ hs
    · have hle := hL.after hr
      omega

/- What a turn leaves, with at most `n` records still to be looked at. -/
def AdjOk (recs : Nat) (u : Owner) (li : ListId I) (k : Table I) (ls : ListId I → List Nat)
    (n : Nat) : Adj I → Prop
  | .next k' insrtp nflp ld => ∃ ls' pre post, Rep recs k' ls' ∧ ls' li = pre ++ post ∧
      Frame li k ls k' ls' ∧ nflp = post.head? ∧ post.length ≤ n ∧
      AdjInv u k'.set pre post insrtp ld
  | .ret k' _ _ => ∃ ls', Rep recs k' ls' ∧ Frame li k ls k' ls' ∧ Locked k'.set (ls' li)

/- The loop goes on behind the record, or stops with the rest settled. -/
def GoesOn (u : Owner) (set : Nat → Flock) (post : List Nat) (ld : Flock)
    (nflp : Option Nat) : Prop :=
  nflp = post.head? ∨ (nflp = none ∧ ∀ r ∈ post, (set r).owner = u → ld.Apart (set r))

theorem adjOk_next {k' : Table I} {ls' : ListId I → List Nat} {nflp : Option Nat} {n : Nat}
    (h : Rep recs k' ls') (hl : ls' li = pre ++ post) (hf : Frame li k ls k' ls')
    (hi : AdjInv u k'.set pre post insrtp ld) (hn : post.length ≤ n)
    (hg : GoesOn u k'.set post ld nflp) : AdjOk recs u li k ls n (.next k' insrtp nflp ld) := by
  cases hg with
  | inl hg => exact ⟨ls', pre, post, h, hl, hf, hg, hn, hi⟩
  | inr hg =>
    exact ⟨ls', pre ++ post, [], h, by simpa using hl, hf, hg.1, Nat.zero_le n, hi.stop hg.2⟩

theorem adjOk_ret (h : Rep recs k ls) (hl : ls li = pre ++ post)
    (hi : AdjInv u k.set pre post insrtp ld) {n : Nat} (ld' : Flock) (e : Option Errno) :
    AdjOk recs u li k ls n (.ret k ld' e) :=
  ⟨ls, h, .refl li k ls, hl ▸ hi.locked⟩

theorem adjOk_keep (h : Rep recs k ls) (hl : ls li = pre ++ flp :: post)
    (hi : AdjInv u k.set pre (flp :: post) insrtp ld) {insrtp' nflp : Option Nat}
    (hown : (k.set flp).owner = u → ld.Apart (k.set flp))
    (hc : ld.lType ≠ .unlck → Cursor k.set (pre ++ flp :: post) ld.lStart insrtp')
    (hg : GoesOn u k.set post ld nflp) :
    AdjOk recs u li k ls post.length (.next k insrtp' nflp ld) :=
  adjOk_next h (by simpa using hl) (.refl li k ls) (hi.keep hown hc) le_rfl hg

theorem cutflck_rep (h : Rep recs k ls) : Rep recs (cutflck ld flp k) ls := by
  refine ⟨?_, h.small⟩
  simpa [cutflck] using h.lists

theorem cutflck_set (ld : Flock) (flp : Nat) (k : Table I) : (cutflck ld flp k).set =
    Function.update k.set flp { k.set flp with lEnd := ld.lStart - 1 } := by
  simp [cutflck]

theorem cutflck_frame (h : Rep recs k ls) (hm : flp ∈ ls li) (ld : Flock) :
    Frame li k ls (cutflck ld flp k) ls := by
  have hne : ∀ l, l ≠ li → ∀ r ∈ ls l, r ≠ flp := fun l hl r hr he =>
    hl (h.lists.disj l li r hr (he ▸ hm))
  refine ⟨fun _ _ _ => rfl, fun l _ hl r hr => ?_, fun l _ hl r hr => ?_⟩
  · rw [cutflck_set]
    exact Function.update_of_ne (hne l hl r hr) _ _
  · exact wakeupFlagged_stat _ (hne l hl r hr)

/-- A record of the other type, cut off in front of the range. -/
theorem adjInv_cut (hi : AdjInv u set pre (flp :: post) insrtp ld)
    (hnd : (pre ++ flp :: post).Nodup) (ho : (set flp).owner = u)
    (ht : ld.lType ≠ (set flp).lType) (hs : (set flp).lStart < ld.lStart)
    (he : ld.lStart ≤ (set flp).lEnd) :
    AdjInv u (Function.update set flp { set flp with lEnd := ld.lStart - 1 }) (pre ++ [flp]) post
      (some flp) ld := by
  have hl : pre ++ [flp] ++ post = pre ++ flp :: post := by simp
  have hset : ∀ r ∈ pre ++ flp :: post, r ≠ flp →
      Function.update set flp { set flp with lEnd := ld.lStart - 1 } r = set r :=
    fun r _ hr => Function.update_of_ne hr _ _
  have hpre : ∀ r ∈ pre, r ≠ flp := fun r hr he =>
    (List.nodup_cons.mp (List.perm_middle.nodup_iff.mp hnd)).1 (by simp [← he, hr])
  refine ⟨?_, hi.asked, fun htu r hr hro => ?_, fun r hr hro => ?_, fun _ => ⟨by simp, ?_⟩⟩
  · rw [hl]
    exact hi.locked.cut hnd (by omega) (by omega)
  · rw [hl] at hr
    by_cases hrf : r = flp
    · subst hrf
      rw [Function.update_self] at hro
      exact absurd ho hro
    · rw [hset r hr hrf] at hro ⊢
      exact hi.others htu r hr hro
  · cases List.mem_append.mp hr with
    | inl hr =>
      rw [Function.update_of_ne (hpre r hr)] at hro ⊢
      exact hi.own r hr hro
    | inr hr =>
      rw [List.mem_singleton.mp hr, Function.update_self]
      exact ⟨.inr (show ld.lStart - 1 < ld.lStart by omega), fun hty => absurd hty ht⟩
  · rw [Function.update_self]
    exact Int.le_of_lt hs

theorem adjOk_cut (h : Rep recs k ls) (hl : ls li = pre ++ flp :: post)
    (hi : AdjInv u k.set pre (flp :: post) insrtp ld) (ho : (k.set flp).owner = u)
    (ht : ld.lType ≠ (k.set flp).lType) (hs : (k.set flp).lStart < ld.lStart)
    (he : ld.lStart ≤ (k.set flp).lEnd) :
    AdjOk recs u li k ls post.length (.next (cutflck ld flp k) (some flp) post.head? ld) := by
  have hi' := adjInv_cut hi (hl ▸ h.lists.nodup li) ho ht hs he
  rw [← cutflck_set] at hi'
  exact adjOk_next (cutflck_rep h) (by simpa using hl) (cutflck_frame h (by simp [hl]) ld) hi'
    le_rfl (.inl rfl)

variable [DecidableEq I]

theorem adjOk_drop (h : Rep recs k ls) (hli : li ≠ .free) (hl : ls li = pre ++ flp :: post)
    (hi : AdjInv u k.set pre (flp :: post) insrtp ld) (ho : (k.set flp).owner = u)
    {ld' : Flock} (hgr : Grown ld (k.set flp) ld') {insrtp' nflp : Option Nat}
    (hc : ld.lType ≠ .unlck → Cursor k.set (pre ++ post) ld'.lStart insrtp')
    (hg : GoesOn u k.set post ld' nflp) :
    AdjOk recs u li k ls post.length (.next (delflck li flp k) insrtp' nflp ld') := by
  obtain ⟨ls', hR, hl', hF⟩ := h.delflck hli hl
  have hset : (delflck li flp k).set = k.set := delflck_set li flp k
  exact adjOk_next hR hl' hF (by rw [hset]; exact hi.drop ho hgr hc) le_rfl (by rwa [hset])

/-- The piece behind the range, put back as a lock of its own. -/
theorem adjInv_piece {mid : List Nat} (hi : AdjInv u set pre (mid ++ post) insrtp ld)
    (hown : ∀ r ∈ mid ++ post, (set r).owner = u → ld.Apart (set r)) {n : Nat} {td : Flock}
    (hn : n ∉ pre ++ mid ++ post) (hv : td.Valid) (ho : td.owner = u) (ht : ld.lType ≠ td.lType)
    (hs : td.lStart = ld.lEnd + 1) (hc : ∀ r ∈ pre ++ mid ++ post, td.Coexist (set r))
    (hfront : ∀ r ∈ pre ++ mid, (set r).lStart ≤ td.lStart)
    (hback : ∀ r ∈ post, td.lStart ≤ (set r).lStart) :
    AdjInv u (Function.update set n td) (pre ++ mid ++ n :: post) [] insrtp ld := by
  have hi' := hi.stop hown
  rw [← List.append_assoc] at hi'
  have hL : Locked set (pre ++ mid ++ post) := by simpa using hi'.locked
  have hset : ∀ r ∈ pre ++ mid ++ post, Function.update set n td r = set r :=
    fun r hr => Function.update_of_ne (fun he : r = n => hn (he ▸ hr)) _ _
  have hmem : ∀ r, r ∈ pre ++ mid ++ n :: post → r = n ∨ r ∈ pre ++ mid ++ post := by
    intro r hr
    exact List.mem_cons.mp (List.perm_middle.mem_iff.mp hr)
  have hle := hi.asked.le
  refine ⟨?_, hi.asked, fun htu r hr hro => ?_, fun r hr hro => ?_, fun htu => ?_⟩
  · rw [List.append_nil]
    exact hL.insert hn hv hc hfront hback
  · rw [List.append_nil] at hr
    cases hmem r hr with
    | inl he =>
      rw [he, Function.update_self] at hro
      exact absurd ho hro
    | inr hr =>
      rw [hset r hr] at hro ⊢
      exact hi'.others htu r (by simpa using hr) hro
  · cases hmem r hr with
    | inl he =>
      rw [he, Function.update_self]
      exact ⟨.inl (by omega), fun hty => absurd hty ht⟩
    | inr hr =>
      rw [hset r hr] at hro ⊢
      exact hi'.own r hr hro
  · have hcur := hi'.cursor htu
    rw [List.append_nil] at hcur ⊢
    cases insrtp with
    | none =>
      intro r hr
      cases hmem r hr with
      | inl he =>
        rw [he, Function.update_self]
        omega
      | inr hr =>
        rw [hset r hr]
        exact hcur r hr
    | some y =>
      refine ⟨List.perm_middle.mem_iff.mpr (List.mem_cons_of_mem n hcur.1), ?_⟩
      rw [hset y hcur.1]
      exact hcur.2

theorem Flock.stamp {f : Flock} (h : f.owner = u) :
    { f with lPid := u.pid, lSysid := u.sysid } = f := by
  subst h
  rfl

theorem adjOk_piece (h : Rep recs k ls) (hli : li ≠ .free) {mid : List Nat}
    (hl : ls li = pre ++ flp :: (mid ++ post))
    (hi : AdjInv u k.set pre (flp :: (mid ++ post)) insrtp ld) (ho : (k.set flp).owner = u)
    (ht : ld.lType ≠ (k.set flp).lType) (hs : (k.set flp).lStart ≤ ld.lEnd)
    (he : ld.lEnd < (k.set flp).lEnd) {cut : Bool} {insrtp' : Option Nat}
    (hcut : if cut then (k.set flp).lStart < ld.lStart
      else ld.lType ≠ .unlck → Cursor k.set (pre ++ (mid ++ post)) ld.lStart insrtp')
    (hfront : ∀ r ∈ pre ++ flp :: mid, (k.set r).lStart ≤ ld.lEnd + 1)
    (hback : ∀ r ∈ post, ld.lEnd + 1 ≤ (k.set r).lStart) {new : Nat} {k' : Table I}
    (hins : insflck u li { k.set flp with lStart := ld.lEnd + 1 } (pre ++ flp :: mid).getLast? k =
      some (new, k')) (n : Nat) :
    AdjOk recs u li k ls n (adjPiece li cut insrtp' ld flp k') := by
  obtain ⟨ls₁, hR, hl₁, hF, hnew, hset, -, -⟩ :=
    h.insflck hli (show ls li = (pre ++ flp :: mid) ++ post by simp [hl]) hins
  have hstamp := Flock.stamp (f := { k.set flp with lStart := ld.lEnd + 1 }) ho
  rw [hstamp] at hset
  have hL := hi.locked
  have hv := hL.valid flp (by simp)
  have hle := hi.asked.le
  have hst := hi.asked.start
  have hnd : (pre ++ flp :: (mid ++ post)).Nodup := hl ▸ h.lists.nodup li
  have hnl : new ∉ pre ++ flp :: (mid ++ post) := hl ▸ hnew li hli
  have hne : flp ≠ new := fun he => hnl (by simp [← he])
  have hvt : ({ k.set flp with lStart := ld.lEnd + 1 } : Flock).Valid :=
    ⟨by simp only; omega, by simp only; omega, hv.max, hv.type⟩
  have hpart : ∀ r ∈ pre ++ (mid ++ post),
      ({ k.set flp with lStart := ld.lEnd + 1 } : Flock).Coexist (k.set r) := fun r hr =>
    (hL.beside hr).part (by simp only; omega) (Int.le_refl _) rfl rfl
  -- behind the record everything of this process lies behind the range
  have hrest : ∀ r ∈ mid ++ post, (k.set r).owner = u → ld.Apart (k.set r) := by
    intro r hr hro
    have hlt := (hL.own_after hr (hro.trans ho.symm)).1
    exact ⟨.inl (by omega), fun _ => .inl (by omega)⟩
  have hset₁ : k'.set flp = k.set flp := by
    rw [hset]
    exact Function.update_of_ne hne _ _
  cases cut with
  | false =>
    obtain ⟨ls₂, hR₂, hl₂, hF₂⟩ := hR.delflck hli
      (show ls₁ li = pre ++ flp :: (mid ++ new :: post) by simp [hl₁])
    have hset₂ : (delflck li flp k').set = Function.update k.set new
        { k.set flp with lStart := ld.lEnd + 1 } := by rw [delflck_set, hset]
    refine ⟨ls₂, pre ++ mid ++ new :: post, [], hR₂, by simp [hl₂], hF.trans hF₂, rfl,
      Nat.zero_le n, ?_⟩
    rw [hset₂]
    have hd := hi.drop ho (Grown.refl hi.asked) (by simpa using hcut)
    refine adjInv_piece hd hrest (fun hm => hnl ?_) hvt ho ht rfl ?_ ?_ hback
    · simp only [List.mem_append, List.mem_cons] at hm ⊢
      tauto
    · simpa using hpart
    · intro r hr
      apply hfront
      simp only [List.mem_append, List.mem_cons] at hr ⊢
      tauto
  | true =>
    simp only [if_true] at hcut
    have hset₂ : (cutflck ld flp k').set = Function.update
        (Function.update k.set flp { k.set flp with lEnd := ld.lStart - 1 }) new
        { k.set flp with lStart := ld.lEnd + 1 } := by
      rw [cutflck_set, hset₁, hset, Function.update_comm hne.symm]
    refine ⟨ls₁, pre ++ [flp] ++ mid ++ new :: post, [], cutflck_rep hR, by simp [hl₁],
      hF.trans (cutflck_frame hR (by simp [hl₁]) ld), rfl, Nat.zero_le n, ?_⟩
    rw [hset₂]
    have hnf : ∀ r ∈ pre ++ (mid ++ post), r ≠ flp := fun r hr he =>
      (List.nodup_cons.mp (List.perm_middle.nodup_iff.mp hnd)).1 (he ▸ hr)
    have hupd : ∀ r ∈ pre ++ (mid ++ post), Function.update k.set flp
        { k.set flp with lEnd := ld.lStart - 1 } r = k.set r := fun r hr =>
      Function.update_of_ne (hnf r hr) _ _
    refine adjInv_piece (adjInv_cut hi hnd ho ht hcut (by omega)) (fun r hr => ?_) (fun hm => hnl ?_)
      hvt ho ht rfl (fun r hr => ?_) (fun r hr => ?_) (fun r hr => ?_)
    · rw [hupd r (List.mem_append_right pre hr)]
      exact hrest r hr
    · simpa using hm
    · by_cases hrf : r = flp
      · rw [hrf, Function.update_self]
        refine ⟨fun _ => ⟨.inr ?_, fun _ => .inr ?_⟩, fun hno => absurd rfl hno⟩
        · simp only
          omega
        · simp only
          omega
      · have hr' : r ∈ pre ++ (mid ++ post) := by
          simpa [hrf] using hr
        rw [hupd r hr']
        exact hpart r hr'
    · by_cases hrf : r = flp
      · rw [hrf, Function.update_self]
        simp only
        omega
      · rw [Function.update_of_ne hrf]
        apply hfront
        simpa using hr
    · rw [hupd r (by simp [hr])]
      exact hback r hr

theorem adjMiddle_spec (h : Rep recs k ls) (hli : li ≠ .free) (hl : ls li = pre ++ flp :: post)
    (hi : AdjInv u k.set pre (flp :: post) insrtp ld) (ho : (k.set flp).owner = u)
    (hs : (k.set flp).lStart ≤ ld.lEnd) (he : ld.lEnd < (k.set flp).lEnd) {cut : Bool}
    {insrtp' : Option Nat} (hsame : ld.lType = (k.set flp).lType → cut = false)
    (hcut : if cut then (k.set flp).lStart < ld.lStart
      else ld.lType ≠ .unlck → Cursor k.set (pre ++ post) ld.lStart insrtp') :
    ∃ r, adjMiddle recs u li cut insrtp' ld flp k = some r ∧
      AdjOk recs u li k ls post.length r := by
  have hv := hi.locked.valid flp (by simp)
  have hle := hi.asked.le
  have hst := hi.asked.start
  by_cases ht : ld.lType = (k.set flp).lType
  · refine ⟨_, if_pos ht, ?_⟩
    have hc := hsame ht
    subst hc
    have hasked : ({ ld with lEnd := (k.set flp).lEnd } : Flock).Asked :=
      ⟨hst, by simp only; omega, hv.max, hi.asked.type⟩
    refine adjOk_drop h hli hl hi ho ⟨hasked, rfl, .inr ⟨ht, by omega, by omega, .inl rfl,
      .inr rfl⟩⟩ (by simpa using hcut) (.inr ⟨rfl, fun r hr hro => ?_⟩)
    have hlt := hi.locked.own_after hr (hro.trans ho.symm)
    exact ⟨.inl hlt.1, fun hty => .inl (hlt.2 (ht.symm.trans hty))⟩
  · have hL : Locked k.set (ls li) := hl ▸ hi.locked
    obtain ⟨mid, post', i, rfl, hip, hlast, hfront, hback⟩ :=
      insPoint_spec h hL hl (show (k.set flp).lStart ≤ ld.lEnd + 1 by omega)
    refine ⟨_, by simp only [adjMiddle, if_neg ht, hip, Option.map_some]; rfl, ?_⟩
    cases hins : insflck u li { k.set flp with lStart := ld.lEnd + 1 } (some i) k with
    | none => exact adjOk_ret h hl hi ld _
    | some p => exact adjOk_piece h hli hl hi ho ht hs he hcut hfront hback (hlast ▸ hins) _

/- Where the start of `ld` lies. -/
def Region.StartAt (ld flp : Flock) : Region → Prop
  | .before => ld.lStart < flp.lStart
  | .start => ld.lStart = flp.lStart
  | .middle => flp.lStart < ld.lStart ∧ ld.lStart ≤ flp.lEnd
  | .finish => ld.lStart = flp.lEnd + 1
  | .after => flp.lEnd + 1 < ld.lStart

/- Where the end of `ld` lies. -/
def Region.EndAt (ld flp : Flock) : Region → Prop
  | .before => ld.lEnd + 1 < flp.lStart
  | .start => ld.lEnd + 1 = flp.lStart
  | .middle => flp.lStart ≤ ld.lEnd ∧ ld.lEnd < flp.lEnd
  | .finish => ld.lEnd = flp.lEnd
  | .after => flp.lEnd < ld.lEnd

theorem regflckEnd_spec (ld f : Flock) :
    (regflckEnd ld f).EndAt ld f := by
  simp only [regflckEnd]
  split
  · split
    · simp only [Region.EndAt]
      omega
    · split <;> simp only [Region.EndAt] <;> omega
  · split <;> simp only [Region.EndAt] <;> omega

theorem regflck_spec {f : Flock} (hld : ld.lStart ≤ ld.lEnd) :
    (regflck ld f).1.StartAt ld f ∧ (regflck ld f).2.EndAt ld f := by
  have he := regflckEnd_spec ld f
  simp only [regflck]
  split
  · split
    · simp only [Region.StartAt, Region.EndAt]
      omega
    · split
      · simp only [Region.StartAt, Region.EndAt]
        omega
      · refine ⟨?_, he⟩
        simp only [Region.StartAt]
        omega
  · split
    · exact ⟨by assumption, he⟩
    · refine ⟨?_, he⟩
      simp only [Region.StartAt]
      omega

end Svr32.RecLock
