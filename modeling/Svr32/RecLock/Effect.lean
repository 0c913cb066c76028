import Svr32.RecLock.Flckadj

/-! What one turn of the loop of flckadj does to the records of the list, and to the free ones,
whatever the locks of other processes are. -/
namespace Svr32.RecLock
open Svr32.Lib
variable {I : Type*} [DecidableEq I]

/- The cursor is on the list, and in front of the range when the loop has not been there. -/
def Aims (set : Nat → Flock) (pre post : List Nat) (start : Int) (insrtp : Option Nat) : Prop :=
  ∀ y, insrtp = some y → y ∈ pre ++ post ∧ (y ∈ post → (set y).lStart < start)

/- What the loop needs of the records `post` it has still to look at, and of its cursor. -/
structure Left (u : Owner) (set : Nat → Flock) (pre post : List Nat) (insrtp : Option Nat)
    (ld : Flock) : Prop where
  le : ld.lStart ≤ ld.lEnd
  valid : ∀ r ∈ post, (set r).lStart ≤ (set r).lEnd
  type : ∀ r ∈ post, (set r).lType ≠ .unlck
  sorted : post.Pairwise fun r r' => (set r).lStart ≤ (set r').lStart
  apart : post.Pairwise fun r r' =>
    (set r).owner = u → (set r').owner = u → (set r).Apart (set r')
  cursor : ld.lType ≠ .unlck → Aims set pre post ld.lStart insrtp

/- `ld'` takes in the lock `x`: it lies in `ld`, or has its type and touches it. -/
structure Joins (ld x ld' : Flock) : Prop where
  type : ld'.lType = ld.lType
  range : (ld' = ld ∧ ld.lStart ≤ x.lStart ∧ x.lEnd ≤ ld.lEnd) ∨
    (ld.lType = x.lType ∧ x.lStart ≤ ld.lEnd + 1 ∧ ld.lStart ≤ x.lEnd + 1 ∧
      ld'.lStart = min ld.lStart x.lStart ∧ ld'.lEnd = max ld.lEnd x.lEnd)

/- The records `pre ++ flp :: post` with the data `set`, the free ones and the range, and what a
turn that looks at `flp` makes of them: the data, the records done and the ones still to be looked
at, the free ones, the range. -/
inductive Did (set : Nat → Flock) (pre : List Nat) (flp : Nat) (post free : List Nat)
    (ld : Flock) : (Nat → Flock) → List Nat → List Nat → List Nat → Flock → Prop
  | keep (hap : ld.Apart (set flp)) : Did set pre flp post free ld set (pre ++ [flp]) post free ld
  | pass (hap : ld.Apart (set flp)) (hlt : ld.lEnd < (set flp).lStart) :
      Did set pre flp post free ld set (pre ++ flp :: post) [] free ld
  | drop {ld'} (hj : Joins ld (set flp) ld') :
      Did set pre flp post free ld set pre post (flp :: free) ld'
  | last {ld'} (hj : Joins ld (set flp) ld') (ht : ld.lType = (set flp).lType)
      (he : ld'.lEnd = (set flp).lEnd) :
      Did set pre flp post free ld set (pre ++ post) [] (flp :: free) ld'
  | cut (ht : ld.lType ≠ (set flp).lType) (hs : (set flp).lStart < ld.lStart)
      (he : ld.lStart ≤ (set flp).lEnd) (hle : (set flp).lEnd ≤ ld.lEnd) :
      Did set pre flp post free ld
        (Function.update set flp { set flp with lEnd := ld.lStart - 1 }) (pre ++ [flp]) post free ld
  | part {mid back new fs} (hpost : post = mid ++ back) (hfree : free = new :: fs)
      (hnew : new ∉ pre ++ flp :: post) (ht : ld.lType ≠ (set flp).lType)
      (hs : ld.lStart ≤ (set flp).lStart) (hle : (set flp).lStart ≤ ld.lEnd)
      (he : ld.lEnd < (set flp).lEnd) :
      Did set pre flp post free ld
        (Function.update set new { set flp with lStart := ld.lEnd + 1 })
        (pre ++ (mid ++ new :: back)) [] (flp :: fs) ld
  | split {mid back new fs} (hpost : post = mid ++ back) (hfree : free = new :: fs)
      (hnew : new ∉ pre ++ flp :: post) (ht : ld.lType ≠ (set flp).lType)
      (hs : (set flp).lStart < ld.lStart) (he : ld.lEnd < (set flp).lEnd) :
      Did set pre flp post free ld
        (Function.update (Function.update set flp { set flp with lEnd := ld.lStart - 1 }) new
          { set flp with lStart := ld.lEnd + 1 })
        (pre ++ flp :: (mid ++ new :: back)) [] fs ld

variable {recs : Nat} {k k' : Table I} {ls ls' : ListId I → List Nat} {li : ListId I} {u : Owner}
  {set : Nat → Flock} {pre post : List Nat} {insrtp : Option Nat} {ld ld' : Flock} {flp : Nat}

/- What a turn leaves, by what it returns. -/
def DidOk (recs : Nat) (u : Owner) (li : ListId I) (k : Table I) (ls : ListId I → List Nat)
    (pre : List Nat) (flp : Nat) (post : List Nat) (ld : Flock) : Adj I → Prop
  | .next k' insrtp' nflp ld' => ∃ ls' pre' rest, Rep recs k' ls' ∧ ls' li = pre' ++ rest ∧
      nflp = rest.head? ∧ rest.length ≤ post.length ∧ Left u k'.set pre' rest insrtp' ld' ∧
      Did k.set pre flp post (ls .free) ld k'.set pre' rest (ls' .free) ld'
  | .ret k' _ none => k' = k ∧ ld.lType = (k.set flp).lType ∧ (k.set flp).lStart ≤ ld.lStart ∧
      ld.lEnd ≤ (k.set flp).lEnd
  | .ret k' _ (some e) => k' = k ∧ e = .enolck ∧ ls .free = [] ∧ ld.lType ≠ (k.set flp).lType ∧
      (k.set flp).lStart ≤ ld.lEnd ∧ ld.lEnd < (k.set flp).lEnd

theorem Rep.delflck_free (h : Rep recs k ls) (hli : li ≠ .free) (hl : ls li = pre ++ flp :: post) :
    ∃ ls', Rep recs (RecLock.delflck li flp k) ls' ∧ ls' li = pre ++ post ∧
      ls' .free = flp :: ls .free := by
  obtain ⟨ls', hR, hl', -⟩ := h.delflck hli hl
  refine ⟨ls', hR, hl', ?_⟩
  rw [hR.lists.unique (delflck_lists h.lists hli hl), Function.update_self]

theorem Rep.insflck_free (u : Owner) (lckdat : Flock) (h : Rep recs k ls) (hli : li ≠ .free)
    (hl : ls li = pre ++ post) :
    (ls .free = [] ∧ RecLock.insflck u li lckdat pre.getLast? k = none) ∨
      ∃ new k' fs ls', ls .free = new :: fs ∧
        RecLock.insflck u li lckdat pre.getLast? k = some (new, k') ∧ Rep recs k' ls' ∧
        ls' li = pre ++ new :: post ∧ ls' .free = fs ∧ new ∉ pre ++ post ∧
        k'.set = Function.update k.set new { lckdat with lPid := u.pid, lSysid := u.sysid } := by
  cases hins : RecLock.insflck u li lckdat pre.getLast? k with
  | none =>
    refine .inl ⟨?_, rfl⟩
    have hhead := h.lists.head_eq .free
    rw [RecLock.insflck] at hins
    split at hins
    · next hnone =>
      rw [hnone] at hhead
      exact List.head?_eq_none_iff.mp hhead.symm
    · cases hins
  | some r =>
    obtain ⟨new, k'⟩ := r
    obtain ⟨ls', hR, hl', -, hnew, hset, -⟩ := h.insflck hli hl hins
    obtain ⟨fs, hfree, hL, -⟩ := insflck_lists h.lists hli hl hins
    refine .inr ⟨new, k', fs, ls', hfree, rfl, hR, hl', ?_, hl ▸ hnew li hli, hset⟩
    rw [hR.lists.unique hL, Function.update_of_ne hli.symm, Function.update_self]

theorem Aims.keep (h : Aims set pre (flp :: post) ld.lStart insrtp) :
    Aims set (pre ++ [flp]) post ld.lStart insrtp := fun y hy =>
  ⟨by simpa using (h y hy).1, fun hp => (h y hy).2 (List.mem_cons_of_mem flp hp)⟩

theorem Aims.stop (h : Aims set pre post ld.lStart insrtp) :
    Aims set (pre ++ post) [] ld.lStart insrtp := fun y hy => ⟨by simpa using (h y hy).1, nofun⟩

/-- The cursor is not on a record that starts behind the range's start. -/
theorem Aims.remove (h : Aims set pre (flp :: post) ld.lStart insrtp)
    (hlt : ld.lStart < (set flp).lStart) : Aims set pre post ld.lStart insrtp := by
  intro y hy
  obtain ⟨hm, hs⟩ := h y hy
  refine ⟨?_, fun hp => hs (List.mem_cons_of_mem flp hp)⟩
  by_cases hf : y = flp
  · have hs := hs (by simp [hf])
    rw [hf] at hs
    omega
  · simpa [hf] using hm

/-- flp->prev as the cursor. -/
theorem aims_prev (hnd : (pre ++ flp :: post).Nodup) (start : Int) :
    Aims set pre post start pre.getLast? := by
  intro y hy
  have hm := List.mem_of_getLast? hy
  refine ⟨List.mem_append_left post hm, fun hp => ?_⟩
  exact absurd rfl ((List.nodup_append.mp hnd).2.2 y hm y (List.mem_cons_of_mem flp hp))

/-- A record that was passed as the cursor. -/
theorem aims_flp (hnd : (pre ++ flp :: post).Nodup) (set : Nat → Flock) (start : Int) :
    Aims set (pre ++ [flp]) post start (some flp) := by
  rintro y ⟨rfl⟩
  have hn := List.nodup_cons.mp (List.nodup_append.mp hnd).2.1
  exact ⟨by simp, fun hp => absurd hp hn.1⟩

namespace Left

theorem tail (h : Left u set pre (flp :: post) insrtp ld) {pre' : List Nat}
    {insrtp' : Option Nat} (hle : ld'.lStart ≤ ld'.lEnd)
    (hc : ld'.lType ≠ .unlck → Aims set pre' post ld'.lStart insrtp') :
    Left u set pre' post insrtp' ld' :=
  ⟨hle, fun r hr => h.valid r (List.mem_cons_of_mem flp hr),
    fun r hr => h.type r (List.mem_cons_of_mem flp hr), (List.pairwise_cons.mp h.sorted).2,
    (List.pairwise_cons.mp h.apart).2, hc⟩

/-- A record of another process is passed. -/
theorem skip (h : Left u set pre (flp :: post) insrtp ld) :
    Left u set (pre ++ [flp]) post insrtp ld := h.tail h.le fun ht => (h.cursor ht).keep

theorem stop (hle : ld.lStart ≤ ld.lEnd)
    (hc : ld.lType ≠ .unlck → Aims set pre [] ld.lStart insrtp) : Left u set pre [] insrtp ld :=
  ⟨hle, by simp, by simp, by simp, by simp, hc⟩

theorem congr {set' : Nat → Flock} (h : Left u set pre post insrtp ld)
    (hs : ∀ r ∈ post, set' r = set r) : Left u set' pre post insrtp ld := by
  refine ⟨h.le, fun r hr => hs r hr ▸ h.valid r hr, fun r hr => hs r hr ▸ h.type r hr, ?_, ?_,
    fun ht y hy => ?_⟩
  · exact h.sorted.imp_of_mem fun hr hr' hle => by rwa [hs _ hr, hs _ hr']
  · exact h.apart.imp_of_mem fun hr hr' hle => by rwa [hs _ hr, hs _ hr']
  · exact ⟨(h.cursor ht y hy).1, fun hp => hs y hp ▸ (h.cursor ht y hy).2 hp⟩

/-- Behind a record of the process its others lie behind the end. -/
theorem own_after (h : Left u set pre (flp :: post) insrtp ld) (ho : (set flp).owner = u)
    {r : Nat} (hr : r ∈ post) (hro : (set r).owner = u) :
    (set flp).lEnd < (set r).lStart ∧
      ((set flp).lType = (set r).lType → (set flp).lEnd + 1 < (set r).lStart) := by
  have hle := (List.pairwise_cons.mp h.sorted).1 r hr
  have hv := h.valid r (by simp [hr])
  obtain ⟨hd, ht⟩ := (List.pairwise_cons.mp h.apart).1 r hr ho hro
  refine ⟨by omega, fun hty => ?_⟩
  have hd' := ht hty
  omega

end Left

omit [DecidableEq I] in
theorem didOk_keep (h : Rep recs k ls) (hl : ls li = pre ++ flp :: post)
    (hi : Left u k.set pre (flp :: post) insrtp ld) (hap : ld.Apart (k.set flp))
    {insrtp' : Option Nat} (hc : insrtp' = insrtp ∨ insrtp' = some flp) :
    DidOk recs u li k ls pre flp post ld (.next k insrtp' post.head? ld) := by
  refine ⟨ls, pre ++ [flp], post, h, by simp [hl], rfl, le_rfl, hi.tail hi.le fun ht => ?_,
    .keep hap⟩
  rcases hc with rfl | rfl
  · exact (hi.cursor ht).keep
  · exact aims_flp (hl ▸ h.lists.nodup li) k.set ld.lStart

omit [DecidableEq I] in
theorem didOk_pass (h : Rep recs k ls) (hl : ls li = pre ++ flp :: post)
    (hi : Left u k.set pre (flp :: post) insrtp ld) (hap : ld.Apart (k.set flp))
    (hlt : ld.lEnd < (k.set flp).lStart) :
    DidOk recs u li k ls pre flp post ld (.next k insrtp none ld) :=
  ⟨ls, pre ++ flp :: post, [], h, by simp [hl], rfl, Nat.zero_le _,
    .stop hi.le fun ht => (hi.cursor ht).stop, .pass hap hlt⟩

/- The cursor after a record is gone. -/
def Recedes (pre : List Nat) (flp : Flock) (insrtp insrtp' : Option Nat) (ld ld' : Flock) : Prop :=
  insrtp' = pre.getLast? ∨ (insrtp' = insrtp ∧ ld'.lStart = ld.lStart ∧ ld.lStart < flp.lStart)

theorem Recedes.aims {insrtp' : Option Nat} (h : Recedes pre (set flp) insrtp insrtp' ld ld')
    (hnd : (pre ++ flp :: post).Nodup) (hc : Aims set pre (flp :: post) ld.lStart insrtp) :
    Aims set pre post ld'.lStart insrtp' := by
  rcases h with rfl | ⟨rfl, hs, hlt⟩
  · exact aims_prev hnd ld'.lStart
  · rw [hs]
    exact hc.remove hlt

theorem Joins.le {x : Flock} (h : Joins ld x ld') (hle : ld.lStart ≤ ld.lEnd) :
    ld'.lStart ≤ ld'.lEnd := by
  rcases h.range with ⟨rfl, -⟩ | ⟨-, -, -, hs, he⟩
  · exact hle
  · omega

theorem didOk_drop (h : Rep recs k ls) (hli : li ≠ .free) (hl : ls li = pre ++ flp :: post)
    (hi : Left u k.set pre (flp :: post) insrtp ld) (hj : Joins ld (k.set flp) ld')
    {insrtp' : Option Nat} (hc : Recedes pre (k.set flp) insrtp insrtp' ld ld') :
    DidOk recs u li k ls pre flp post ld (.next (delflck li flp k) insrtp' post.head? ld') := by
  obtain ⟨ls', hR, hl', hfree⟩ := h.delflck_free hli hl
  have hnd : (pre ++ flp :: post).Nodup := hl ▸ h.lists.nodup li
  refine ⟨ls', pre, post, hR, hl', rfl, le_rfl, ?_, ?_⟩
  · rw [delflck_set]
    exact hi.tail (hj.le hi.le) fun ht => hc.aims hnd (hi.cursor (hj.type ▸ ht))
  · rw [delflck_set, hfree]
    exact .drop hj

theorem didOk_last (h : Rep recs k ls) (hli : li ≠ .free) (hl : ls li = pre ++ flp :: post)
    (hi : Left u k.set pre (flp :: post) insrtp ld) (hj : Joins ld (k.set flp) ld')
    {insrtp' : Option Nat} (hc : Recedes pre (k.set flp) insrtp insrtp' ld ld')
    (ht : ld.lType = (k.set flp).lType) (he : ld'.lEnd = (k.set flp).lEnd) :
    DidOk recs u li k ls pre flp post ld (.next (delflck li flp k) insrtp' none ld') := by
  obtain ⟨ls', hR, hl', hfree⟩ := h.delflck_free hli hl
  have hnd : (pre ++ flp :: post).Nodup := hl ▸ h.lists.nodup li
  refine ⟨ls', pre ++ post, [], hR, by simp [hl'], rfl, Nat.zero_le _, ?_, ?_⟩
  · rw [delflck_set]
    exact .stop (hj.le hi.le) fun ht => (hc.aims hnd (hi.cursor (hj.type ▸ ht))).stop
  · rw [delflck_set, hfree]
    exact .last hj ht he

omit [DecidableEq I] in
theorem didOk_cut (h : Rep recs k ls) (hl : ls li = pre ++ flp :: post)
    (hi : Left u k.set pre (flp :: post) insrtp ld)
    (ht : ld.lType ≠ (k.set flp).lType) (hs : (k.set flp).lStart < ld.lStart)
    (he : ld.lStart ≤ (k.set flp).lEnd) (hle : (k.set flp).lEnd ≤ ld.lEnd) :
    DidOk recs u li k ls pre flp post ld (.next (cutflck ld flp k) (some flp) post.head? ld) := by
  have hnd : (pre ++ flp :: post).Nodup := hl ▸ h.lists.nodup li
  have hn := List.nodup_cons.mp (List.nodup_append.mp hnd).2.1
  refine ⟨ls, pre ++ [flp], post, cutflck_rep h, by simp [hl], rfl, le_rfl, ?_, ?_⟩
  · rw [cutflck_set]
    refine (hi.tail hi.le fun _ => aims_flp hnd k.set ld.lStart).congr fun r hr => ?_
    exact Function.update_of_ne (fun he : r = flp => hn.1 (he ▸ hr)) _ _
  · rw [cutflck_set]
    exact .cut ht hs he hle

/-- The piece behind the range is put on the list; the record itself goes or is cut off. -/
theorem didOk_piece (h : Rep recs k ls) (hli : li ≠ .free) {mid back : List Nat}
    (hl : ls li = pre ++ flp :: (mid ++ back))
    (hi : Left u k.set pre (flp :: (mid ++ back)) insrtp ld)
    (ht : ld.lType ≠ (k.set flp).lType) (hs : (k.set flp).lStart ≤ ld.lEnd)
    (he : ld.lEnd < (k.set flp).lEnd) {cut : Bool} {insrtp' : Option Nat}
    (hcut : (cut = true ∧ (k.set flp).lStart < ld.lStart) ∨ (cut = false ∧
      ld.lStart ≤ (k.set flp).lStart ∧ Recedes pre (k.set flp) insrtp insrtp' ld ld))
    {new : Nat} {fs : List Nat} {ls₁ : ListId I → List Nat} (hfree : ls .free = new :: fs)
    (hR : Rep recs k' ls₁) (hl₁ : ls₁ li = (pre ++ flp :: mid) ++ new :: back)
    (hfree₁ : ls₁ .free = fs) (hnew : new ∉ (pre ++ flp :: mid) ++ back)
    (hset : k'.set = Function.update k.set new { k.set flp with lStart := ld.lEnd + 1 }) :
    DidOk recs u li k ls pre flp (mid ++ back) ld (adjPiece li cut insrtp' ld flp k') := by
  have hnd : (pre ++ flp :: (mid ++ back)).Nodup := hl ▸ h.lists.nodup li
  have hnl : new ∉ pre ++ flp :: (mid ++ back) := by simpa using hnew
  have hne : flp ≠ new := fun he => hnl (by simp [← he])
  rcases hcut with ⟨rfl, hlt⟩ | ⟨rfl, hle, hc⟩
  · have hset₁ : k'.set flp = k.set flp := by
      rw [hset]
      exact Function.update_of_ne hne _ _
    have hset₂ : (cutflck ld flp k').set = Function.update
        (Function.update k.set flp { k.set flp with lEnd := ld.lStart - 1 }) new
        { k.set flp with lStart := ld.lEnd + 1 } := by
      rw [cutflck_set, hset₁, hset, Function.update_comm hne.symm]
    refine ⟨ls₁, pre ++ flp :: (mid ++ new :: back), [], cutflck_rep hR, by simp [hl₁], rfl,
      Nat.zero_le _, .stop hi.le fun _ y hy => ⟨?_, nofun⟩, ?_⟩
    · rw [← Option.some.inj hy]
      simp
    · rw [hset₂, hfree₁]
      exact .split rfl hfree hnl ht hlt he
  · obtain ⟨ls₂, hR₂, hl₂, hfree₂⟩ := hR.delflck_free hli
      (show ls₁ li = pre ++ flp :: (mid ++ new :: back) by simp [hl₁])
    refine ⟨ls₂, pre ++ (mid ++ new :: back), [], hR₂, by simp [hl₂], rfl, Nat.zero_le _,
      .stop hi.le fun ht y hy => ⟨?_, nofun⟩, ?_⟩
    · have hm := (hc.aims hnd (hi.cursor ht) y hy).1
      simp only [List.mem_append, List.mem_cons, List.append_nil] at hm ⊢
      tauto
    · rw [delflck_set, hset, hfree₂, hfree₁]
      exact .part rfl hfree hnl ht hle hs he

theorem adjMiddle_did (h : Rep recs k ls) (hli : li ≠ .free) (hl : ls li = pre ++ flp :: post)
    (hi : Left u k.set pre (flp :: post) insrtp ld) (ho : (k.set flp).owner = u)
    (hs : (k.set flp).lStart ≤ ld.lEnd) (he : ld.lEnd < (k.set flp).lEnd) {cut : Bool}
    {insrtp' : Option Nat} (hsame : ld.lType = (k.set flp).lType → cut = false)
    (hcut : (cut = true ∧ (k.set flp).lStart < ld.lStart) ∨ (cut = false ∧
      ld.lStart ≤ (k.set flp).lStart ∧ Recedes pre (k.set flp) insrtp insrtp' ld ld)) :
    ∃ r, adjMiddle recs u li cut insrtp' ld flp k = some r ∧
      DidOk recs u li k ls pre flp post ld r := by
  have hle := hi.le
  by_cases ht : ld.lType = (k.set flp).lType
  · have hf := hsame ht
    subst hf
    obtain ⟨-, hst, hc⟩ := hcut.resolve_left (fun hc => Bool.false_ne_true hc.1)
    refine ⟨_, if_pos ht, ?_⟩
    have hj : Joins ld (k.set flp) { ld with lEnd := (k.set flp).lEnd } := by
      refine ⟨rfl, .inr ⟨ht, by omega, by omega, ?_, ?_⟩⟩
      · simp only
        omega
      · simp only
        omega
    exact didOk_last h hli hl hi hj hc ht rfl
  · have hlen := h.length_le li
    simp only [hl, List.length_append, List.length_cons] at hlen
    obtain ⟨mid, back, i, rfl, hip, hlast, -, -⟩ := insPoint_from h.lists (ld.lEnd + 1) recs
      (pre ++ [flp]) post flp (by simpa using hl) (List.pairwise_cons.mp hi.sorted).2 (by simp)
      (by omega)
    have hip' : insPoint k (ld.lEnd + 1) (recs + 1) flp (some flp) = some i := by
      rw [insPoint, if_pos (by omega), h.lists.next_eq hl, hip]
    refine ⟨_, by simp only [adjMiddle, if_neg ht, hip', Option.map_some]; rfl, ?_⟩
    have hl' : ls li = (pre ++ flp :: mid) ++ back := by simp [hl]
    rw [show some i = (pre ++ flp :: mid).getLast? by simpa using hlast.symm]
    rcases h.insflck_free u { k.set flp with lStart := ld.lEnd + 1 } hli hl' with
      ⟨hfree, hins⟩ | ⟨new, k', fs, ls', hfree, hins, hR, hl₁, hfree₁, hnew, hset⟩
    · simp only [hins]
      exact ⟨rfl, rfl, hfree, ht, hs, he⟩
    · simp only [hins]
      rw [Flock.stamp (f := { k.set flp with lStart := ld.lEnd + 1 }) ho] at hset
      exact didOk_piece h hli hl hi ht hs he hcut hfree hR hl₁ hfree₁ hnew hset

/-- The switch over the regions: what it does to the record. -/
theorem adjOwn_did (h : Rep recs k ls) (hli : li ≠ .free) (hl : ls li = pre ++ flp :: post)
    (hi : Left u k.set pre (flp :: post) insrtp ld) (ho : (k.set flp).owner = u) :
    ∃ r, adjOwn recs u li insrtp ld flp k = some r ∧ DidOk recs u li k ls pre flp post ld r := by
  have hle := hi.le
  have hvle := hi.valid flp (by simp)
  have hn := h.lists.next_eq hl
  have hp := h.lists.prev_eq hl
  obtain ⟨hs, he⟩ := regflck_spec (f := k.set flp) hle
  -- the lock lies in the range, or has its type and touches it
  have hin : ld.lStart ≤ (k.set flp).lStart → (k.set flp).lEnd ≤ ld.lEnd →
      Joins ld (k.set flp) ld := fun h₁ h₂ => ⟨rfl, .inl ⟨rfl, h₁, h₂⟩⟩
  have hleft : ld.lType = (k.set flp).lType → (k.set flp).lStart ≤ ld.lStart →
      ld.lStart ≤ (k.set flp).lEnd + 1 → (k.set flp).lEnd ≤ ld.lEnd →
      Joins ld (k.set flp) { ld with lStart := (k.set flp).lStart } := by
    intro ht h₁ h₂ h₃
    refine ⟨rfl, .inr ⟨ht, by omega, h₂, ?_, ?_⟩⟩ <;> simp only <;> omega
  cases hreg : regflck ld (k.set flp) with
  | mk a b =>
    rw [hreg] at hs he
    simp only [adjOwn, hreg, hn, hp]
    cases a with
    | before =>
      simp only [Region.StartAt] at hs
      have hc : ∀ ld' : Flock, ld'.lStart = ld.lStart →
          Recedes pre (k.set flp) insrtp insrtp ld ld' := fun ld' h₁ => .inr ⟨rfl, h₁, hs⟩
      cases b with
      | before =>
        simp only [Region.EndAt] at he
        exact ⟨_, rfl, didOk_pass h hl hi ⟨by omega, fun _ => by omega⟩ (by omega)⟩
      | start =>
        simp only [Region.EndAt] at he
        by_cases ht : ld.lType = (k.set flp).lType
        · refine ⟨_, by simp only [decide_eq_true ht, if_true]; rfl, ?_⟩
          have hj : Joins ld (k.set flp) { ld with lEnd := (k.set flp).lEnd } := by
            refine ⟨rfl, .inr ⟨ht, by omega, by omega, ?_, ?_⟩⟩ <;> simp only <;> omega
          exact didOk_last h hli hl hi hj (hc _ rfl) ht rfl
        · refine ⟨_, by simp only [decide_eq_false ht]; rfl, ?_⟩
          exact didOk_pass h hl hi ⟨by omega, fun hty => absurd hty ht⟩ (by omega)
      | middle =>
        simp only [Region.EndAt] at he
        exact adjMiddle_did h hli hl hi ho he.1 he.2 (fun _ => rfl)
          (.inr ⟨rfl, by omega, hc ld rfl⟩)
      | finish =>
        simp only [Region.EndAt] at he
        refine ⟨_, rfl, ?_⟩
        have hj := hin (by omega) (by omega)
        by_cases ht : ld.lType = (k.set flp).lType
        · simp only [decide_eq_true ht, if_true]
          exact didOk_last h hli hl hi hj (hc ld rfl) ht he
        · simp only [decide_eq_false ht]
          exact didOk_drop h hli hl hi hj (hc ld rfl)
      | after =>
        simp only [Region.EndAt] at he
        exact ⟨_, rfl, didOk_drop h hli hl hi (hin (by omega) (by omega)) (hc ld rfl)⟩
    | start =>
      simp only [Region.StartAt] at hs
      have hc : Recedes pre (k.set flp) insrtp pre.getLast? ld ld := .inl rfl
      cases b with
      | before =>
        simp only [Region.EndAt] at he
        omega
      | start =>
        simp only [Region.EndAt] at he
        omega
      | middle =>
        simp only [Region.EndAt] at he
        by_cases ht : ld.lType = (k.set flp).lType
        · refine ⟨_, by simp only [decide_eq_true ht, if_true]; rfl, ?_⟩
          exact ⟨rfl, ht, by omega, by omega⟩
        · simp only [decide_eq_false ht]
          exact adjMiddle_did h hli hl hi ho he.1 he.2 (fun _ => rfl)
            (.inr ⟨rfl, by omega, hc⟩)
      | finish =>
        simp only [Region.EndAt] at he
        by_cases ht : ld.lType = (k.set flp).lType
        · refine ⟨_, by simp only [decide_eq_true ht, if_true]; rfl, ?_⟩
          exact ⟨rfl, ht, by omega, by omega⟩
        · refine ⟨_, by simp only [decide_eq_false ht]; rfl, ?_⟩
          exact didOk_drop h hli hl hi (hin (by omega) (by omega)) hc
      | after =>
        simp only [Region.EndAt] at he
        exact ⟨_, rfl, didOk_drop h hli hl hi (hin (by omega) (by omega)) hc⟩
    | middle =>
      simp only [Region.StartAt] at hs
      cases b with
      | before =>
        simp only [Region.EndAt] at he
        omega
      | start =>
        simp only [Region.EndAt] at he
        omega
      | middle =>
        simp only [Region.EndAt] at he
        by_cases ht : ld.lType = (k.set flp).lType
        · refine ⟨_, by simp only [decide_eq_true ht, if_true]; rfl, ?_⟩
          exact ⟨rfl, ht, by omega, by omega⟩
        · simp only [decide_eq_false ht]
          exact adjMiddle_did h hli hl hi ho he.1 he.2 (fun hty => absurd hty ht)
            (.inl ⟨rfl, hs.1⟩)
      | finish =>
        simp only [Region.EndAt] at he
        by_cases ht : ld.lType = (k.set flp).lType
        · refine ⟨_, by simp only [decide_eq_true ht, if_true]; rfl, ?_⟩
          exact ⟨rfl, ht, by omega, by omega⟩
        · refine ⟨_, by simp only [decide_eq_false ht]; rfl, ?_⟩
          exact didOk_cut h hl hi ht hs.1 hs.2 (by omega)
      | after =>
        simp only [Region.EndAt] at he
        by_cases ht : ld.lType = (k.set flp).lType
        · refine ⟨_, by simp only [decide_eq_true ht, if_true]; rfl, ?_⟩
          exact didOk_drop h hli hl hi (hleft ht (by omega) (by omega) (by omega)) (.inl rfl)
        · refine ⟨_, by simp only [decide_eq_false ht]; rfl, ?_⟩
          exact didOk_cut h hl hi ht hs.1 hs.2 (by omega)
    | finish =>
      simp only [Region.StartAt] at hs
      cases b with
      | after =>
        simp only [Region.EndAt] at he
        by_cases ht : ld.lType = (k.set flp).lType
        · refine ⟨_, by simp only [decide_eq_true ht, if_true]; rfl, ?_⟩
          exact didOk_drop h hli hl hi (hleft ht (by omega) (by omega) (by omega)) (.inl rfl)
        · refine ⟨_, by simp only [decide_eq_false ht]; rfl, ?_⟩
          exact didOk_keep h hl hi ⟨by omega, fun hty => absurd hty ht⟩ (.inl rfl)
      | _ =>
        simp only [Region.EndAt] at he
        omega
    | after =>
      simp only [Region.StartAt] at hs
      cases b with
      | after =>
        exact ⟨_, rfl, didOk_keep h hl hi ⟨by omega, fun _ => by omega⟩ (.inr rfl)⟩
      | _ =>
        simp only [Region.EndAt] at he
        omega

end Svr32.RecLock
