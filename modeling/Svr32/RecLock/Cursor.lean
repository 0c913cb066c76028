import Svr32.RecLock.Written

/-! Where flckadj begins: the records in front of the cursor that blocked leaves make no
difference to what it does. -/
namespace Svr32.RecLock
open Svr32.Lib
variable {I : Type*} [DecidableEq I]

/- In the order of their starts. -/
def Sorted (set : Nat → Flock) (l : List Nat) : Prop :=
  l.Pairwise fun r r' => (set r).lStart ≤ (set r').lStart

/- The cursor is a record of the list, and all up to it start in front of `start`. -/
def Near (set : Nat → Flock) (l : List Nat) (start : Int) (insrtp : Option Nat) : Prop :=
  ∃ p y, insrtp = some y ∧ p ++ [y] <+: l ∧ ∀ r ∈ p ++ [y], (set r).lStart < start

variable {recs : Nat} {k k' : Table I} {ls ls' : ListId I → List Nat} {li : ListId I} {u : Owner}
  {set set' : Nat → Flock} {pre post : List Nat} {ld ld' : Flock} {flp : Nat} {i j : Option Nat}
  {nflp : Option Nat} {start : Int} {l l' post' : List Nat}

theorem Near.mono (h : Near set l start i) (hl : l <+: l') : Near set l' start i := by
  obtain ⟨p, y, hi, hp, hs⟩ := h
  exact ⟨p, y, hi, hp.trans hl, hs⟩

theorem Near.congr (h : Near set l start i) (hs : ∀ r ∈ l, set' r = set r) :
    Near set' l start i := by
  obtain ⟨p, y, hi, hp, hlt⟩ := h
  exact ⟨p, y, hi, hp, fun r hr => (hs r (hp.subset hr)).symm ▸ hlt r hr⟩

/-- A record that does not start in front of `start` is behind the cursor. -/
theorem Near.front (h : Near set (pre ++ flp :: post) start i) (hf : start ≤ (set flp).lStart) :
    Near set pre start i := by
  obtain ⟨p, y, hi, hp, hlt⟩ := h
  have hout : flp ∉ p ++ [y] := fun hm => absurd (hlt flp hm) (by omega)
  have hq : pre ++ [flp] <+: pre ++ flp :: post := by
    rw [List.prefix_append_right_inj]
    exact ⟨post, rfl⟩
  refine ⟨p, y, hi, ?_, hlt⟩
  cases List.prefix_or_prefix_of_prefix hp hq with
  | inl hle =>
    cases List.prefix_concat_iff.mp hle with
    | inl he => exact absurd (he ▸ List.mem_append_right pre (List.mem_singleton.mpr rfl)) hout
    | inr hle => exact hle
  | inr hge => exact absurd (hge.subset (List.mem_append_right pre (by simp))) hout

omit [DecidableEq I] in
/-- The last record that starts in front of `start`, from `ins` on. -/
theorem insPoint_last (h : Lists k.links ls) (start : Int) {fuel : Nat} (ins : Nat)
    (hl : ls li = pre ++ post) (hfuel : post.length ≤ fuel) :
    insPoint k start fuel ins post.head? =
      some (((post.takeWhile fun r => (k.set r).lStart < start).getLast?).getD ins) := by
  induction fuel generalizing pre post ins with
  | zero =>
    obtain rfl : post = [] := List.eq_nil_of_length_eq_zero (by omega)
    rfl
  | succ fuel ih =>
    cases post with
    | nil => rfl
    | cons r post =>
      have hnext := h.next_eq hl
      have hrest := @ih (pre ++ [r]) post r (by simpa using hl) (by simpa using hfuel)
      rw [List.head?_cons, insPoint]
      by_cases hlt : (k.set r).lStart < start
      · rw [if_pos hlt, hnext, hrest, List.takeWhile_cons_of_pos (by simpa using hlt),
          List.getLast?_cons]
        rfl
      · rw [if_neg hlt, List.takeWhile_cons_of_neg (by simpa using hlt)]
        rfl

omit [DecidableEq I] in
theorem insPoint_from_record (h : Rep recs k ls) {y : Nat} (hl : ls li = pre ++ y :: post)
    (start : Int) : insPoint k start (recs + 1) y (some y) =
      some ((((y :: post).takeWhile fun r => (k.set r).lStart < start).getLast?).getD y) := by
  have hlen := h.length_le li
  have hfuel : (y :: post).length ≤ recs + 1 := by
    rw [hl] at hlen
    simp only [List.length_append, List.length_cons] at hlen ⊢
    omega
  exact insPoint_last h.lists start y hl hfuel

omit [DecidableEq I] in
/-- From any cursor in front of the range the scan comes to the same place. -/
theorem insPoint_near (h : Rep recs k ls) {p : List Nat} {y : Nat} (hp : p ++ [y] <+: ls li)
    (hlt : ∀ r ∈ p ++ [y], (k.set r).lStart < start) :
    insPoint k start (recs + 1) y (some y) =
      ((ls li).takeWhile fun r => (k.set r).lStart < start).getLast? := by
  obtain ⟨q, hq⟩ := hp
  have hl : ls li = p ++ y :: q := by simpa using hq.symm
  have hwhole : (p ++ y :: q).takeWhile (fun r => (k.set r).lStart < start) =
      p ++ (y :: q).takeWhile fun r => (k.set r).lStart < start :=
    List.takeWhile_append_of_pos fun r hr =>
      decide_eq_true (hlt r (List.mem_append_left [y] hr))
  have hy : (k.set y).lStart < start := hlt y (by simp)
  rw [insPoint_from_record h hl start, hl, hwhole, List.takeWhile_cons_of_pos (by simpa using hy),
    List.getLast?_append, List.getLast?_cons]
  rfl

/- Two cursors between which nothing is to choose: one record that was passed, or both in front
of the range. -/
def Agree (set : Nat → Flock) (pre post : List Nat) (start : Int) (i j : Option Nat) : Prop :=
  (i = j ∧ ∀ x, i = some x → x ∈ pre) ∨ (Near set (pre ++ post) start i ∧
    Near set (pre ++ post) start j)

/-- The new lock goes in at the same place from both. -/
theorem adjInsert_agree (h : Rep recs k ls) (hl : ls li = pre ++ post)
    (hc : Agree k.set pre post ld.lStart i j) :
    ∃ r, adjInsert recs u li i ld k = some r ∧ adjInsert recs u li j ld k = some r := by
  rcases hc with ⟨rfl, hin⟩ | ⟨⟨p, y, rfl, hp, hlty⟩, q, z, rfl, hq, hltz⟩
  · have hsome : ∃ r, adjInsert recs u li i ld k = some r := by
      by_cases ht : ld.lType = .unlck
      · exact ⟨_, if_pos ht⟩
      · simp only [adjInsert, if_neg ht]
        cases i with
        | none => exact ⟨_, rfl⟩
        | some x =>
          obtain ⟨a, b, hab⟩ := List.append_of_mem (hin x rfl)
          have hx : ls li = a ++ x :: (b ++ post) := by rw [hl, hab]; simp
          exact ⟨_, by dsimp only; rw [insPoint_from_record h hx]; rfl⟩
    obtain ⟨r, hr⟩ := hsome
    exact ⟨r, hr, hr⟩
  · rw [← hl] at hp hq
    have hy := insPoint_near h hp hlty
    have hz := insPoint_near h hq hltz
    obtain ⟨s, hs⟩ := hp
    have hsome := insPoint_from_record h (show ls li = p ++ y :: s by simpa using hs.symm) ld.lStart
    rw [adjInsert, adjInsert]
    by_cases ht : ld.lType = .unlck
    · exact ⟨_, if_pos ht, if_pos ht⟩
    · rw [if_neg ht, if_neg ht]
      rw [hz, ← hy, hsome]
      exact ⟨_, rfl, rfl⟩

/- The loop goes on at the records `rest`, or stops. -/
def Ahead (n : Nat) (rest : List Nat) (nflp : Option Nat) : Prop :=
  (nflp = rest.head? ∧ rest.length ≤ n) ∨ nflp = none

/- The list after a turn: `pre` is done, the loop goes on in `rest`. -/
structure Rests (recs : Nat) (li : ListId I) (n : Nat) (k : Table I) (nflp : Option Nat)
    (pre rest : List Nat) : Prop where
  rep : ∃ ls, Rep recs k ls ∧ ls li = pre ++ rest
  head : nflp = rest.head?
  short : rest.length ≤ n

omit [DecidableEq I] in
theorem rests_of {n : Nat} (h : Rep recs k ls) (hl : ls li = pre ++ post)
    (hn : Ahead n post nflp) :
    ∃ pre' rest, Rests recs li n k nflp pre' rest ∧ pre ++ post = pre' ++ rest ∧ pre ⊆ pre' := by
  rcases hn with ⟨hn, hle⟩ | rfl
  · exact ⟨pre, post, ⟨⟨ls, h, hl⟩, hn, hle⟩, rfl, List.Subset.refl pre⟩
  · exact ⟨pre ++ post, [], ⟨⟨ls, h, by simpa using hl⟩, rfl, Nat.zero_le n⟩, by simp,
      List.subset_append_left pre post⟩

/- What a turn that looks at `flp` makes of the cursor, whichever it is: the loop returns, or has
a cursor of its own, or keeps the one it had. -/
inductive Steered (recs : Nat) (li : ListId I) (k : Table I) (pre : List Nat) (flp : Nat)
    (post : List Nat) (ld : Flock) : (Option Nat → Option (Adj I)) → Prop
  | ret {f k' ld' e} (hf : ∀ i, f i = some (.ret k' ld' e)) : Steered recs li k pre flp post ld f
  | fixed {f k' j nflp ld' pre' rest} (hf : ∀ i, f i = some (.next k' j nflp ld'))
      (hr : Rests recs li post.length k' nflp pre' rest) (hj : ∀ x, j = some x → x ∈ pre') :
      Steered recs li k pre flp post ld f
  | kept {f k' nflp ld' pre' rest} (hf : ∀ i, f i = some (.next k' i nflp ld'))
      (hr : Rests recs li post.length k' nflp pre' rest) (hp : pre ⊆ pre')
      (hn : ∀ i, Near k.set (pre ++ flp :: post) ld.lStart i →
        Near k'.set (pre' ++ rest) ld'.lStart i) : Steered recs li k pre flp post ld f

omit [DecidableEq I] in
/-- The record stays; the cursor does or moves up to it. -/
theorem steered_keep (h : Rep recs k ls) (hl : ls li = pre ++ flp :: post)
    (hn : Ahead post.length post nflp) {g : Option Nat → Option Nat}
    (hg : (∀ i, g i = i) ∨ ∀ i, g i = some flp) :
    Steered recs li k pre flp post ld fun i => some (.next k (g i) nflp ld) := by
  obtain ⟨pre', rest, hr, he, hsub⟩ := rests_of h (show ls li = (pre ++ [flp]) ++ post by
    simpa using hl) hn
  cases hg with
  | inl hg =>
    refine .kept (fun i => by rw [hg i]) hr (fun r hr => hsub (List.mem_append_left [flp] hr)) ?_
    intro i hi
    rw [← he]
    simpa using hi
  | inr hg =>
    refine .fixed (fun i => by rw [hg i]) hr fun x hx => hsub ?_
    rw [← Option.some.inj hx]
    simp

omit [DecidableEq I] in
/-- The record is cut off in front of the range, and is the cursor. -/
theorem steered_cut (h : Rep recs k' ls) (hl : ls li = pre ++ flp :: post')
    (hn : Ahead post.length post' nflp) :
    Steered recs li k pre flp post ld fun _ =>
      some (.next (cutflck ld flp k') (some flp) nflp ld) := by
  obtain ⟨pre', rest, hr, he, hsub⟩ := rests_of (cutflck_rep h)
    (show ls li = (pre ++ [flp]) ++ post' by simpa using hl) hn
  refine .fixed (fun _ => rfl) hr fun x hx => hsub ?_
  rw [← Option.some.inj hx]
  simp

/-- The record goes; the cursor is the one in front of it, or was no record behind the start. -/
theorem steered_drop (h : Rep recs k' ls) (hli : li ≠ .free) (hl : ls li = pre ++ flp :: post')
    (hset : ∀ r ∈ pre, k'.set r = k.set r) (hn : Ahead post.length post' nflp)
    {g : Option Nat → Option Nat} (hg : (∀ i, g i = pre.getLast?) ∨
      (∀ i, g i = i) ∧ ld.lStart < (k.set flp).lStart ∧ ld'.lStart = ld.lStart) :
    Steered recs li k pre flp post ld fun i =>
      some (.next (delflck li flp k') (g i) nflp ld') := by
  obtain ⟨ls', hR, hl', -⟩ := h.delflck hli hl
  obtain ⟨pre', rest, hr, he, hsub⟩ := rests_of hR hl' hn
  rcases hg with hg | ⟨hg, hlt, hs⟩
  · exact .fixed (fun i => by rw [hg i]) hr fun x hx => hsub (List.mem_of_getLast? hx)
  · refine .kept (fun i => by rw [hg i]) hr hsub fun i hi => ?_
    rw [← he, hs, delflck_set]
    exact ((hi.front (Int.le_of_lt hlt)).congr hset).mono (List.prefix_append pre post')

theorem steered_middle (h : Rep recs k ls) (hli : li ≠ .free) (hl : ls li = pre ++ flp :: post)
    (hs : (k.set flp).lStart ≤ ld.lEnd) {cut : Bool}
    (hsame : ld.lType = (k.set flp).lType → cut = false) {g : Option Nat → Option Nat}
    (hg : cut = false → (∀ i, g i = pre.getLast?) ∨
      (∀ i, g i = i) ∧ ld.lStart < (k.set flp).lStart) :
    Steered recs li k pre flp post ld fun i => adjMiddle recs u li cut (g i) ld flp k := by
  by_cases ht : ld.lType = (k.set flp).lType
  · have hcut := hsame ht
    subst hcut
    simp only [adjMiddle, if_pos ht, adjPiece, Bool.false_eq_true, if_false]
    exact steered_drop h hli hl (fun _ _ => rfl) (.inr rfl)
      ((hg rfl).imp_right fun hi => ⟨hi.1, hi.2, rfl⟩)
  · -- the piece behind the range goes in behind `mid`
    obtain ⟨mid, back, i, hpost, hip, hlast⟩ : ∃ mid back i, post = mid ++ back ∧
        insPoint k (ld.lEnd + 1) (recs + 1) flp (some flp) = some i ∧
        (pre ++ flp :: mid).getLast? = some i := by
      refine ⟨post.takeWhile fun r => (k.set r).lStart < ld.lEnd + 1,
        post.dropWhile fun r => (k.set r).lStart < ld.lEnd + 1, _,
        List.takeWhile_append_dropWhile.symm, insPoint_from_record h hl _, ?_⟩
      have hs' : (k.set flp).lStart < ld.lEnd + 1 := Int.lt_add_one_of_le hs
      rw [List.takeWhile_cons_of_pos (by simpa using hs'), List.getLast?_append, List.getLast?_cons]
      rfl
    have hl' : ls li = (pre ++ flp :: mid) ++ back := by simp [hl, hpost]
    simp only [adjMiddle, if_neg ht, hip, Option.map_some]
    rw [← hlast]
    rcases h.insflck_free u { k.set flp with lStart := ld.lEnd + 1 } hli hl' with
      ⟨-, hins⟩ | ⟨new, k', fs, ls', -, hins, hR, hl₁, -, hnew, hset⟩
    · simp only [hins]
      exact .ret fun _ => rfl
    · simp only [hins]
      have hl₁' : ls' li = pre ++ flp :: (mid ++ new :: back) := by simp [hl₁]
      cases cut with
      | true => exact steered_cut hR hl₁' (.inr rfl)
      | false =>
        refine steered_drop hR hli hl₁' (fun r hr => ?_) (.inr rfl)
          ((hg rfl).imp_right fun hi => ⟨hi.1, hi.2, rfl⟩)
        rw [hset]
        exact Function.update_of_ne (fun he : r = new => hnew (by simp [← he, hr])) _ _

theorem regflckEnd_middle {f : Flock} (h : regflckEnd ld f = .middle) : f.lStart ≤ ld.lEnd := by
  rw [regflckEnd] at h
  by_cases h₁ : ld.lEnd < f.lEnd
  · rw [if_pos h₁] at h
    by_cases h₂ : ld.lEnd = f.lStart - 1
    · rw [if_pos h₂] at h
      cases h
    · rw [if_neg h₂] at h
      by_cases h₃ : ld.lEnd < f.lStart
      · rw [if_pos h₃] at h
        cases h
      · exact Int.not_lt.mp h₃
  · rw [if_neg h₁] at h
    split at h <;> cases h

/- What the switch needs of its two ends. -/
theorem regflck_ends {f : Flock} {a b : Region} (h : regflck ld f = (a, b)) :
    (a = .before → ld.lStart < f.lStart) ∧ (b = .middle → f.lStart ≤ ld.lEnd) := by
  rw [regflck] at h
  by_cases h₁ : ld.lStart > f.lStart
  · rw [if_pos h₁] at h
    split at h
    · cases h
      exact ⟨by rintro ⟨⟩, by rintro ⟨⟩⟩
    · split at h
      · cases h
        exact ⟨by rintro ⟨⟩, by rintro ⟨⟩⟩
      · cases h
        exact ⟨by rintro ⟨⟩, regflckEnd_middle⟩
  · rw [if_neg h₁] at h
    by_cases h₂ : ld.lStart = f.lStart
    · rw [if_pos h₂] at h
      cases h
      exact ⟨by rintro ⟨⟩, regflckEnd_middle⟩
    · rw [if_neg h₂] at h
      cases h
      exact ⟨fun _ => by omega, regflckEnd_middle⟩

/-- The switch over the regions. -/
theorem adjOwn_steered (u : Owner) (ld : Flock) (h : Rep recs k ls) (hli : li ≠ .free)
    (hl : ls li = pre ++ flp :: post) :
    Steered recs li k pre flp post ld fun i => adjOwn recs u li i ld flp k := by
  have hn := h.lists.next_eq hl
  have hp := h.lists.prev_eq hl
  have hon : Ahead post.length post post.head? := .inl ⟨rfl, le_rfl⟩
  have hstop : Ahead post.length post none := .inr rfl
  have hid : (∀ i : Option Nat, i = i) := fun _ => rfl
  cases hreg : regflck ld (k.set flp) with
  | mk a b =>
    obtain ⟨hbefore, hmiddle⟩ := regflck_ends hreg
    simp only [adjOwn, hreg, hn, hp]
    cases a with
    | before =>
      have hs := hbefore rfl
      cases b with
      | before => exact steered_keep h hl hstop (.inl hid)
      | start =>
        by_cases ht : ld.lType = (k.set flp).lType
        · simp only [decide_eq_true ht, if_true]
          exact steered_drop h hli hl (fun _ _ => rfl) hstop (.inr ⟨hid, hs, rfl⟩)
        · simp only [decide_eq_false ht]
          exact steered_keep h hl hstop (.inl hid)
      | middle =>
        exact steered_middle h hli hl (hmiddle rfl) (fun _ => rfl) fun _ => .inr ⟨hid, hs⟩
      | finish =>
        by_cases ht : ld.lType = (k.set flp).lType
        · simp only [decide_eq_true ht, if_true]
          exact steered_drop h hli hl (fun _ _ => rfl) hstop (.inr ⟨hid, hs, rfl⟩)
        · simp only [decide_eq_false ht]
          exact steered_drop h hli hl (fun _ _ => rfl) hon (.inr ⟨hid, hs, rfl⟩)
      | after => exact steered_drop h hli hl (fun _ _ => rfl) hon (.inr ⟨hid, hs, rfl⟩)
    | start =>
      cases b with
      | before => exact steered_keep h hl hon (.inl hid)
      | start => exact steered_keep h hl hon (.inl hid)
      | middle =>
        by_cases ht : ld.lType = (k.set flp).lType
        · simp only [decide_eq_true ht, if_true]
          exact .ret fun _ => rfl
        · simp only [decide_eq_false ht]
          exact steered_middle h hli hl (hmiddle rfl) (fun _ => rfl) fun _ => .inl fun _ => rfl
      | finish =>
        by_cases ht : ld.lType = (k.set flp).lType
        · simp only [decide_eq_true ht, if_true]
          exact .ret fun _ => rfl
        · simp only [decide_eq_false ht]
          exact steered_drop h hli hl (fun _ _ => rfl) hon (.inl fun _ => rfl)
      | after => exact steered_drop h hli hl (fun _ _ => rfl) hon (.inl fun _ => rfl)
    | middle =>
      cases b with
      | before => exact steered_keep h hl hon (.inl hid)
      | start => exact steered_keep h hl hon (.inl hid)
      | middle =>
        by_cases ht : ld.lType = (k.set flp).lType
        · simp only [decide_eq_true ht, if_true]
          exact .ret fun _ => rfl
        · simp only [decide_eq_false ht]
          exact steered_middle h hli hl (hmiddle rfl) (fun hty => absurd hty ht) (by rintro ⟨⟩)
      | finish =>
        by_cases ht : ld.lType = (k.set flp).lType
        · simp only [decide_eq_true ht, if_true]
          exact .ret fun _ => rfl
        · simp only [decide_eq_false ht]
          exact steered_cut h hl hon
      | after =>
        by_cases ht : ld.lType = (k.set flp).lType
        · simp only [decide_eq_true ht, if_true]
          exact steered_drop h hli hl (fun _ _ => rfl) hon (.inl fun _ => rfl)
        · simp only [decide_eq_false ht]
          exact steered_cut h hl hon
    | finish =>
      cases b with
      | after =>
        by_cases ht : ld.lType = (k.set flp).lType
        · simp only [decide_eq_true ht, if_true]
          exact steered_drop h hli hl (fun _ _ => rfl) hon (.inl fun _ => rfl)
        · simp only [decide_eq_false ht]
          exact steered_keep h hl hon (.inl hid)
      | _ => exact steered_keep h hl hon (.inl hid)
    | after =>
      cases b with
      | after => exact steered_keep h hl hon (.inr fun _ => rfl)
      | _ => exact steered_keep h hl hon (.inl hid)

theorem Agree.kept {pre' rest : List Nat} (hc : Agree set pre post start i j) (hp : pre ⊆ pre')
    (hn : ∀ i, Near set (pre ++ post) start i → Near set' (pre' ++ rest) ld.lStart i) :
    Agree set' pre' rest ld.lStart i j :=
  hc.imp (fun ⟨he, hin⟩ => ⟨he, fun x hx => hp (hin x hx)⟩) fun ⟨hi, hj⟩ => ⟨hn i hi, hn j hj⟩

/-- From cursors that agree the loop does the same. -/
theorem adjLoop_agree {n m : Nat} (h : Rep recs k ls) (hli : li ≠ .free)
    (hl : ls li = pre ++ post) (hc : Agree k.set pre post ld.lStart i j) (hn : post.length ≤ n)
    (hm : post.length ≤ m) :
    ∃ r, adjLoop recs u li n i post.head? ld k = some r ∧
      adjLoop recs u li m j post.head? ld k = some r := by
  induction n generalizing k ls pre post i j ld m with
  | zero =>
    obtain rfl : post = [] := List.eq_nil_of_length_eq_zero (by omega)
    simpa only [List.head?_nil, adjLoop] using adjInsert_agree h hl hc
  | succ n ih =>
    cases post with
    | nil => simpa only [List.head?_nil, adjLoop] using adjInsert_agree h hl hc
    | cons flp post =>
      cases m with
      | zero => cases hm
      | succ m =>
        have hn' : post.length ≤ n := Nat.le_of_succ_le_succ hn
        have hm' : post.length ≤ m := Nat.le_of_succ_le_succ hm
        rw [List.head?_cons, adjLoop, adjLoop]
        by_cases ho : (k.set flp).owner = u
        · rw [if_pos ho, if_pos ho]
          cases adjOwn_steered u ld h hli hl with
          | ret hf =>
            rw [hf i, hf j]
            exact ⟨_, rfl, rfl⟩
          | fixed hf hr hj =>
            obtain ⟨⟨ls', hR, hl'⟩, rfl, hlen⟩ := hr
            rw [hf i, hf j]
            exact ih hR hl' (.inl ⟨rfl, hj⟩) (by omega) (by omega)
          | kept hf hr hp hnear =>
            obtain ⟨⟨ls', hR, hl'⟩, rfl, hlen⟩ := hr
            rw [hf i, hf j]
            exact ih hR hl' (hc.kept hp hnear) (by omega) (by omega)
        · rw [if_neg ho, if_neg ho, h.lists.next_eq hl]
          have he : pre ++ flp :: post = (pre ++ [flp]) ++ post := by simp
          exact ih h (hl.trans he) (hc.kept (List.subset_append_left pre [flp])
            fun i hi => he ▸ hi) hn' hm'

/-- Over the records that blocked has passed the loop only moves its cursor, to one of them. -/
theorem adjLoop_passed {n : Nat} {q : List Nat} (i : Option Nat) (h : Rep recs k ls)
    (hl : ls li = pre ++ (q ++ post)) (hpass : ∀ r ∈ pre ++ q, Passed u ld (k.set r)) :
    ∃ i', (i' = i ∨ Near k.set (ls li) ld.lStart i') ∧
      adjLoop recs u li (n + q.length) i (q ++ post).head? ld k =
        adjLoop recs u li n i' post.head? ld k := by
  induction q generalizing pre i with
  | nil => exact ⟨i, .inl rfl, rfl⟩
  | cons x q ih =>
    have hnext := h.lists.next_eq (show ls li = pre ++ x :: (q ++ post) by simpa using hl)
    have hx : Passed u ld (k.set x) := hpass x (by simp)
    have hl' : ls li = (pre ++ [x]) ++ (q ++ post) := by simp [hl]
    have hpass' : ∀ r ∈ (pre ++ [x]) ++ q, Passed u ld (k.set r) := by simpa using hpass
    have hloop : ∃ i₁, (i₁ = i ∨ i₁ = some x) ∧
        adjLoop recs u li (n + (x :: q).length) i (x :: q ++ post).head? ld k =
          adjLoop recs u li (n + q.length) i₁ (q ++ post).head? ld k := by
      rw [List.length_cons, ← Nat.add_assoc, List.cons_append, List.head?_cons, adjLoop]
      by_cases ho : (k.set x).owner = u
      · have hs := hx.start
        have he := hx.own ho
        have hreg : regflck ld (k.set x) = (.after, .after) := by
          rw [regflck, if_pos hs, if_neg (show ¬ ld.lStart - 1 = (k.set x).lEnd by omega),
            if_pos (show ld.lStart > (k.set x).lEnd by omega)]
        refine ⟨some x, .inr rfl, ?_⟩
        rw [if_pos ho]
        simp only [adjOwn, hreg, hnext, Option.bind_some]
      · exact ⟨i, .inl rfl, by rw [if_neg ho, hnext]⟩
    obtain ⟨i₁, hi₁, hloop⟩ := hloop
    obtain ⟨i₂, hi₂, hrest⟩ := ih i₁ hl' hpass'
    refine ⟨i₂, ?_, hloop.trans hrest⟩
    have hsub : ∀ r ∈ pre ++ [x], r ∈ pre ++ x :: q := by
      simp only [List.mem_append, List.mem_cons, List.not_mem_nil, or_false]
      tauto
    rcases hi₂ with rfl | hi₂
    · refine hi₁.imp_right fun he => ⟨pre, x, he, ?_, fun r hr => ?_⟩
      · rw [hl']
        exact List.prefix_append _ _
      · exact (hpass r (hsub r hr)).start
    · exact .inr hi₂

/-- Begun at a record of which only such are in front, flckadj does what it does begun at the
first. -/
theorem flckadj_near (h : Rep recs k ls) (hli : li ≠ .free) {y : Nat}
    (hl : ls li = pre ++ y :: post) (hpass : ∀ r ∈ pre, Passed u ld (k.set r))
    (hy : (k.set y).lStart < ld.lStart) :
    ∃ r, flckadj recs u li (some y) ld k = some r ∧
      flckadj recs u li (k.links.head li) ld k = some r := by
  have hlen := h.length_le li
  rw [hl, List.length_append, List.length_cons] at hlen
  have hfront : ∀ r ∈ pre ++ [y], (k.set r).lStart < ld.lStart := by
    intro r hr
    cases List.mem_append.mp hr with
    | inl hr => exact (hpass r hr).start
    | inr hr => rwa [List.mem_singleton.mp hr]
  have hnear : Near k.set (ls li) ld.lStart (some y) :=
    ⟨pre, y, rfl, hl ▸ ⟨post, by simp⟩, hfront⟩
  -- the first record is in front of the range too
  have hhead : Near k.set (ls li) ld.lStart (k.links.head li) := by
    rw [h.lists.head_eq, hl]
    cases pre with
    | nil => exact ⟨[], y, rfl, ⟨post, rfl⟩, hfront⟩
    | cons x pre =>
      exact ⟨[], x, rfl, ⟨pre ++ y :: post, rfl⟩, fun r hr => hfront r (by
        rw [List.mem_singleton.mp hr]; simp)⟩
  have hstart : (k.links.head li).or (k.links.head li) = (pre ++ y :: post).head? := by
    rw [Option.or_self, h.lists.head_eq, hl]
  obtain ⟨n, hn⟩ : ∃ n, recs + 1 = n + pre.length := ⟨recs + 1 - pre.length, by omega⟩
  obtain ⟨i', hi', hloop⟩ := adjLoop_passed (n := n) (k.links.head li) h
    (show ls li = [] ++ (pre ++ y :: post) from hl) hpass
  have hagree : Agree k.set pre (y :: post) ld.lStart (some y) i' := by
    refine .inr ⟨hl ▸ hnear, hl ▸ ?_⟩
    cases hi' with
    | inl he => exact he ▸ hhead
    | inr hi' => exact hi'
  obtain ⟨r, hr, hr'⟩ := adjLoop_agree (u := u) (n := recs + 1) (m := n) h hli hl hagree
    (by simp only [List.length_cons]; omega) (by simp only [List.length_cons]; omega)
  refine ⟨r, hr, ?_⟩
  rw [flckadj, hstart, hn, hloop]
  exact hr'

/- A lock of another process overlaps the range, and one of the two is a write lock. -/
def Barred (u : Owner) (set : Nat → Flock) (l : List Nat) (lckdat : Flock) : Prop :=
  ∃ r ∈ l, (set r).owner ≠ u ∧ (set r).lStart ≤ lckdat.lEnd ∧ lckdat.lStart ≤ (set r).lEnd ∧
    ((set r).lType = .wrlck ∨ lckdat.lType = .wrlck)

theorem barred_iff : Barred u set l ld ↔
    ∃ r ∈ l, (set r).owner ≠ u ∧ ¬ ld.Compatible (set r) := by
  refine exists_congr fun r => and_congr_right fun _ => and_congr_right fun _ => ?_
  simp only [Flock.Compatible, not_or, not_and_or, not_not, Int.not_lt]
  tauto

/- Where the cursor stands: at a record behind which the loop comes to the same as from the first,
or nowhere when no lock starts in front of the range. -/
def Placed (recs : Nat) (u : Owner) (li : ListId I) (lckdat : Flock) (k : Table I)
    (l : List Nat) : Option Nat → Prop
  | some y => y ∈ l ∧ ∃ r, flckadj recs u li (some y) lckdat k = some r ∧
      flckadj recs u li (k.links.head li) lckdat k = some r
  | none => ∀ r ∈ l, lckdat.lStart ≤ (k.set r).lStart

/-- blocked finds a lock exactly when one bars the way; when it finds none, what lies in front
of its cursor makes no difference to flckadj. -/
theorem blocked_cursor (h : Rep recs k ls) (hli : li ≠ .free) (hs : Sorted k.set (ls li))
    (hv : ∀ r ∈ ls li, (k.set r).Valid) (hd : ld.Valid) (u : Owner) :
    ∃ found insrt, blocked recs u (k.links.head li) ld k = some (found, insrt) ∧
      (found ≠ none ↔ Barred u k.set (ls li) ld) ∧
      (found = none → Placed recs u li ld k (ls li) insrt) := by
  have hlen := h.length_le li
  have hF := (@blockedFront_spec _ _ _ _ u []) (recs + 1) h.lists rfl hv hd hs (by simp)
    (by omega)
  simp only [List.getLast?_nil, ← h.lists.head_eq li] at hF
  rcases hF with ⟨insrt, found, hF, hm, ho, hc⟩ | ⟨insrt, pre, post, hF, hl, hpass, hstop⟩
  · exact ⟨some found, insrt, by rw [blocked, hF]; rfl,
      ⟨fun _ => barred_iff.mpr ⟨found, hm, ho, hc⟩, fun _ => nofun⟩, nofun⟩
  · have hs' : post.Pairwise fun r r' => (k.set r).lStart ≤ (k.set r').lStart := by
      rw [Sorted, hl] at hs
      exact (List.pairwise_append.mp hs).2.1
    have hlen' : post.length ≤ recs + 1 := by
      rw [hl, List.length_append] at hlen
      omega
    rcases @blockedBack_spec _ k ls li u pre post ld (recs + 1) h.lists hl hv hs' hlen' with
      ⟨found, hm, hB, ho, hc⟩ | ⟨hB, hback⟩
    · refine ⟨some found, insrt, by rw [blocked, hF]; simp [hB], ⟨fun _ => ?_, fun _ => nofun⟩,
        nofun⟩
      exact barred_iff.mpr ⟨found, hl ▸ List.mem_append_right pre hm, ho, hc⟩
    · refine ⟨none, insrt, by rw [blocked, hF]; simp [hB], ⟨fun hn => absurd rfl hn, ?_⟩, ?_⟩
      · intro hb
        obtain ⟨r, hr, ho, hc⟩ := barred_iff.mp hb
        rw [hl] at hr
        cases List.mem_append.mp hr with
        | inl hr => exact absurd ((hpass r hr).other ho) hc
        | inr hr => exact absurd (hback r hr ho) hc
      · intro _
        rcases hstop with ⟨rfl, hge⟩ | ⟨f, rfl, hf, hlt⟩
        · cases hp : pre.getLast? with
          | none =>
            rw [List.getLast?_eq_none_iff] at hp
            subst hp
            rw [hl]
            exact hge
          | some x =>
            obtain ⟨p, rfl⟩ := List.getLast?_eq_some_iff.mp hp
            have hx : ls li = p ++ x :: post := by simp [hl]
            exact ⟨by simp [hx], flckadj_near h hli hx
              (fun r hr => hpass r (List.mem_append_left [x] hr)) (hpass x (by simp)).start⟩
        · obtain ⟨post, rfl⟩ := List.head?_eq_some_iff.mp hf
          exact ⟨by simp [hl], flckadj_near h hli hl hpass hlt⟩

/- A read lock of another process on the bytes 5 to 9. -/
def beside : Table Unit := { held (some 1) with set := fun _ => ⟨.rdlck, 0, 5, 9, 0, 1⟩ }

theorem beside_rep : Rep 2 beside (heldLists (some 1)) :=
  ⟨(held_rep (some 1) fun _ hr => (Option.some.inj hr).symm).lists,
    (held_rep (some 1) fun _ hr => (Option.some.inj hr).symm).small⟩

theorem beside_valid : ∀ r ∈ heldLists (some 1) (.inode ()), (beside.set r).Valid :=
  fun _ _ => (⟨by decide, by decide, by decide, .inl rfl⟩ : Flock.Valid ⟨.rdlck, 0, 5, 9, 0, 1⟩)

theorem blocked_cursor_beside : ∃ found insrt,
    blocked 2 ⟨2, 0⟩ (some 0) ⟨.rdlck, 0, 20, 30, 0, 0⟩ beside = some (found, insrt) ∧
      (found ≠ none ↔ Barred ⟨2, 0⟩ beside.set [0] ⟨.rdlck, 0, 20, 30, 0, 0⟩) ∧
      (found = none → Placed 2 ⟨2, 0⟩ (.inode ()) ⟨.rdlck, 0, 20, 30, 0, 0⟩ beside [0] insrt) :=
  blocked_cursor beside_rep (ListId.inode_ne_free ()) (List.pairwise_singleton _ _) beside_valid
    ⟨by decide, by decide, by decide, .inl rfl⟩ ⟨2, 0⟩

/- NULL is not the first record: behind a lock NULL puts the new one in front of it, and in front
of a lock the first record puts it behind. -/
theorem flckadj_head_astray : Rep 2 beside (heldLists (some 1)) ∧ Sorted beside.set [0] ∧
    (∀ r ∈ [0], (beside.set r).Valid) ∧
    (blocked 2 ⟨2, 0⟩ (some 0) ⟨.rdlck, 0, 20, 30, 0, 0⟩ beside = some (none, some 0) ∧
      (flckadj 2 ⟨2, 0⟩ (.inode ()) (some 0) ⟨.rdlck, 0, 20, 30, 0, 0⟩ beside).map
        (fun r => r.1.links.head (.inode ())) = some (some 0) ∧
      (flckadj 2 ⟨2, 0⟩ (.inode ()) none ⟨.rdlck, 0, 20, 30, 0, 0⟩ beside).map
        (fun r => r.1.links.head (.inode ())) = some (some 1)) ∧
    (blocked 2 ⟨2, 0⟩ (some 0) ⟨.rdlck, 0, 0, 3, 0, 0⟩ beside = some (none, none) ∧
      (flckadj 2 ⟨2, 0⟩ (.inode ()) none ⟨.rdlck, 0, 0, 3, 0, 0⟩ beside).map
        (fun r => r.1.links.head (.inode ())) = some (some 1) ∧
      (flckadj 2 ⟨2, 0⟩ (.inode ()) (some 0) ⟨.rdlck, 0, 0, 3, 0, 0⟩ beside).map
        (fun r => r.1.links.head (.inode ())) = some (some 0)) :=
  ⟨beside_rep, List.pairwise_singleton _ _, beside_valid, ⟨rfl, rfl, rfl⟩, rfl, rfl, rfl⟩

end Svr32.RecLock
