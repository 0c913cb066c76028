import Svr32.RecLock.Overwrite

/-! A run of the loop of flckadj from where blocked lets it begin to the final insertion. -/
namespace Svr32.RecLock
open Svr32.Lib
variable {I : Type*} [DecidableEq I]
variable {recs : Nat} {k k' : Table I} {ls ls' : ListId I → List Nat} {li : ListId I} {u v : Owner}
  {set set' : Nat → Flock} {l l' pre post pre' rest free free' : List Nat} {insrtp : Option Nat}
  {ld ld' : Flock} {flp : Nat} {i : Int} {t : LType}

theorem Joins.apart {x b : Flock} (h : Joins ld x ld') (hb : b.lStart ≤ b.lEnd)
    (hl : ld.Apart b) (hx : x.Apart b) : ld'.Apart b := by
  have ht := h.type
  simp only [Flock.Apart, ht] at hl hx ⊢
  rcases h.range with ⟨rfl, -⟩ | ⟨htx, h₁, h₂, h₃, h₄⟩
  · exact hl
  · refine ⟨by omega, fun hty => ?_⟩
    have hl' := hl.2 hty
    have hx' := hx.2 (htx ▸ hty)
    omega

namespace Settled

theorem snoc (h : Settled u set pre (flp :: post) ld) (hi : Left u set pre (flp :: post) insrtp ld)
    (ho : (set flp).owner = u → ld.Apart (set flp)) : Settled u set (pre ++ [flp]) post ld := by
  refine ⟨fun r hr => ?_, fun r hr hro => ?_, fun r hr r' hr' hro hro' => ?_⟩
  all_goals rcases List.mem_append.mp hr with hr | hr
  · exact h.valid r hr
  · exact hi.valid r (by simp_all)
  · exact h.own r hr hro
  · rw [List.mem_singleton.mp hr] at hro ⊢
    exact ho hro
  · exact h.cross r hr r' (List.mem_cons_of_mem flp hr') hro hro'
  · rw [List.mem_singleton.mp hr] at hro ⊢
    exact (List.pairwise_cons.mp hi.apart).1 r' hr' hro hro'

theorem tail (h : Settled u set pre (flp :: post) ld) : Settled u set pre post ld :=
  ⟨h.valid, h.own, fun r hr r' hr' => h.cross r hr r' (List.mem_cons_of_mem flp hr')⟩

theorem append (h : Settled u set pre post ld) (hv : ∀ r ∈ post, (set r).lStart ≤ (set r).lEnd)
    (ho : ∀ r ∈ post, (set r).owner = u → ld.Apart (set r)) :
    Settled u set (pre ++ post) [] ld := by
  refine ⟨fun r hr => ?_, fun r hr hro => ?_, fun r hr => nofun⟩
  all_goals rcases List.mem_append.mp hr with hr | hr
  · exact h.valid r hr
  · exact hv r hr
  · exact h.own r hr hro
  · exact ho r hr hro

theorem congr (h : Settled u set pre post ld) (hs : ∀ r ∈ pre ++ post, set' r = set r) :
    Settled u set' pre post ld := by
  have hp : ∀ r ∈ pre, set' r = set r := fun r hr => hs r (List.mem_append_left post hr)
  refine ⟨fun r hr => ?_, fun r hr => ?_, fun r hr r' hr' => ?_⟩
  · rw [hp r hr]
    exact h.valid r hr
  · rw [hp r hr]
    exact h.own r hr
  · rw [hp r hr, hs r' (List.mem_append_right pre hr')]
    exact h.cross r hr r' hr'

/-- A record among the ones done, with nothing left. -/
theorem middle {x : Nat} (h : Settled u set (pre ++ post) [] ld)
    (hv : (set x).lStart ≤ (set x).lEnd) (ho : (set x).owner = u → ld.Apart (set x)) :
    Settled u set (pre ++ x :: post) [] ld := by
  refine ⟨fun r hr => ?_, fun r hr hro => ?_, fun r hr => nofun⟩
  all_goals rcases List.mem_cons.mp (List.perm_middle.mem_iff.mp hr) with rfl | hr
  · exact hv
  · exact h.valid r hr
  · exact ho hro
  · exact h.own r hr hro

end Settled

/-- A turn keeps the records it is done with apart from the range. -/
theorem Did.settled (h : Did set pre flp post free ld set' pre' rest free' ld')
    (ho : (set flp).owner = u) (hnd : (pre ++ flp :: post).Nodup)
    (hi : Left u set pre (flp :: post) insrtp ld) (hs : Settled u set pre (flp :: post) ld) :
    Settled u set' pre' rest ld' := by
  have hle := hi.le
  have hv := hi.valid flp (by simp)
  have hvp : ∀ r ∈ post, (set r).lStart ≤ (set r).lEnd :=
    fun r hr => hi.valid r (List.mem_cons_of_mem flp hr)
  have hnf := (List.nodup_cons.mp (List.perm_middle.nodup_iff.mp hnd)).1
  -- what lies behind a record that ends behind the range
  have hback : ld.lEnd < (set flp).lEnd → ∀ r ∈ post, (set r).owner = u → ld.Apart (set r) := by
    intro hlt r hr hro
    have ha := (hi.own_after ho hr hro).1
    exact ⟨.inl (by omega), fun _ => .inl (by omega)⟩
  have hjoin : ∀ ld' : Flock, Joins ld (set flp) ld' → Settled u set pre post ld' := by
    intro ld' hj
    refine ⟨hs.valid, fun r hr hro => ?_, hs.tail.cross⟩
    exact hj.apart (hs.valid r hr) (hs.own r hr hro) (hs.cross r hr flp (by simp) hro ho).symm
  cases h with
  | keep hap => exact hs.snoc hi fun _ => hap
  | pass hap hlt =>
    refine (hs.tail.append hvp fun r hr hro => ?_).middle hv fun _ => hap
    have ha := (hi.own_after ho hr hro).1
    exact ⟨.inl (by omega), fun _ => .inl (by omega)⟩
  | drop hj => exact hjoin _ hj
  | last hj ht he =>
    refine (hjoin _ hj).append hvp fun r hr hro => ?_
    have ha := hi.own_after ho hr hro
    exact ⟨.inl (by omega), fun hty => .inl (he ▸ ha.2 (ht ▸ hj.type ▸ hty))⟩
  | cut ht hst he hle =>
    have hold : ∀ r ∈ pre ++ post,
        Function.update set flp { set flp with lEnd := ld.lStart - 1 } r = set r :=
      fun r hr => Function.update_of_ne (fun he : r = flp => hnf (he ▸ hr)) _ _
    have hs' := hs.tail.congr hold
    refine ⟨fun r hr => ?_, fun r hr hro => ?_, fun r hr r' hr' hro hro' => ?_⟩
    all_goals rcases List.mem_append.mp hr with hr | hr
    · exact hs'.valid r hr
    · rw [List.mem_singleton.mp hr, Function.update_self]
      simp only
      omega
    · exact hs'.own r hr hro
    · rw [List.mem_singleton.mp hr, Function.update_self]
      exact ⟨.inr (by simp only; omega), fun hty => absurd hty ht⟩
    · exact hs'.cross r hr r' hr' hro hro'
    · rw [hold r' (List.mem_append_right pre hr')] at hro' ⊢
      rw [List.mem_singleton.mp hr, Function.update_self]
      have ha := hi.own_after ho hr' hro'
      exact ⟨.inl (by simp only; omega), fun hty => .inl (by simp only; omega)⟩
  | @part mid back new fs hpost hfree hnew ht hst hle he =>
    subst hpost
    have hall := hs.tail.append hvp (hback he)
    rw [← List.append_assoc] at hall ⊢
    refine (hall.congr fun r hr => Function.update_of_ne ?_ _ _).middle ?_ ?_
    · rw [List.append_nil, List.append_assoc] at hr
      exact ne_of_notMem_middle hnew hr
    · rw [Function.update_self]
      simp only
      omega
    · rw [Function.update_self]
      exact fun _ => ⟨.inl (by simp only; omega), fun hty => absurd hty ht⟩
  | @split mid back new fs hpost hfree hnew ht hst he =>
    subst hpost
    have hne : flp ≠ new := fun he => hnew (by simp [← he])
    have hall := hs.tail.append hvp (hback he)
    have hold : ∀ r ∈ pre ++ (mid ++ back) ++ [], Function.update (Function.update set flp
        { set flp with lEnd := ld.lStart - 1 }) new { set flp with lStart := ld.lEnd + 1 } r =
        set r := by
      intro r hr
      rw [List.append_nil] at hr
      rw [Function.update_of_ne, Function.update_of_ne]
      · exact fun he => hnf (he ▸ hr)
      · exact ne_of_notMem_middle hnew hr
    rw [show pre ++ flp :: (mid ++ new :: back) = (pre ++ flp :: mid) ++ new :: back by simp]
    refine Settled.middle ?_ ?_ ?_
    · rw [List.append_assoc, List.cons_append]
      refine (hall.congr hold).middle ?_ ?_
      · rw [Function.update_of_ne hne, Function.update_self]
        simp only
        omega
      · rw [Function.update_of_ne hne, Function.update_self]
        exact fun _ => ⟨.inr (by simp only; omega), fun hty => absurd hty ht⟩
    · rw [Function.update_self]
      simp only
      omega
    · rw [Function.update_self]
      exact fun _ => ⟨.inl (by simp only; omega), fun hty => absurd hty ht⟩

omit [DecidableEq I] in
/-- Where blocked lets flckadj begin: what lies in front of it ends in front of the range. -/
theorem Begins.left (h : Rep recs k ls) (hw : WellFormed k.set (ls li)) (hd : ld.Asked)
    (hb : Begins recs u li ld k insrtp) :
    ∃ pre post, ls li = pre ++ post ∧ insrtp.or (k.links.head li) = post.head? ∧
      Left u k.set pre post insrtp ld ∧
      ∀ r ∈ pre, (k.set r).owner = u → (k.set r).lEnd + 1 < ld.lStart := by
  have hhead := h.lists.head_eq li
  have hleft : ∀ pre post, ls li = pre ++ post →
      (ld.lType ≠ .unlck → Aims k.set pre post ld.lStart insrtp) →
      Left u k.set pre post insrtp ld := by
    intro pre post hl hc
    rw [hl] at hw
    refine ⟨hd.le, fun r hr => (hw.valid r (List.mem_append_right pre hr)).le, fun r hr ht => ?_,
      (List.pairwise_append.mp hw.sorted).2.1, ?_, hc⟩
    · have hty := (hw.valid r (List.mem_append_right pre hr)).type
      rw [ht] at hty
      exact hty.elim (by rintro ⟨⟩) (by rintro ⟨⟩)
    · exact (List.pairwise_append.mp hw.apart).2.1.imp fun hap ho ho' => hap (ho.trans ho'.symm)
  rcases hb with ⟨ht, hb⟩ | ⟨ht, rfl⟩
  · have hv : ld.Valid :=
      ⟨hd.start, hd.le, hd.max, hd.type.imp_right fun hx => hx.resolve_right ht⟩
    have hlen := h.length_le li
    have hF := @blockedFront_spec _ _ _ _ u [] (ls li) ld (recs + 1) h.lists rfl hw.valid hv
      hw.sorted (by simp) (by omega)
    simp only [List.getLast?_nil, ← hhead] at hF
    rcases hF with ⟨i, f, hF, -⟩ | ⟨i, pre, post, hF, hl, hpass, hstop⟩
    · simp [blocked, hF] at hb
    · have hi : i = insrtp := by
        simp only [blocked, hF, Option.bind_some, Option.map_eq_some_iff, Prod.mk.injEq] at hb
        obtain ⟨a, -, -, hi⟩ := hb
        exact hi
      subst hi
      have hown : ∀ r ∈ pre, (k.set r).owner = u → (k.set r).lEnd + 1 < ld.lStart :=
        fun r hr => (hpass r hr).own
      rcases hstop with ⟨rfl, -⟩ | ⟨f, rfl, hf, hlt⟩
      · cases hp : pre.getLast? with
        | none =>
          rw [List.getLast?_eq_none_iff] at hp
          subst hp
          refine ⟨[], ls li, rfl, hhead, hleft [] (ls li) rfl fun _ => ?_, by simp⟩
          rw [List.getLast?_nil]
          rintro _ ⟨⟩
        | some x =>
          obtain ⟨p, rfl⟩ := List.getLast?_eq_some_iff.mp hp
          have hl' : ls li = p ++ x :: post := by simp [hl]
          rw [← hp]
          refine ⟨p, x :: post, hl', by rw [hp]; rfl, hleft p (x :: post) hl' fun _ y hy => ?_,
            fun r hr => hown r (List.mem_append_left [x] hr)⟩
          cases hp.symm.trans hy
          exact ⟨by simp, fun _ => (hpass x (by simp)).start⟩
      · refine ⟨pre, post, hl, hf.symm, hleft pre post hl fun _ y hy => ?_, hown⟩
        cases hy
        exact ⟨List.mem_append_right pre (List.mem_of_mem_head? hf), fun _ => hlt⟩
  · exact ⟨[], ls li, rfl, by simp [hhead], hleft [] (ls li) rfl fun hn => absurd ht hn, by simp⟩

omit [DecidableEq I] in
theorem insPoint_mem (h : Lists k.links ls) (start : Int) (fuel : Nat) {ins : Nat}
    (hl : ls li = pre ++ post) (hins : pre.getLast? = some ins) (hfuel : post.length ≤ fuel) :
    ∃ i ∈ ls li, insPoint k start fuel ins post.head? = some i := by
  have hm : ins ∈ ls li := hl ▸ List.mem_append_left post (List.mem_of_getLast? hins)
  induction fuel generalizing pre post ins with
  | zero =>
    have hnil : post = [] := List.eq_nil_of_length_eq_zero (by omega)
    subst hnil
    exact ⟨ins, hm, rfl⟩
  | succ fuel ih =>
    cases post with
    | nil => exact ⟨ins, hm, by rw [List.head?_nil, insPoint]⟩
    | cons x post =>
      rw [List.head?_cons, insPoint]
      by_cases hlt : (k.set x).lStart < start
      · rw [if_pos hlt, h.next_eq hl]
        exact @ih (pre ++ [x]) post x (by simpa using hl) (by simp) (by simpa using hfuel)
          (by simp [hl])
      · rw [if_neg hlt]
        exact ⟨ins, hm, rfl⟩

/-- The insertion behind the loop: none is needed, no record is free, or it goes in somewhere. -/
theorem adjInsert_did (h : Rep recs k ls) (hli : li ≠ .free)
    (hi : Left u k.set (ls li) [] insrtp ld) :
    (ld.lType = .unlck ∧ adjInsert recs u li insrtp ld k = some (k, ld, none)) ∨
    (ld.lType ≠ .unlck ∧ ls .free = [] ∧
      adjInsert recs u li insrtp ld k = some (k, ld, some .enolck)) ∨
    (ld.lType ≠ .unlck ∧ ls .free ≠ [] ∧ ∃ new k' ls' pre post,
      adjInsert recs u li insrtp ld k = some (k', ld, none) ∧ Rep recs k' ls' ∧
      ls li = pre ++ post ∧ ls' li = pre ++ new :: post ∧ new ∉ pre ++ post ∧
      k'.set = Function.update k.set new { ld with lPid := u.pid, lSysid := u.sysid }) := by
  by_cases ht : ld.lType = .unlck
  · exact .inl ⟨ht, if_pos ht⟩
  refine .inr ?_
  have hplace : ∃ pre post, ls li = pre ++ post ∧
      adjInsert recs u li insrtp ld k = some (adjPlace u li ld k pre.getLast?) := by
    simp only [adjInsert, if_neg ht]
    cases insrtp with
    | none => exact ⟨[], ls li, rfl, rfl⟩
    | some x =>
      obtain ⟨pre, post, hl⟩ := List.append_of_mem (hi.cursor ht x rfl).1
      rw [List.append_nil] at hl
      have hlen := h.length_le li
      simp only [hl, List.length_append, List.length_cons] at hlen
      obtain ⟨i, hm, hip⟩ : ∃ i ∈ ls li,
          insPoint k ld.lStart (recs + 1) x (some x) = some i := by
        rw [insPoint, h.lists.next_eq hl]
        split
        · exact @insPoint_mem _ _ _ _ (pre ++ [x]) post h.lists ld.lStart recs x (by simpa using hl) (by simp)
            (by omega)
        · exact ⟨x, by simp [hl], rfl⟩
      obtain ⟨pre', post', hl'⟩ := List.append_of_mem hm
      refine ⟨pre' ++ [i], post', by simp [hl'], ?_⟩
      simp [hip]
  obtain ⟨pre, post, hl, hplace⟩ := hplace
  rw [hplace, adjPlace]
  rcases h.insflck_free u ld hli hl with
    ⟨hfree, hins⟩ | ⟨new, k', fs, ls', hfree, hins, hR, hl', -, hnew, hset⟩
  · exact .inl ⟨ht, hfree, by rw [hins]⟩
  · refine .inr ⟨ht, by simp [hfree], new, k', ls', pre, post, by rw [hins], hR, hl, hl', hnew, hset⟩

/- What a call that succeeds does to the bytes. -/
def Writes (recs : Nat) (u : Owner) (li : ListId I) (k : Table I) (ls : ListId I → List Nat)
    (ld : Flock) (k' : Table I) : Prop :=
  ∃ ls', Rep recs k' ls' ∧
    (∀ i t, Holds u k'.set (ls' li) i t ↔ Over u k.set (ls li) ld i t) ∧
    ∀ v, v ≠ u → locksOf k'.set (ls' li) v = locksOf k.set (ls li) v

/-- Apart from all locks of the process, the range covers none of their bytes. -/
theorem Settled.clear (hs : Settled u set l [] ld) (hc : ld.Covers i) : ¬ Holds u set l i t := by
  rintro ⟨r, hr, hro, hrc, -⟩
  have hap := (hs.own r hr hro).1
  simp only [Flock.Covers] at hc hrc
  omega

theorem adjInsert_writes (h : Rep recs k ls) (hli : li ≠ .free) (hl : ls li = l ++ [])
    (hi : Left u k.set l [] insrtp ld) (hs : Settled u k.set l [] ld) :
    ∃ k' ld' retval, adjInsert recs u li insrtp ld k = some (k', ld', retval) ∧
      (retval = none → Writes recs u li k ls ld k') := by
  rw [List.append_nil] at hl
  rw [← hl] at hi hs
  rcases adjInsert_did h hli hi with
    ⟨ht, heq⟩ | ⟨ht, -, heq⟩ | ⟨ht, -, new, k', ls', pre, post, heq, hR, hl, hl', hnew, hset⟩
  · refine ⟨k, ld, none, heq, fun _ => ⟨ls, h, fun i t => ?_, fun _ _ => rfl⟩⟩
    by_cases hc : ld.Covers i
    · have hno : ¬ Holds u k.set (ls li) i t := hs.clear hc
      simp only [Over, hc, hno, ht, true_and, not_true_eq_false, false_and, or_false, false_iff]
      exact fun hu => hu.2 hu.1
    · simp only [Over, hc, false_and, not_false_eq_true, true_and, false_or]
  · exact ⟨k, ld, some .enolck, heq, by rintro ⟨⟩⟩
  · have hold : ∀ r ∈ pre ++ post, k'.set r = k.set r := by
      intro r hr
      rw [hset]
      exact Function.update_of_ne (fun he : r = new => hnew (he ▸ hr)) _ _
    have hself : k'.set new = { ld with lPid := u.pid, lSysid := u.sysid } := by
      rw [hset, Function.update_self]
    refine ⟨k', ld, none, heq, fun _ => ⟨ls', hR, fun i t => ?_, fun v hv => ?_⟩⟩
    · rw [hl', holds_middle, holds_congr hold, ← hl, hself]
      have hcov : Flock.Covers { ld with lPid := u.pid, lSysid := u.sysid } i ↔ ld.Covers i :=
        Iff.rfl
      simp only [Over, hcov, Flock.owner, true_and]
      by_cases hc : ld.Covers i
      · have hno : ¬ Holds u k.set (ls li) i t := hs.clear hc
        simp only [hc, hno, true_and, not_true_eq_false, false_and, or_false]
        exact ⟨fun he => ⟨he.symm, he ▸ ht⟩, fun he => he.1.symm⟩
      · simp only [hc, false_and, not_false_eq_true, true_and, false_or]
    · rw [hl', locksOf_middle, locksOf_congr hold, hl]
      rw [hself]
      exact hv.symm

/-- A range within a lock of its type changes nothing. -/
theorem over_inside (hi : Left u set pre (flp :: post) insrtp ld)
    (hs : Settled u set pre (flp :: post) ld) (ho : (set flp).owner = u)
    (ht : ld.lType = (set flp).lType) (hst : (set flp).lStart ≤ ld.lStart)
    (he : ld.lEnd ≤ (set flp).lEnd) (i : Int) (t : LType) :
    Holds u set (pre ++ flp :: post) i t ↔ Over u set (pre ++ flp :: post) ld i t := by
  have hd := hs.beside hi ho
  have hty := hi.type flp (by simp)
  simp only [Over, holds_middle, ho, true_and]
  by_cases hc : ld.Covers i
  · have hf : (set flp).Covers i := by
      simp only [Flock.Covers] at hc ⊢
      omega
    have hno : ¬ Holds u set (pre ++ post) i t := by
      rintro ⟨r, hr, hro, hrc, -⟩
      have hap := (hd r hr hro).1
      simp only [Flock.Covers] at hf hrc
      omega
    simp only [hc, hf, hno, true_and, not_true_eq_false, false_and, or_false, ← ht]
    exact ⟨fun he => ⟨he.symm, fun hu => hty (ht.symm.trans (he.trans hu))⟩, fun he => he.1.symm⟩
  · simp only [hc, false_and, not_false_eq_true, true_and, false_or]

/-- The loop writes the range over the bytes, whatever it meets. -/
theorem adjLoop_writes (fuel : Nat) (h : Rep recs k ls) (hli : li ≠ .free)
    (hl : ls li = pre ++ post) (hi : Left u k.set pre post insrtp ld)
    (hs : Settled u k.set pre post ld) (hfuel : post.length ≤ fuel) :
    ∃ k' ld' retval, adjLoop recs u li fuel insrtp post.head? ld k = some (k', ld', retval) ∧
      (retval = none → Writes recs u li k ls ld k') := by
  induction fuel generalizing k ls pre post insrtp ld with
  | zero =>
    have hnil : post = [] := List.eq_nil_of_length_eq_zero (by omega)
    subst hnil
    exact adjInsert_writes h hli hl hi hs
  | succ fuel ih =>
    cases post with
    | nil => exact adjInsert_writes h hli hl hi hs
    | cons flp post =>
      simp only [List.length_cons] at hfuel
      by_cases ho : (k.set flp).owner = u
      · obtain ⟨r, hr, hok⟩ := adjOwn_did h hli hl hi ho
        simp only [List.head?_cons, adjLoop, if_pos ho, hr, Option.bind_some]
        cases r with
        | ret k' ld' retval =>
          refine ⟨k', ld', retval, rfl, ?_⟩
          rintro rfl
          obtain ⟨rfl, ht, hst, he⟩ := hok
          refine ⟨ls, h, fun i t => ?_, fun _ _ => rfl⟩
          rw [hl]
          exact over_inside hi hs ho ht hst he i t
        | next k' insrtp' nflp ld' =>
          obtain ⟨ls', pre', rest, hR, hl', rfl, hlen, hi', hdid⟩ := hok
          have hnd : (pre ++ flp :: post).Nodup := hl ▸ h.lists.nodup li
          have hs' := hdid.settled ho hnd hi hs
          obtain ⟨k'', ld'', retval, hr', hw⟩ := ih hR hl' hi' hs' (by omega)
          refine ⟨k'', ld'', retval, hr', fun hnone => ?_⟩
          obtain ⟨ls'', hR'', hiff, hlocks⟩ := hw hnone
          refine ⟨ls'', hR'', fun i t => ?_, fun v hv => ?_⟩
          · rw [hiff, hl', hl, hdid.written_over ho hnd hi hs]
          · rw [hlocks v hv, hl', hl, hdid.locksOf ho hnd hv]
      · have hl' : ls li = (pre ++ [flp]) ++ post := by simp [hl]
        simp only [List.head?_cons, adjLoop, if_neg ho, h.lists.next_eq hl]
        exact ih h hl' hi.skip (hs.snoc hi fun he => absurd he ho) (by omega)

/-- In front of the place where flckadj begins nothing has to change. -/
theorem WellFormed.settled (hw : WellFormed set (pre ++ post))
    (hpass : ∀ r ∈ pre, (set r).owner = u → (set r).lEnd + 1 < ld.lStart) :
    Settled u set pre post ld := by
  refine ⟨fun r hr => (hw.valid r (List.mem_append_left post hr)).le, fun r hr ho => ?_,
    fun r hr r' hr' ho ho' => ?_⟩
  · have hlt := hpass r hr ho
    exact ⟨.inr (by omega), fun _ => .inr hlt⟩
  · exact (List.pairwise_append.mp hw.apart).2.2 r hr r' hr' (ho.trans ho'.symm)

/-- flckadj, when it returns 0: the calling process's bytes are the old ones with the range
written over them, and no other owner's ranges change. -/
theorem flckadj_overwrites (h : Rep recs k ls) (hli : li ≠ .free)
    (hw : WellFormed k.set (ls li)) (hd : ld.Asked) (hb : Begins recs u li ld k insrtp)
    (hr : flckadj recs u li insrtp ld k = some (k', ld', none)) :
    ∃ ls', Rep recs k' ls' ∧
      lockAt (locksOf k'.set (ls' li) u) = overwritten (lockAt (locksOf k.set (ls li) u)) ld ∧
      ∀ v, v ≠ u → locksOf k'.set (ls' li) v = locksOf k.set (ls li) v := by
  obtain ⟨pre, post, hl, hstart, hi, hpass⟩ := hb.left h hw hd
  have hs := WellFormed.settled (hl ▸ hw) hpass
  have hlen := h.length_le li
  rw [hl, List.length_append] at hlen
  obtain ⟨k'', ld'', retval, hrun, hwr⟩ := adjLoop_writes (recs + 1) h hli hl hi hs (by omega)
  rw [flckadj, hstart, hrun] at hr
  cases hr
  obtain ⟨ls', hR, hiff, hlocks⟩ := hwr rfl
  exact ⟨ls', hR, lockAt_overwritten hw hiff, hlocks⟩

/- Process 1 has the first eleven bytes locked for writing; `free` is the one free record. -/
def held (free : Option Nat) : Table Unit where
  links := {
    head := fun
      | .free => free
      | .sleeplcks => none
      | .inode _ => some 0
    next := fun _ => none
    prev := fun _ => none }
  set := fun _ => ⟨.wrlck, 0, 0, 10, 0, 1⟩
  stat := fun _ => .wakeflg 0
  wchan := fun _ => none

def heldLists (free : Option Nat) : ListId Unit → List Nat
  | .free => free.toList
  | .sleeplcks => []
  | .inode _ => [0]

theorem held_rep (free : Option Nat) (hf : ∀ r, free = some r → r = 1) :
    Rep 2 (held free) (heldLists free) := by
  have hmem : ∀ li r, r ∈ heldLists free li → r = 0 ∧ li = .inode () ∨ r = 1 ∧ li = .free := by
    intro li r hr
    cases li with
    | free => exact .inr ⟨hf r (by simpa [heldLists] using hr), rfl⟩
    | sleeplcks => exact absurd hr (by simp [heldLists])
    | inode => exact .inl ⟨by simpa [heldLists] using hr, rfl⟩
  refine ⟨⟨fun li => ?_, fun li => ?_, fun li li' r hr hr' => ?_⟩, fun li r hr => ?_⟩
  · cases li with
    | free => cases free <;> simp [heldLists, held, Chain]
    | sleeplcks => rfl
    | inode => exact ⟨rfl, rfl, rfl⟩
  · cases li with
    | free => cases free <;> simp [heldLists]
    | sleeplcks => exact List.nodup_nil
    | inode => exact List.nodup_singleton 0
  · rcases hmem li r hr with ⟨h₀, rfl⟩ | ⟨h₁, rfl⟩ <;>
      rcases hmem li' r hr' with ⟨h₀', rfl⟩ | ⟨h₁', rfl⟩ <;> first | rfl | omega
  · rcases hmem li r hr with ⟨h₀, -⟩ | ⟨h₁, -⟩ <;> omega

theorem held_wellFormed (free : Option Nat) :
    WellFormed (held free).set (heldLists free (.inode ())) := by
  have hv : Flock.Valid ⟨.wrlck, 0, 0, 10, 0, 1⟩ := ⟨by decide, by decide, by decide, .inr rfl⟩
  exact ⟨fun _ _ => hv, List.pairwise_singleton _ _, List.pairwise_singleton _ _⟩

/- A read lock from byte 5 on cuts the write lock down. -/
theorem flckadj_overwrites_held : ∃ k' ls', Rep 2 k' ls' ∧
    lockAt (locksOf k'.set (ls' (.inode ())) ⟨1, 0⟩) =
      overwritten (lockAt (locksOf (held (some 1)).set [0] ⟨1, 0⟩)) ⟨.rdlck, 0, 5, 20, 0, 0⟩ := by
  have hr := held_rep (some 1) fun r hr => (Option.some.inj hr).symm
  obtain ⟨ls', hR, hat, -⟩ := @flckadj_overwrites _ _ 2 _ _ _ (.inode ()) ⟨1, 0⟩ _
    ⟨.rdlck, 0, 5, 20, 0, 0⟩ _ hr (ListId.inode_ne_free ()) (held_wellFormed (some 1))
    ⟨by decide, by decide, by decide, .inl rfl⟩ (.inl ⟨nofun, rfl⟩) rfl
  exact ⟨_, ls', hR, hat⟩

end Svr32.RecLock
