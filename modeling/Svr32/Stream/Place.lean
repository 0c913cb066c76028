import Svr32.Stream.Links

/-! Where putq, putbq and insq put a message, and that they put it nowhere else. -/
namespace Svr32.Stream
open Svr32.Lib
variable {s : Streams} {k : Pool} {ls ch : Nat → List Nat} {q bp : Nat} {mcls : BitVec 8}
  {l : List Nat}

theorem Lists.length_le (h : Lists s ls ch) (q : Nat) : (ls q).length ≤ s.pool.nmblock :=
  length_le_of_nodup (h.queue q).nodup fun m hm =>
    (h.msg q m hm).lt m (h.msg q m hm).head_mem

theorem Lists.class_eq (h : Lists s ls ch) {m : Nat} (hm : m ∈ ls q) :
    queclass m s.pool = some (s.pool.cls m) := (h.msg q m hm).queclass

/-- The first message of a class below `mcls`. -/
theorem lowerClass_spec {p : Option Nat} {fuel : Nat} (hs : Seg k.next p l)
    (hc : ∀ x ∈ l, queclass x k = some (k.cls x)) (hlow : ∃ x ∈ l, ¬ mcls ≤ k.cls x)
    (hfuel : l.length ≤ fuel) : ∃ pre y post, l = pre ++ y :: post ∧
      lowerClass mcls k fuel p = some y ∧ ¬ mcls ≤ k.cls y ∧ ∀ x ∈ pre, mcls ≤ k.cls x := by
  induction l generalizing p fuel with
  | nil =>
    obtain ⟨x, hx, -⟩ := hlow
    cases hx
  | cons x l ih =>
    obtain ⟨n, rfl⟩ := Nat.exists_eq_succ_of_ne_zero (Nat.ne_zero_of_lt hfuel)
    have hp : p = some x := hs.1
    by_cases hx : mcls ≤ k.cls x
    · have hlow' : ∃ y ∈ l, ¬ mcls ≤ k.cls y := by
        obtain ⟨y, hy, hno⟩ := hlow
        rcases List.mem_cons.mp hy with rfl | hy
        · exact absurd hx hno
        · exact ⟨y, hy, hno⟩
      obtain ⟨pre, y, post, rfl, hy, hno, hpre⟩ := @ih _ n hs.2
        (fun z hz => hc z (List.mem_cons_of_mem x hz)) hlow' (Nat.le_of_succ_le_succ hfuel)
      refine ⟨x :: pre, y, post, rfl, ?_, hno, fun z hz => ?_⟩
      · simp only [hp, lowerClass, hc x (by simp), Option.bind_eq_bind, Option.bind_some, if_pos hx,
          hy]
      · rcases List.mem_cons.mp hz with rfl | hz
        · exact hx
        · exact hpre z hz
    · refine ⟨[], x, l, rfl, ?_, hx, nofun⟩
      simp only [hp, lowerClass, hc x (by simp), Option.bind_eq_bind, Option.bind_some, if_neg hx]
      rfl

/-- The last message of the classes above `mcls` that lead the queue. -/
theorem lastHigher_spec {y : Nat} {fuel : Nat} (hs : Seg k.next (some y) (y :: l))
    (hc : ∀ x ∈ l, queclass x k = some (k.cls x)) (hfuel : l.length < fuel) :
    ∃ pre z post, y :: l = pre ++ z :: post ∧ lastHigher mcls k fuel y = some z ∧
      (∀ x ∈ pre ++ [z], x = y ∨ mcls < k.cls x) ∧
      ∀ x, post.head? = some x → ¬ mcls < k.cls x := by
  induction l generalizing y fuel with
  | nil =>
    obtain ⟨n, rfl⟩ := Nat.exists_eq_succ_of_ne_zero (Nat.ne_zero_of_lt hfuel)
    have hn : k.next y = none := hs.2
    exact ⟨[], y, [], rfl, by simp only [lastHigher, hn], by simp, nofun⟩
  | cons x l ih =>
    obtain ⟨n, rfl⟩ := Nat.exists_eq_succ_of_ne_zero (Nat.ne_zero_of_lt hfuel)
    have hn : k.next y = some x := hs.2.1
    by_cases hx : mcls < k.cls x
    · obtain ⟨pre, z, post, he, hz, hpre, hpost⟩ := @ih _ n ⟨rfl, hs.2.2⟩
        (fun w hw => hc w (List.mem_cons_of_mem x hw)) (Nat.lt_of_succ_lt_succ hfuel)
      refine ⟨y :: pre, z, post, by rw [he]; rfl, ?_, fun w hw => ?_, hpost⟩
      · simp only [lastHigher, hn, hc x (by simp), Option.bind_eq_bind, Option.bind_some, if_pos hx,
          hz]
      · rcases List.mem_cons.mp hw with rfl | hw
        · exact .inl rfl
        · rcases hpre w hw with rfl | hw
          · exact .inr hx
          · exact .inr hw
    · refine ⟨[], y, x :: l, rfl, ?_, by simp, fun w hw => ?_⟩
      · simp only [lastHigher, hn, hc x (by simp), Option.bind_eq_bind, Option.bind_some, if_neg hx]
        rfl
      · cases hw
        exact hx

variable {s' : Streams} {f' l' : Option Nat} {pre post : List Nat}

theorem relinked_of (hview : s'.pool.view = s.pool.view)
    (hsize : s'.pool.nmblock = s.pool.nmblock)
    (hq : s'.q = Function.update s.q q { s.q q with qFirst := f', qLast := l' })
    (hrun : s'.nqueue = s.nqueue ∧ s'.qhead = s.qhead ∧ s'.qtail = s.qtail) :
    Relinked q s s' := by
  refine ⟨hview, hsize, fun x => ?_, fun x hx => ?_, hrun⟩
  · rw [hq]
    by_cases hx : x = q <;> simp [Queue.flow, hx]
  · rw [hq, Function.update_of_ne hx]
    exact ⟨rfl, rfl⟩

theorem linkAlone_spec : Inserted q bp [] [] s (linkAlone q bp s) := by
  refine ⟨(@relinked_of _ _ _ (some bp) (some bp)) (by simp [linkAlone]) rfl rfl
    ⟨rfl, rfl, rfl⟩, ?_, ?_, fun y hy => ?_, fun y hy => ?_, ?_, ?_⟩
  all_goals simp [linkAlone, Streams.setQ]
  all_goals simp [hy]

theorem linkLast_spec {z : Nat} (hb : bp ∉ ls q) (hl : ls q = pre ++ [z]) :
    Inserted q bp (ls q) [] s (linkLast q z bp s) := by
  have hzb : z ≠ bp := fun he => hb (by simp [hl, he])
  refine ⟨(@relinked_of _ _ _ (s.q q).qFirst (some bp)) (by simp [linkLast]) rfl rfl
    ⟨rfl, rfl, rfl⟩, ?_, ?_, fun y hy => ?_, fun y hy => ?_, ?_, ?_⟩
  · simp [linkLast]
  · simp [linkLast, hl]
  · by_cases hyz : y = z
    · simp [linkLast, hl, hyz, hzb]
    · simp [linkLast, hl, hyz, hy, Ne.symm hyz]
  · simp [linkLast, hy]
  · simp [linkLast, Streams.setQ, hl]
  · simp [linkLast, Streams.setQ]

theorem linkFirst_spec {f : Nat} (hb : bp ∉ ls q) (hl : ls q = f :: l) :
    Inserted q bp [] (f :: l) s (linkFirst q f bp s) := by
  have hfb : f ≠ bp := fun he => hb (by simp [hl, he])
  refine ⟨(@relinked_of _ _ _ (some bp) (s.q q).qLast) (by simp [linkFirst]) rfl rfl
    ⟨rfl, rfl, rfl⟩, ?_, ?_, fun y hy => ?_, fun y hy => ?_, ?_, ?_⟩
  · simp [linkFirst]
  · simp [linkFirst, hfb.symm]
  · simp [linkFirst, hy]
  · by_cases hyf : y = f
    · simp [linkFirst, hyf]
    · simp [linkFirst, hyf, hy, Ne.symm hyf]
  · simp [linkFirst, Streams.setQ]
  · simp [linkFirst, Streams.setQ]

theorem linkBefore_spec {n : Nat} (h : Lists s ls ch) (hb : bp ∉ ls q)
    (hl : ls q = pre ++ n :: post) : Inserted q bp pre (n :: post) s (linkBefore q n bp s) := by
  have hq := h.queue q
  rw [hl] at hq hb
  have hnb : n ≠ bp := fun he => hb (by simp [he])
  have hprev : (s.pool.setNext bp (some n)).prev n = pre.getLast? := by
    rw [Pool.prev_setNext, hq.prev_eq]
  rcases List.eq_nil_or_concat' pre with rfl | ⟨r, z, rfl⟩
  · have hs' : linkBefore q n bp s = { s.setQ q { s.q q with qFirst := some bp } with
        pool := ((s.pool.setNext bp (some n)).setPrev bp none).setPrev n (some bp) } := by
      simp only [linkBefore, hprev]
      rfl
    rw [hs']
    refine ⟨(@relinked_of _ _ _ (some bp) (s.q q).qLast) (by simp) rfl rfl ⟨rfl, rfl, rfl⟩,
      ?_, ?_, fun y hy => ?_, fun y hy => ?_, ?_, ?_⟩
    · simp
    · simp [hnb.symm]
    · simp [hy]
    · by_cases hyn : y = n
      · simp [hyn]
      · simp [hyn, hy, Ne.symm hyn]
    · simp [Streams.setQ]
    · simp [Streams.setQ]
  · have hzb : z ≠ bp := fun he => hb (by simp [he])
    have hzn : z ≠ n := by
      intro he
      have hnd := (List.nodup_cons.mp (List.perm_middle.nodup_iff.mp hq.nodup)).1
      exact hnd (by simp [he])
    have hs' : linkBefore q n bp s = { s with pool :=
        ((((s.pool.setNext bp (some n)).setPrev bp (some z)).setNext z (some bp)).setPrev n
          (some bp)) } := by
      simp only [linkBefore, hprev, List.getLast?_concat]
    rw [hs']
    refine ⟨(@relinked_of _ _ _ (s.q q).qFirst (s.q q).qLast) (by simp) rfl
      (Function.update_eq_self _ _).symm ⟨rfl, rfl, rfl⟩,
      ?_, ?_, fun y hy => ?_, fun y hy => ?_, ?_, ?_⟩
    · simp [hzb.symm]
    · simp [hnb.symm]
    · by_cases hyz : y = z
      · simp [hyz]
      · simp [hyz, hy, Ne.symm hyz]
    · by_cases hyn : y = n
      · simp [hyn]
      · simp [hyn, hy, Ne.symm hyn]
    · simp
    · simp

theorem linkAfter_spec {z : Nat} (h : Lists s ls ch) (hb : bp ∉ ls q)
    (hl : ls q = pre ++ z :: post) : Inserted q bp (pre ++ [z]) post s (linkAfter q z bp s) := by
  have hq := h.queue q
  rw [hl] at hq hb
  have hzb : z ≠ bp := fun he => hb (by simp [he])
  have hnext := hq.next_eq
  cases post with
  | nil =>
    have hs' : linkAfter q z bp s = { s.setQ q { s.q q with qLast := some bp } with
        pool := ((s.pool.setNext bp none).setNext z (some bp)).setPrev bp (some z) } := by
      simp only [linkAfter, hnext]
      rfl
    rw [hs']
    refine ⟨(@relinked_of _ _ _ (s.q q).qFirst (some bp)) (by simp) rfl rfl
      ⟨rfl, rfl, rfl⟩, ?_, ?_, fun y hy => ?_, fun y hy => ?_, ?_, ?_⟩
    · simp [hzb.symm]
    · simp
    · by_cases hyz : y = z
      · simp [hyz]
      · simp [hyz, hy, Ne.symm hyz]
    · simp [hy]
    · simp [Streams.setQ]
    · simp [Streams.setQ]
  | cons n post =>
    have hnb : n ≠ bp := fun he => hb (by simp [he])
    have hs' : linkAfter q z bp s = { s with pool := (((s.pool.setNext bp (some n)).setPrev n
        (some bp)).setNext z (some bp)).setPrev bp (some z) } := by
      simp only [linkAfter, hnext]
      rfl
    rw [hs']
    refine ⟨(@relinked_of _ _ _ (s.q q).qFirst (s.q q).qLast) (by simp) rfl
      (Function.update_eq_self _ _).symm ⟨rfl, rfl, rfl⟩,
      ?_, ?_, fun y hy => ?_, fun y hy => ?_, ?_, ?_⟩
    · simp [hzb.symm]
    · simp
    · by_cases hyz : y = z
      · simp [hyz]
      · simp [hyz, hy, Ne.symm hyz]
    · by_cases hyn : y = n
      · simp [hyn, hnb]
      · simp [hyn, hy, Ne.symm hyn]
    · simp
    · simp

/-- putq puts a message behind those of its class and above, or at the end. -/
theorem putqLink_spec (h : Lists s ls ch) (hb : bp ∉ ls q) (mcls : BitVec 8) :
    ∃ s' pre post, putqLink q bp mcls s = some s' ∧ ls q = pre ++ post ∧
      Inserted q bp pre post s s' ∧
      ((post = [] ∧ ∀ y, pre.getLast? = some y → mcls ≤ s.pool.cls y) ∨
        ((∀ x ∈ pre, mcls ≤ s.pool.cls x) ∧
          ∃ y post', post = y :: post' ∧ ¬ mcls ≤ s.pool.cls y)) := by
  have hq := h.queue q
  have hfirst := hq.first_eq
  have hlast := hq.last
  cases hf : (s.q q).qFirst with
  | none =>
    have hnil : ls q = [] := List.head?_eq_none_iff.mp (hfirst.symm.trans hf)
    exact ⟨_, [], [], by simp only [putqLink, hf], hnil, linkAlone_spec,
      .inl ⟨rfl, nofun⟩⟩
  | some f =>
    have hne : ls q ≠ [] := fun hnil => by
      rw [hnil, hf] at hfirst
      cases hfirst
    obtain ⟨pre, z, hz⟩ := (List.eq_nil_or_concat' (ls q)).resolve_left hne
    have hl : (s.q q).qLast = some z := by rw [hlast, hz, List.getLast?_concat]
    have hzq : z ∈ ls q := by simp [hz]
    have hcz := h.class_eq hzq
    by_cases hc : mcls ≤ s.pool.cls z
    · have heq : putqLink q bp mcls s = some (linkLast q z bp s) := by
        simp only [putqLink, hf, hl, hcz, Option.bind_eq_bind, Option.bind_some, if_pos hc]
        rfl
      refine ⟨_, ls q, [], heq, by simp, linkLast_spec hb hz, .inl ⟨rfl, fun y hy => ?_⟩⟩
      rw [hz, List.getLast?_concat] at hy
      cases hy
      exact hc
    · obtain ⟨pre, y, post, hsplit, hy, hno, hpre⟩ := (@lowerClass_spec _ _ _ _ s.pool.nmblock)
        (hf ▸ hq.seg) (fun x hx => h.class_eq hx) ⟨z, hzq, hc⟩ (h.length_le q)
      have heq : putqLink q bp mcls s = some (linkBefore q y bp s) := by
        simp only [putqLink, hf, hl, hcz, hy, Option.bind_eq_bind, Option.bind_some, if_neg hc]
        rfl
      exact ⟨_, pre, y :: post, heq, hsplit, linkBefore_spec h hb hsplit,
        .inr ⟨hpre, y, post, rfl, hno⟩⟩

/-- putbq puts a message in front of those of its class and below. -/
theorem putbqLink_spec (h : Lists s ls ch) (hb : bp ∉ ls q) (mcls : BitVec 8) :
    ∃ s' pre post, putbqLink q bp mcls s = some s' ∧ ls q = pre ++ post ∧
      Inserted q bp pre post s s' ∧ (∀ x ∈ pre, mcls < s.pool.cls x) ∧
      ∀ x, post.head? = some x → ¬ mcls < s.pool.cls x := by
  have hq := h.queue q
  have hfirst := hq.first_eq
  cases hf : (s.q q).qFirst with
  | none =>
    have hnil : ls q = [] := List.head?_eq_none_iff.mp (hfirst.symm.trans hf)
    exact ⟨_, [], [], by simp only [putbqLink, hf], hnil, linkAlone_spec, nofun, nofun⟩
  | some f =>
    obtain ⟨l, hl⟩ : ∃ l, ls q = f :: l := by
      cases hls : ls q with
      | nil =>
        rw [hls, hf] at hfirst
        cases hfirst
      | cons x l =>
        rw [hls, hf] at hfirst
        cases hfirst
        exact ⟨l, rfl⟩
    have hcf := h.class_eq (q := q) (m := f) (by simp [hl])
    by_cases hc : s.pool.cls f ≤ mcls
    · have heq : putbqLink q bp mcls s = some (linkFirst q f bp s) := by
        simp only [putbqLink, hf, hcf, Option.bind_eq_bind, Option.bind_some, if_pos hc]
        rfl
      refine ⟨_, [], f :: l, heq, hl, linkFirst_spec hb hl, nofun, fun x hx => ?_⟩
      cases hx
      exact BitVec.not_lt.mpr hc
    · have hlen := h.length_le q
      rw [hl] at hlen
      obtain ⟨pre, z, post, hsplit, hz, hpre, hpost⟩ :=
        @lastHigher_spec _ mcls _ _ s.pool.nmblock (hl ▸ hf ▸ hq.seg)
        (fun x hx => h.class_eq (q := q) (by simp [hl, hx])) hlen
      have heq : putbqLink q bp mcls s = some (linkAfter q z bp s) := by
        simp only [putbqLink, hf, hcf, hz, Option.bind_eq_bind, Option.bind_some, if_neg hc]
        rfl
      rw [← hl] at hsplit
      refine ⟨_, pre ++ [z], post, heq, by simp [hsplit], linkAfter_spec h hb hsplit,
        fun x hx => ?_, hpost⟩
      rcases hpre x hx with rfl | hx
      · exact BitVec.not_le.mp hc
      · exact hx

/-- insq puts a message where it is told to. -/
theorem insqLink_spec {emp : Option Nat} (h : Lists s ls ch) (hb : bp ∉ ls q)
    (hl : ls q = pre ++ post) (he : emp = post.head?) :
    Inserted q bp pre post s (insqLink q emp bp s) := by
  cases post with
  | cons e post =>
    rw [he]
    exact linkBefore_spec h hb hl
  | nil =>
    rw [List.append_nil] at hl
    subst hl
    have hlast := (h.queue q).last
    rcases List.eq_nil_or_concat' (ls q) with hnil | ⟨pre, z, hz⟩
    · rw [hnil] at hlast
      rw [he, hnil]
      simp only [List.head?_nil, insqLink, hlast, List.getLast?_nil]
      exact linkAlone_spec
    · rw [hz, List.getLast?_concat] at hlast
      simp only [he, List.head?_nil, insqLink, hlast]
      exact linkLast_spec hb hz

end Svr32.Stream
