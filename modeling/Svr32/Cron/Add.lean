import Svr32.Cron.Blocks

/-! el_add: the sublist is found, split when it is full, and gets the notice behind those that
are not later. -/
namespace Svr32.Cron
open Svr32.Lib Svr32.Lib.Linked
variable {s s' : El} {bs pre post : List Block} {b : Block} {time t : Int} {n : Notice}

/-- A full sublist is split in two. -/
theorem split_spec (h : Shape s (pre ++ b :: post)) (hpre : pre ≠ []) (hN : 2 ≤ s.NLIM)
    (hfull : b.key.numnote = s.NLIM) :
    ∃ s' c d, split s b.key time = some (s', if c.key.time > time then c.key.addr else d.key.addr) ∧
      Shape s' (pre ++ c :: d :: post) ∧ Regroup s s' ∧ s'.fresh = s.fresh + 1 ∧
      c.marked = false ∧ d.last = b.last ∧ d.key.addr = b.key.addr := by
  have hb := h.ok b (by simp)
  have hlen : (b.body.length : Int) + 1 = s.NLIM := hb.count.symm.trans hfull
  -- the notice NLIM/2 to the left of the last
  obtain ⟨k, hk⟩ : ∃ k : Nat, s.NLIM / 2 = k + 1 := ⟨(s.NLIM / 2 - 1).toNat, by omega⟩
  obtain ⟨c1, n2, c2, hbody, hc2⟩ : ∃ c1 n2 c2, b.body = c1 ++ n2 :: c2 ∧ c2.length = k := by
    refine ⟨b.body.take (b.body.length - (k + 1)), b.body[b.body.length - (k + 1)],
      b.body.drop (b.body.length - (k + 1) + 1), ?_, ?_⟩
    · rw [List.getElem_cons_drop, List.take_append_drop]
    · rw [List.length_drop]
      omega
  have hn2 : (b.last :: lefts b.key.notice s.notices)[(s.NLIM / 2).toNat]? = some n2 := by
    have hidx : (s.NLIM / 2).toNat = k + 1 := by omega
    rw [h.lefts_last, hbody, hidx, List.getElem?_cons_succ]
    simp [hc2]
  have hplain := hb.plain n2 (by rw [hbody]; simp)
  have hat : at? b.key.notice s.notices = some b.last := h.at_last
  -- the two keys
  have hkeys := h.keys_at
  have hd0 := h.distinct_keys
  rw [hkeys] at hd0
  have hchange : change b.key.addr (fun k => k.setNumnote (s.NLIM / 2)) s.keys =
      pre.map Block.key ++ b.key.setNumnote (s.NLIM / 2) :: post.map Block.key := by
    rw [hkeys]
    exact change_at hd0
  have hdk : Distinct (pre.map Block.key ++ b.key.setNumnote (s.NLIM / 2) ::
      post.map Block.key) := hd0.swap rfl
  have hput : putBefore b.key.addr (⟨s.fresh, n2.time, s.NLIM - s.NLIM / 2, n2.addr⟩ : Key)
      (pre.map Block.key ++ b.key.setNumnote (s.NLIM / 2) :: post.map Block.key) = _ :=
    putBefore_at hdk (by simpa using hpre)
  have hns : change n2.addr (fun n => n.setKey (some s.fresh)) s.notices =
      (notesOf pre ++ c1) ++ n2.setKey (some s.fresh) :: (c2 ++ b.last :: notesOf post) := by
    have hd := h.distinct
    rw [h.notices_body hbody] at hd ⊢
    exact change_at hd
  obtain ⟨c, hc⟩ : ∃ c : Block, c = ⟨⟨s.fresh, n2.time, s.NLIM - s.NLIM / 2, n2.addr⟩, c1,
    n2.setKey (some s.fresh)⟩ := ⟨_, rfl⟩
  obtain ⟨d, hd⟩ : ∃ d : Block, d = ⟨b.key.setNumnote (s.NLIM / 2), c2, b.last⟩ := ⟨_, rfl⟩
  obtain ⟨u, hu⟩ : ∃ u : El, u = { s with
    keys := pre.map Block.key ++ c.key :: d.key :: post.map Block.key
    notices := (notesOf pre ++ c1) ++ c.last :: (c2 ++ d.last :: notesOf post)
    fresh := s.fresh + 1 } := ⟨_, rfl⟩
  have hfaces : faces u = faces s := by
    have hc' : faces u = (change n2.addr (fun n => n.setKey (some s.fresh))
        s.notices).map Notice.face := by
      rw [hns, hu, hc, hd]
      rfl
    exact hc'.trans (faces_change fun _ => rfl)
  have hcok : c.Ok := by
    have hl : c1.length + (k + 1) = b.body.length := by
      rw [hbody, List.length_append, List.length_cons, hc2]
    rw [hc]
    refine ⟨rfl, rfl, ?_, rfl, fun n hn => hb.plain n ?_⟩
    · simp only
      omega
    · rw [hbody]
      exact List.mem_append_left _ hn
  have hdok : d.Ok := by
    rw [hd]
    refine ⟨hb.notice, hb.back, ?_, hb.time, fun n hn => hb.plain n ?_⟩
    · simp only [Key.setNumnote]
      omega
    · rw [hbody]
      exact List.mem_append_right _ (List.mem_cons_of_mem _ hn)
  have hdk' : Distinct (pre.map Block.key ++ d.key :: post.map Block.key) := hd ▸ hdk
  have hfk : ∀ z ∈ pre.map Block.key ++ d.key :: post.map Block.key, z.addr < s.fresh := by
    intro z hz
    have hold := h.fresh_keys
    rw [hkeys] at hold
    rcases List.mem_append.1 hz with hz | hz
    · exact hold z (List.mem_append_left _ hz)
    · rcases List.mem_cons.1 hz with rfl | hz
      · rw [hd]
        exact hold b.key (by simp)
      · exact hold z (by simp [hz])
  refine ⟨u, c, d, ?_, ?_, ⟨by rw [hu], hfaces⟩, by rw [hu], by rw [hc]; exact hplain.2,
    by rw [hd], by rw [hd]; rfl⟩
  · rw [split, hat]
    simp only [Option.bind_eq_bind, Option.bind_some, hn2, hchange]
    rw [hput]
    simp only [Option.bind_some, hns]
    rw [hu, hc, hd]
    rfl
  · refine h.rebuild hfaces ?_ ?_ ?_ ?_ (by rw [hu]; exact Nat.le_succ _) ?_
    · rw [hu, notesOf_append, notesOf_cons, notesOf_cons, hc, hd]
      simp only [List.append_assoc]
    · rw [hu, List.map_append, List.map_cons, List.map_cons]
    · intro x hx
      rcases List.mem_append.1 hx with hx | hx
      · exact h.ok x (List.mem_append_left _ hx)
      · rcases List.mem_cons.1 hx with rfl | hx
        · exact hcok
        · rcases List.mem_cons.1 hx with rfl | hx
          · exact hdok
          · exact h.ok x (by simp [hx])
    · rw [hu]
      refine hdk'.put fun z hz he => ?_
      have hlt := hfk z hz
      rw [hc] at he
      exact absurd he (Nat.ne_of_lt hlt)
    · rw [hu]
      intro z hz
      rcases List.mem_append.1 hz with hz | hz
      · exact Nat.lt_succ_of_lt (hfk z (List.mem_append_left _ hz))
      · rcases List.mem_cons.1 hz with rfl | hz
        · rw [hc]
          exact Nat.lt_succ_self _
        · exact Nat.lt_succ_of_lt (hfk z (List.mem_append_right _ hz))

theorem interval_spec {keys : List Key} (hk : ∀ c ∈ bs, at? c.key.addr keys = some c.key)
    (h : ∃ c ∈ bs, time < c.key.time) :
    ∃ c ∈ bs, time < c.key.time ∧
      interval keys time (bs.map fun c => c.key.addr) = some c.key := by
  induction bs with
  | nil =>
    obtain ⟨c, hc, -⟩ := h
    cases hc
  | cons c bs ih =>
    by_cases hc : c.key.time ≤ time
    · have h' : ∃ c ∈ bs, time < c.key.time := by
        obtain ⟨x, hx, hlt⟩ := h
        cases hx with
        | head => omega
        | tail _ hx => exact ⟨x, hx, hlt⟩
      obtain ⟨x, hx, hlt, hi⟩ := ih (fun x hx => hk x (List.mem_cons_of_mem c hx)) h'
      refine ⟨x, List.mem_cons_of_mem c hx, hlt, ?_⟩
      rw [List.map_cons, interval, hk c List.mem_cons_self]
      simp only [Option.bind_eq_bind, Option.bind_some, if_pos hc]
      exact hi
    · refine ⟨c, List.mem_cons_self, by omega, ?_⟩
      rw [List.map_cons, interval, hk c List.mem_cons_self]
      simp only [Option.bind_eq_bind, Option.bind_some, if_neg hc]

/-- The key that is found is the one whose bounds the time is between. -/
theorem rightKey_spec (h : Sound s bs t) (hlb : s.LB ≤ time) (hinf : time < INFINITY) :
    ∃ pre a b post, bs = pre ++ a :: b :: post ∧ a.key.time ≤ time ∧ time < b.key.time ∧
      rightKey s time = some b.key := by
  obtain ⟨b₀, ms, hf, h0, hi, hm⟩ := h.marked
  have hmem : ∀ c ∈ b₀ :: ms, c ∈ bs := fun c hc => List.mem_of_mem_filter (hf ▸ hc)
  have hat : ∀ c ∈ bs, at? c.key.addr s.keys = some c.key := by
    intro c hc
    obtain ⟨p, q, rfl⟩ := List.append_of_mem hc
    exact h.shape.at_key
  -- the interval ends at a key that is later
  have hlast : ∃ c ∈ ms, time < c.key.time := by
    have hin : INFINITY ∈ ms.map fun b => b.key.time := by
      rw [hm]
      exact List.mem_append_right _ (List.mem_singleton_self _)
    obtain ⟨c, hc, he⟩ := List.mem_map.1 hin
    exact ⟨c, hc, he ▸ hinf⟩
  obtain ⟨e, he, hlt, hie⟩ := interval_spec (fun c hc => hat c (hmem c (List.mem_cons_of_mem _ hc)))
    hlast
  rw [← hi] at hie
  obtain ⟨P, Q, hPQ⟩ := List.append_of_mem (hmem e (List.mem_cons_of_mem _ he))
  -- and some key to the left is not
  have hex : ∃ c ∈ P, c.key.time ≤ time := by
    have hb0 := hmem b₀ List.mem_cons_self
    have hs := h.keys_sorted
    rw [hPQ] at hb0 hs
    rcases List.mem_append.1 hb0 with hb | hb
    · exact ⟨b₀, hb, by omega⟩
    · rcases List.mem_cons.1 hb with rfl | hb
      · omega
      · have hle := List.rel_of_pairwise_cons (List.pairwise_append.1 hs).2.1 hb
        omega
  obtain ⟨l, a, r, rfl, ha, hr⟩ := exists_last hex
  subst hPQ
  have hfind : (lefts e.key.addr s.keys).find? (fun k => !decide (k.time > time)) =
      some a.key := by
    rw [h.shape.lefts_key, List.map_append, List.map_cons, List.reverse_append, List.reverse_cons,
      List.append_assoc]
    refine find?_stop (fun k hk => ?_) (by simpa using ha)
    obtain ⟨c, hc, rfl⟩ := List.mem_map.1 (List.mem_reverse.1 hk)
    have hnc := hr c hc
    simp only [Bool.not_eq_false', decide_eq_true_eq]
    omega
  have hsplit : (l ++ a :: r) ++ e :: Q = l ++ a :: (r ++ e :: Q) := by simp
  have hright : rights a.key.addr s.keys = (r ++ e :: Q).map Block.key :=
    Shape.rights_key (hsplit ▸ h.shape)
  have hkey : rightKey s time = ((r ++ e :: Q).map Block.key).head? := by
    rw [rightKey, hie]
    simp only [Option.bind_eq_bind, Option.bind_some, hfind, hright]
  cases r with
  | nil => exact ⟨l, a, e, Q, by simp, ha, hlt, hkey⟩
  | cons c r =>
    have hc := hr c List.mem_cons_self
    exact ⟨l, a, c, r ++ e :: Q, by simp, ha, by omega, hkey⟩

/-- The notice goes behind those that are not later. -/
theorem insert_spec (h : Shape s (pre ++ b :: post)) (hpre : pre ≠ [])
    (hsort : (faces s).Pairwise Earlier) (hle : ∀ m ∈ notesOf pre, m.time ≤ n.time)
    (hlt : n.time < b.last.time) (hkey : n.key = none) (hreal : n.isdummy = false)
    (hnew : ∀ m ∈ s.notices, m.addr ≠ n.addr) (hfresh : n.addr < s.fresh) :
    ∃ s' b' L R, insert s n b.key.addr = some s' ∧ Shape s' (pre ++ b' :: post) ∧
      b'.last = b.last ∧ b'.key.addr = b.key.addr ∧
      s' = { s with notices := s'.notices, keys := s'.keys } ∧ s.notices = L ++ R ∧
      s'.notices = L ++ n :: R ∧ (∀ m ∈ L, m.time ≤ n.time) ∧ ∀ m ∈ R, n.time < m.time := by
  have hb := h.ok b (by simp)
  have hsort' : (b.body ++ b.last :: notesOf post).Pairwise fun m m' => m.time ≤ m'.time := by
    have hs := hsort
    rw [faces, List.pairwise_map, h.notices_last, List.append_assoc] at hs
    exact ((List.pairwise_append.1 hs).2.1).imp fun he => he.1
  -- the notices of the sublist, up to the first that is later
  obtain ⟨c, d, hbody, hc, hd⟩ := sorted_split (List.pairwise_append.1 hsort').1 n.time
  obtain ⟨L', x, hL⟩ : ∃ L' x, notesOf pre ++ c = L' ++ [x] := by
    rcases List.eq_nil_or_concat (notesOf pre ++ c) with h0 | ⟨L', x, hL⟩
    · exact (notesOf_ne_nil hpre (List.append_eq_nil_iff.1 h0).1).elim
    · exact ⟨L', x, by rw [hL, List.concat_eq_append]⟩
  have hLle : ∀ m ∈ notesOf pre ++ c, m.time ≤ n.time := List.forall_mem_append.2 ⟨hle, hc⟩
  have hx : x.time ≤ n.time := hLle x (by rw [hL]; simp)
  have hnotices : s.notices = (notesOf pre ++ c) ++ (d ++ b.last :: notesOf post) := by
    rw [h.notices_last, hbody]
    simp only [List.append_assoc]
  have hnotices' : s.notices = L' ++ x :: (d ++ b.last :: notesOf post) := by
    rw [hnotices, hL]
    simp only [List.append_assoc, List.singleton_append]
  have hfind : (b.last :: lefts b.key.notice s.notices).find?
      (fun m => !decide (m.time > n.time)) = some x := by
    have hrev : b.last :: lefts b.key.notice s.notices =
        (b.last :: d.reverse) ++ x :: L'.reverse := by
      rw [h.lefts_last, hbody, List.reverse_append, List.append_assoc, ← List.reverse_append, hL,
        List.reverse_append]
      rfl
    rw [hrev]
    refine find?_stop (List.forall_mem_cons.2 ⟨by simpa using hlt, fun m hm => ?_⟩)
      (by simpa using hx)
    simpa using hd m (List.mem_reverse.1 hm)
  have hput : putAfter x.addr n s.notices =
      some ((notesOf pre ++ c) ++ n :: (d ++ b.last :: notesOf post)) := by
    have hdist := h.distinct
    rw [hnotices'] at hdist ⊢
    refine (putAfter_at hdist (by simp)).trans ?_
    rw [hL]
    simp only [List.append_assoc, List.singleton_append]
  have hkeys := h.keys_at
  have hd0 := h.distinct_keys
  rw [hkeys] at hd0
  have hlen : b.key.numnote + 1 = (c ++ n :: d).length + 1 := by
    have hl := congrArg List.length hbody
    rw [List.length_append] at hl ⊢
    rw [hb.count, List.length_cons, hl]
    omega
  have hchange : change b.key.addr (fun k => k.setNumnote (k.numnote + 1)) s.keys =
      pre.map Block.key ++ b.key.setNumnote ((c ++ n :: d).length + 1) :: post.map Block.key := by
    rw [hkeys, ← hlen]
    exact change_at hd0
  have hplain : ∀ m ∈ c ++ n :: d, m.key = none ∧ m.isdummy = false := by
    have hp := hb.plain
    rw [hbody, List.forall_mem_append] at hp
    exact List.forall_mem_append.2 ⟨hp.1, List.forall_mem_cons.2 ⟨⟨hkey, hreal⟩, hp.2⟩⟩
  obtain ⟨u, hu⟩ : ∃ u : El, u = { s with
    keys := pre.map Block.key ++ b.key.setNumnote ((c ++ n :: d).length + 1) :: post.map Block.key
    notices := (notesOf pre ++ c) ++ n :: (d ++ b.last :: notesOf post) } := ⟨_, rfl⟩
  refine ⟨u, ⟨b.key.setNumnote ((c ++ n :: d).length + 1), c ++ n :: d, b.last⟩, notesOf pre ++ c,
    d ++ b.last :: notesOf post, ?_, ?_, rfl, rfl, by rw [hu], hnotices, by rw [hu], hLle, ?_⟩
  · rw [insert, h.at_key]
    simp only [Option.bind_eq_bind, Option.bind_some, h.at_last, hfind, hput, hchange, hu]
  · refine ⟨?_, ?_, ?_, ?_, ?_, ?_, ?_⟩
    · rw [hu, notesOf_append, notesOf_cons]
      simp only [List.append_assoc, List.cons_append]
    · rw [hu, List.map_append, List.map_cons]
    · intro y hy
      rcases List.mem_append.1 hy with hy | hy
      · exact h.ok y (List.mem_append_left _ hy)
      · rcases List.mem_cons.1 hy with rfl | hy
        · exact hb.recount hplain
        · exact h.ok y (by simp [hy])
    · rw [hu]
      have hdist := h.distinct
      rw [hnotices] at hdist hnew
      exact hdist.put hnew
    · rw [hu]
      exact hd0.swap rfl
    · rw [hu]
      have hf := h.fresh
      rw [hnotices, List.forall_mem_append] at hf
      exact List.forall_mem_append.2 ⟨hf.1, List.forall_mem_cons.2 ⟨hfresh, hf.2⟩⟩
    · rw [hu]
      have hf := h.fresh_keys
      rw [hkeys, List.forall_mem_append, List.forall_mem_cons] at hf
      exact List.forall_mem_append.2 ⟨hf.1, List.forall_mem_cons.2 hf.2⟩
  · intro m hm
    rcases List.mem_append.1 hm with hm | hm
    · exact hd m hm
    · rcases List.mem_cons.1 hm with rfl | hm
      · exact hlt
      · have hle' := List.rel_of_pairwise_cons (List.pairwise_append.1 hsort').2.1 hm
        omega

/- A notice that is put in order. -/
theorem Timeline.put {LB : Int} {ts : List Int} {L R : List Face} {f : Face}
    (h : Timeline LB ts (L ++ R)) (hreal : f.isdummy = false) (hlb : LB ≤ f.time)
    (hinf : f.time < INFINITY) (hL : ∀ g ∈ L, g.time ≤ f.time) (hR : ∀ g ∈ R, f.time < g.time) :
    Timeline LB ts (L ++ f :: R) where
  sorted := by
    obtain ⟨hl, hr, hlr⟩ := List.pairwise_append.1 h.sorted
    refine List.pairwise_append.2 ⟨hl, List.pairwise_cons.2 ⟨fun g hg => ?_, hr⟩, fun g hg e he => ?_⟩
    · have hlt := hR g hg
      exact ⟨Int.le_of_lt hlt, fun _ _ => hlt⟩
    · rcases List.mem_cons.1 he with rfl | he
      · refine ⟨hL g hg, fun _ hd => ?_⟩
        rw [hreal] at hd
        cases hd
      · exact hlr g hg e he
  real := by
    have hr := h.real
    rw [List.forall_mem_append] at hr ⊢
    exact ⟨hr.1, List.forall_mem_cons.2 ⟨fun _ => ⟨hlb, hinf⟩, hr.2⟩⟩
  marks := by
    have hm := h.marks
    rw [List.filter_append] at hm ⊢
    rw [List.filter_cons_of_neg (by rw [hreal]; exact Bool.false_ne_true)]
    exact hm

theorem newCurrent_spec {L R : List Notice} (hs : s.notices = L ++ n :: R)
    (hd : Distinct s.notices) (hreal : n.isdummy = false) (hL : ∀ m ∈ L, m.time ≤ n.time)
    (hR : ∀ m ∈ R, n.time < m.time)
    (hc : s.current = (((L ++ R).map Notice.face).find? fun f => !f.isdummy).map Face.addr) :
    ∃ c, newCurrent s n = some { s with current := c } ∧
      c = ((faces s).find? fun f => !f.isdummy).map Face.addr := by
  have hn : (n.face :: R.map Notice.face).find? (fun f => !f.isdummy) = some n.face := by
    refine List.find?_cons_of_pos ?_
    rw [Notice.face, hreal]
    rfl
  have hfaces : (faces s).find? (fun f => !f.isdummy) =
      ((L.map Notice.face).find? fun f => !f.isdummy).or (some n.face) := by
    rw [faces, hs, List.map_append, List.map_cons, List.find?_append, hn]
  rw [List.map_append, List.find?_append] at hc
  rw [hfaces]
  have hat : ∀ m ∈ s.notices, at? m.addr s.notices = some m := by
    intro m hm
    obtain ⟨p, q, he⟩ := List.append_of_mem hm
    rw [he] at hd ⊢
    exact at?_at hd
  rw [hs] at hat
  cases hf : (L.map Notice.face).find? fun f => !f.isdummy with
  | some f =>
    -- the first event is not later than the new one
    obtain ⟨m, hm, rfl⟩ := List.mem_map.1 (List.mem_of_find?_eq_some hf)
    rw [hf, Option.some_or, Option.map_some] at hc
    refine ⟨some m.addr, ?_, rfl⟩
    have hle := hL m hm
    have hc' : s.current = some m.addr := hc
    have hm' : at? m.addr s.notices = some m := hs ▸ hat m (List.mem_append_left _ hm)
    rw [newCurrent, hc]
    simp only [Notice.face, Option.bind_eq_bind, hm']
    rw [Option.bind_some, if_neg (by omega), ← hc']
  | none =>
    rw [hf, Option.none_or] at hc
    refine ⟨some n.addr, ?_, rfl⟩
    cases hg : (R.map Notice.face).find? fun f => !f.isdummy with
    | none =>
      rw [hg] at hc
      rw [newCurrent, hc]
      rfl
    | some g =>
      obtain ⟨m, hm, rfl⟩ := List.mem_map.1 (List.mem_of_find?_eq_some hg)
      rw [hg, Option.map_some] at hc
      have hlt := hR m hm
      have hm' : at? m.addr s.notices = some m := hs ▸ hat m (by simp [hm])
      rw [newCurrent, hc]
      simp only [Notice.face, Option.bind_eq_bind, hm']
      rw [Option.bind_some, if_pos hlt]

/-- The sublist that gets the new notice. -/
theorem place_spec {a : Block} (h : Shape s (pre ++ a :: b :: post))
    (hsort : (faces s).Pairwise Earlier) (hN : 2 ≤ s.NLIM) (ha : a.key.time ≤ time)
    (hb : time < b.key.time) :
    ∃ s' pre' b' post', place s b.key time = some (s', b'.key.addr) ∧
      Shape s' (pre' ++ b' :: post') ∧ Regroup s s' ∧ s.fresh ≤ s'.fresh ∧ pre' ≠ [] ∧
      (∀ m ∈ notesOf pre', m.time ≤ time) ∧ time < b'.last.time ∧
      marks (pre' ++ b' :: post') = marks (pre ++ a :: b :: post) := by
  have hassoc : pre ++ a :: b :: post = (pre ++ [a]) ++ b :: post := by simp
  have hoka := h.ok a (by simp)
  have hokb := h.ok b (by simp)
  have hle : ∀ m ∈ notesOf (pre ++ [a]), m.time ≤ time := fun m hm => by
    have hm := h.le_last hsort m hm
    rw [← hoka.time] at hm
    omega
  by_cases hfull : b.key.numnote = s.NLIM
  · rw [hassoc] at h
    obtain ⟨s', c, d, hsp, hsh, hr, hfr, hcm, hdl, hda⟩ :=
      @split_spec _ _ _ _ time h (by simp) hN hfull
    have hokc := hsh.ok c (by simp)
    rw [place, if_pos hfull, hsp]
    have hmarks : marks (pre ++ [a] ++ c :: d :: post) = marks (pre ++ a :: b :: post) := by
      have hdm : d.marked = b.marked := by rw [Block.marked, Block.marked, hdl]
      rw [hassoc, marks_append (pre ++ [a]), marks_append (pre ++ [a]), marks_cons, marks_cons,
        marks_cons, hcm, hdm, hda, if_neg Bool.false_ne_true, List.nil_append]
    by_cases hc : c.key.time > time
    · refine ⟨s', pre ++ [a], c, d :: post, by rw [if_pos hc], hsh, hr, by omega, by simp, hle, ?_,
        hmarks⟩
      rw [← hokc.time]
      exact hc
    · have hassoc' : pre ++ [a] ++ c :: d :: post = (pre ++ [a] ++ [c]) ++ d :: post := by simp
      refine ⟨s', pre ++ [a] ++ [c], d, post, by rw [if_neg hc], hassoc' ▸ hsh, hr, by omega,
        by simp, fun m hm => ?_, ?_, hassoc' ▸ hmarks⟩
      · have hm := hsh.le_last (hr.2 ▸ hsort) m hm
        rw [← hokc.time] at hm
        omega
      · rw [hdl, ← hokb.time]
        exact hb
  · rw [place, if_neg hfull]
    refine ⟨s, pre ++ [a], b, post, rfl, hassoc ▸ h, Regroup.refl s, Nat.le_refl _, by simp, hle,
      ?_, by rw [hassoc]⟩
    rw [← hokb.time]
    exact hb

/-- el_add puts the event behind those that are not later, and keeps the list well formed. -/
theorem elAdd_spec {event : Nat} {id : Int} (h : Sound s bs t) (hN : 2 ≤ s.NLIM)
    (hlb : s.LB ≤ time) (hinf : time < INFINITY) :
    ∃ s' bs' L R, elAdd s event time id = some s' ∧ Sound s' bs' t ∧ s'.NLIM = s.NLIM ∧
      faces s = L ++ R ∧ faces s' = L ++ ⟨s.fresh, time, id, event, false⟩ :: R ∧
      (∀ f ∈ L, f.time ≤ time) ∧ ∀ f ∈ R, time < f.time := by
  -- the notice is allocated
  obtain ⟨u, hu⟩ : ∃ u : El, u = { s with fresh := s.fresh + 1 } := ⟨_, rfl⟩
  have hsu : Sound u bs t := by
    have hk := h.shape.fresh_keys
    have hru : Regroup s u := ⟨by rw [hu], by rw [hu]; rfl⟩
    refine h.regroup hru (h.shape.rebuild hru.2 ?_ ?_ h.shape.ok ?_ ?_ ?_) rfl
    · rw [hu]
      exact h.shape.notices
    · rw [hu]
      exact h.shape.keys
    · rw [hu]
      exact h.shape.distinct_keys
    · rw [hu]
      exact Nat.le_succ _
    · rw [hu]
      exact fun k hk' => Nat.lt_succ_of_lt (hk k hk')
  obtain ⟨pre, a, b, post, rfl, ha, hb, hright⟩ := @rightKey_spec u _ time _ hsu
    (by rw [hu]; exact hlb) hinf
  obtain ⟨v, pre', b', post', hsp, hsh, hr, hfr, hpre, hle, hlt, hmarks⟩ := place_spec hsu.shape
    hsu.timeline.sorted (by rw [hu]; exact hN) ha hb
  have hv := hsu.regroup hr hsh hmarks
  have hnew : ∀ m ∈ v.notices, m.addr ≠ s.fresh := by
    intro m hm he
    have hf : m.face ∈ faces u := hr.2 ▸ List.mem_map_of_mem hm
    rw [hu] at hf
    obtain ⟨m', hm', he'⟩ := List.mem_map.1 hf
    have haddr : m'.addr = m.addr := congrArg Face.addr he'
    have hlt' := h.shape.fresh m' hm'
    omega
  obtain ⟨w, c, L, R, hins, hshw, hlast, haddr, hw, hvn, hwn, hL, hR⟩ := insert_spec
    (n := ⟨s.fresh, time, id, event, false, none⟩) hsh hpre hv.timeline.sorted hle hlt rfl rfl
    hnew (by rw [hu] at hfr; exact hfr)
  have hvf : faces v = L.map Notice.face ++ R.map Notice.face := by
    rw [faces, hvn, List.map_append]
  have hwf : faces w = L.map Notice.face ++ ⟨s.fresh, time, id, event, false⟩ ::
      R.map Notice.face := by
    rw [faces, hwn, List.map_append, List.map_cons]
    rfl
  have hLf : ∀ f ∈ L.map Notice.face, f.time ≤ time := fun f hf => by
    obtain ⟨m, hm, rfl⟩ := List.mem_map.1 hf
    exact hL m hm
  have hRf : ∀ f ∈ R.map Notice.face, time < f.time := fun f hf => by
    obtain ⟨m, hm, rfl⟩ := List.mem_map.1 hf
    exact hR m hm
  obtain ⟨cur, hnc, hcur⟩ := newCurrent_spec (n := ⟨s.fresh, time, id, event, false, none⟩) hwn
    hshw.distinct rfl hL hR (by rw [hw, ← hvn]; exact hv.current)
  have hmarks' : marks (pre' ++ c :: post') = marks (pre' ++ b' :: post') := by
    have hm : c.marked = b'.marked := by rw [Block.marked, Block.marked, hlast]
    rw [marks_append, marks_append, marks_cons, marks_cons, hm, haddr]
  have hw' : w = { s with notices := w.notices, keys := w.keys, fresh := w.fresh } := by
    rw [hw, hr.1, hu]
  refine ⟨{ w with current := cur }, pre' ++ c :: post', L.map Notice.face, R.map Notice.face, ?_,
    ⟨⟨?_, ?_, ?_, ?_, ?_, ?_, ?_, ?_⟩, hcur⟩, ?_, ?_, hwf, hLf, hRf⟩
  · have hne : ¬ (s.index = [] ∨ time < s.LB) := by
      obtain ⟨b₀, ms, -, -, hi, hm⟩ := h.marked
      rintro (h0 | h0)
      · rw [hi, List.map_eq_nil_iff] at h0
        rw [h0] at hm
        simp at hm
      · omega
    rw [elAdd, if_neg hne]
    simp only [Option.bind_eq_bind]
    rw [← hu, hright, Option.bind_some, hsp]
    simp only [Option.bind_some, hins, hnc]
  · exact ⟨hshw.notices, hshw.keys, hshw.ok, hshw.distinct, hshw.distinct_keys, hshw.fresh,
      hshw.fresh_keys⟩
  · rw [hw']
    exact h.du
  · rw [hw']
    exact h.dt
  · rw [hw']
    exact h.lb
  · rw [hw']
    exact h.lb_range
  · rw [hw']
    exact h.top
  · have ht := hv.timeline
    rw [hvf] at ht
    have hput := ht.put (f := ⟨s.fresh, time, id, event, false⟩) rfl (by rw [hr.1, hu]; exact hlb)
      hinf hLf hRf
    rw [← hwf] at hput
    rw [hw]
    exact hput
  · rw [hmarks', hw]
    exact hv.index
  · rw [hw']
  · rw [← hvf, hr.2, hu]
    rfl

end Svr32.Cron
