import Svr32.Cron.Blocks

/-! A sublist loses a notice. -/
namespace Svr32.Cron
open Svr32.Lib Svr32.Lib.Linked
variable {s s' : El} {bs pre post : List Block} {b : Block} {t : Int} {n l : Notice}
  {c d : List Notice}

theorem Timeline.cut {LB : Int} {ts : List Int} {L R : List Face} {f : Face}
    (h : Timeline LB ts (L ++ f :: R)) (hf : f.isdummy = false) : Timeline LB ts (L ++ R) where
  sorted := by
    obtain ⟨hl, hr, hlr⟩ := List.pairwise_append.1 h.sorted
    exact List.pairwise_append.2
      ⟨hl, (List.pairwise_cons.1 hr).2, fun g hg e he => hlr g hg e (List.mem_cons_of_mem f he)⟩
  real := by
    have hr := h.real
    rw [List.forall_mem_append, List.forall_mem_cons] at hr
    exact List.forall_mem_append.2 ⟨hr.1, hr.2.2⟩
  marks := by
    have hm := h.marks
    rw [List.filter_append,
      List.filter_cons_of_neg (by rw [hf]; exact Bool.false_ne_true)] at hm
    rw [List.filter_append]
    exact hm

/-- Where a notice is in its sublist. -/
inductive Spot (b : Block) (n : Notice) : Prop
  | sole (h : b.body = []) (hl : b.last = n)
  | last (c : List Notice) (l : Notice) (h : b.body = c ++ [l]) (hl : b.last = n)
  | body (c d : List Notice) (h : b.body = c ++ n :: d)

theorem exists_block (h : n ∈ notesOf bs) : ∃ pre b post, bs = pre ++ b :: post ∧ Spot b n := by
  obtain ⟨b, hb, hn⟩ := List.mem_flatMap.1 h
  obtain ⟨pre, post, rfl⟩ := List.append_of_mem hb
  refine ⟨pre, b, post, rfl, ?_⟩
  rcases List.mem_append.1 hn with hn | hn
  · obtain ⟨c, d, hc⟩ := List.append_of_mem hn
    exact .body c d hc
  · have hl := (List.mem_singleton.1 hn).symm
    rcases List.eq_nil_or_concat b.body with hc | ⟨c, l, hc⟩
    · exact .sole hc hl
    · exact .last c l (hc.trans List.concat_eq_append) hl

/- An event is between two of the dummy notices. -/
theorem Kept.inner (h : Kept s (pre ++ b :: post) t) (hn : Spot b n) (hreal : n.isdummy = false) :
    pre ≠ [] ∧ (b.last = n → post ≠ []) := by
  obtain ⟨b₀, mid, z, he, hb0, hm0, hmz⟩ := h.fenced
  constructor
  · rintro rfl
    obtain rfl : b = b₀ := (List.cons.inj he).1
    cases hn with
    | sole _ hl => exact absurd hm0 (by rw [Block.marked, hl, hreal]; exact Bool.false_ne_true)
    | last _ _ hc => rw [hb0] at hc; simp at hc
    | body _ _ hc => rw [hb0] at hc; simp at hc
  · rintro hl rfl
    have hz : b = z := by
      have hlast := congrArg List.getLast? he
      rw [List.getLast?_append_cons, ← List.cons_append, List.getLast?_append_cons] at hlast
      exact Option.some.inj hlast
    exact absurd hmz (by rw [← hz, Block.marked, hl, hreal]; exact Bool.false_ne_true)

theorem Kept.post_ne_nil (h : Kept s (pre ++ b :: post) t) (hb : b.marked = false) : post ≠ [] := by
  obtain ⟨b₀, mid, z, he, -, -, hmz⟩ := h.fenced
  rintro rfl
  have hlast := congrArg List.getLast? he
  rw [List.getLast?_append_cons, ← List.cons_append, List.getLast?_append_cons] at hlast
  have hz : b = z := Option.some.inj hlast
  rw [hz, hmz] at hb
  cases hb

theorem Kept.front_ne_nil {p : List Block} {a : Block} (h : Kept s (p ++ a :: post) t)
    (ha : a.marked = false) : p ≠ [] := by
  obtain ⟨b₀, mid, z, he, -, hm0, -⟩ := h.fenced
  rintro rfl
  have hz : a = b₀ := (List.cons.inj he).1
  rw [hz, hm0] at ha
  cases ha

/- The sublist of the notice goes away with it. -/
theorem Shape.drop (h : Shape s (pre ++ b :: post)) (hb : b.body = []) :
    Shape { s with
      notices := notesOf pre ++ notesOf post
      keys := pre.map Block.key ++ post.map Block.key } (pre ++ post) where
  notices := (notesOf_append pre post).symm
  keys := List.map_append.symm
  ok x hx := h.ok x (by
    rcases List.mem_append.1 hx with hx | hx
    · exact List.mem_append_left _ hx
    · exact List.mem_append_right _ (List.mem_cons_of_mem b hx))
  distinct := by
    have hd := h.distinct
    rw [h.notices_last, hb, List.append_nil] at hd
    exact hd.drop
  distinct_keys := by
    have hd := h.distinct_keys
    rw [h.keys_at] at hd
    exact hd.drop
  fresh := by
    have hf := h.fresh
    rw [h.notices_last, hb, List.append_nil, List.forall_mem_append, List.forall_mem_cons] at hf
    exact List.forall_mem_append.2 ⟨hf.1, hf.2.2⟩
  fresh_keys := by
    have hf := h.fresh_keys
    rw [h.keys_at, List.forall_mem_append, List.forall_mem_cons] at hf
    exact List.forall_mem_append.2 ⟨hf.1, hf.2.2⟩

/- Another block of the same key, with less. -/
theorem Shape.swap {b' : Block} {ns : List Notice} (h : Shape s (pre ++ b :: post)) (hb : b'.Ok)
    (ha : b'.key.addr = b.key.addr) (hns : ns = notesOf (pre ++ b' :: post))
    (hd : Distinct ns) (hfresh : ∀ m ∈ ns, m.addr < s.fresh) :
    Shape { s with
      notices := ns
      keys := pre.map Block.key ++ b'.key :: post.map Block.key } (pre ++ b' :: post) where
  notices := hns
  keys := by rw [List.map_append, List.map_cons]
  ok x hx := by
    rcases List.mem_append.1 hx with hx | hx
    · exact h.ok x (List.mem_append_left _ hx)
    · rcases List.mem_cons.1 hx with rfl | hx
      · exact hb
      · exact h.ok x (by simp [hx])
  distinct := hd
  distinct_keys := by
    have hd := h.distinct_keys
    rw [h.keys_at] at hd
    exact hd.swap ha
  fresh := hfresh
  fresh_keys := by
    have hf := h.fresh_keys
    rw [h.keys_at, List.forall_mem_append, List.forall_mem_cons] at hf
    refine List.forall_mem_append.2 ⟨hf.1, List.forall_mem_cons.2 ⟨?_, hf.2.2⟩⟩
    rw [ha]
    exact hf.2.1

/- A notice that the key does not point to. -/
theorem Shape.lose (h : Shape s (pre ++ b :: post)) (hb : b.body = c ++ n :: d) :
    Shape { s with
      notices := (notesOf pre ++ c) ++ (d ++ b.last :: notesOf post)
      keys := pre.map Block.key ++ b.key.setNumnote (b.key.numnote - 1) :: post.map Block.key }
      (pre ++ ⟨b.key.setNumnote (b.key.numnote - 1), c ++ d, b.last⟩ :: post) := by
  have hok := h.ok b (by simp)
  have hp := hok.plain
  rw [hb, List.forall_mem_append, List.forall_mem_cons] at hp
  have hcount : b.key.numnote - 1 = (c ++ d).length + 1 := by
    rw [hok.count, hb, List.length_append, List.length_append, List.length_cons]
    omega
  have hd := h.distinct
  have hf := h.fresh
  rw [h.notices_body hb] at hd hf
  rw [List.forall_mem_append, List.forall_mem_cons] at hf
  refine @Shape.swap _ _ _ _ ⟨b.key.setNumnote (b.key.numnote - 1), c ++ d, b.last⟩ _ h ?_ rfl ?_
    hd.drop (List.forall_mem_append.2 ⟨hf.1, hf.2.2⟩)
  · rw [hcount]
    exact hok.recount (List.forall_mem_append.2 ⟨hp.1, hp.2.2⟩)
  · rw [notesOf_append, notesOf_cons]
    simp only [List.append_assoc]

/- The notice that the key points to: the key gets the one to the left. -/
theorem Shape.retreat (h : Shape s (pre ++ b :: post)) (hb : b.body = c ++ [l]) :
    Shape { s with
      notices := (notesOf pre ++ c ++ [l.setKey (some b.key.addr)]) ++ notesOf post
      keys := pre.map Block.key ++
        ⟨b.key.addr, l.time, b.key.numnote - 1, l.addr⟩ :: post.map Block.key }
      (pre ++ ⟨⟨b.key.addr, l.time, b.key.numnote - 1, l.addr⟩, c,
        l.setKey (some b.key.addr)⟩ :: post) := by
  have hok := h.ok b (by simp)
  have hp := hok.plain
  rw [hb, List.forall_mem_append] at hp
  have hcount : b.key.numnote - 1 = c.length + 1 := by
    rw [hok.count, hb, List.length_append, List.length_singleton]
    omega
  have hnotices : s.notices = (notesOf pre ++ c) ++ l :: (b.last :: notesOf post) := by
    rw [h.notices_last, hb]
    simp only [List.append_assoc, List.singleton_append]
  have hd := h.distinct
  have hf := h.fresh
  rw [hnotices] at hd hf
  rw [List.forall_mem_append, List.forall_mem_cons, List.forall_mem_cons] at hf
  have hd' : Distinct ((notesOf pre ++ c ++ [l.setKey (some b.key.addr)]) ++ notesOf post) := by
    have hs := hd.swap (y := l.setKey (some b.key.addr)) rfl
    have hassoc : (notesOf pre ++ c) ++ l.setKey (some b.key.addr) :: (b.last :: notesOf post) =
        (notesOf pre ++ c ++ [l.setKey (some b.key.addr)]) ++ b.last :: notesOf post := by simp
    rw [hassoc] at hs
    exact hs.drop
  refine @Shape.swap _ _ _ _ ⟨⟨b.key.addr, l.time, b.key.numnote - 1, l.addr⟩, c,
    l.setKey (some b.key.addr)⟩ _ h ⟨rfl, rfl, hcount, rfl, hp.1⟩ rfl ?_ hd' ?_
  · rw [notesOf_append, notesOf_cons]
    simp only [List.append_assoc, List.singleton_append]
  · refine List.forall_mem_append.2 ⟨List.forall_mem_append.2 ⟨hf.1, ?_⟩, hf.2.2.2⟩
    intro m hm
    rw [List.mem_singleton.1 hm]
    exact hf.2.1

/- A list that has lost an event is well formed again. -/
theorem Kept.lessen {bs' : List Block} {L R : List Face} {f : Face} (h : Kept s bs t)
    (hs : Shape s' bs') (he : s' = { s with
      notices := s'.notices, keys := s'.keys, fresh := s'.fresh, current := s'.current })
    (hf : faces s = L ++ f :: R) (hf' : faces s' = L ++ R) (hreal : f.isdummy = false)
    (hm : marks bs' = marks bs) : Kept s' bs' t := by
  have ht := h.timeline
  rw [hf] at ht
  have ht' := ht.cut hreal
  rw [← hf'] at ht'
  refine ⟨hs, ?_, ?_, ?_, ?_, ?_, ?_, ?_⟩
  · rw [he]
    exact h.du
  · rw [he]
    exact h.dt
  · rw [he]
    exact h.lb
  · rw [he]
    exact h.lb_range
  · rw [he]
    exact h.top
  · rw [he] at ht' ⊢
    exact ht'
  · rw [hm, he]
    exact h.index

theorem marks_drop (h : b.marked = false) : marks (pre ++ post) = marks (pre ++ b :: post) := by
  rw [marks_append, marks_append, marks_cons, h, if_neg Bool.false_ne_true, List.nil_append]

theorem marks_swap {b' : Block} (hl : b'.marked = b.marked) (ha : b'.key.addr = b.key.addr) :
    marks (pre ++ b' :: post) = marks (pre ++ b :: post) := by
  rw [marks_append, marks_append, marks_cons, marks_cons, hl, ha]

end Svr32.Cron

/-! el_first: the first event is taken. -/
namespace Svr32.Cron
open Svr32.Lib Svr32.Lib.Linked
variable {s s' : El} {bs pre post : List Block} {b : Block} {t : Int} {cur : Notice}
  {L R : List Notice}

theorem find?_real (hL : ∀ m ∈ L, m.isdummy = true) :
    ((L ++ R).map Notice.face).find? (fun f => !f.isdummy) =
      (R.find? fun n => !n.isdummy).map Notice.face := by
  rw [List.map_append, List.find?_append, List.find?_eq_none.2, Option.none_or, List.find?_map]
  · rfl
  · intro f hf
    obtain ⟨m, hm, rfl⟩ := List.mem_map.1 hf
    rw [Notice.face, hL m hm]
    exact Bool.false_ne_true

/-- The first event is taken out, and its key when the sublist has no more. -/
theorem takeFirst_spec (h : Sound s bs t) (hs : s.notices = L ++ cur :: R)
    (hL : ∀ m ∈ L, m.isdummy = true) (hreal : cur.isdummy = false) :
    ∃ s' bs', takeFirst s cur = some s' ∧ Sound s' bs' t ∧ s'.notices = L ++ R ∧
      s' = { s with notices := s'.notices, keys := s'.keys, current := s'.current } := by
  have hmem : cur ∈ notesOf bs := by
    rw [← h.shape.notices, hs]
    simp
  obtain ⟨pre, b, post, rfl, hspot⟩ := exists_block hmem
  obtain ⟨hpre, hpost⟩ := h.toKept.inner hspot hreal
  have hok := h.shape.ok b (by simp)
  have hd := h.shape.distinct
  have hfaces : faces s = L.map Notice.face ++ cur.face :: R.map Notice.face := by
    rw [faces, hs, List.map_append, List.map_cons]
  have hdk := h.shape.distinct_keys
  rw [h.shape.keys_at] at hdk
  have hdk0 := hdk.swap (y := b.key.setNumnote (b.key.numnote - 1)) rfl
  have hchange : change b.key.addr (fun k => k.setNumnote (k.numnote - 1)) s.keys =
      pre.map Block.key ++ b.key.setNumnote (b.key.numnote - 1) :: post.map Block.key := by
    rw [h.shape.keys_at]
    exact change_at hdk
  have hat : at? b.key.addr (pre.map Block.key ++ b.key.setNumnote (b.key.numnote - 1) ::
      post.map Block.key) = some (b.key.setNumnote (b.key.numnote - 1)) := at?_at hdk0
  cases hspot with
  | sole hb hl =>
    have hn := h.shape.notices_last
    rw [hb, List.append_nil, hl] at hn
    obtain ⟨hLp, hRp⟩ := split_unique (hs ▸ hd) (hs.symm.trans hn)
    rw [hn] at hd
    have hcut : cut cur.addr s.notices = some (notesOf pre ++ notesOf post) := by
      rw [hn]
      exact cut_at hd (notesOf_ne_nil hpre) (notesOf_ne_nil (hpost hl))
    have hright : rights cur.addr s.notices = notesOf post := by
      rw [hn]
      exact rights_at hd
    have hkey : cur.key = some b.key.addr := hl ▸ hok.back
    have hzero : (b.key.setNumnote (b.key.numnote - 1)).numnote = 0 := by
      simp only [Key.setNumnote, hok.count, hb, List.length_nil]
      omega
    have hcutk : cut b.key.addr (pre.map Block.key ++ b.key.setNumnote (b.key.numnote - 1) ::
        post.map Block.key) = some (pre.map Block.key ++ post.map Block.key) :=
      cut_at hdk0 (by simpa using hpre) (by simpa using hpost hl)
    have hfind : (cur :: notesOf post).find? (fun n => n.key.isSome) = some cur :=
      List.find?_cons_of_pos (by rw [hkey]; rfl)
    have hsh := h.shape.drop hb
    refine ⟨{ s with
      notices := notesOf pre ++ notesOf post
      keys := pre.map Block.key ++ post.map Block.key
      current := ((notesOf post).find? fun n => !n.isdummy).map Notice.addr }, pre ++ post, ?_,
      ⟨h.lessen (f := cur.face) ⟨hsh.notices, hsh.keys, hsh.ok, hsh.distinct, hsh.distinct_keys,
        hsh.fresh, hsh.fresh_keys⟩ rfl hfaces ?_ hreal (marks_drop ?_), ?_⟩, ?_, rfl⟩
    · rw [takeFirst]
      simp only [Option.bind_eq_bind, hcut, Option.bind_some, hright, hfind, hkey, hchange, hat,
        dropEmpty, if_pos hzero]
      rw [show (b.key.setNumnote (b.key.numnote - 1)).addr = b.key.addr from rfl, hcutk]
      rfl
    · rw [faces, List.map_append, hLp, hRp]
    · rw [Block.marked, hl, hreal]
    · rw [faces, find?_real (hLp ▸ hL), Option.map_map]
      rfl
    · rw [hLp, hRp]
  | last c l hb hl =>
    -- there would be an event in front of it
    have hn := h.shape.notices_last
    rw [hb, hl] at hn
    obtain ⟨hLp, -⟩ := split_unique (hs ▸ hd) (hs.symm.trans hn)
    have hm := hL l (by rw [hLp]; simp)
    rw [(hok.plain l (by rw [hb]; simp)).2] at hm
    cases hm
  | body c d hb =>
    have hn := h.shape.notices_body hb
    obtain ⟨hLp, hRp⟩ := split_unique (hs ▸ hd) (hs.symm.trans hn)
    have hp := hok.plain
    rw [hb, List.forall_mem_append, List.forall_mem_cons] at hp
    rw [hn] at hd
    have hcut : cut cur.addr s.notices =
        some ((notesOf pre ++ c) ++ (d ++ b.last :: notesOf post)) := by
      rw [hn]
      refine cut_at hd (fun h0 => ?_) (by simp)
      exact notesOf_ne_nil hpre (List.append_eq_nil_iff.1 h0).1
    have hright : rights cur.addr s.notices = d ++ b.last :: notesOf post := by
      rw [hn]
      exact rights_at hd
    have hfind : (cur :: (d ++ b.last :: notesOf post)).find? (fun n => n.key.isSome) =
        some b.last := by
      rw [← List.cons_append]
      refine find?_stop (List.forall_mem_cons.2 ⟨?_, fun m hm => ?_⟩) ?_
      · rw [hp.2.1.1]
        rfl
      · rw [(hp.2.2 m hm).1]
        rfl
      · rw [hok.back]
        rfl
    have hpos : ¬ (b.key.setNumnote (b.key.numnote - 1)).numnote = 0 := by
      simp only [Key.setNumnote, hok.count, hb, List.length_append, List.length_cons]
      omega
    have hsh := h.shape.lose hb
    refine ⟨{ s with
      notices := (notesOf pre ++ c) ++ (d ++ b.last :: notesOf post)
      keys := pre.map Block.key ++ b.key.setNumnote (b.key.numnote - 1) :: post.map Block.key
      current := ((d ++ b.last :: notesOf post).find? fun n => !n.isdummy).map Notice.addr },
      pre ++ ⟨b.key.setNumnote (b.key.numnote - 1), c ++ d, b.last⟩ :: post, ?_,
      ⟨h.lessen (f := cur.face) ⟨hsh.notices, hsh.keys, hsh.ok, hsh.distinct, hsh.distinct_keys,
        hsh.fresh, hsh.fresh_keys⟩ rfl hfaces ?_ hreal (marks_swap rfl rfl), ?_⟩, ?_, rfl⟩
    · rw [takeFirst]
      simp only [Option.bind_eq_bind, hcut, Option.bind_some, hright, hfind, hok.back, hchange,
        hat, dropEmpty, if_neg hpos]
    · rw [faces, hLp, hRp, List.map_append]
    · rw [faces, find?_real (hLp ▸ hL), Option.map_map]
      rfl
    · rw [hLp, hRp]

end Svr32.Cron
