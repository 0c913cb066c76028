import Svr32.Cron.Elm

/-! The sublists of the event list: the notices between the bounds of a key. -/
namespace Svr32.Cron
open Svr32.Lib Svr32.Lib.Linked
variable {s s' : El} {bs pre post : List Block}

/- The notices of a sublist, of which the key points to the last. -/
structure Block where
  key : Key
  body : List Notice
  last : Notice

def Block.notes (b : Block) : List Notice := b.body ++ [b.last]

def notesOf (bs : List Block) : List Notice := bs.flatMap Block.notes

/-- The key agrees with its sublist. Only the last notice can be a dummy. -/
structure Block.Ok (b : Block) : Prop where
  notice : b.key.notice = b.last.addr
  back : b.last.key = some b.key.addr
  count : b.key.numnote = b.body.length + 1
  time : b.key.time = b.last.time
  plain : ∀ n ∈ b.body, n.key = none ∧ n.isdummy = false

/-- The keys, one after the other, divide the notices. -/
structure Shape (s : El) (bs : List Block) : Prop where
  notices : s.notices = notesOf bs
  keys : s.keys = bs.map Block.key
  ok : ∀ b ∈ bs, b.Ok
  distinct : Distinct s.notices
  distinct_keys : Distinct s.keys
  fresh : ∀ n ∈ s.notices, n.addr < s.fresh
  fresh_keys : ∀ k ∈ s.keys, k.addr < s.fresh

theorem notesOf_append (bs cs : List Block) : notesOf (bs ++ cs) = notesOf bs ++ notesOf cs :=
  List.flatMap_append

theorem notesOf_cons (b : Block) (bs : List Block) :
    notesOf (b :: bs) = b.body ++ b.last :: notesOf bs := by
  rw [notesOf, List.flatMap_cons, Block.notes, List.append_assoc]
  rfl

theorem notesOf_ne_nil (h : bs ≠ []) : notesOf bs ≠ [] := by
  cases bs with
  | nil => exact (h rfl).elim
  | cons b bs =>
    rw [notesOf_cons]
    simp

section at_block
variable {b : Block}

theorem Shape.keys_at (h : Shape s (pre ++ b :: post)) :
    s.keys = pre.map Block.key ++ b.key :: post.map Block.key := by
  rw [h.keys, List.map_append, List.map_cons]

/- The list, seen from the last notice of a sublist. -/
theorem Shape.notices_last (h : Shape s (pre ++ b :: post)) :
    s.notices = (notesOf pre ++ b.body) ++ b.last :: notesOf post := by
  rw [h.notices, notesOf_append, notesOf_cons, List.append_assoc]

/- And from another notice of it. -/
theorem Shape.notices_body (h : Shape s (pre ++ b :: post)) {c d : List Notice} {n : Notice}
    (hb : b.body = c ++ n :: d) :
    s.notices = (notesOf pre ++ c) ++ n :: (d ++ b.last :: notesOf post) := by
  rw [h.notices_last, hb]
  simp

theorem Shape.at_key (h : Shape s (pre ++ b :: post)) : at? b.key.addr s.keys = some b.key := by
  have hd := h.distinct_keys
  rw [h.keys_at] at hd ⊢
  exact at?_at hd

theorem Shape.at_last (h : Shape s (pre ++ b :: post)) :
    at? b.key.notice s.notices = some b.last := by
  have hd := h.distinct
  rw [(h.ok b (by simp)).notice]
  rw [h.notices_last] at hd ⊢
  exact at?_at hd

theorem Shape.lefts_key (h : Shape s (pre ++ b :: post)) :
    lefts b.key.addr s.keys = (pre.map Block.key).reverse := by
  have hd := h.distinct_keys
  rw [h.keys_at] at hd ⊢
  exact lefts_at hd

theorem Shape.rights_key (h : Shape s (pre ++ b :: post)) :
    rights b.key.addr s.keys = post.map Block.key := by
  have hd := h.distinct_keys
  rw [h.keys_at] at hd ⊢
  exact rights_at hd

theorem Shape.lefts_last (h : Shape s (pre ++ b :: post)) :
    lefts b.key.notice s.notices = b.body.reverse ++ (notesOf pre).reverse := by
  have hd := h.distinct
  rw [(h.ok b (by simp)).notice]
  rw [h.notices_last] at hd ⊢
  rw [← List.reverse_append]
  exact lefts_at hd

theorem Shape.rights_last (h : Shape s (pre ++ b :: post)) :
    rights b.key.notice s.notices = notesOf post := by
  have hd := h.distinct
  rw [(h.ok b (by simp)).notice]
  rw [h.notices_last] at hd ⊢
  exact rights_at hd

end at_block

/- What of a notice is not about the keys. -/
structure Face where
  addr : Nat
  time : Int
  id : Int
  event : Nat
  isdummy : Bool
deriving DecidableEq

def Notice.face (n : Notice) : Face := ⟨n.addr, n.time, n.id, n.event, n.isdummy⟩

def faces (s : El) : List Face := s.notices.map Notice.face

theorem distinct_iff {ns : List Notice} :
    Distinct ns ↔ ((ns.map Notice.face).map Face.addr).Nodup := by
  rw [List.map_map]
  rfl

/- A notice that is not a dummy comes before the dummy notices of later times only. -/
def Earlier (f g : Face) : Prop :=
  f.time ≤ g.time ∧ (f.isdummy = false → g.isdummy = true → f.time < g.time)

/-- The notices are in order of time from `LB` on, with the dummy notices at the times `ts`. -/
structure Timeline (LB : Int) (ts : List Int) (fs : List Face) : Prop where
  sorted : fs.Pairwise Earlier
  real : ∀ f ∈ fs, f.isdummy = false → LB ≤ f.time ∧ f.time < INFINITY
  marks : (fs.filter Face.isdummy).map Face.time = ts

/- `n` times from `t` on, `dt` apart. -/
def ladder (dt : Int) : Nat → Int → List Int
  | 0, _ => []
  | n + 1, t => t :: ladder dt n (t + dt)

def Block.marked (b : Block) : Bool := b.last.isdummy

/- The keys of the dummy notices. -/
def marks (bs : List Block) : List Nat := (bs.filter Block.marked).map fun b => b.key.addr

/-- The event list is well formed: the index entries cover the time from `LB` to `INFINITY` in
order, the first at `t` and each at the dummy notice of its time, and the keys agree with their
sublists. -/
structure Kept (s : El) (bs : List Block) (t : Int) : Prop where
  shape : Shape s bs
  du : 2 ≤ s.DU
  dt : 1 ≤ s.DT
  lb : s.LB < t
  lb_range : -2 ^ 31 ≤ s.LB
  top : t + (s.DU - 2) * s.DT ≤ INFINITY
  timeline : Timeline s.LB (s.LB :: (ladder s.DT (s.DU - 1).toNat t ++ [INFINITY])) (faces s)
  index : s.index = (marks bs).tail

/- And `current` is the first event. -/
structure Sound (s : El) (bs : List Block) (t : Int) : Prop extends Kept s bs t where
  current : s.current = ((faces s).find? fun f => !f.isdummy).map Face.addr

/- Another division of the same notices. -/
def Regroup (s s' : El) : Prop :=
  s' = { s with notices := s'.notices, keys := s'.keys, fresh := s'.fresh } ∧ faces s' = faces s

theorem Sound.regroup {t : Int} {bs' : List Block} (h : Sound s bs t) (hr : Regroup s s')
    (hs : Shape s' bs') (hm : marks bs' = marks bs) : Sound s' bs' t := by
  obtain ⟨he, hf⟩ := hr
  have hf' : faces s' = faces s := hf
  rw [he] at hf' ⊢
  rw [he] at hs
  exact ⟨⟨hs, h.du, h.dt, h.lb, h.lb_range, h.top, hf' ▸ h.timeline, h.index.trans (by rw [hm])⟩,
    hf' ▸ h.current⟩

theorem Regroup.refl (s : El) : Regroup s s := ⟨rfl, rfl⟩

/- A state with the same notices but for the keys. -/
theorem Shape.rebuild {bs' : List Block} (h : Shape s bs) (hf : faces s' = faces s)
    (hn : s'.notices = notesOf bs') (hk : s'.keys = bs'.map Block.key) (hok : ∀ b ∈ bs', b.Ok)
    (hd : Distinct s'.keys) (hfr : s.fresh ≤ s'.fresh) (hfk : ∀ k ∈ s'.keys, k.addr < s'.fresh) :
    Shape s' bs' where
  notices := hn
  keys := hk
  ok := hok
  distinct := by
    have hd' := distinct_iff.1 h.distinct
    have hf' : s'.notices.map Notice.face = s.notices.map Notice.face := hf
    rw [← hf'] at hd'
    exact distinct_iff.2 hd'
  distinct_keys := hd
  fresh := by
    intro n hn
    have hm : n.face ∈ faces s := hf ▸ List.mem_map_of_mem hn
    obtain ⟨m, hm, he⟩ := List.mem_map.1 hm
    have ha : m.addr = n.addr := congrArg Face.addr he
    have hlt := h.fresh m hm
    omega
  fresh_keys := hfk

theorem faces_change {ns : List Notice} {a : Nat} {f : Notice → Notice}
    (hf : ∀ n, (f n).face = n.face) : (change a f ns).map Notice.face = ns.map Notice.face := by
  rw [change, List.map_map]
  refine List.map_congr_left fun n _ => ?_
  rw [Function.comp_apply]
  split
  · exact hf n
  · rfl

theorem lasts_sublist (bs : List Block) : (bs.map Block.last).Sublist (notesOf bs) := by
  induction bs with
  | nil => exact List.Sublist.refl _
  | cons b bs ih =>
    rw [List.map_cons, notesOf_cons]
    exact (ih.cons_cons b.last).trans (List.sublist_append_right _ _)

/- The keys are in order of time. -/
theorem Kept.keys_sorted {t : Int} (h : Kept s bs t) :
    bs.Pairwise fun b c => b.key.time ≤ c.key.time := by
  have hs := h.timeline.sorted
  rw [faces, h.shape.notices] at hs
  have hl := hs.sublist ((lasts_sublist bs).map Notice.face)
  rw [List.map_map, List.pairwise_map] at hl
  refine hl.imp_of_mem fun {b c} hb hc he => ?_
  rw [(h.shape.ok b hb).time, (h.shape.ok c hc).time]
  exact he.1

theorem filter_notesOf {bs : List Block} (h : ∀ b ∈ bs, b.Ok) :
    ((notesOf bs).map Notice.face).filter Face.isdummy =
      (bs.filter Block.marked).map fun b => b.last.face := by
  induction bs with
  | nil => rfl
  | cons b bs ih =>
    have hb := h b List.mem_cons_self
    have hbody : (b.body.map Notice.face).filter Face.isdummy = [] := by
      refine List.filter_eq_nil_iff.2 fun f hf => ?_
      obtain ⟨n, hn, rfl⟩ := List.mem_map.1 hf
      rw [Notice.face, (hb.plain n hn).2]
      exact Bool.false_ne_true
    rw [notesOf_cons, List.map_append, List.map_cons, List.filter_append, hbody, List.nil_append,
      List.filter_cons, ih fun c hc => h c (List.mem_cons_of_mem b hc), List.filter_cons]
    by_cases hm : b.last.isdummy = true
    · rw [if_pos (show b.last.face.isdummy = true from hm), if_pos (show b.marked = true from hm)]
      rfl
    · rw [if_neg (show ¬ b.last.face.isdummy = true from hm),
        if_neg (show ¬ b.marked = true from hm)]

/-- The dummy notices, as the ladder has them. -/
theorem Kept.marked {t : Int} (h : Kept s bs t) : ∃ b₀ ms, bs.filter Block.marked = b₀ :: ms ∧
    b₀.key.time = s.LB ∧ s.index = ms.map (fun b => b.key.addr) ∧
    ms.map (fun b => b.key.time) = ladder s.DT (s.DU - 1).toNat t ++ [INFINITY] := by
  have hm := h.timeline.marks
  rw [faces, h.shape.notices, filter_notesOf h.shape.ok, List.map_map] at hm
  have htime : ∀ b ∈ bs.filter Block.marked, b.key.time = b.last.face.time := fun b hb =>
    (h.shape.ok b (List.mem_of_mem_filter hb)).time
  have hi := h.index
  rw [marks] at hi
  cases hf : bs.filter Block.marked with
  | nil =>
    rw [hf] at hm
    cases hm
  | cons b₀ ms =>
    rw [hf, List.map_cons, List.cons.injEq] at hm
    rw [hf] at hi htime
    refine ⟨b₀, ms, rfl, ?_, hi, ?_⟩
    · rw [htime b₀ List.mem_cons_self]
      exact hm.1
    · rw [← hm.2]
      exact List.map_congr_left fun b hb => htime b (List.mem_cons_of_mem b₀ hb)

theorem Shape.le_last {a : Block} (h : Shape s (pre ++ a :: post))
    (hsort : (faces s).Pairwise Earlier) : ∀ m ∈ notesOf (pre ++ [a]), m.time ≤ a.last.time := by
  rw [faces, List.pairwise_map, h.notices_last] at hsort
  intro m hm
  rw [notesOf_append, notesOf_cons, ← List.append_assoc] at hm
  rcases List.mem_append.1 hm with hm | hm
  · exact ((List.pairwise_append.1 hsort).2.2 m hm a.last List.mem_cons_self).1
  · rcases List.mem_cons.1 hm with rfl | hm
    · exact Int.le_refl _
    · cases hm

/- The list begins and ends with a dummy notice. -/
theorem Kept.fenced {t : Int} (h : Kept s bs t) : ∃ b₀ mid z, bs = b₀ :: (mid ++ [z]) ∧
    b₀.body = [] ∧ b₀.marked = true ∧ z.marked = true := by
  obtain ⟨c, ms, hf, hc, -, hm⟩ := h.marked
  have hcm : c ∈ bs ∧ c.marked = true := List.mem_filter.1 (hf ▸ List.mem_cons_self)
  have hin : INFINITY ∈ ms.map fun b => b.key.time := by
    rw [hm]
    exact List.mem_append_right _ (List.mem_singleton_self _)
  obtain ⟨d, hd, hdt⟩ := List.mem_map.1 hin
  have hdm : d ∈ bs ∧ d.marked = true :=
    List.mem_filter.1 (hf ▸ List.mem_cons_of_mem c hd)
  have hinf : s.LB < INFINITY := by
    have ht := h.top
    have hl := h.lb
    have hmul : 0 ≤ (s.DU - 2) * s.DT :=
      Int.mul_nonneg (by have := h.du; omega) (by have := h.dt; omega)
    omega
  have hsort := h.timeline.sorted
  rw [faces, h.shape.notices, List.pairwise_map] at hsort
  have hreal : ∀ n ∈ notesOf bs, n.isdummy = false → s.LB ≤ n.time ∧ n.time < INFINITY := by
    intro n hn
    have hf : n.face ∈ faces s := by
      rw [faces, h.shape.notices]
      exact List.mem_map_of_mem hn
    exact h.timeline.real n.face hf
  have hmem : ∀ b ∈ bs, b.last ∈ notesOf bs := fun b hb =>
    (lasts_sublist bs).subset (List.mem_map_of_mem hb)
  have hok := h.shape.ok
  have hct : c.last.time = s.LB := by rw [← (hok c hcm.1).time, hc]
  have hdt' : d.last.time = INFINITY := by rw [← (hok d hdm.1).time, hdt]
  cases bs with
  | nil => cases hcm.1
  | cons b rest =>
    rcases List.eq_nil_or_concat rest with rfl | ⟨mid, z, rfl⟩
    · have hcb := List.mem_singleton.1 hcm.1
      have hdb := List.mem_singleton.1 hdm.1
      rw [hcb] at hct
      rw [hdb] at hdt'
      omega
    · rw [List.concat_eq_append] at *
      have hcl := hmem c hcm.1
      have hdl := hmem d hdm.1
      -- the first notice
      have hfirst : ∀ x xs, notesOf (b :: (mid ++ [z])) = x :: xs → x.isdummy = true := by
        intro x xs hx
        by_contra hn
        rw [Bool.not_eq_true] at hn
        rw [hx] at hsort hreal hcl
        rcases List.mem_cons.1 hcl with he | hcl
        · have hcd : c.last.isdummy = true := hcm.2
          rw [he, hn] at hcd
          cases hcd
        · have hlt := ((List.pairwise_cons.1 hsort).1 c.last hcl).2 hn hcm.2
          have hge := (hreal x List.mem_cons_self hn).1
          simp only [Notice.face] at hlt
          omega
      -- and the last
      have hz : z.marked = true := by
        by_contra hn
        rw [Bool.not_eq_true] at hn
        have hsplit : notesOf (b :: (mid ++ [z])) = (notesOf (b :: mid) ++ z.body) ++ [z.last] := by
          rw [← List.cons_append, notesOf_append, notesOf_cons z, List.append_assoc]
          rfl
        have hlast := (hreal z.last (hmem z (by simp)) hn).2
        rw [hsplit] at hsort hdl
        rcases List.mem_append.1 hdl with hdl | hdl
        · have hle := ((List.pairwise_append.1 hsort).2.2 d.last hdl z.last
            (List.mem_singleton_self _)).1
          simp only [Notice.face] at hle
          omega
        · rw [List.mem_singleton.1 hdl] at hdt'
          omega
      rw [notesOf_cons] at hfirst
      cases hbody : b.body with
      | nil =>
        rw [hbody] at hfirst
        exact ⟨b, mid, z, rfl, hbody, hfirst _ _ rfl, hz⟩
      | cons m body =>
        rw [hbody] at hfirst
        have hm := ((hok b List.mem_cons_self).plain m (by rw [hbody]; simp)).2
        rw [hfirst m _ rfl] at hm
        cases hm

theorem sorted_split {ns : List Notice} (hs : ns.Pairwise fun m m' => m.time ≤ m'.time) (t : Int) :
    ∃ c d, ns = c ++ d ∧ (∀ m ∈ c, m.time ≤ t) ∧ ∀ m ∈ d, t < m.time := by
  induction ns with
  | nil => exact ⟨[], [], rfl, fun _ hm => (nomatch hm), fun _ hm => (nomatch hm)⟩
  | cons n ns ih =>
    obtain ⟨hn, hs⟩ := List.pairwise_cons.1 hs
    by_cases hle : n.time ≤ t
    · obtain ⟨c, d, rfl, hc, hd⟩ := ih hs
      exact ⟨n :: c, d, rfl, List.forall_mem_cons.2 ⟨hle, hc⟩, hd⟩
    · refine ⟨[], n :: ns, rfl, fun _ hm => (nomatch hm), List.forall_mem_cons.2 ⟨by omega, ?_⟩⟩
      intro m hm
      have hnm := hn m hm
      omega

theorem Block.Ok.recount {b : Block} (h : b.Ok) {c : List Notice}
    (hc : ∀ n ∈ c, n.key = none ∧ n.isdummy = false) :
    Block.Ok ⟨b.key.setNumnote (c.length + 1), c, b.last⟩ :=
  ⟨h.notice, h.back, rfl, h.time, hc⟩

theorem marks_append (bs cs : List Block) : marks (bs ++ cs) = marks bs ++ marks cs := by
  rw [marks, List.filter_append, List.map_append]
  rfl

theorem marks_cons (b : Block) (bs : List Block) :
    marks (b :: bs) = (if b.marked then [b.key.addr] else []) ++ marks bs := by
  rw [marks, List.filter_cons]
  split <;> rfl

end Svr32.Cron
