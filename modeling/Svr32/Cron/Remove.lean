import Svr32.Cron.Advance

/-! el_remove: the notices with the id are taken out, and sublists that have become small are
merged. -/
namespace Svr32.Cron
open Svr32.Lib Svr32.Lib.Linked
variable {s s' : El} {bs pre post : List Block} {a b : Block} {t : Int} {n : Notice}
  {P Q : List Notice}

/- The keys, when the sublist of `a` is merged with the next one. -/
theorem merge_keys (h : Shape s (pre ++ a :: b :: post)) (hpre : pre ≠ []) :
    cut a.key.addr (change b.key.addr (fun k => k.setNumnote (k.numnote + a.key.numnote)) s.keys) =
      some (pre.map Block.key ++ b.key.setNumnote (b.key.numnote + a.key.numnote) ::
        post.map Block.key) := by
  have hassoc : pre ++ a :: b :: post = (pre ++ [a]) ++ b :: post := by simp
  have hd := h.distinct_keys
  rw [hassoc] at h
  rw [h.keys_at] at hd ⊢
  have hch : change b.key.addr (fun k => k.setNumnote (k.numnote + a.key.numnote))
      ((pre ++ [a]).map Block.key ++ b.key :: post.map Block.key) = _ := change_at hd
  have hd' := hd.swap (y := b.key.setNumnote (b.key.numnote + a.key.numnote)) rfl
  rw [hch]
  rw [List.map_append, List.map_singleton, List.append_assoc, List.singleton_append] at hd' ⊢
  exact cut_at hd' (by simpa using hpre) (by simp)

theorem Shape.merge (h : Shape s (pre ++ a :: b :: post)) (ha : a.last.isdummy = false) :
    Shape { s with
      notices := clearKey a.key.notice s.notices
      keys := pre.map Block.key ++ b.key.setNumnote (b.key.numnote + a.key.numnote) ::
        post.map Block.key }
      (pre ++ ⟨b.key.setNumnote (b.key.numnote + a.key.numnote),
        a.body ++ a.last.setKey none :: b.body, b.last⟩ :: post) := by
  have hoka := h.ok a (by simp)
  have hokb := h.ok b (by simp)
  have hclear : clearKey a.key.notice s.notices = (notesOf pre ++ a.body) ++
      a.last.setKey none :: notesOf (b :: post) := by
    have hd := h.distinct
    rw [clearKey, hoka.notice]
    rw [h.notices_last] at hd ⊢
    exact change_at hd
  have hcount : b.key.numnote + a.key.numnote =
      (a.body ++ a.last.setKey none :: b.body).length + 1 := by
    rw [hoka.count, hokb.count, List.length_append, List.length_cons]
    omega
  have hfaces : faces { s with
      notices := clearKey a.key.notice s.notices
      keys := pre.map Block.key ++ b.key.setNumnote (b.key.numnote + a.key.numnote) ::
        post.map Block.key } = faces s := faces_change fun _ => rfl
  have hk := h.fresh_keys
  have hdk := h.distinct_keys
  rw [h.keys, List.map_append, List.map_cons, List.map_cons] at hk hdk
  rw [List.forall_mem_append, List.forall_mem_cons, List.forall_mem_cons] at hk
  refine h.rebuild hfaces ?_ ?_ ?_ ?_ (Nat.le_refl _) ?_
  · simp only
    rw [hclear, notesOf_append, notesOf_cons, notesOf_cons]
    simp only [List.append_assoc, List.cons_append]
  · rw [List.map_append, List.map_cons]
  · intro x hx
    rcases List.mem_append.1 hx with hx | hx
    · exact h.ok x (List.mem_append_left _ hx)
    · rcases List.mem_cons.1 hx with rfl | hx
      · rw [hcount]
        exact hokb.recount (List.forall_mem_append.2
          ⟨hoka.plain, List.forall_mem_cons.2 ⟨⟨rfl, ha⟩, hokb.plain⟩⟩)
      · exact h.ok x (by simp [hx])
  · exact hdk.drop.swap rfl
  · exact List.forall_mem_append.2 ⟨hk.1, List.forall_mem_cons.2 ⟨hk.2.2.1, hk.2.2.2⟩⟩

/-- Two sublists next to each other are merged when they are small enough. The notice `n` is
about to go. -/
theorem merge_spec (hs : s.notices = P ++ n :: Q)
    (h : Shape { s with notices := P ++ Q } (pre ++ b :: post))
    (hn : ∀ m ∈ P ++ Q, m.addr ≠ n.addr) (hpre : pre ≠ [])
    (hfront : ∀ p a, pre = p ++ [a] → a.marked = false → p ≠ [])
    (hpost : b.marked = false → post ≠ []) :
    ∃ s' P' Q' bs', merge s b.key = some s' ∧ s'.notices = P' ++ n :: Q' ∧
      P'.map Notice.face = P.map Notice.face ∧ Q'.map Notice.face = Q.map Notice.face ∧
      Shape { s' with notices := P' ++ Q' } bs' ∧ marks bs' = marks (pre ++ b :: post) ∧
      s' = { s with notices := s'.notices, keys := s'.keys } := by
  obtain ⟨p, a, rfl⟩ : ∃ p a, pre = p ++ [a] := by
    rcases List.eq_nil_or_concat pre with h0 | ⟨p, a, hp⟩
    · exact (hpre h0).elim
    · exact ⟨p, a, by rw [hp, List.concat_eq_append]⟩
  have hassoc : (p ++ [a]) ++ b :: post = p ++ a :: b :: post := by simp
  have h' := h
  rw [hassoc] at h'
  have hat : ∀ x ∈ (p ++ [a]) ++ b :: post, at? x.key.notice s.notices = some x.last ∧
      n.addr ≠ x.key.notice := by
    intro x hx
    obtain ⟨l, r, he⟩ := List.append_of_mem hx
    have hl : at? x.key.notice (P ++ Q) = some x.last := Shape.at_last (he ▸ h)
    have hm : x.last ∈ P ++ Q := List.mem_of_find?_eq_some hl
    have hne : n.addr ≠ x.key.notice := by
      rw [(h.ok x hx).notice]
      exact (hn x.last hm).symm
    refine ⟨?_, hne⟩
    rw [hs, at?_past hne, hl]
  have hleft : (lefts b.key.addr s.keys).head? = some a.key := by
    have hl : lefts b.key.addr s.keys = _ := h.lefts_key
    rw [hl]
    simp
  have hclear : ∀ x ∈ (p ++ [a]) ++ b :: post, clearKey x.key.notice s.notices =
      clearKey x.key.notice P ++ n :: clearKey x.key.notice Q := by
    intro x hx
    rw [hs, clearKey, change_past (hat x hx).2]
    rfl
  have hface : ∀ (k : Nat) (ns : List Notice), (clearKey k ns).map Notice.face =
      ns.map Notice.face := fun k ns => faces_change fun _ => rfl
  have hkeep : ∃ s' P' Q' bs', some s = some s' ∧ s'.notices = P' ++ n :: Q' ∧
      P'.map Notice.face = P.map Notice.face ∧ Q'.map Notice.face = Q.map Notice.face ∧
      Shape { s' with notices := P' ++ Q' } bs' ∧ marks bs' = marks ((p ++ [a]) ++ b :: post) ∧
      s' = { s with notices := s'.notices, keys := s'.keys } :=
    ⟨s, P, Q, _, rfl, hs, rfl, rfl, h, rfl, rfl⟩
  by_cases hl : a.last.isdummy = false ∧ a.key.numnote + b.key.numnote ≤ s.NLIM
  · -- with the one on the left
    have hk := merge_keys h' (hfront p a rfl hl.1)
    have hm := h'.merge hl.1
    simp only [clearKey, change_append] at hm hk
    refine ⟨{ s with
      notices := clearKey a.key.notice s.notices
      keys := p.map Block.key ++ b.key.setNumnote (b.key.numnote + a.key.numnote) ::
        post.map Block.key },
      clearKey a.key.notice P, clearKey a.key.notice Q, _, ?_, hclear a (by simp),
      hface _ _, hface _ _, hm, ?_, rfl⟩
    · rw [merge, hleft]
      simp only [Option.bind_eq_bind, Option.bind_some, (hat a (by simp)).1, if_pos hl, hk]
    · have hma : a.marked = false := hl.1
      rw [hassoc, marks_append, marks_cons, marks_append, marks_cons, marks_cons, hma,
        if_neg Bool.false_ne_true, List.nil_append]
      rfl
  · by_cases hb : b.last.isdummy = false
    · obtain ⟨c, post', rfl⟩ := List.exists_cons_of_ne_nil (hpost hb)
      have hright : (rights b.key.addr s.keys).head? = some c.key := by
        have hr : rights b.key.addr s.keys = _ := h.rights_key
        rw [hr]
        rfl
      by_cases hr : c.key.numnote + b.key.numnote ≤ s.NLIM
      · -- with the one on the right
        have hk := merge_keys h hpre
        have hm := h.merge hb
        simp only [clearKey, change_append] at hm hk
        refine ⟨{ s with
          notices := clearKey b.key.notice s.notices
          keys := (p ++ [a]).map Block.key ++ c.key.setNumnote (c.key.numnote + b.key.numnote) ::
            post'.map Block.key },
          clearKey b.key.notice P, clearKey b.key.notice Q, _, ?_, hclear b (by simp),
          hface _ _, hface _ _, hm, ?_, rfl⟩
        · rw [merge, hleft]
          simp only [Option.bind_eq_bind, Option.bind_some, (hat a (by simp)).1, if_neg hl,
            (hat b (by simp)).1, if_pos hb, hright, if_pos hr, hk]
        · have hmb : b.marked = false := hb
          rw [marks_append (p ++ [a]), marks_append (p ++ [a]), marks_cons, marks_cons, marks_cons,
            hmb, if_neg Bool.false_ne_true, List.nil_append]
          rfl
      · rw [merge, hleft]
        simp only [Option.bind_eq_bind, Option.bind_some, (hat a (by simp)).1, if_neg hl,
          (hat b (by simp)).1, if_pos hb, hright, if_neg hr]
        exact hkeep
    · rw [merge, hleft]
      simp only [Option.bind_eq_bind, Option.bind_some, (hat a (by simp)).1, if_neg hl,
        (hat b (by simp)).1, if_neg hb]
      exact hkeep

theorem mem_distinct {ns : List Notice} (hd : Distinct ns) (hn : n ∈ ns) :
    at? n.addr ns = some n := by
  obtain ⟨p, q, rfl⟩ := List.append_of_mem hn
  exact at?_at hd

/-- The keys as they are when the notice is gone. -/
theorem dropKey_spec (h : Kept s (pre ++ b :: post) t) (hspot : Spot b n)
    (hreal : n.isdummy = false) :
    ∃ s' P Q P' Q' bs', dropKey s n = some s' ∧ s.notices = P ++ n :: Q ∧
      s'.notices = P' ++ n :: Q' ∧ P'.map Notice.face = P.map Notice.face ∧
      Q'.map Notice.face = Q.map Notice.face ∧ P ≠ [] ∧ Q ≠ [] ∧
      Shape { s' with notices := P' ++ Q' } bs' ∧ marks bs' = marks (pre ++ b :: post) ∧
      s' = { s with notices := s'.notices, keys := s'.keys } := by
  have hok := h.shape.ok b (by simp)
  obtain ⟨hpre, hpost⟩ := h.inner hspot hreal
  have hdk := h.shape.distinct_keys
  rw [h.shape.keys_at] at hdk
  have hd := h.shape.distinct
  cases hspot with
  | sole hb hl =>
    have hn := h.shape.notices_last
    rw [hb, List.append_nil, hl] at hn
    have hkey : n.key = some b.key.addr := hl ▸ hok.back
    have hone : b.key.numnote = 1 := by
      rw [hok.count, hb]
      rfl
    have hsole : sole s n = some b.key.addr := by
      rw [sole, hkey]
      simp only [Option.bind_eq_bind, Option.bind_some, h.shape.at_key, if_pos hone]
    have hcut : cut b.key.addr s.keys = some (pre.map Block.key ++ post.map Block.key) := by
      rw [h.shape.keys_at]
      exact cut_at hdk (by simpa using hpre) (by simpa using hpost hl)
    have hmb : b.marked = false := by rw [Block.marked, hl, hreal]
    refine ⟨{ s with keys := pre.map Block.key ++ post.map Block.key }, notesOf pre, notesOf post,
      notesOf pre, notesOf post, pre ++ post, ?_, hn, hn, rfl, rfl, notesOf_ne_nil hpre,
      notesOf_ne_nil (hpost hl), h.shape.drop hb, marks_drop hmb, rfl⟩
    rw [dropKey, hsole]
    simp only [Option.bind_eq_bind, hcut, Option.bind_some]
  | last c l hb hl =>
    have hkey : n.key = some b.key.addr := hl ▸ hok.back
    have hsole : sole s n = none := by
      have hone : ¬ b.key.numnote = 1 := by
        rw [hok.count, hb, List.length_append, List.length_singleton]
        omega
      rw [sole, hkey]
      simp only [Option.bind_eq_bind, Option.bind_some, h.shape.at_key, if_neg hone]
    have hn : s.notices = (notesOf pre ++ c ++ [l]) ++ n :: notesOf post := by
      rw [h.shape.notices_last, hb, hl]
      simp only [List.append_assoc]
    have hn' : s.notices = (notesOf pre ++ c) ++ l :: (n :: notesOf post) := by
      rw [hn]
      simp only [List.append_assoc, List.singleton_append]
    have hdn := hd
    have hdl := hd
    rw [hn] at hdn
    rw [hn'] at hdl
    have hleft : (lefts n.addr s.notices).head? = some l := by
      have hlefts : lefts n.addr s.notices = _ := hn ▸ lefts_at hdn
      rw [hlefts]
      simp
    have hchange : change l.addr (fun l => l.setKey (some b.key.addr)) s.notices =
        (notesOf pre ++ c ++ [l.setKey (some b.key.addr)]) ++ n :: notesOf post := by
      rw [hn']
      refine (change_at hdl).trans ?_
      simp only [List.append_assoc, List.singleton_append]
    have hk1 : change b.key.addr (fun k => { k with time := l.time, notice := l.addr }) s.keys =
        pre.map Block.key ++ ⟨b.key.addr, l.time, b.key.numnote, l.addr⟩ :: post.map Block.key := by
      rw [h.shape.keys_at]
      exact change_at hdk
    have hd1 := hdk.swap (y := (⟨b.key.addr, l.time, b.key.numnote, l.addr⟩ : Key)) rfl
    have hk2 : change b.key.addr (fun k => k.setNumnote (k.numnote - 1)) (pre.map Block.key ++
        ⟨b.key.addr, l.time, b.key.numnote, l.addr⟩ :: post.map Block.key) = pre.map Block.key ++
          ⟨b.key.addr, l.time, b.key.numnote - 1, l.addr⟩ :: post.map Block.key := change_at hd1
    have hat : at? b.key.addr (pre.map Block.key ++
        ⟨b.key.addr, l.time, b.key.numnote - 1, l.addr⟩ :: post.map Block.key) =
          some ⟨b.key.addr, l.time, b.key.numnote - 1, l.addr⟩ :=
      at?_at (hdk.swap (y := (⟨b.key.addr, l.time, b.key.numnote - 1, l.addr⟩ : Key)) rfl)
    have hfind : ∀ ns : List Notice, (n :: ns).find? (fun m => m.key.isSome) = some n := fun ns =>
      List.find?_cons_of_pos (by rw [hkey]; rfl)
    have hne : ∀ m ∈ (notesOf pre ++ c ++ [l.setKey (some b.key.addr)]) ++ notesOf post,
        m.addr ≠ n.addr := by
      have hs := hdl.swap (y := l.setKey (some b.key.addr)) rfl
      have hassoc : (notesOf pre ++ c) ++ l.setKey (some b.key.addr) :: (n :: notesOf post) =
          (notesOf pre ++ c ++ [l.setKey (some b.key.addr)]) ++ n :: notesOf post := by simp
      rw [hassoc] at hs
      exact List.forall_mem_append.2 hs.ne
    have hmb : b.marked = false := by rw [Block.marked, hl, hreal]
    have hml : l.isdummy = false := (hok.plain l (by rw [hb]; simp)).2
    obtain ⟨s', P', Q', bs', hm, hns, hP, hQ, hsh, hmk, he⟩ := merge_spec
      (s := { s with
        notices := (notesOf pre ++ c ++ [l.setKey (some b.key.addr)]) ++ n :: notesOf post
        keys := pre.map Block.key ++ ⟨b.key.addr, l.time, b.key.numnote - 1, l.addr⟩ ::
          post.map Block.key }) rfl (h.shape.retreat hb) hne hpre
      (fun p a hp ha => by
        have hk : Kept s (p ++ a :: (b :: post)) t := by
          rw [hp, List.append_assoc] at h
          exact h
        exact hk.front_ne_nil ha) (fun _ => hpost hl)
    refine ⟨s', notesOf pre ++ c ++ [l], notesOf post, P', Q', bs', ?_, hn, hns, ?_, hQ, by simp,
      notesOf_ne_nil (hpost hl), hsh, ?_, by rw [he]⟩
    · rw [dropKey, hsole]
      simp only [Option.bind_eq_bind, moveKey, hkey, hleft, Option.bind_some, hchange, hk1, hfind,
        hk2, hat, hm]
    · rw [hP]
      simp [Notice.face, Notice.setKey]
    · rw [hmk]
      exact marks_swap (hml.trans hmb.symm) rfl
  | body c d hb =>
    have hp := hok.plain
    rw [hb, List.forall_mem_append, List.forall_mem_cons] at hp
    have hn := h.shape.notices_body hb
    rw [hn] at hd
    have hsole : sole s n = none := by
      rw [sole, hp.2.1.1]
      rfl
    have hright : rights n.addr s.notices = d ++ b.last :: notesOf post := by
      rw [hn]
      exact rights_at hd
    have hfind : (n :: (d ++ b.last :: notesOf post)).find? (fun n => n.key.isSome) =
        some b.last := by
      rw [← List.cons_append]
      refine find?_stop (List.forall_mem_cons.2 ⟨?_, fun m hm => ?_⟩) ?_
      · rw [hp.2.1.1]
        rfl
      · rw [(hp.2.2 m hm).1]
        rfl
      · rw [hok.back]
        rfl
    have hk1 : change b.key.addr (fun k => k.setNumnote (k.numnote - 1)) s.keys =
        pre.map Block.key ++ b.key.setNumnote (b.key.numnote - 1) :: post.map Block.key := by
      rw [h.shape.keys_at]
      exact change_at hdk
    have hat : at? b.key.addr (pre.map Block.key ++ b.key.setNumnote (b.key.numnote - 1) ::
        post.map Block.key) = some (b.key.setNumnote (b.key.numnote - 1)) :=
      at?_at (hdk.swap (y := b.key.setNumnote (b.key.numnote - 1)) rfl)
    obtain ⟨s', P', Q', bs', hm, hns, hP, hQ, hsh, hmk, he⟩ := merge_spec
      (s := { s with
        keys := pre.map Block.key ++ b.key.setNumnote (b.key.numnote - 1) :: post.map Block.key })
      hn (h.shape.lose hb) (List.forall_mem_append.2 hd.ne) hpre
      (fun p a hp ha => by
        have hk : Kept s (p ++ a :: (b :: post)) t := by
          rw [hp, List.append_assoc] at h
          exact h
        exact hk.front_ne_nil ha) (fun hb' => h.post_ne_nil hb')
    refine ⟨s', notesOf pre ++ c, d ++ b.last :: notesOf post, P', Q', bs', ?_, hn, hns, hP, hQ,
      ?_, by simp, hsh, ?_, by rw [he]⟩
    · rw [dropKey, hsole]
      simp only [Option.bind_eq_bind, moveKey, hp.2.1.1, hright, Option.bind_some, hfind,
        hok.back, hk1, hat, hm]
    · intro h0
      exact notesOf_ne_nil hpre (List.append_eq_nil_iff.1 h0).1
    · rw [hmk]
      exact marks_swap rfl rfl

/-- A deletion takes just the notice, and keeps the list well formed. -/
theorem deleteNotice_spec (h : Kept s bs t) (hn : n ∈ s.notices) (hreal : n.isdummy = false) :
    ∃ s' bs' L R, deleteNotice s n = some s' ∧ Kept s' bs' t ∧ s.notices = L ++ n :: R ∧
      faces s' = L.map Notice.face ++ R.map Notice.face ∧
      s' = { s with notices := s'.notices, keys := s'.keys } := by
  rw [h.shape.notices] at hn
  obtain ⟨pre, b, post, rfl, hspot⟩ := exists_block hn
  obtain ⟨u, P, Q, P', Q', bs', hdrop, hs, hu, hP, hQ, hPn, hQn, hsh, hmk, he⟩ :=
    dropKey_spec h hspot hreal
  have hd : Distinct u.notices := by
    have hd0 := h.shape.distinct
    rw [distinct_iff, hs, List.map_append, List.map_cons, ← hP, ← hQ] at hd0
    rw [distinct_iff, hu, List.map_append, List.map_cons]
    exact hd0
  have hcut : cut n.addr u.notices = some (P' ++ Q') := by
    rw [hu] at hd ⊢
    refine cut_at hd (fun h0 => hPn ?_) (fun h0 => hQn ?_)
    · rw [h0] at hP
      exact List.map_eq_nil_iff.1 hP.symm
    · rw [h0] at hQ
      exact List.map_eq_nil_iff.1 hQ.symm
  have hf : faces { u with notices := P' ++ Q' } = P.map Notice.face ++ Q.map Notice.face := by
    rw [faces, List.map_append, hP, hQ]
  refine ⟨{ u with notices := P' ++ Q' }, bs', P, Q, ?_, ?_, hs, hf, by rw [he]⟩
  · rw [deleteNotice, hdrop]
    simp only [Option.bind_eq_bind, Option.bind_some, hcut]
  · refine h.lessen (L := P.map Notice.face) (R := Q.map Notice.face) (f := n.face) hsh ?_ ?_ hf
      hreal hmk
    · rw [he]
    · rw [faces, hs, List.map_append, List.map_cons]

/-- What el_remove leaves of the events: without the first that has the id, or without all. -/
def remaining (id flag : Int) (fs : List Face) : List Face :=
  if flag ≠ 0 then fs.eraseP fun f => f.id == id else fs.filter fun f => !(f.id == id)

theorem remaining_nil (id flag : Int) : remaining id flag [] = [] := by
  rw [remaining]
  split <;> rfl

theorem remaining_other {id flag : Int} {f : Face} {fs : List Face} (h : f.id ≠ id) :
    remaining id flag (f :: fs) = f :: remaining id flag fs := by
  have hb : (f.id == id) = false := by simpa using h
  rw [remaining, remaining]
  split
  · rw [List.eraseP_cons_of_neg (by simp [hb])]
  · rw [List.filter_cons_of_pos (by simp [hb])]

theorem remaining_that {id flag : Int} {f : Face} {fs : List Face} (h : f.id = id) :
    remaining id flag (f :: fs) = if flag ≠ 0 then fs else remaining id flag fs := by
  have hb : (f.id == id) = true := by simpa using h
  rw [remaining, remaining]
  split
  · exact List.eraseP_cons_of_pos (p := fun f : Face => f.id == id) hb
  · exact List.filter_cons_of_neg (p := fun f : Face => !(f.id == id)) (by simp [hb])

theorem events_append (ns ms : List Notice) : events (ns ++ ms) = events ns ++ events ms := by
  rw [events, List.map_append, List.filter_append]
  rfl

theorem events_cons (n : Notice) (ns : List Notice) :
    events (n :: ns) = (if n.isdummy = true then [] else [n.face]) ++ events ns := by
  rw [events, List.map_cons, List.filter_cons]
  cases hn : n.isdummy <;> simp [Notice.face, hn, events]

theorem events_congr {ns ms : List Notice} (h : ns.map Notice.face = ms.map Notice.face) :
    events ns = events ms := by
  rw [events, events, h]

/-- The loop over the notices from some place on. -/
theorem removeLoop_spec {id flag : Int} {as : List Nat} {L M : List Notice} (h : Kept s bs t)
    (hs : s.notices = L ++ M) (ha : M.map Notice.addr = as) :
    ∃ s' bs', removeLoop id flag as s = some s' ∧ Kept s' bs' t ∧
      events s'.notices = events L ++ remaining id flag (events M) ∧
      s' = { s with notices := s'.notices, keys := s'.keys } := by
  induction as generalizing s bs L M with
  | nil =>
    obtain rfl := List.map_eq_nil_iff.1 ha
    refine ⟨s, bs, rfl, h, ?_, rfl⟩
    have h0 : events [] = [] := rfl
    rw [hs, List.append_nil, h0, remaining_nil, List.append_nil]
  | cons a as ih =>
    obtain ⟨n, M', rfl, rfl, hM⟩ := List.map_eq_cons_iff.1 ha
    have hmem : n ∈ s.notices := by rw [hs]; simp
    have hat := mem_distinct h.shape.distinct hmem
    by_cases hskip : n.isdummy = true ∨ n.id ≠ id
    · have hassoc : L ++ n :: M' = (L ++ [n]) ++ M' := by simp
      obtain ⟨s', bs', hl, hk, hev, he⟩ := ih h (hs.trans hassoc) hM
      refine ⟨s', bs', ?_, hk, ?_, he⟩
      · rw [removeLoop, hat]
        simp only [Option.bind_eq_bind, Option.bind_some, if_pos hskip, hl]
      · rw [hev, events_append, events_cons, events_cons, List.append_assoc]
        cases hd : n.isdummy with
        | true => simp [events]
        | false =>
          have hid : n.face.id ≠ id := hskip.resolve_left (by simp [hd])
          simp [remaining_other hid, events]
    · have hreal : n.isdummy = false := by
        cases hd : n.isdummy with
        | true => exact (hskip (.inl hd)).elim
        | false => rfl
      have hid : n.id = id := by
        by_contra hne
        exact hskip (.inr hne)
      obtain ⟨u, cs, L', R', hdel, hku, hns, hf, heu⟩ := deleteNotice_spec h hmem hreal
      have hd := h.shape.distinct
      rw [hns] at hd
      obtain ⟨rfl, rfl⟩ := split_unique hd (hns.symm.trans hs)
      obtain ⟨L₁, M₁, hu, hL, hM₁⟩ := List.map_eq_append_iff.1 hf
      have hrest : events (n :: R') = n.face :: events R' := by
        rw [events_cons, hreal]
        rfl
      have hthat : n.face.id = id := hid
      by_cases hflag : flag ≠ 0
      · refine ⟨u, cs, ?_, hku, ?_, heu⟩
        · rw [removeLoop, hat]
          simp only [Option.bind_eq_bind, Option.bind_some, if_neg hskip, hdel, if_pos hflag]
        · rw [hrest, remaining_that hthat, if_pos hflag, hu, events_append, events_congr hL,
            events_congr hM₁]
      · have hMa : M₁.map Notice.addr = as := by
          have hma := congrArg (List.map Face.addr) hM₁
          rw [List.map_map, List.map_map] at hma
          exact hma.trans hM
        obtain ⟨s', bs', hl, hk, hev, he⟩ := ih hku hu hMa
        refine ⟨s', bs', ?_, hk, ?_, ?_⟩
        · rw [removeLoop, hat]
          simp only [Option.bind_eq_bind, Option.bind_some, if_neg hskip, hdel, if_neg hflag, hl]
        · rw [hev, hrest, events_congr hL, events_congr hM₁, remaining_that hthat, if_neg hflag]
        · rw [he, heu]

/- current is set anew. -/
theorem resetCurrent_spec (h : Kept s bs t) (hne : events s.notices ≠ []) :
    ∃ c, resetCurrent s = some { s with current := some c } ∧
      some c = ((faces s).find? fun f => !f.isdummy).map Face.addr := by
  obtain ⟨b₀, mid, z, rfl, hb0, hm0, -⟩ := h.fenced
  obtain ⟨c₀, ms, hf, -, hi, hm⟩ := h.marked
  have hsh : Shape s ([] ++ b₀ :: (mid ++ [z])) := h.shape
  have hnotes : s.notices = b₀.last :: notesOf (mid ++ [z]) := by
    rw [h.shape.notices, notesOf_cons, hb0]
    rfl
  rw [List.filter_cons_of_pos hm0, List.cons.injEq] at hf
  -- the first index entry is to the right of the first key
  obtain ⟨ia, hia, hlast⟩ : ∃ ia, s.index.head? = some ia ∧
      (lefts ia s.keys).getLast? = some b₀.key := by
    cases ms with
    | nil => simp at hm
    | cons m ms =>
      have hmem : m ∈ mid ++ [z] := List.mem_of_mem_filter (p := Block.marked) (by
        rw [hf.2]
        exact List.mem_cons_self)
      obtain ⟨p, q, hpq⟩ := List.append_of_mem hmem
      have hsm : Shape s ((b₀ :: p) ++ m :: q) := by
        rw [hpq] at hsh
        exact hsh
      refine ⟨m.key.addr, by rw [hi]; rfl, ?_⟩
      rw [hsm.lefts_key]
      simp
  have hright : rights b₀.key.notice s.notices = notesOf (mid ++ [z]) := hsh.rights_last
  have hev : events s.notices = events (notesOf (mid ++ [z])) := by
    rw [hnotes, events_cons, show b₀.last.isdummy = true from hm0]
    rfl
  rw [hev] at hne
  have hface : ∀ ns : List Notice, (events ns).head? =
      (ns.find? fun n => !n.isdummy).map Notice.face := by
    intro ns
    rw [← find_events, List.find?_map]
    rfl
  cases hfind : (notesOf (mid ++ [z])).find? fun n => !n.isdummy with
  | none =>
    have hhead := hface (notesOf (mid ++ [z]))
    rw [hfind] at hhead
    exact (hne (List.head?_eq_none_iff.1 hhead)).elim
  | some n =>
    refine ⟨n.addr, ?_, ?_⟩
    · rw [resetCurrent]
      simp only [Option.bind_eq_bind, hia, Option.bind_some, hlast, hright, hfind]
    · rw [faces, find_events, hev, hface, hfind]
      rfl

/-- el_remove takes what it is asked to take, if it leaves some event. -/
theorem elRemove_spec {id flag : Int} (h : Sound s bs t)
    (hne : events s.notices = [] ∨ remaining id flag (events s.notices) ≠ []) :
    ∃ s' bs', elRemove s id flag = some s' ∧ Sound s' bs' t ∧
      events s'.notices = remaining id flag (events s.notices) ∧ s'.NLIM = s.NLIM := by
  have hidx : s.index ≠ [] := by
    obtain ⟨ia, k, hi, -, -⟩ := h.first_mark
    intro h0
    rw [h0] at hi
    cases hi
  have hcur := h.current
  rw [faces, find_events] at hcur
  cases hev : events s.notices with
  | nil =>
    rw [hev] at hcur
    refine ⟨s, bs, ?_, h, by rw [hev, remaining_nil], rfl⟩
    rw [elRemove, if_neg hidx, hcur]
    rfl
  | cons f fs =>
    rw [hev] at hcur hne
    have hev' := hev
    rw [events] at hev'
    obtain ⟨l₁, l₂, he, hl, hreal, hfs⟩ := List.filter_eq_cons_iff.1 hev'
    obtain ⟨L, R', hLR, hL, hR⟩ := List.map_eq_append_iff.1 he
    obtain ⟨cur, R, rfl, hc, hR⟩ := List.map_eq_cons_iff.1 hR
    have hd := h.shape.distinct
    rw [hLR] at hd
    have haddr : f.addr = cur.addr := by rw [← hc]; rfl
    have hright : rights f.addr s.notices = R := by
      rw [hLR, haddr]
      exact rights_at hd
    have hL0 : events L = [] := by
      rw [events, hL]
      exact List.filter_eq_nil_iff.2 hl
    obtain ⟨u, cs, hloop, hku, hevu, heu⟩ := @removeLoop_spec _ _ _ id flag
      (f.addr :: R.map Notice.addr) _ _ h.toKept hLR (by rw [List.map_cons, haddr])
    have hwhole : events s.notices = events (cur :: R) := by
      rw [hLR, events_append, hL0]
      rfl
    rw [hL0, List.nil_append, ← hwhole, hev] at hevu
    have hne' := hne.resolve_left (List.cons_ne_nil f fs)
    obtain ⟨c, hreset, hcu⟩ := resetCurrent_spec hku (by rw [hevu]; exact hne')
    refine ⟨{ u with current := some c }, cs, ?_, ⟨⟨⟨hku.shape.notices, hku.shape.keys,
      hku.shape.ok, hku.shape.distinct, hku.shape.distinct_keys, hku.shape.fresh,
      hku.shape.fresh_keys⟩, hku.du, hku.dt, hku.lb, hku.lb_range, hku.top, hku.timeline,
      hku.index⟩, hcu⟩, hevu, by rw [heu]⟩
    rw [elRemove, if_neg hidx, hcur]
    simp only [List.head?_cons, Option.map_some, Option.bind_eq_bind, hright, hloop,
      Option.bind_some, hreset]

end Svr32.Cron
