import Svr32.Cron.Lose

/-! The index advances: its first interval becomes the last but one. -/
namespace Svr32.Cron
open Svr32.Lib Svr32.Lib.Linked
variable {s s' : El} {bs pre post : List Block} {b : Block} {t : Int}

theorem ladder_succ (dt : Int) (n : Nat) (t : Int) :
    ladder dt (n + 1) t = ladder dt n t ++ [t + n * dt] := by
  induction n generalizing t with
  | zero => simp [ladder]
  | succ n ih =>
    have ht : t + dt + n * dt = t + (n + 1 : Nat) * dt := by
      rw [Int.natCast_add, Int.add_mul]
      omega
    rw [ladder, ih, ht]
    rfl

theorem notes_mem (hb : b ∈ bs) {n : Notice} (hn : n ∈ b.notes) : n ∈ notesOf bs :=
  List.mem_flatMap.2 ⟨b, hb, hn⟩

/- A dummy notice that all the events are later than has none in front of it. -/
theorem Kept.bare (h : Kept s bs t) {t' : Int} (hlate : ∀ n ∈ s.notices, n.isdummy = false → t' ≤ n.time)
    (hbs : bs = pre ++ b :: post) (hm : b.marked = true) (ht : b.key.time ≤ t') :
    b.body = [] ∧ ∀ a ∈ pre, a.marked = true := by
  have hok := h.shape.ok
  rw [hbs] at hok
  have hb := hok b (by simp)
  have hsort := h.timeline.sorted
  have hn : s.notices = (notesOf pre ++ b.body) ++ b.last :: notesOf post := by
    subst hbs
    exact h.shape.notices_last
  rw [faces, List.pairwise_map, hn] at hsort
  have hno : ∀ n ∈ notesOf pre ++ b.body, n.isdummy = true := by
    intro n hmem
    by_contra hreal
    rw [Bool.not_eq_true] at hreal
    have hlt := ((List.pairwise_append.1 hsort).2.2 n hmem b.last List.mem_cons_self).2 hreal hm
    have hge := hlate n (by rw [hn]; exact List.mem_append_left _ hmem) hreal
    have htime := hb.time
    simp only [Notice.face] at hlt
    omega
  constructor
  · cases hbody : b.body with
    | nil => rfl
    | cons n body =>
      have hreal := (hb.plain n (by rw [hbody]; simp)).2
      rw [hno n (by rw [hbody]; simp)] at hreal
      cases hreal
  · intro a ha
    refine hno a.last (List.mem_append_left _ (notes_mem ha ?_))
    exact List.mem_append_right _ (List.mem_singleton_self _)

/- What the first two dummy notices leave, when the events are all later. -/
theorem Kept.front (h : Kept s bs t) (hDU : 3 ≤ s.DU)
    (hlate : ∀ n ∈ s.notices, n.isdummy = false → t < n.time) :
    ∃ b₀ m₁ Q₁ m Q₂ z, bs = b₀ :: m₁ :: (Q₁ ++ m :: Q₂) ∧ b₀.body = [] ∧ m₁.body = [] ∧
      b₀.marked = true ∧ m₁.marked = true ∧ m.marked = true ∧ b₀.key.time = s.LB ∧
      m₁.key.time = t ∧ m.key.time = t + (s.DU - 2) * s.DT ∧ z.key.time = INFINITY ∧
      Q₂.filter Block.marked = [z] ∧
      (Q₁.filter Block.marked).map (fun b => b.key.time) ++ [t + (s.DU - 2) * s.DT] =
        ladder s.DT (s.DU - 2).toNat (t + s.DT) ∧
      s.index = m₁.key.addr :: ((Q₁.filter Block.marked).map (fun b => b.key.addr) ++
        [m.key.addr, z.key.addr]) := by
  obtain ⟨b₀, ms, hf, h0, hi, hm⟩ := h.marked
  obtain ⟨n, hn⟩ : ∃ n : Nat, s.DU = n + 3 := ⟨(s.DU - 3).toNat, by omega⟩
  have hn1 : (s.DU - 1).toNat = n + 1 + 1 := by omega
  have hn2 : (s.DU - 2).toNat = n + 1 := by omega
  have hn3 : s.DU - 2 = (n + 1 : Nat) := by omega
  have hstep : t + s.DT + n * s.DT = t + (s.DU - 2) * s.DT := by
    rw [hn3, Int.natCast_add, Int.add_mul]
    omega
  -- the dummy notices one by one
  rw [hn1, ladder, ladder_succ, hstep, List.cons_append] at hm
  obtain ⟨m₁, ms', rfl, ht1, hm⟩ := List.map_eq_cons_iff.1 hm
  obtain ⟨l₁, l₂, rfl, hm1, hm2⟩ := List.map_eq_append_iff.1 hm
  obtain ⟨ms₃, l₄, rfl, hm3, hm4⟩ := List.map_eq_append_iff.1 hm1
  obtain ⟨z, l₅, rfl, hz, hm5⟩ := List.map_eq_cons_iff.1 hm2
  obtain ⟨m, l₆, rfl, htm, hm6⟩ := List.map_eq_cons_iff.1 hm4
  obtain rfl := List.map_eq_nil_iff.1 hm5
  obtain rfl := List.map_eq_nil_iff.1 hm6
  -- and where they are
  obtain ⟨p₀, q₀, hbs, hp0, hb0, hf⟩ := List.filter_eq_cons_iff.1 hf
  obtain ⟨p₁, Q, rfl, hp1, hb1, hf⟩ := List.filter_eq_cons_iff.1 hf
  obtain ⟨Qa, Qb, rfl, hfa, hfb⟩ := List.filter_eq_append_iff.1 hf
  obtain ⟨Qx, Qy, rfl, hfx, hfy⟩ := List.filter_eq_append_iff.1 hfa
  obtain ⟨Qc, Qd, rfl, hc, hbm, hfd⟩ := List.filter_eq_cons_iff.1 hfy
  have hempty : ∀ l : List Block, (∀ x ∈ l, ¬ x.marked = true) → (∀ x ∈ l, x.marked = true) →
      l = [] := by
    intro l h1 h2
    cases l with
    | nil => rfl
    | cons x l => exact (h1 x List.mem_cons_self (h2 x List.mem_cons_self)).elim
  have hreal : ∀ n ∈ s.notices, n.isdummy = false → s.LB ≤ n.time := fun n hn hr =>
    (h.timeline.real n.face (List.mem_map_of_mem hn) hr).1
  obtain ⟨hbody0, hall0⟩ := h.bare hreal hbs hb0 (Int.le_of_eq h0)
  obtain rfl := hempty p₀ hp0 hall0
  have hbs1 : bs = (b₀ :: p₁) ++ m₁ :: (Qx ++ (Qc ++ m :: Qd) ++ Qb) := by
    rw [hbs]
    rfl
  obtain ⟨hbody1, hall1⟩ := h.bare (fun n hn hr => Int.le_of_lt (hlate n hn hr)) hbs1 hb1
    (Int.le_of_eq ht1)
  obtain rfl := hempty p₁ hp1 fun x hx => hall1 x (List.mem_cons_of_mem b₀ hx)
  have hfc : Qc.filter Block.marked = [] := List.filter_eq_nil_iff.2 hc
  refine ⟨b₀, m₁, Qx ++ Qc, m, Qd ++ Qb, z, ?_, hbody0, hbody1, hb0, hb1, hbm, h0, ht1, htm, hz,
    ?_, ?_, ?_⟩
  · rw [hbs1]
    simp
  · rw [List.filter_append, hfd, hfb]
    rfl
  · rw [List.filter_append, hfx, hfc, List.append_nil, hm3, hn2, ladder_succ, hstep]
  · rw [hi, List.filter_append, hfx, hfc, List.append_nil]
    simp

/-- The interval of a new dummy notice is split off the sublist that it falls in. -/
theorem splitAt_spec {X : Int} (h : Shape s (pre ++ b :: post))
    (hsort : (faces s).Pairwise Earlier) (hpre : pre ≠ []) (hlt : ∀ n ∈ notesOf pre, n.time < X) :
    ∃ m c d n r, (lefts b.key.notice s.notices).find? (fun n => !decide (n.time ≥ X)) = some m ∧
      (lefts b.key.notice s.notices).takeWhile (fun n => decide (n.time ≥ X)) = d.reverse ∧
      b.body = c ++ d ∧ (∀ n ∈ c, n.time < X) ∧ (∀ n ∈ d, X ≤ n.time) ∧
      (rights m.addr s.notices).head? = some n ∧ d ++ b.last :: notesOf post = n :: r := by
  have hn := h.notices_last
  rw [faces, List.pairwise_map, hn, List.append_assoc] at hsort
  have hs : (b.body ++ b.last :: notesOf post).Pairwise fun m m' => m.time ≤ m'.time :=
    ((List.pairwise_append.1 hsort).2.1).imp fun he => he.1
  obtain ⟨c, d, hbody, hc, hd⟩ := sorted_split (List.pairwise_append.1 hs).1 (X - 1)
  have hc' : ∀ n ∈ c, n.time < X := fun n hn => by
    have := hc n hn
    omega
  have hd' : ∀ n ∈ d, X ≤ n.time := fun n hn => by
    have := hd n hn
    omega
  obtain ⟨L', m, hL⟩ : ∃ L' m, notesOf pre ++ c = L' ++ [m] := by
    rcases List.eq_nil_or_concat (notesOf pre ++ c) with h0 | ⟨L', m, hL⟩
    · exact (notesOf_ne_nil hpre (List.append_eq_nil_iff.1 h0).1).elim
    · exact ⟨L', m, by rw [hL, List.concat_eq_append]⟩
  have hm : m.time < X := by
    have hall := List.forall_mem_append.2 ⟨hlt, hc'⟩
    exact hall m (by rw [hL]; simp)
  have hlefts : lefts b.key.notice s.notices = d.reverse ++ m :: L'.reverse := by
    rw [h.lefts_last, hbody, List.reverse_append, List.append_assoc, ← List.reverse_append, hL,
      List.reverse_append]
    rfl
  obtain ⟨n, r, hr⟩ : ∃ n r, d ++ b.last :: notesOf post = n :: r := by
    cases d with
    | nil => exact ⟨_, _, rfl⟩
    | cons x d => exact ⟨_, _, rfl⟩
  refine ⟨m, c, d, n, r, ?_, ?_, hbody, hc', hd', ?_, hr⟩
  · rw [hlefts]
    refine find?_stop (fun y hy => ?_) (by simpa using hm)
    simpa using hd' y (List.mem_reverse.1 hy)
  · rw [hlefts, List.takeWhile_append_of_pos, List.takeWhile_cons_of_neg, List.append_nil]
    · simpa using hm
    · intro y hy
      simpa using hd' y (List.mem_reverse.1 hy)
  · have hn' : s.notices = L' ++ m :: (d ++ b.last :: notesOf post) := by
      rw [hn, hbody, ← List.append_assoc, hL]
      simp only [List.append_assoc, List.cons_append, List.nil_append]
    have hdist := h.distinct
    rw [hn'] at hdist ⊢
    have hright : rights m.addr (L' ++ m :: (d ++ b.last :: notesOf post)) = _ := rights_at hdist
    rw [hright, hr]
    rfl

/- The block of the new dummy notice, and what is left of the overflow interval. -/
theorem Shape.mark {c d : List Notice} {f : Notice} {fk : Key} {X : Int}
    (h : Shape s (pre ++ b :: post)) (hb : b.body = c ++ d) (hf : f.key = some fk.addr)
    (hfk : fk.notice = f.addr) (hnew : ∀ n ∈ s.notices, n.addr ≠ f.addr)
    (hnewk : ∀ k ∈ s.keys, k.addr ≠ fk.addr) (hfr : f.addr < s.fresh) (hfrk : fk.addr < s.fresh) :
    Shape { s with
      notices := (notesOf pre ++ c) ++ { f with time := X } :: (d ++ b.last :: notesOf post)
      keys := pre.map Block.key ++ { fk with time := X, numnote := c.length + 1 } ::
        b.key.setNumnote (d.length + 1) :: post.map Block.key }
      (pre ++ ⟨{ fk with time := X, numnote := c.length + 1 }, c, { f with time := X }⟩ ::
        ⟨b.key.setNumnote (d.length + 1), d, b.last⟩ :: post) := by
  have hok := h.ok b (by simp)
  have hp := hok.plain
  rw [hb, List.forall_mem_append] at hp
  have hn : s.notices = (notesOf pre ++ c) ++ (d ++ b.last :: notesOf post) := by
    rw [h.notices_last, hb]
    simp only [List.append_assoc]
  refine ⟨?_, ?_, ?_, ?_, ?_, ?_, ?_⟩
  · rw [notesOf_append, notesOf_cons, notesOf_cons]
    simp only [List.append_assoc]
  · rw [List.map_append, List.map_cons, List.map_cons]
  · intro x hx
    rcases List.mem_append.1 hx with hx | hx
    · exact h.ok x (List.mem_append_left _ hx)
    · rcases List.mem_cons.1 hx with rfl | hx
      · exact ⟨hfk, hf, rfl, rfl, hp.1⟩
      · rcases List.mem_cons.1 hx with rfl | hx
        · exact hok.recount hp.2
        · exact h.ok x (by simp [hx])
  · have hd := h.distinct
    rw [hn] at hd hnew
    exact hd.put hnew
  · have hd := h.distinct_keys
    rw [h.keys_at] at hd hnewk
    rw [List.forall_mem_append, List.forall_mem_cons] at hnewk
    exact (hd.swap (y := b.key.setNumnote (d.length + 1)) rfl).put
      (List.forall_mem_append.2 ⟨hnewk.1, List.forall_mem_cons.2 hnewk.2⟩)
  · have hfresh := h.fresh
    rw [hn, List.forall_mem_append] at hfresh
    exact List.forall_mem_append.2 ⟨hfresh.1, List.forall_mem_cons.2 ⟨hfr, hfresh.2⟩⟩
  · have hfresh := h.fresh_keys
    rw [h.keys_at, List.forall_mem_append, List.forall_mem_cons] at hfresh
    exact List.forall_mem_append.2
      ⟨hfresh.1, List.forall_mem_cons.2 ⟨hfrk, List.forall_mem_cons.2 hfresh.2⟩⟩

/- A dummy notice that is put in order. -/
theorem pairwise_mark {A B : List Notice} {f : Notice} (h : ((A ++ B).map Notice.face).Pairwise Earlier)
    (hf : f.isdummy = true) (hA : ∀ n ∈ A, n.time < f.time) (hB : ∀ n ∈ B, f.time ≤ n.time) :
    ((A ++ f :: B).map Notice.face).Pairwise Earlier := by
  rw [List.pairwise_map] at h ⊢
  obtain ⟨hA', hB', hAB⟩ := List.pairwise_append.1 h
  refine List.pairwise_append.2 ⟨hA', List.pairwise_cons.2 ⟨fun n hn => ⟨hB n hn, fun hr _ => ?_⟩,
    hB'⟩, fun n hn m hm => ?_⟩
  · have hr' : f.isdummy = false := hr
    rw [hf] at hr'
    cases hr'
  · rcases List.mem_cons.1 hm with rfl | hm
    · exact ⟨Int.le_of_lt (hA n hn), fun _ _ => hA n hn⟩
    · exact hAB n hn m hm

/- The events of a list. -/
def events (ns : List Notice) : List Face := (ns.map Notice.face).filter fun f => !f.isdummy

theorem events_put {A B : List Notice} {f : Notice} (hf : f.isdummy = true) :
    events (A ++ f :: B) = events (A ++ B) := by
  have hneg : (f.face :: B.map Notice.face).filter (fun f => !f.isdummy) =
      (B.map Notice.face).filter fun f => !f.isdummy := by
    refine List.filter_cons_of_neg ?_
    rw [Notice.face, hf]
    exact Bool.false_ne_true
  rw [events, events, List.map_append, List.map_cons, List.filter_append, hneg, List.map_append,
    List.filter_append]

theorem filter_swap {b' z : Block} {l : List Block} (h : (b :: l).filter Block.marked = [z])
    (hl : b'.last = b.last) (ha : b'.key.addr = b.key.addr) :
    ∃ z', (b' :: l).filter Block.marked = [z'] ∧ z'.key.addr = z.key.addr ∧ z'.last = z.last := by
  have hm : b'.marked = b.marked := by rw [Block.marked, Block.marked, hl]
  rw [List.filter_cons] at h
  by_cases hb : b.marked = true
  · rw [if_pos hb, List.cons.injEq] at h
    exact ⟨b', by rw [List.filter_cons, hm, if_pos hb, h.2], by rw [ha, h.1], by rw [hl, h.1]⟩
  · rw [if_neg hb] at h
    exact ⟨z, by rw [List.filter_cons, hm, if_neg hb, h], rfl, rfl⟩

/-- The first interval goes to the end; the events are the same. -/
theorem rotate_spec (h : Kept s bs t) (hDU : 3 ≤ s.DU)
    (hlate : ∀ n ∈ s.notices, n.isdummy = false → t < n.time)
    (htop : t + (s.DU - 1) * s.DT ≤ INFINITY) :
    ∃ s' bs', rotate s = some s' ∧ Kept s' bs' (t + s.DT) ∧ events s'.notices = events s.notices ∧
      s' = { s with index := s'.index, notices := s'.notices, keys := s'.keys } := by
  obtain ⟨b₀, m₁, Q₁, m, Q₂, z, rfl, hbody0, hbody1, hm0, hm1, hmm, ht0, ht1, htm, htz, hQ2, hlad,
    hindex⟩ := h.front hDU hlate
  have hdt := h.dt
  have hlb := h.lb
  have hmul : (s.DU - 1) * s.DT = (s.DU - 2) * s.DT + s.DT := by
    rw [show s.DU - 1 = s.DU - 2 + 1 by omega, Int.add_mul, Int.one_mul]
  have hmul0 : 0 ≤ (s.DU - 2) * s.DT := Int.mul_nonneg (by omega) (by omega)
  obtain ⟨X, hX⟩ : ∃ X, X = t + (s.DU - 1) * s.DT := ⟨_, rfl⟩
  have hXm : m.key.time + s.DT = X := by omega
  have hnext : i32 (m.key.time + s.DT) = X := by
    have hr := h.lb_range
    have hinf : INFINITY = 2147483647 := rfl
    rw [hXm]
    exact i32_eq (by omega) (by omega)
  -- the first interval is taken out
  have hsh : Shape s ([b₀] ++ m₁ :: (Q₁ ++ m :: Q₂)) := h.shape
  have hat1 := hsh.at_key
  have hlast1 := hsh.at_last
  have hd := h.shape.distinct
  have hn : s.notices = notesOf [b₀] ++ m₁.last :: notesOf (Q₁ ++ m :: Q₂) := by
    have hn := hsh.notices_last
    rwa [hbody1, List.append_nil] at hn
  have hdk := h.shape.distinct_keys
  obtain ⟨u, hu⟩ : ∃ u : El, u = { s with
      notices := notesOf [b₀] ++ notesOf (Q₁ ++ m :: Q₂)
      keys := [b₀].map Block.key ++ (Q₁ ++ m :: Q₂).map Block.key } := ⟨_, rfl⟩
  have hshu : Shape u ((b₀ :: Q₁) ++ m :: Q₂) := by
    rw [hu]
    exact hsh.drop hbody1
  have hcut : cut m₁.last.addr s.notices = some u.notices := by
    rw [hu]
    rw [hn] at hd ⊢
    exact cut_at hd (notesOf_ne_nil (by simp)) (notesOf_ne_nil (by simp))
  have hcutk : cut m₁.key.addr s.keys = some u.keys := by
    rw [hu]
    rw [hsh.keys_at] at hdk ⊢
    exact cut_at hdk (by simp) (by simp)
  have hsortu : (faces u).Pairwise Earlier := by
    have hs := h.timeline.sorted
    rw [faces, hn, List.map_append, List.map_cons] at hs
    obtain ⟨hl, hr, hlr⟩ := List.pairwise_append.1 hs
    rw [hu, faces, List.map_append]
    exact List.pairwise_append.2 ⟨hl, (List.pairwise_cons.1 hr).2,
      fun f hf g hg => hlr f hf g (List.mem_cons_of_mem _ hg)⟩
  -- the sublist that the new dummy notice is in
  have hz : z ∈ Q₂ := List.mem_of_mem_filter (p := Block.marked) (hQ2 ▸ List.mem_singleton_self z)
  obtain ⟨Q₃, b, Q₄, rfl, hb, hQ3⟩ := exists_first
    (p := fun b : Block => X ≤ b.key.time) ⟨z, hz, by rw [htz, hX]; exact htop⟩
  have hfindk : (m.key :: rights m.key.addr u.keys).find? (fun k => !decide (k.time < X)) =
      some b.key := by
    rw [hshu.rights_key, List.map_append, List.map_cons, ← List.cons_append]
    refine find?_stop (List.forall_mem_cons.2 ⟨?_, fun k hk => ?_⟩) ?_
    · simpa using (by omega : m.key.time < X)
    · obtain ⟨c, hc, rfl⟩ := List.mem_map.1 hk
      have hlt := hQ3 c hc
      simpa using hlt
    · simpa using hb
  have hassoc : (b₀ :: Q₁) ++ m :: (Q₃ ++ b :: Q₄) = (b₀ :: (Q₁ ++ m :: Q₃)) ++ b :: Q₄ := by simp
  have hshb : Shape u ((b₀ :: (Q₁ ++ m :: Q₃)) ++ b :: Q₄) := hassoc ▸ hshu
  have hlt : ∀ n ∈ notesOf (b₀ :: (Q₁ ++ m :: Q₃)), n.time < X := by
    obtain ⟨p, a, hpa, ha⟩ : ∃ p a, b₀ :: (Q₁ ++ m :: Q₃) = p ++ [a] ∧ a.key.time < X := by
      rcases List.eq_nil_or_concat Q₃ with rfl | ⟨q, a, rfl⟩
      · exact ⟨b₀ :: Q₁, m, rfl, by omega⟩
      · refine ⟨b₀ :: (Q₁ ++ m :: q), a, by simp, ?_⟩
        have hlt := hQ3 a (by simp)
        omega
    intro n hn
    have hsha : Shape u (p ++ a :: b :: Q₄) := by
      rw [hpa, List.append_assoc] at hshb
      exact hshb
    rw [hpa] at hn
    have hle := hsha.le_last hsortu n hn
    have hta := (hsha.ok a (by simp)).time
    omega
  obtain ⟨x, c, d, y, r, hfind, htake, hbody, hc, hd', hhead, hr⟩ := splitAt_spec (X := X) hshb
    hsortu (by simp) hlt
  -- and the list with it
  have hok1 := h.shape.ok m₁ (by simp)
  rw [hn] at hd
  rw [hsh.keys_at] at hdk
  have hnew : ∀ n ∈ u.notices, n.addr ≠ m₁.last.addr := by
    rw [hu]
    exact List.forall_mem_append.2 hd.ne
  have hnewk : ∀ k ∈ u.keys, k.addr ≠ m₁.key.addr := by
    rw [hu]
    exact List.forall_mem_append.2 hdk.ne
  have hfr : m₁.last.addr < u.fresh := by
    rw [hu]
    exact h.shape.fresh m₁.last (by rw [hn]; simp)
  have hfrk : m₁.key.addr < u.fresh := by
    rw [hu]
    exact h.shape.fresh_keys m₁.key (by rw [hsh.keys_at]; simp)
  have hmark := hshb.mark (X := X) hbody hok1.back hok1.notice hnew hnewk hfr hfrk
  have hnu : u.notices = (notesOf (b₀ :: (Q₁ ++ m :: Q₃)) ++ c) ++ y :: r := by
    rw [hshb.notices_last, hbody, ← hr]
    simp only [List.append_assoc]
  have hput : putBefore y.addr { m₁.last with time := X } u.notices =
      some ((notesOf (b₀ :: (Q₁ ++ m :: Q₃)) ++ c) ++ { m₁.last with time := X } ::
        (d ++ b.last :: notesOf Q₄)) := by
    have hdu := hshb.distinct
    rw [hr]
    rw [hnu] at hdu ⊢
    refine putBefore_at hdu fun h0 => ?_
    exact notesOf_ne_nil (List.cons_ne_nil _ _) (List.append_eq_nil_iff.1 h0).1
  have hcount : b.key.numnote - ((d.reverse.length + 1 : Nat) : Int) + 1 = c.length + 1 := by
    rw [(hshb.ok b (by simp)).count, hbody, List.length_append, List.length_reverse]
    omega
  have hputk : putBefore b.key.addr { m₁.key with time := X, numnote := b.key.numnote -
        ((d.reverse.length + 1 : Nat) : Int) + 1 }
      (change b.key.addr (fun k => k.setNumnote ((d.reverse.length + 1 : Nat) : Int)) u.keys) =
      some ((b₀ :: (Q₁ ++ m :: Q₃)).map Block.key ++
        { m₁.key with time := X, numnote := c.length + 1 } ::
          b.key.setNumnote (d.length + 1) :: Q₄.map Block.key) := by
    have hdu := hshb.distinct_keys
    rw [hcount, List.length_reverse]
    rw [hshb.keys_at] at hdu ⊢
    have hch : change b.key.addr (fun k => k.setNumnote ((d.length + 1 : Nat) : Int))
        ((b₀ :: (Q₁ ++ m :: Q₃)).map Block.key ++ b.key :: Q₄.map Block.key) = _ := change_at hdu
    rw [hch]
    exact putBefore_at (hdu.swap (y := b.key.setNumnote (d.length + 1)) rfl) (by simp)
  obtain ⟨F, hF⟩ : ∃ F : Block, F = ⟨{ m₁.key with time := X, numnote := c.length + 1 }, c,
    { m₁.last with time := X }⟩ := ⟨_, rfl⟩
  obtain ⟨B', hB'⟩ : ∃ B' : Block, B' = ⟨b.key.setNumnote (d.length + 1), d, b.last⟩ := ⟨_, rfl⟩
  -- the dummy notices afterwards
  have hzb : z.last.time = INFINITY := by rw [← htz, (h.shape.ok z (by simp [hz])).time]
  have hmb : m.last.time = t + (s.DU - 2) * s.DT := by rw [← htm, (h.shape.ok m (by simp)).time]
  have hmarks : ∃ z', (b₀ :: (Q₁ ++ m :: Q₃) ++ F :: B' :: Q₄).filter Block.marked =
      b₀ :: (Q₁.filter Block.marked ++ [m, F, z']) ∧ z'.key.addr = z.key.addr ∧
        z'.last = z.last := by
    rw [List.filter_append] at hQ2
    have hnil : Q₃.filter Block.marked = [] := by
      refine List.eq_nil_iff_forall_not_mem.2 fun x hx => ?_
      have hxz : x ∈ [z] := hQ2 ▸ List.mem_append_left _ hx
      have hlt := hQ3 x (List.mem_of_mem_filter hx)
      rw [List.mem_singleton.1 hxz, htz] at hlt
      omega
    rw [hnil, List.nil_append] at hQ2
    obtain ⟨z', hz', h1, h2⟩ := @filter_swap _ B' _ _ hQ2 (by rw [hB']) (by rw [hB']; rfl)
    refine ⟨z', ?_, h1, h2⟩
    have hFm : F.marked = true := by
      rw [hF]
      exact hm1
    rw [List.filter_append, List.filter_cons_of_pos hm0, List.filter_append,
      List.filter_cons_of_pos hmm, hnil, List.filter_cons_of_pos hFm, hz']
    simp
  obtain ⟨z', hfilter, hza, hzl⟩ := hmarks
  refine ⟨{ u with
    index := (Q₁.filter Block.marked).map (fun b => b.key.addr) ++ [m.key.addr, m₁.key.addr,
      z.key.addr]
    notices := (notesOf (b₀ :: (Q₁ ++ m :: Q₃)) ++ c) ++ { m₁.last with time := X } ::
        (d ++ b.last :: notesOf Q₄)
    keys := (b₀ :: (Q₁ ++ m :: Q₃)).map Block.key ++
        { m₁.key with time := X, numnote := c.length + 1 } ::
          b.key.setNumnote (d.length + 1) :: Q₄.map Block.key },
    b₀ :: (Q₁ ++ m :: Q₃) ++ F :: B' :: Q₄, ?_, ⟨?_, ?_, ?_, ?_, ?_, ?_, ⟨?_, ?_, ?_⟩, ?_⟩, ?_, ?_⟩
  · have hhead1 : s.index.head? = some m₁.key.addr := by rw [hindex]; rfl
    have htail : s.index.tail = (Q₁.filter Block.marked).map (fun b => b.key.addr) ++
        [m.key.addr, z.key.addr] := by rw [hindex]; rfl
    have hdrop : ((Q₁.filter Block.marked).map (fun b => b.key.addr) ++
        [m.key.addr, z.key.addr]).dropLast =
          (Q₁.filter Block.marked).map (fun b => b.key.addr) ++ [m.key.addr] := by
      rw [List.dropLast_append_of_ne_nil (by simp)]
      rfl
    have hlasti : ((Q₁.filter Block.marked).map (fun b => b.key.addr) ++
        [m.key.addr, z.key.addr]).getLast? = some z.key.addr := by simp
    have hatm := hshu.at_key
    rw [rotate]
    simp only [Option.bind_eq_bind, hhead1, Option.bind_some, hat1, hlast1, hcut, hcutk, htail,
      hdrop, hlasti, List.getLast?_concat, hatm, hnext, hfindk, hfind, htake, hhead, hputk, hput]
    rw [hu]
    simp
  · rw [hF, hB']
    exact ⟨hmark.notices, hmark.keys, hmark.ok, hmark.distinct, hmark.distinct_keys, hmark.fresh,
      hmark.fresh_keys⟩
  · rw [hu]
    exact h.du
  · rw [hu]
    exact h.dt
  · rw [hu]
    simp only
    omega
  · rw [hu]
    exact h.lb_range
  · rw [hu]
    simp only
    omega
  · -- the dummy notice is between the notices of the two intervals
    refine pairwise_mark ?_ hm1 ?_ ?_
    · have hs := hsortu
      rw [faces, hnu, ← hr] at hs
      exact hs
    · exact List.forall_mem_append.2 ⟨hlt, hc⟩
    · have hs := hsortu
      rw [faces, List.pairwise_map, hshb.notices_last] at hs
      have hX' : X ≤ b.last.time := by
        rw [← (hshb.ok b (by simp)).time]
        exact hb
      refine List.forall_mem_append.2 ⟨hd', List.forall_mem_cons.2 ⟨hX', fun n hn => ?_⟩⟩
      have hle : b.last.time ≤ n.time :=
        (List.rel_of_pairwise_cons (List.pairwise_append.1 hs).2.1 hn).1
      exact Int.le_trans hX' hle
  · intro f hf hreal
    have hall : ∀ n ∈ u.notices, n ∈ s.notices := by
      intro n hn'
      rw [hu] at hn'
      rw [hn]
      rcases List.mem_append.1 hn' with hn' | hn'
      · exact List.mem_append_left _ hn'
      · exact List.mem_append_right _ (List.mem_cons_of_mem _ hn')
    rw [hnu, ← hr] at hall
    have hLB : u.LB = s.LB := by rw [hu]
    obtain ⟨n, hn', rfl⟩ := List.mem_map.1 hf
    rcases List.mem_append.1 hn' with hn' | hn'
    · exact hLB ▸ h.timeline.real _ (List.mem_map_of_mem (hall n (List.mem_append_left _ hn'))) hreal
    · rcases List.mem_cons.1 hn' with rfl | hn'
      · have hd1 : m₁.last.isdummy = false := hreal
        rw [show m₁.last.isdummy = true from hm1] at hd1
        cases hd1
      · exact hLB ▸ h.timeline.real _
          (List.mem_map_of_mem (hall n (List.mem_append_right _ hn'))) hreal
  · have hokm := hmark.ok
    rw [← hF, ← hB'] at hokm
    have hnotes : (notesOf (b₀ :: (Q₁ ++ m :: Q₃)) ++ c) ++ { m₁.last with time := X } ::
        (d ++ b.last :: notesOf Q₄) = notesOf (b₀ :: (Q₁ ++ m :: Q₃) ++ F :: B' :: Q₄) := by
      rw [notesOf_append, notesOf_cons F, notesOf_cons B', hF, hB']
      simp only [List.append_assoc]
    rw [faces]
    simp only
    rw [hnotes, filter_notesOf hokm, hfilter]
    have htimes : (Q₁.filter Block.marked).map (fun b => b.last.time) =
        (Q₁.filter Block.marked).map (fun b => b.key.time) :=
      List.map_congr_left fun b hb =>
        ((h.shape.ok b (by simp [List.mem_of_mem_filter hb])).time).symm
    have hladder : ladder s.DT (s.DU - 1).toNat (t + s.DT) =
        ladder s.DT (s.DU - 2).toNat (t + s.DT) ++ [X] := by
      have hsucc : (s.DU - 1).toNat = (s.DU - 2).toNat + 1 := by omega
      have hcast : (((s.DU - 2).toNat : Nat) : Int) = s.DU - 2 := by omega
      have hX2 : t + s.DT + (s.DU - 2) * s.DT = X := by omega
      rw [hsucc, ladder_succ, hcast, hX2]
    have h0 : b₀.last.time = s.LB := by rw [← ht0, (h.shape.ok b₀ (by simp)).time]
    have hFt : F.last.time = X := by rw [hF]
    have hzt : z'.last.time = INFINITY := by rw [hzl, hzb]
    rw [hu]
    simp only
    rw [hladder, ← hlad, ← htimes]
    simp only [List.map_cons, List.map_append, List.map_map, Function.comp_def, Notice.face, h0,
      hmb, hFt, hzt, List.map_nil, List.append_assoc, List.cons_append, List.nil_append]
  · rw [marks, hfilter]
    simp [hza, hF]
  · refine Eq.trans (b := events ((notesOf (b₀ :: (Q₁ ++ m :: Q₃)) ++ c) ++
      (d ++ b.last :: notesOf Q₄))) ?_ ?_
    · exact events_put (f := { m₁.last with time := X }) hm1
    have hun : u.notices = notesOf [b₀] ++ notesOf (Q₁ ++ m :: (Q₃ ++ b :: Q₄)) := by rw [hu]
    rw [hn, events_put hm1, ← hun, hnu, ← hr]
  · rw [hu]

end Svr32.Cron
