import Mathlib.Data.Int.Order.Basic
import Svr32.Libc.Tsearch

/-! Runs of tsearch and tdelete. Under an order of the keys that compar follows, the nodes always
make a search tree. -/
namespace Svr32.Libc
open Svr32.Lib.SearchTree
variable {K : Type}

/-! Changing a link. -/

section change
variable {h : Heap K} {t u l r v : BinaryTree (Nat × K)} {x y : Nat × K} {a b n q : Nat}
  {c c' : Cell} {s : Side} {node : Node K} {pre post : List (Nat × K)}

theorem write_link (hn : h.mem a = some node) (q : Nat) (s : Side) : h.write q (.link a s) =
    some { h with mem := Function.update h.mem a (some (node.setLink q s)) } := by
  rw [Heap.write, hn]
  rfl

/- A write at a cell changes the root or one link, and nothing else. -/
theorem write_spec (hr : h.read c = some b) (q : Nat) : ∃ h', h.write q c = some h' ∧
    h'.root = (if c = .root then q else h.root) ∧
    (∀ y s, c = .link y s → h'.mem y = (h.mem y).map fun n => n.setLink q s) ∧
    ∀ y, c.owner ≠ some y → h'.mem y = h.mem y := by
  cases c with
  | root => exact ⟨{ h with root := q }, rfl, rfl, fun y s he => (nomatch he), fun y _ => rfl⟩
  | link z s =>
    obtain ⟨node, hn, -⟩ := Option.map_eq_some_iff.1 hr
    refine ⟨_, write_link hn q s, rfl, ?_, ?_⟩
    · rintro y s' ⟨rfl, rfl⟩
      simp [hn]
    · intro y hy
      have hne : y ≠ z := fun he => hy (by rw [he]; rfl)
      exact Function.update_of_ne hne _ _

/- The loop goes down the left links. -/
theorem successor_path (ht : Rep h.mem t b) (hne : t ≠ .nil) :
    ∃ p w wr post, Path (.link a .left) t (.link p .left) (.node w .nil wr) [] post ∧
      ∀ n > t.height, successor h n a b = some (p, w.1) := by
  induction t generalizing a b with
  | nil => exact (hne rfl).elim
  | node z l r ihl _ =>
    obtain ⟨rfl, -, node, hz, -, hl, -⟩ := ht
    have hturn : ∀ n > (BinaryTree.node z l r).height, ∃ m, l.height < m ∧ successor h n a z.1 =
        if node.llink = 0 then some (a, z.1) else successor h m z.1 node.llink := by
      rintro (_ | m) hn
      · cases hn
      · have hh : max l.height r.height + 1 < m + 1 := hn
        exact ⟨m, by omega, by simp [successor, hz]⟩
    by_cases h0 : node.llink = 0
    · rw [h0] at hl
      obtain rfl := hl.nil_of_zero
      refine ⟨a, z, r, [], .here _ _, fun n hn => ?_⟩
      obtain ⟨m, -, hs⟩ := hturn n hn
      rw [hs, if_pos h0]
    · have hl0 : l ≠ .nil := by
        rintro rfl
        exact h0 hl
      obtain ⟨p, w, wr, post, hp, he⟩ := ihl (a := z.1) hl hl0
      refine ⟨p, w, wr, _, .step _ z r .left hp, fun n hn => ?_⟩
      obtain ⟨m, hm, hs⟩ := hturn n hn
      rw [hs, if_neg h0, he m hm]

/- Where the right tree has no left part, its root takes the left tree. -/
theorem replacement_near {rr : BinaryTree (Nat × K)} {la ra : Nat}
    (hl : Rep h.mem l la) (hr : Rep h.mem (.node y .nil rr) ra) (hyl : y.1 ∉ nodes l)
    (hyr : y.1 ∉ nodes rr) : ∃ h', h.write la (.link ra .left) = some h' ∧
      Rep h'.mem (.node y l rr) ra ∧ h'.root = h.root ∧
      ∀ z, z ≠ y.1 → h'.mem z = h.mem z := by
  obtain ⟨rfl, h0, node, hy, hk, -, hrr⟩ := hr
  have hside : ∀ {t a}, Rep h.mem t a → y.1 ∉ nodes t →
      Rep (Function.update h.mem y.1 (some (node.setLink la .left))) t a := by
    intro t a ht hyt
    refine ht.congr fun z hz => Function.update_of_ne (fun he => hyt ?_) _ _
    rw [← he]
    exact mem_nodes hz
  exact ⟨_, write_link hy la .left, ⟨rfl, h0, _, Function.update_self _ _ _, hk, hside hl hyl,
    hside hrr hyr⟩, rfl, fun z hz => Function.update_of_ne hz _ _⟩

/- Else the first node of the right tree is taken out, and has both trees. -/
theorem replacement_far (hp : Path (.link x.1 .right) r (.link a .left) (.node y .nil v) [] post)
    {node : Node K} (hx : h.mem x.1 = some node) (hl : Rep h.mem l node.llink)
    (hr : Rep h.mem r node.rlink) (hnd : (nodes (.node x l r)).Nodup) :
    ∃ succ h₁ h₂ h₃ r', h.mem y.1 = some succ ∧ h.write succ.rlink (.link a .left) = some h₁ ∧
      h₁.mem x.1 = some node ∧ h₁.write node.llink (.link y.1 .left) = some h₂ ∧
      h₂.mem x.1 = some node ∧ h₂.write node.rlink (.link y.1 .right) = some h₃ ∧
      Rep h₃.mem (.node y l r') y.1 ∧ inorder r = y :: inorder r' ∧ h₃.root = h.root ∧
      ∀ z, z ∉ nodes r → h₃.mem z = h.mem z := by
  have hnd' : (nodes (join .right x r l)).Nodup := hnd
  obtain ⟨hnr, -, hxr, hxl, hrl⟩ := nodup_join.1 hnd'
  have hread : h.read (.link x.1 .right) = some node.rlink := by rw [Heap.read, hx]; rfl
  obtain ⟨b, hb, rfl, hy0, succ, hy, hk, -, hv⟩ := hp.read hread hr
  have hin : inorder r = y :: (inorder v ++ post) := by rw [hp.split]; simp [inorder]
  have hnr' : y.1 ∉ nodes v ++ post.map Prod.fst ∧ (nodes v ++ post.map Prod.fst).Nodup := by
    rw [nodes, hin] at hnr
    simpa [nodes] using hnr
  obtain ⟨hyv, hnv⟩ := hnr'
  -- the owner of the cell is passed on the way
  have hapost : a ∈ post.map Prod.fst := by
    rcases hp.owner with he | ⟨z, hz, ho⟩
    · cases he
    · exact List.mem_map.2 ⟨z, by simpa using hz, (Option.some.inj ho).symm⟩
  have har : a ∈ nodes r := by rw [nodes, hin]; grind
  have hyr : y.1 ∈ nodes r := mem_nodes (by rw [hin]; exact List.mem_cons_self)
  have hay : a ≠ y.1 := by grind
  have hxa : x.1 ≠ a := fun he => hxr (he ▸ har)
  have hxy : x.1 ≠ y.1 := fun he => hxr (he ▸ hyr)
  obtain ⟨h₁, hw₁, hroot₁, hlink₁, hframe₁⟩ := write_spec hb succ.rlink
  have hmem₁ : ∀ z, z ≠ a → h₁.mem z = h.mem z :=
    fun z hz => hframe₁ z fun ho => hz (Option.some.inj ho).symm
  have hrep₁ : Rep h₁.mem v succ.rlink := by
    refine hv.congr fun z hz => hmem₁ _ fun he => ?_
    have := mem_nodes hz
    grind
  have hframe : ∀ z ∈ ([] : List (Nat × K)) ++ post,
      (Cell.link a .left).owner ≠ some z.1 → h₁.mem z.1 = h.mem z.1 :=
    fun z _ hz => hframe₁ z.1 hz
  have hx₀ : ∀ z ∈ inorder r, (Cell.link x.1 .right).owner ≠ some z.1 :=
    fun z hz ho => hxr (Option.some.inj ho ▸ mem_nodes hz)
  obtain ⟨r', hr', hin'⟩ := hp.relink hr hnr hx₀ hframe hlink₁ hrep₁
  have hx₁ : h₁.mem x.1 = some node := by rw [hmem₁ _ hxa, hx]
  have hy₁ : h₁.mem y.1 = some succ := by rw [hmem₁ _ hay.symm, hy]
  set node₂ := succ.setLink node.llink .left with hnode₂
  set h₂ : Heap K := { h₁ with mem := Function.update h₁.mem y.1 (some node₂) } with hh₂
  set h₃ : Heap K := { h₂ with
    mem := Function.update h₂.mem y.1 (some (node₂.setLink node.rlink .right)) } with hh₃
  have hx₂ : h₂.mem x.1 = some node := (Function.update_of_ne hxy _ _).trans hx₁
  have hy₂ : h₂.mem y.1 = some node₂ := Function.update_self _ _ _
  have hmem₃ : ∀ z, z ≠ y.1 → h₃.mem z = h₁.mem z := fun z hz =>
    (Function.update_of_ne hz _ _).trans (Function.update_of_ne hz _ _)
  have hl₃ : Rep h₃.mem l node.llink := by
    refine hl.congr fun z hz => ?_
    have hzl := mem_nodes hz
    have hzy : z.1 ≠ y.1 := fun he => hrl _ hyr (he ▸ hzl)
    have hza : z.1 ≠ a := fun he => hrl _ har (he ▸ hzl)
    rw [hmem₃ _ hzy, hmem₁ _ hza]
  have hr₃ : Rep h₃.mem r' node.rlink := by
    rw [if_neg (by simp)] at hr'
    refine hr'.congr fun z hz => hmem₃ _ fun he => ?_
    have : z.1 ∈ nodes v ++ post.map Prod.fst := by
      rw [hin', List.nil_append] at hz
      rw [nodes, ← List.map_append]
      exact List.mem_map_of_mem hz
    grind
  refine ⟨succ, h₁, h₂, h₃, r', hy, hw₁, hx₁, write_link hy₁ _ _, hx₂, write_link hy₂ _ _,
    ⟨rfl, hy0, _, Function.update_self _ _ _, hk, hl₃, hr₃⟩, by rw [hin, hin']; rfl, hroot₁, ?_⟩
  intro z hz
  have hzy : z ≠ y.1 := fun he => hz (he ▸ hyr)
  have hza : z ≠ a := fun he => hz (he ▸ har)
  rw [hmem₃ z hzy, hmem₁ z hza]

theorem replacement_spec (hc : h.read c = some a) (ht : Rep h.mem (.node x l r) a)
    (hnd : (nodes (.node x l r)).Nodup) : ∃ h' b v,
      (∀ n > r.height, replacement n h c = some (h', b)) ∧ Rep h'.mem v b ∧
        inorder v = inorder l ++ inorder r ∧ h'.root = h.root ∧
          ∀ z, z ∉ nodes r → h'.mem z = h.mem z := by
  have hnd' : (nodes (join .right x r l)).Nodup := hnd
  obtain ⟨hnr, -, hxr, hxl, hrl⟩ := nodup_join.1 hnd'
  obtain ⟨rfl, hx0, node, hx, hk, hl, hr⟩ := ht
  simp only [replacement, hc, hx, Option.bind_eq_bind, Option.bind_some]
  by_cases hl0 : node.llink = 0
  · rw [hl0] at hl
    obtain rfl := hl.nil_of_zero
    exact ⟨h, node.rlink, r, fun n _ => by rw [if_pos hl0], hr, rfl, rfl, fun _ _ => rfl⟩
  simp only [if_neg hl0]
  cases r with
  | nil =>
    have hr0 : node.rlink = 0 := hr
    exact ⟨h, node.llink, l, fun n _ => by rw [if_neg (by simpa using hr0)], hl,
      by simp [inorder], rfl,
      fun _ _ => rfl⟩
  | node y rl rr =>
    obtain ⟨hya, hy0, right, hy, hyk, hrl', hrr⟩ := id hr
    simp only [hya, if_pos hy0, hy, Option.bind_some]
    by_cases hn0 : right.llink = 0
    · rw [hn0] at hrl'
      obtain rfl := hrl'.nil_of_zero
      rw [hya] at hr
      have hyr : y.1 ∈ nodes (.node y .nil rr) := mem_nodes (by simp [inorder])
      have hyrr : y.1 ∉ nodes rr := by
        have : (nodes (join .right y rr .nil)).Nodup := hnr
        exact (nodup_join.1 this).2.2.1
      obtain ⟨h', hw, hrep, hroot, hmem⟩ := replacement_near hl hr (hrl _ hyr) hyrr
      refine ⟨h', y.1, _, fun n _ => by rw [if_pos hn0, hw]; rfl, hrep, by simp [inorder], hroot,
        ?_⟩
      exact fun z hz => hmem z fun he => hz (he ▸ hyr)
    · have hne : rl ≠ .nil := by
        rintro rfl
        exact hn0 hrl'
      obtain ⟨p, w, wr, post, hp, hs⟩ := successor_path (a := y.1) hrl' hne
      obtain ⟨succ, h₁, h₂, h₃, r', hw, hw₁, hx₁, hw₂, hx₂, hw₃, hrep, hin, hroot, hmem⟩ :=
        replacement_far (.step (.link x.1 .right) y rr .left hp) hx hl hr hnd
      refine ⟨h₃, w.1, _, fun n hn => ?_, hrep, ?_, hroot, hmem⟩
      · have hh : max rl.height rr.height + 1 < n := hn
        rw [if_neg hn0, hs n (by omega)]
        simp only [Option.bind_some, hw, hw₁, hx₁, hw₂, hx₂, hw₃]
      · exact (congrArg (inorder l ++ ·) hin).symm

end change

/-! The calls. -/

section calls
variable {κ : Type} [LinearOrder κ] {rank : K → κ} {compar} {h g : Heap K} {key : K}
  {t : BinaryTree (Nat × K)} {n q : Nat}

/- The heap has the tree, with its keys in order. -/
structure Holds (rank : K → κ) (h : Heap K) (t : BinaryTree (Nat × K)) : Prop where
  rep : Rep h.mem t h.root
  nodup : (nodes t).Nodup
  ordered : Ordered (fun x : Nat × K => rank x.2) t

/- A call to tsearch finds the key, or adds it if there is memory. -/
def Searched (rank : K → κ) (h : Heap K) (t : BinaryTree (Nat × K)) (key : K) (q : Nat)
    (res : Heap K × Nat) : Prop :=
  (∃ x ∈ inorder t, rank x.2 = rank key ∧ res = (h, x.1)) ∨
    (∀ x ∈ inorder t, rank x.2 ≠ rank key) ∧
      (q = 0 → res = (h, 0)) ∧
      (q ≠ 0 → res.2 = q ∧ ∃ t' pre post, Holds rank res.1 t' ∧ inorder t = pre ++ post ∧
        inorder t' = pre ++ (q, key) :: post)

/- A call to tdelete removes the key and returns the parent of its node, or returns NULL. -/
def Deleted (rank : K → κ) (h : Heap K) (t : BinaryTree (Nat × K)) (key : K)
    (res : Heap K × Nat) : Prop :=
  (∀ x ∈ inorder t, rank x.2 ≠ rank key) ∧ res = (h, 0) ∨
    ∃ x pre post t', inorder t = pre ++ x :: post ∧ rank x.2 = rank key ∧ res.2 ≠ 0 ∧
      Holds rank res.1 t' ∧ inorder t' = pre ++ post ∧
      (x.1 ≠ h.root → res.2 ∈ nodes t ∧ ∃ node s, h.mem res.2 = some node ∧ node.link s = x.1)

/- What a call finds at the end of its search. -/
theorem Holds.found (hh : Holds rank h t) (ho : IsOrder compar rank) (key : K) :
    ∃ c b u pre post, Found rank h key .root t c b u pre post ∧
      ∀ n > t.height, searchLoop compar h key n .root = some (c, b) :=
  searchLoop_found ho rfl hh.rep hh.ordered

theorem Found.absent {c : Cell} {b : Nat} {pre post : List (Nat × K)}
    (hf : Found rank h key .root t c b .nil pre post) : ∀ x ∈ inorder t, rank x.2 ≠ rank key :=
  fun _ hx hk => (nomatch hf.mem hx hk)

/- The nodes on the way keep apart, with other nodes between them. -/
theorem Found.relink {c : Cell} {b b' : Nat} {u v : BinaryTree (Nat × K)} {pre post}
    (hf : Found rank h key .root t c b u pre post) (hh : Holds rank h t)
    (hm : ∀ x ∈ pre ++ post, c.owner ≠ some x.1 → g.mem x.1 = h.mem x.1)
    (hl : ∀ y s, c = .link y s → g.mem y = (h.mem y).map fun n => n.setLink b' s)
    (hroot : g.root = if c = .root then b' else h.root) (hv : Rep g.mem v b')
    (hnd : ((pre ++ inorder v ++ post).map Prod.fst).Nodup)
    (hs : (pre ++ inorder v ++ post).Pairwise fun x y => rank x.2 < rank y.2) :
    ∃ t', Holds rank g t' ∧ inorder t' = pre ++ inorder v ++ post := by
  obtain ⟨t', hr, hin⟩ := hf.path.relink hh.rep hh.nodup (fun x _ he => (nomatch he)) hm hl hv
  refine ⟨t', ⟨hroot ▸ hr, ?_, ?_⟩, hin⟩
  · rwa [nodes, hin]
  · rwa [Ordered, hin]

/- A new node goes in where the search ends. -/
theorem Found.insert {c : Cell} {b : Nat} {pre post}
    (hf : Found rank h key .root t c b .nil pre post) (hh : Holds rank h t) (hq0 : q ≠ 0)
    (hq : h.mem q = none) : ∃ h₁, h.write q c = some h₁ ∧ ∃ t',
      Holds rank { h₁ with mem := Function.update h₁.mem q (some ⟨key, 0, 0⟩) } t' ∧
        inorder t' = pre ++ (q, key) :: post := by
  obtain ⟨h₁, hw, hroot, hlink, hframe⟩ := write_spec hf.read q
  have hin : inorder t = pre ++ post := by rw [hf.path.split]; simp [inorder]
  have hne : ∀ x ∈ pre ++ post, x.1 ≠ q := by
    intro x hx he
    obtain ⟨-, n, hn, -⟩ := hh.rep.alloc (hin ▸ hx)
    rw [he, hq] at hn
    cases hn
  have hown : ∀ y s, c = .link y s → y ≠ q := by
    rintro y s rfl he
    have hr := hf.read
    rw [Heap.read, he, hq] at hr
    cases hr
  have hnd : ((pre ++ [(q, key)] ++ post).map Prod.fst).Nodup := by
    have ht := hh.nodup
    rw [nodes, hin] at ht
    simp only [List.append_assoc, List.singleton_append, List.map_append, List.map_cons] at ht ⊢
    rw [List.nodup_middle, List.nodup_cons]
    refine ⟨fun hmem => ?_, ht⟩
    rw [← List.map_append] at hmem
    obtain ⟨x, hx, he⟩ := List.mem_map.1 hmem
    exact hne x hx he
  have hs : (pre ++ [(q, key)] ++ post).Pairwise fun x y => rank x.2 < rank y.2 := by
    have ht := hh.ordered
    rw [Ordered, hin, List.pairwise_append] at ht
    rw [List.append_assoc, List.singleton_append, List.pairwise_append, List.pairwise_cons]
    refine ⟨ht.1, ⟨hf.after, ht.2.1⟩, fun x hx y hy => ?_⟩
    rcases List.mem_cons.1 hy with rfl | hy
    · exact hf.before x hx
    · exact ht.2.2 x hx y hy
  obtain ⟨t', ht', hin'⟩ := hf.relink (v := .node (q, key) .nil .nil)
    (g := { h₁ with mem := Function.update h₁.mem q (some ⟨key, 0, 0⟩) }) hh
    (fun x hx hc => (Function.update_of_ne (hne x hx) _ _).trans (hframe x.1 hc))
    (fun y s he => (Function.update_of_ne (hown y s he) _ _).trans (hlink y s he)) hroot
    ⟨rfl, hq0, _, Function.update_self _ _ _, rfl, rfl, rfl⟩ hnd hs
  exact ⟨h₁, hw, t', ht', by simp [hin', inorder]⟩

theorem tsearch_spec (ho : IsOrder compar rank) (hh : Holds rank h t)
    (hq : q = 0 ∨ h.mem q = none) : ∃ res, Searched rank h t key q res ∧
      ∀ n > t.height, tsearch compar n h (some .root) key q = some res := by
  obtain ⟨c, b, u, pre, post, hf, hs⟩ := hh.found ho key
  have hcall : ∀ n > t.height, tsearch compar n h (some .root) key q =
      if b ≠ 0 then some (h, b) else if q ≠ 0 then (h.write q c).bind fun h₁ =>
        some ({ h₁ with mem := Function.update h₁.mem q (some ⟨key, 0, 0⟩) }, q)
      else some (h, 0) := fun n hn => by simp only [tsearch, hs n hn]; rfl
  rcases hf.stop with rfl | ⟨x, l, r, rfl, hk⟩
  · obtain rfl : b = 0 := hf.rep
    by_cases hq0 : q = 0
    · refine ⟨(h, 0), .inr ⟨hf.absent, fun _ => rfl, fun h0 => (h0 hq0).elim⟩, fun n hn => ?_⟩
      rw [hcall n hn, if_neg (by simp), if_neg (by simpa using hq0)]
    · obtain ⟨h₁, hw, t', ht', hin'⟩ := hf.insert hh hq0 (hq.resolve_left hq0)
      have hin : inorder t = pre ++ post := by rw [hf.path.split]; simp [inorder]
      refine ⟨({ h₁ with mem := Function.update h₁.mem q (some ⟨key, 0, 0⟩) }, q),
        .inr ⟨hf.absent, fun h0 => (hq0 h0).elim, fun _ => ⟨rfl, t', pre, post, ht', hin, hin'⟩⟩,
        fun n hn => ?_⟩
      rw [hcall n hn, if_neg (by simp), if_pos hq0, hw]
      rfl
  · obtain ⟨rfl, hx0, -⟩ := hf.rep
    have hx : x ∈ inorder t := by
      rw [hf.path.split]
      simp [inorder]
    refine ⟨(h, x.1), .inl ⟨x, hx, hk, rfl⟩, fun n hn => ?_⟩
    rw [hcall n hn, if_pos hx0]

/- The node found goes out, and its two trees stay. -/
theorem Found.delete {c : Cell} {b : Nat} {x : Nat × K} {l r} {pre post}
    (hf : Found rank h key .root t c b (.node x l r) pre post) (hh : Holds rank h t) :
    ∃ h₁ q h₂, (∀ n > r.height, replacement n h c = some (h₁, q)) ∧
      h₁.read c = some x.1 ∧ (free h₁ x.1).write q c = some h₂ ∧
      ∃ t', Holds rank h₂ t' ∧ inorder t' = pre ++ (inorder l ++ inorder r) ++ post := by
  have hin : inorder t = pre ++ inorder (.node x l r) ++ post := hf.path.split
  have hnd := hh.nodup
  rw [nodes, hin, List.map_append, List.map_append, List.nodup_append, List.nodup_append] at hnd
  obtain ⟨⟨-, hndu, hpre⟩, -, hpost⟩ := hnd
  have hdis : ∀ y ∈ pre ++ post, y.1 ∉ nodes (.node x l r) := by
    intro y hy hyu
    rcases List.mem_append.1 hy with hy | hy
    · exact hpre _ (List.mem_map_of_mem hy) _ hyu rfl
    · exact hpost _ (List.mem_append_right _ hyu) _ (List.mem_map_of_mem hy) rfl
  have hsub : ∀ z, z ∈ nodes l ∨ z = x.1 ∨ z ∈ nodes r → z ∈ nodes (.node x l r) := by
    intro z hz
    rw [nodes, inorder, List.map_append, List.map_cons]
    exact List.mem_append.2 (hz.imp_right List.mem_cons.2)
  have hxl : x.1 ∉ nodes l ∧ x.1 ∉ nodes r := by
    have hndj : (nodes (join .left x l r)).Nodup := hndu
    exact ⟨(nodup_join.1 hndj).2.2.1, (nodup_join.1 hndj).2.2.2.1⟩
  obtain ⟨h₁, q, v, he, hrep, hinv, hroot₁, hmem₁⟩ := replacement_spec hf.read hf.rep hndu
  have hown : ∀ z, c.owner = some z → z ∉ nodes (.node x l r) := by
    intro z hz
    rcases hf.path.owner with rfl | ⟨y, hy, ho⟩
    · cases hz
    · rw [ho] at hz
      exact Option.some.inj hz ▸ hdis y hy
  -- outside the tree that is found only the freed node has changed
  have hfree : ∀ z, z ∉ nodes (.node x l r) → (free h₁ x.1).mem z = h.mem z := by
    intro z hz
    have hzx : z ≠ x.1 := fun hzx => hz (hsub z (.inr (.inl hzx)))
    exact (Function.update_of_ne hzx _ _).trans (hmem₁ z fun hzr => hz (hsub z (.inr (.inr hzr))))
  have hread : ∀ h' : Heap K, h'.root = h.root → (∀ z, c.owner = some z → h'.mem z = h.mem z) →
      h'.read c = some x.1 := by
    intro h' hroot hmem
    have hb : b = x.1 := hf.rep.1
    rw [← hb, ← hf.read]
    cases c with
    | root => exact congrArg some hroot
    | link z s => rw [Heap.read, Heap.read, hmem z rfl]
  have hread₁ : h₁.read c = some x.1 := hread h₁ hroot₁ fun z hz =>
    hmem₁ z fun hzr => hown z hz (hsub z (.inr (.inr hzr)))
  have hread₂ : (free h₁ x.1).read c = some x.1 :=
    hread _ hroot₁ fun z hz => hfree z (hown z hz)
  obtain ⟨h₂, hw, hroot₂, hlink₂, hframe₂⟩ := write_spec hread₂ q
  refine ⟨h₁, q, h₂, he, hread₁, hw, ?_⟩
  have hv : Rep h₂.mem v q := by
    refine hrep.congr fun z hz => ?_
    have hz' : z.1 ∈ nodes l ∨ z.1 ∈ nodes r := by
      rw [hinv, List.mem_append] at hz
      exact hz.imp mem_nodes mem_nodes
    have hzx : z.1 ≠ x.1 := fun hzx => (hz'.elim (fun hl => hxl.1 (hzx ▸ hl)) fun hr =>
      hxl.2 (hzx ▸ hr))
    have hzc : c.owner ≠ some z.1 := fun ho => hown _ ho (hsub _ (hz'.imp_right Or.inr))
    rw [hframe₂ _ hzc]
    exact Function.update_of_ne hzx _ _
  have hlist : (pre ++ inorder v ++ post).Sublist (inorder t) := by
    rw [hin, hinv, inorder]
    exact ((List.Sublist.append_left ((List.sublist_cons_self _ _).append_left _) _).append_right _)
  rw [← hinv]
  refine hf.relink hh (fun z hz hc => ?_) (fun y s hc => ?_) ?_ hv ?_ ?_
  · rw [hframe₂ _ hc, hfree _ (hdis z hz)]
  · rw [hlink₂ y s hc, hfree y (hown y (by rw [hc]; rfl))]
  · rw [hroot₂]
    exact congrArg (ite _ q) hroot₁
  · exact (hlist.map Prod.fst).nodup hh.nodup
  · exact hh.ordered.sublist hlist

theorem tdelete_spec (ho : IsOrder compar rank) (hh : Holds rank h t) :
    ∃ res, Deleted rank h t key res ∧
      ∀ n > t.height, tdelete compar n h (some .root) key = some res := by
  obtain ⟨c, b, u, pre, post, hf, hs⟩ := hh.found ho key
  by_cases h0 : h.root = 0
  · have ht := hh.rep
    rw [h0] at ht
    obtain rfl := ht.nil_of_zero
    refine ⟨(h, 0), .inl ⟨by simp [inorder], rfl⟩, fun n _ => ?_⟩
    simp [tdelete, Heap.read, h0]
  have hcall : ∀ n > t.height, tdelete compar n h (some .root) key =
      if b = 0 then some (h, 0) else (replacement n h c).bind fun w => (w.1.read c).bind fun a =>
        ((free w.1 a).write w.2 c).bind fun h₂ => some (h₂, c.owner.getD h.root) := by
    intro n hn
    have hread : h.read .root = some h.root := rfl
    simp only [tdelete, hread, Option.bind_eq_bind, Option.bind_some, if_neg h0,
      deleteLoop_searchLoop (hs n hn) hread h0 rfl]
    by_cases hb : b = 0
    · rw [if_pos hb, if_pos hb]
    · rw [if_neg hb, if_neg hb]
  rcases hf.stop with rfl | ⟨x, l, r, rfl, hk⟩
  · obtain rfl : b = 0 := hf.rep
    exact ⟨(h, 0), .inl ⟨hf.absent, rfl⟩, fun n hn => by rw [hcall n hn, if_pos rfl]⟩
  · obtain ⟨rfl, hx0, -⟩ := id hf.rep
    have hu : max l.height r.height + 1 ≤ t.height := hf.path.height_le
    obtain ⟨h₁, q, h₂, he, hr₁, hw, t', ht', hin'⟩ := hf.delete hh
    have hin : inorder t = (pre ++ inorder l) ++ x :: (inorder r ++ post) := by
      rw [hf.path.split]
      simp [inorder]
    refine ⟨(h₂, c.owner.getD h.root), .inr ⟨x, pre ++ inorder l, inorder r ++ post, t', hin, hk,
      ?_, ht', by simp [hin'], ?_⟩, fun n hn => ?_⟩
    · rcases hf.path.owner with rfl | ⟨y, hy, hy'⟩
      · exact h0
      · have hyt : y ∈ inorder t := by rw [hf.path.split]; grind
        rw [hy']
        exact (hh.rep.alloc hyt).1
    · intro hne
      rcases hf.path.owner with rfl | ⟨y, hy, hy'⟩
      · exact (hne (Option.some.inj hf.read).symm).elim
      · have hyt : y ∈ inorder t := by rw [hf.path.split]; grind
        obtain ⟨s, rfl⟩ : ∃ s, c = .link y.1 s := by
          cases c with
          | root => cases hy'
          | link z s => exact ⟨s, by rw [Option.some.inj hy']⟩
        obtain ⟨node, hnode, hlink⟩ := Option.map_eq_some_iff.1 hf.read
        exact ⟨mem_nodes hyt, node, s, hnode, hlink⟩
    · have hrn : r.height < n := by omega
      rw [hcall n hn, if_neg hx0, he n hrn]
      simp only [Option.bind_some, hr₁, hw]

/- A call returns what it returns with all large bounds of its loops. -/
def Returns (call : Nat → Option (Heap K × Nat)) (res : Heap K × Nat) : Prop :=
  ∃ N, ∀ n ≥ N, call n = some res

theorem Returns.unique {call : Nat → Option (Heap K × Nat)} {res res' : Heap K × Nat}
    (hr : Returns call res) (hr' : Returns call res') : res = res' := by
  obtain ⟨N, hN⟩ := hr
  obtain ⟨N', hN'⟩ := hr'
  have h := hN (max N N') (Nat.le_max_left _ _)
  rw [hN' (max N N') (Nat.le_max_right _ _)] at h
  exact (Option.some.inj h).symm

theorem returns_of_height {call : Nat → Option (Heap K × Nat)} {res : Heap K × Nat}
    (h : ∀ n > t.height, call n = some res) : Returns call res :=
  ⟨t.height + 1, h⟩

/- The heaps after the calls of a run; malloc returns NULL or memory that is not in use. -/
inductive Built (compar : K → K → Int) : Heap K → Prop
  | empty (m : Mem K) : Built compar ⟨m, 0⟩
  | tsearch {h key q res} : Built compar h → q = 0 ∨ h.mem q = none →
    Returns (fun n => tsearch compar n h (some .root) key q) res → Built compar res.1
  | tdelete {h key res} : Built compar h →
    Returns (fun n => tdelete compar n h (some .root) key) res → Built compar res.1

theorem Searched.holds {res : Heap K × Nat} (hs : Searched rank h t key q res)
    (hh : Holds rank h t) : ∃ t', Holds rank res.1 t' := by
  rcases hs with ⟨x, -, -, rfl⟩ | ⟨-, h0, hadd⟩
  · exact ⟨t, hh⟩
  · by_cases hq : q = 0
    · exact ⟨t, by rwa [h0 hq]⟩
    · obtain ⟨-, t', -, -, ht', -⟩ := hadd hq
      exact ⟨t', ht'⟩

theorem Deleted.holds {res : Heap K × Nat} (hd : Deleted rank h t key res)
    (hh : Holds rank h t) : ∃ t', Holds rank res.1 t' := by
  rcases hd with ⟨-, rfl⟩ | ⟨x, pre, post, t', -, -, -, ht', -⟩
  · exact ⟨t, hh⟩
  · exact ⟨t', ht'⟩

/- Every run keeps a tree in order. -/
theorem Built.holds (ho : IsOrder compar rank) (hb : Built compar h) : ∃ t, Holds rank h t := by
  induction hb with
  | empty m => exact ⟨.nil, rfl, List.nodup_nil, List.Pairwise.nil⟩
  | tsearch hb hq hr ih =>
    obtain ⟨t, hh⟩ := ih
    obtain ⟨res, hs, he⟩ := tsearch_spec ho hh hq
    rw [hr.unique (returns_of_height he)]
    exact hs.holds hh
  | tdelete hb hr ih =>
    obtain ⟨t, hh⟩ := ih
    obtain ⟨res, hd, he⟩ := tdelete_spec ho hh
    rw [hr.unique (returns_of_height he)]
    exact hd.holds hh

/-- What tsearch and tdelete do after any run of calls: the keys stay in order, a key that is
absent is added unless memory is out, and the node of a key that is there is found or taken out. -/
theorem search_tree (ho : IsOrder compar rank) (hb : Built compar h) : ∃ t, Holds rank h t ∧
    (∀ key q, q = 0 ∨ h.mem q = none → ∃ res, Searched rank h t key q res ∧
      Returns (fun n => tsearch compar n h (some .root) key q) res) ∧
    ∀ key, ∃ res, Deleted rank h t key res ∧
      Returns (fun n => tdelete compar n h (some .root) key) res := by
  obtain ⟨t, hh⟩ := hb.holds ho
  refine ⟨t, hh, fun key q hq => ?_, fun key => ?_⟩
  · obtain ⟨res, hs, he⟩ := tsearch_spec ho hh hq
    exact ⟨res, hs, returns_of_height he⟩
  · obtain ⟨res, hd, he⟩ := tdelete_spec ho hh
    exact ⟨res, hd, returns_of_height he⟩

end calls

theorem isOrder_sub : IsOrder (fun a b : Int => a - b) fun a : Int => a :=
  ⟨fun a b => by omega, fun a b => by omega⟩

/- The tree after the first key. -/
def first : Heap Int := ⟨Function.update (fun _ => none) 64 (some ⟨7, 0, 0⟩), 64⟩

theorem built_first : Built (fun a b : Int => a - b) first := by
  have he : Built (fun a b : Int => a - b) ⟨fun _ => none, 0⟩ := .empty _
  refine @Built.tsearch Int _ _ 7 64 (first, 64) he (.inr rfl) ⟨1, ?_⟩
  rintro (_ | n) hn
  · cases hn
  · rfl

theorem search_tree_first : ∃ t, Holds (fun a : Int => a) first t ∧
    (∀ key q, q = 0 ∨ first.mem q = none → ∃ res, Searched (fun a : Int => a) first t key q res ∧
      Returns (fun n => tsearch (fun a b : Int => a - b) n first (some .root) key q) res) ∧
    ∀ key, ∃ res, Deleted (fun a : Int => a) first t key res ∧
      Returns (fun n => tdelete (fun a b : Int => a - b) n first (some .root) key) res :=
  search_tree isOrder_sub built_first

/- Without memory an absent key stays absent. -/
theorem search_tree_no_memory : ∃ res : Heap Int × Nat,
    Built (fun a b : Int => a - b) ⟨fun _ => none, 0⟩ ∧
      Returns (fun n => tsearch (fun a b : Int => a - b) n ⟨fun _ => none, 0⟩ (some .root) 7 0)
        res ∧ ∀ t, Rep res.1.mem t res.1.root → ∀ x ∈ inorder t, x.2 ≠ 7 := by
  refine ⟨(⟨fun _ => none, 0⟩, 0), .empty _, ⟨1, ?_⟩, fun t ht x hx => ?_⟩
  · rintro (_ | n) hn
    · cases hn
    · rfl
  · rw [ht.nil_of_zero] at hx
    cases hx

end Svr32.Libc
