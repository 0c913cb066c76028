import Svr32.Sh.Grow

/-! Blocks, stack items and stack positions that are in use, and what holds of them. -/
namespace Svr32.Sh
variable {s s' : State} {m m' : Mem} {l l' segs : List Nat} {a b e p r n u : Nat}

/- `live` are the blocks from alloc that have not been freed, with the sizes that were asked for,
`items` the finished stack items with their sizes, `saved` the positions that tdystak can be given,
the last one first. -/
structure World where
  s : State
  live : List (Nat × Nat)
  items : List (Nat × Nat)
  saved : List Nat

variable {w w' : World}

/- The list that begins at stakbsy. -/
def Busied (m : Mem) : Nat → List Nat → Prop
  | v, [] => v = 0
  | v, b :: r => v = b ∧ Busied m (m b) r

theorem Busied.congr {v : Nat} (h : Busied m v segs) (hs : ∀ b ∈ segs, m' b = m b) :
    Busied m' v segs := by
  induction segs generalizing v with
  | nil => exact h
  | cons b segs ih =>
    refine ⟨h.1, ?_⟩
    rw [hs b List.mem_cons_self]
    exact ih h.2 fun c hc => hs c (List.mem_cons_of_mem b hc)

/-- The block whose second word is at `u`. -/
def Owned (m : Mem) (l : List Nat) (u : Nat) : Prop := ∃ a ∈ l, busy m a ∧ u = a + 4

/- The end of that block. -/
def stop (m : Mem) (u : Nat) : Nat := clear (m (u - 4))

/-- The arena, with the blocks and the stack segments `segs` in it. -/
structure Body (w : World) (l segs : List Nat) : Prop where
  linked : Linked w.s.mem l w.s.bloktop
  first : nxt l w.s.bloktop = w.s.brkbegin
  topal : w.s.bloktop % 4 = 0
  begal : w.s.brkbegin % 4 = 0
  pos : 0 < w.s.brkbegin
  incr : 0 < w.s.brkincr ∧ w.s.brkincr % 4 = 0
  busied : Busied w.s.mem w.s.stakbsy segs
  sorted : segs.Pairwise (· > ·)
  owned : ∀ u ∈ w.live.map Prod.fst ++ segs, Owned w.s.mem l u
  nodup : (w.live.map Prod.fst ++ segs).Nodup
  size : ∀ x ∈ w.live, x.1 + x.2 ≤ stop w.s.mem x.1
  segsize : ∀ b ∈ segs, b + 4 < stop w.s.mem b

/- The item is in the current stack segment or in one that has become a block. -/
def Placed (s : State) (segs : List Nat) (x : Nat × Nat) : Prop :=
  x.2 = 0 ∨ (s.stakbas ≤ x.1 ∧ x.1 + x.2 ≤ s.stakbot) ∨
    ∃ b ∈ segs, b + 4 ≤ x.1 ∧ x.1 + x.2 ≤ stop s.mem b

structure Inv (w : World) (l segs : List Nat) : Prop extends Body w l segs where
  top : w.s.mem w.s.bloktop = w.s.brkbegin + 1
  bas : w.s.stakbas = w.s.bloktop + 8
  bot : w.s.stakbas ≤ w.s.stakbot
  stk : w.s.stakbot ≤ w.s.staktop
  botal : w.s.stakbot % 4 = 0
  items : ∀ x ∈ w.items, Placed w.s segs x
  below : ∀ x ∈ w.items, x.1 + x.2 ≤ w.s.stakbot
  saved : ∀ y ∈ w.saved, y ≤ w.s.stakbot ∧ y % 4 = 0
  order : w.saved.Pairwise (· ≥ ·)
  apart : ∀ x ∈ w.items, ∀ y ∈ w.saved, x.1 + x.2 ≤ y ∨ y ≤ x.1

/-- Between two calls blokp is a word of the chain. -/
structure Ready (w : World) (l segs : List Nat) : Prop extends Inv w l segs where
  cur : w.s.blokp ∈ l ∨ w.s.blokp = w.s.bloktop

theorem Owned.header (h : Owned m l u) : u - 4 ∈ l ∧ busy m (u - 4) ∧ 4 ≤ u := by
  obtain ⟨a, ha, hb, rfl⟩ := h
  rw [Nat.add_sub_cancel]
  exact ⟨ha, hb, by omega⟩

theorem Body.mem_live (h : Body w l segs) {x : Nat × Nat} (hx : x ∈ w.live) :
    Owned w.s.mem l x.1 :=
  h.owned x.1 (List.mem_append_left _ (List.mem_map_of_mem hx))

theorem Body.mem_segs (h : Body w l segs) (hb : b ∈ segs) : Owned w.s.mem l b :=
  h.owned b (List.mem_append_right _ hb)

/-- No byte of a block in use is in a free one. -/
theorem Body.not_free (h : Body w l segs) (hu : Owned w.s.mem l u) (hlo : u ≤ b)
    (hhi : b < stop w.s.mem u) : ¬ InFree w.s.mem l b := by
  obtain ⟨ha, hb, h4⟩ := hu.header
  exact h.linked.not_free ha hb (by omega) hhi

theorem Body.stop_le (h : Body w l segs) (hu : Owned w.s.mem l u) : stop w.s.mem u ≤ w.s.bloktop :=
  (h.linked.bounds _ hu.header.1).2.2.1

/-- What the arena may be changed to without the blocks in use noticing it. -/
theorem Body.move (h : Body w l segs) (hlinked : Linked s'.mem l' s'.bloktop)
    (hfirst : nxt l' s'.bloktop = s'.brkbegin) (htopal : s'.bloktop % 4 = 0)
    (hbeg : s'.brkbegin = w.s.brkbegin) (hincr : s'.brkincr = w.s.brkincr)
    (hbsy : s'.stakbsy = w.s.stakbsy)
    (hbusy : ∀ a ∈ l, busy w.s.mem a → a ∈ l' ∧ s'.mem a = w.s.mem a)
    (hsegs : ∀ b ∈ segs, s'.mem b = w.s.mem b) : Body { w with s := s' } l' segs := by
  have hstop : ∀ u, Owned w.s.mem l u → stop s'.mem u = stop w.s.mem u := by
    intro u hu
    obtain ⟨ha, hb, -⟩ := hu.header
    rw [stop, stop, (hbusy _ ha hb).2]
  constructor
  · exact hlinked
  · exact hfirst
  · exact htopal
  · dsimp only
    rw [hbeg]
    exact h.begal
  · dsimp only
    rw [hbeg]
    exact h.pos
  · dsimp only
    rw [hincr]
    exact h.incr
  · dsimp only
    rw [hbsy]
    exact h.busied.congr hsegs
  · exact h.sorted
  · intro u hu
    obtain ⟨a, ha, hb, rfl⟩ := h.owned u hu
    obtain ⟨ha', heq⟩ := hbusy a ha hb
    exact ⟨a, ha', by rw [busy, heq]; exact hb, rfl⟩
  · exact h.nodup
  · intro x hx
    dsimp only
    rw [hstop x.1 (h.mem_live hx)]
    exact h.size x hx
  · intro b hb
    dsimp only
    rw [hstop b (h.mem_segs hb)]
    exact h.segsize b hb

theorem Placed.move {x : Nat × Nat} (h : Body w l segs) (hx : Placed w.s segs x)
    (hbas : s'.stakbas = w.s.stakbas) (hbot : s'.stakbot = w.s.stakbot)
    (hbusy : ∀ a ∈ l, busy w.s.mem a → s'.mem a = w.s.mem a) : Placed s' segs x := by
  rcases hx with h0 | hcur | ⟨b, hb, hin⟩
  · exact Or.inl h0
  · rw [← hbas, ← hbot] at hcur
    exact Or.inr (Or.inl hcur)
  · obtain ⟨ha, hbz, -⟩ := (h.mem_segs hb).header
    refine Or.inr (Or.inr ⟨b, hb, ?_⟩)
    rwa [stop, hbusy _ ha hbz]

/-- The search, or a block that is taken: no block in use notices it. -/
theorem Inv.keeps (h : Inv w l segs) (ha : Arena s' l') (hk : Keeps w.s.mem l s'.mem l')
    (hbeg : s'.brkbegin = w.s.brkbegin) (hincr : s'.brkincr = w.s.brkincr)
    (hbsy : s'.stakbsy = w.s.stakbsy) (htop : s'.bloktop = w.s.bloktop)
    (hbas : s'.stakbas = w.s.stakbas) (hbot : s'.stakbot = w.s.stakbot)
    (hstk : s'.staktop = w.s.staktop) : Inv { w with s := s' } l' segs := by
  have hseg : ∀ b ∈ segs, s'.mem b = w.s.mem b := by
    intro b hb
    apply hk.frame
    have hlt := h.segsize b hb
    exact h.not_free (h.mem_segs hb) (Nat.le_refl b) (by omega)
  refine ⟨h.toBody.move ha.linked ha.first ha.topal hbeg hincr hbsy hk.busy hseg, ha.top, ?_, ?_, ?_,
    ?_, ?_, ?_, ?_, h.order, h.apart⟩
  · dsimp only
    rw [hbas, htop]
    exact h.bas
  · dsimp only
    rw [hbas, hbot]
    exact h.bot
  · dsimp only
    rw [hstk, hbot]
    exact h.stk
  · dsimp only
    rw [hbot]
    exact h.botal
  · exact fun x hx => (h.items x hx).move h.toBody hbas hbot fun a ha hb => (hk.busy a ha hb).2
  · dsimp only
    rw [hbot]
    exact h.below
  · dsimp only
    rw [hbot]
    exact h.saved

theorem Inv.arena (h : Inv w l segs) : Arena w.s l :=
  ⟨h.linked, h.first, h.top, h.topal, h.begal, h.pos⟩

/- The bytes that alloc must leave alone. -/
def Protected (live items : List (Nat × Nat)) (b : Nat) : Prop :=
  (∃ x ∈ live, x.1 ≤ b ∧ b < x.1 + x.2) ∨ ∃ x ∈ items, x.1 ≤ b ∧ b < x.1 + x.2

end Svr32.Sh

/-! alloc of sh/blok.c. -/
namespace Svr32.Sh
variable {s : State} {m : Mem} {l segs : List Nat} {a b e p r n base : Nat} {w : World}

theorem round_spec (n : Nat) : round n % 4 = 0 ∧ n ≤ round n ∧ round n < n + 4 := by
  rw [round]
  omega

/-- A free block is taken that is large enough for `n` bytes. -/
theorem Inv.take (h : Inv w l segs) (hp : p ∈ l) (hfree : ¬ busy w.s.mem p)
    (hfit : p + round (n + 4) ≤ w.s.mem p) :
    (∃ l', Ready { w with s := carve (round (n + 4)) p w.s, live := (p + 4, n) :: w.live } l' segs) ∧
      ∀ b, ¬ InFree w.s.mem l b → (carve (round (n + 4)) p w.s).mem b = w.s.mem b := by
  obtain ⟨hr4, hle, -⟩ := round_spec (n + 4)
  obtain ⟨l', ha, hk, hp', hcur, hmem, -⟩ :=
    carve_spec h.arena hp hfree hr4 (by omega) hfit
  have hinv := h.keeps ha hk rfl rfl rfl rfl rfl rfl rfl
  have hstop : stop (carve (round (n + 4)) p w.s).mem (p + 4) = p + round (n + 4) := by
    have hp4 := h.linked.aligned p hp
    rw [stop, Nat.add_sub_cancel, hmem, clear]
    omega
  have hnew : p + 4 ∉ w.live.map Prod.fst ++ segs := by
    intro hm
    obtain ⟨-, hb, -⟩ := (h.owned (p + 4) hm).header
    rw [Nat.add_sub_cancel] at hb
    exact hfree hb
  refine ⟨⟨l', ⟨⟨?_, hinv.top, hinv.bas, hinv.bot, hinv.stk, hinv.botal, hinv.items, hinv.below,
    hinv.saved, hinv.order, hinv.apart⟩, hcur⟩⟩, hk.frame⟩
  refine ⟨hinv.linked, hinv.first, hinv.topal, hinv.begal, hinv.pos, hinv.incr, hinv.busied,
    hinv.sorted, ?_, ?_, ?_, hinv.segsize⟩
  · intro u hu
    rcases List.mem_cons.1 hu with rfl | hu
    · exact ⟨p, hp', by rw [busy, hmem]; have hp4 := h.linked.aligned p hp; omega, rfl⟩
    · exact hinv.owned u hu
  · exact List.nodup_cons.2 ⟨hnew, h.nodup⟩
  · intro x hx
    rcases List.mem_cons.1 hx with rfl | hx
    · dsimp only
      rw [hstop]
      omega
    · exact hinv.size x hx

/- What a block is extended by. -/
theorem amount (hb : 0 < b) (hb4 : b % 4 = 0) (hr : r % 4 = 0) :
    (r + b - ((r + b) &&& (b - 1))) % 4 = 0 ∧ r < r + b - ((r + b) &&& (b - 1)) := by
  have hle : (r + b) &&& (b - 1) ≤ b - 1 := Nat.and_le_right
  have hmod : ((r + b) &&& (b - 1)) % 4 = 0 := by
    have h := @Nat.and_mod_two_pow (r + b) (b - 1) 2
    have h1 : (r + b) % 2 ^ 2 = 0 := by omega
    rw [h1, Nat.zero_and] at h
    exact h
  omega

/-- There are `r` bytes in a row in free blocks. -/
def Room (s : State) (r : Nat) : Prop :=
  ∃ l, Arena s l ∧ ∃ p, ∀ b, p ≤ b → b < p + r → InFree s.mem l b

theorem Room.run (h : Room s r) (ha : Arena s l) :
    ∃ p, ∀ b, p ≤ b → b < p + r → InFree s.mem l b := by
  obtain ⟨l', ha', p, hp⟩ := h
  rw [ha'.linked.unique ha.linked (ha'.first.trans ha.first.symm)] at hp
  exact ⟨p, hp⟩

end Svr32.Sh
