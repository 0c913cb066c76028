import Mathlib.Data.Nat.Fib.Basic
import Svr32.Pack.Tree

/-! The tree of a file is built inside the tables whatever the counts are; the code lengths are
not: levcount[c]++ comes before the test of maxlev. -/
namespace Svr32.Pack
open Lib (Arr put put_self put_ne i32)

theorem inside_bind {β : Type} {t : Table} {i : Nat} (h : i < t.size) (f : Unit → Except Fault β) :
    (inside t i >>= f) = f () := by
  rw [inside, if_pos h]
  rfl

theorem ok_bind {α β : Type} (a : α) (f : α → Except Fault β) : (Except.ok a >>= f) = f a := rfl

theorem heap_size : Table.heap.size = 258 := rfl
theorem parent_size : Table.parent.size = 513 := rfl

/-- The node is in one of heap[1],...,heap[n]. -/
def Holds (n : Nat) (heap : Arr Entry) (x : Nat) : Prop :=
  ∃ j, 1 ≤ j ∧ j ≤ n ∧ (heap j).node = x

theorem holds_put {n i : Nat} {heap : Arr Entry} {e : Entry} {x : Nat} (h₁ : 1 ≤ i) (hi : i ≤ n) :
    Holds n (put heap i e) x ↔ e.node = x ∨ ∃ j, 1 ≤ j ∧ j ≤ n ∧ j ≠ i ∧ (heap j).node = x := by
  constructor
  · rintro ⟨j, hj, hjn, hx⟩
    by_cases hji : j = i
    · rw [hji, put_self] at hx
      exact .inl hx
    · rw [put_ne heap e hji] at hx
      exact .inr ⟨j, hj, hjn, hji, hx⟩
  · rintro (hx | ⟨j, hj, hjn, hji, hx⟩)
    · exact ⟨i, h₁, hi, by rw [put_self, hx]⟩
    · exact ⟨j, hj, hjn, by rw [put_ne heap e hji, hx]⟩

/- Moving an entry up into the hole leaves a hole where it was. -/
theorem holds_move {n i k : Nat} {heap : Arr Entry} {e : Entry} {x : Nat} (h₁ : 1 ≤ i) (hi : i ≤ n)
    (hik : i < k) (hk : k ≤ n) :
    Holds n (put (put heap i (heap k)) k e) x ↔ Holds n (put heap i e) x := by
  rw [holds_put (by omega) hk, holds_put h₁ hi]
  constructor
  · rintro (hx | ⟨j, hj, hjn, hjk, hx⟩)
    · exact .inl hx
    · by_cases hji : j = i
      · rw [hji, put_self] at hx
        exact .inr ⟨k, by omega, hk, by omega, hx⟩
      · rw [put_ne heap _ hji] at hx
        exact .inr ⟨j, hj, hjn, hji, hx⟩
  · rintro (hx | ⟨j, hj, hjn, hji, hx⟩)
    · exact .inl hx
    · by_cases hjk : j = k
      · exact .inr ⟨i, h₁, hi, by omega, by rw [put_self, ← hjk, hx]⟩
      · exact .inr ⟨j, hj, hjn, hjk, by rw [put_ne heap _ hji, hx]⟩

theorem siftDown_spec {n : Nat} {e : Entry} (hn : n ≤ END + 1) (fuel : Nat) (heap : Arr Entry)
    (i : Nat) (h₁ : 1 ≤ i) (hi : i ≤ n) (hfuel : n < fuel + i) :
    ∃ heap', siftDown n e fuel heap i = .ok heap' ∧
      ∀ x, Holds n heap' x ↔ Holds n (put heap i e) x := by
  have hend : END = 256 := rfl
  have hsize := heap_size
  induction fuel generalizing heap i with
  | zero => omega
  | succ fuel ih =>
    rw [siftDown]
    by_cases hp : i ≤ n / 2
    · rw [if_pos hp, inside_bind (by omega), inside_bind (by omega), inside_bind (by omega)]
      generalize hk : (if (heap (2 * i)).count > (heap (2 * i + 1)).count ∧ 2 * i < n
        then 2 * i + 1 else 2 * i) = k
      have hrange : i < k ∧ k ≤ n := by
        split at hk <;> omega
      by_cases hlt : e.count < (heap k).count
      · rw [if_pos hlt]
        exact ⟨_, rfl, fun x => Iff.rfl⟩
      · rw [if_neg hlt]
        obtain ⟨heap', hrun, hsame⟩ :=
          ih (put heap i (heap k)) k (by omega) hrange.2 (by omega)
        refine ⟨heap', hrun, fun x => ?_⟩
        rw [hsame x]
        exact holds_move h₁ hi hrange.1 hrange.2
    · rw [if_neg hp, inside_bind (by omega)]
      exact ⟨_, rfl, fun x => Iff.rfl⟩

theorem heapify_spec {n i : Nat} (hn : n ≤ END + 1) (heap : Arr Entry) (h₁ : 1 ≤ i) (hi : i ≤ n) :
    ∃ heap', heapify n heap i = .ok heap' ∧ ∀ x, Holds n heap' x ↔ Holds n heap x := by
  have hend : END = 256 := rfl
  have hsize := heap_size
  rw [heapify, inside_bind (by omega)]
  obtain ⟨heap', hrun, hsame⟩ := siftDown_spec hn (e := heap i) (n + 1) heap i h₁ hi (by omega)
  refine ⟨heap', hrun, fun x => (hsame x).trans ?_⟩
  rw [holds_put h₁ hi]
  constructor
  · rintro (hx | ⟨j, hj, hjn, -, hx⟩)
    · exact ⟨i, h₁, hi, hx⟩
    · exact ⟨j, hj, hjn, hx⟩
  · rintro ⟨j, hj, hjn, hx⟩
    by_cases hji : j = i
    · exact .inl (hji ▸ hx)
    · exact .inr ⟨j, hj, hjn, hji, hx⟩

theorem makeHeap_spec {n : Nat} (hn : n ≤ END + 1) (i : Nat) (hi : i ≤ n) (heap : Arr Entry) :
    ∃ heap', makeHeap n i heap = .ok heap' ∧ ∀ x, Holds n heap' x ↔ Holds n heap x := by
  induction i generalizing heap with
  | zero => exact ⟨heap, rfl, fun x => Iff.rfl⟩
  | succ i ih =>
    obtain ⟨heap₁, hrun₁, hsame₁⟩ := heapify_spec hn heap (Nat.succ_pos i) hi
    obtain ⟨heap₂, hrun₂, hsame₂⟩ := ih (by omega) heap₁
    refine ⟨heap₂, ?_, fun x => (hsame₂ x).trans (hsame₁ x)⟩
    rw [makeHeap, hrun₁]
    exact hrun₂

/-- The node has a parent above it, one of the nodes made so far. -/
def Above (parent : Arr Nat) (lastnode m : Nat) : Prop :=
  m < parent m ∧ END < parent m ∧ parent m ≤ lastnode

/-- What stands between two turns of the merging loop. -/
structure Growing (n : Nat) (s : Forest) : Prop where
  low : END ≤ s.lastnode
  room : s.lastnode + n ≤ 2 * END + 1
  held : ∀ x, Holds n s.heap x → x ≤ s.lastnode
  leaf : ∀ m ≤ END, s.parent m = 0 ∨ Above s.parent s.lastnode m
  inner : ∀ m, END < m → m ≤ s.lastnode → Holds n s.heap m ∨ Above s.parent s.lastnode m

/- A node that gets the new node as its parent; the others keep theirs. -/
theorem Above.put {parent : Arr Nat} {lastnode m x : Nat} (hlow : END ≤ lastnode)
    (hm : m ≤ lastnode) (h : x = m ∨ Above parent lastnode m ∨ Above parent (lastnode + 1) m) :
    Above (put parent x (lastnode + 1)) (lastnode + 1) m := by
  by_cases hx : m = x
  · rw [Above, hx, put_self]
    omega
  · rw [Above, put_ne parent _ hx]
    rcases h with h | h | h
    · exact absurd h.symm hx
    · exact ⟨h.1, h.2.1, Nat.le_succ_of_le h.2.2⟩
    · exact h

theorem merge_grows {n : Nat} {s : Forest} (hn : 2 ≤ n) (h : Growing n s) :
    ∃ s', merge n s = .ok s' ∧ Growing (n - 1) s' := by
  have hend : END = 256 := rfl
  have hheap := heap_size
  have hparent := parent_size
  have hlow := h.low
  have hroom := h.room
  have hleast : (s.heap 1).node ≤ s.lastnode := h.held _ ⟨1, by omega, by omega, rfl⟩
  obtain ⟨heap₁, hrun₁, hsame₁⟩ :=
    heapify_spec (n := n - 1) (by omega) (put s.heap 1 (s.heap n)) (Nat.le_refl 1) (by omega)
  have hold₁ : ∀ x, Holds (n - 1) heap₁ x → Holds n s.heap x := by
    intro x hx
    rcases (holds_put (by omega) (by omega)).mp ((hsame₁ x).mp hx) with hx | ⟨j, hj, hjn, -, hx⟩
    · exact ⟨n, by omega, Nat.le_refl n, hx⟩
    · exact ⟨j, hj, by omega, hx⟩
  have hnext : (heap₁ 1).node ≤ s.lastnode :=
    h.held _ (hold₁ _ ⟨1, by omega, by omega, rfl⟩)
  obtain ⟨heap₂, hrun₂, hsame₂⟩ := heapify_spec (n := n - 1) (by omega)
    (put heap₁ 1 ⟨i32 ((heap₁ 1).count + (s.heap 1).count), s.lastnode + 1⟩)
    (Nat.le_refl 1) (by omega)
  have hput : ∀ {m : Nat}, m ≤ s.lastnode →
      (s.heap 1).node = m ∨ (heap₁ 1).node = m ∨ Above s.parent s.lastnode m →
      Above (put (put s.parent (s.heap 1).node (s.lastnode + 1)) (heap₁ 1).node (s.lastnode + 1))
        (s.lastnode + 1) m := by
    intro m hm hcase
    apply Above.put hlow hm
    rcases hcase with hcase | hcase | hcase
    · exact .inr (.inr (Above.put hlow hm (.inl hcase)))
    · exact .inl hcase
    · exact .inr (.inr (Above.put hlow hm (.inr (.inl hcase))))
  refine ⟨⟨heap₂, put (put s.parent (s.heap 1).node (s.lastnode + 1)) (heap₁ 1).node
    (s.lastnode + 1), s.lastnode + 1⟩, ?_, ⟨Nat.le_succ_of_le hlow, ?_, ?_, ?_, ?_⟩⟩
  · rw [merge, inside_bind (by omega)]
    dsimp only
    rw [inside_bind (by omega), inside_bind (by omega), hrun₁]
    change (inside .parent (heap₁ 1).node >>= _) = _
    rw [inside_bind (by omega), hrun₂]
    rfl
  · change s.lastnode + 1 + (n - 1) ≤ _
    omega
  · intro x hx
    rcases (holds_put (by omega) (by omega)).mp ((hsame₂ x).mp hx) with hx | ⟨j, hj, hjn, -, hx⟩
    · exact hx ▸ Nat.le_refl _
    · exact Nat.le_succ_of_le (h.held x (hold₁ x ⟨j, hj, hjn, hx⟩))
  · intro m hm
    have hmlast : m ≤ s.lastnode := Nat.le_trans hm hlow
    by_cases hx : (s.heap 1).node = m ∨ (heap₁ 1).node = m
    · exact .inr (hput hmlast (hx.elim .inl fun hx => .inr (.inl hx)))
    · rcases h.leaf m hm with hzero | habove
      · left
        change put (put _ _ _) _ _ m = 0
        rw [put_ne _ _ (fun heq => hx (.inr heq.symm)), put_ne _ _ (fun heq => hx (.inl heq.symm))]
        exact hzero
      · exact .inr (hput hmlast (.inr (.inr habove)))
  · intro m hm hmlast
    by_cases hnew : m = s.lastnode + 1
    · exact .inl ((hsame₂ m).mpr ⟨1, by omega, by omega, by rw [put_self, hnew]⟩)
    · have hmlast' : m ≤ s.lastnode := by
        change m ≤ s.lastnode + 1 at hmlast
        omega
      rcases h.inner m hm hmlast' with ⟨j, hj, hjn, hx⟩ | habove
      · by_cases hj₁ : j = 1
        · exact .inr (hput hmlast' (.inl (hj₁ ▸ hx)))
        · have hin : Holds (n - 1) heap₁ m := by
            rw [hsame₁, holds_put (by omega) (by omega)]
            by_cases hj₂ : j = n
            · exact .inl (hj₂ ▸ hx)
            · exact .inr ⟨j, hj, by omega, hj₁, hx⟩
          obtain ⟨k, hk, hkn, hx⟩ := hin
          by_cases hk₁ : k = 1
          · exact .inr (hput hmlast' (.inr (.inl (hk₁ ▸ hx))))
          · left
            rw [hsame₂, holds_put (by omega) (by omega)]
            exact .inr ⟨k, hk, hkn, hk₁, hx⟩
      · exact .inr (hput hmlast' (.inr (.inr habove)))

theorem mergeLoop_grows (n : Nat) (s : Forest) (h₁ : 1 ≤ n) (h : Growing n s) :
    ∃ s', mergeLoop n s = .ok s' ∧ Growing 1 s' := by
  induction n generalizing s with
  | zero => omega
  | succ n ih =>
    cases n with
    | zero => exact ⟨s, rfl, h⟩
    | succ n =>
      obtain ⟨s₁, hrun₁, hgrow₁⟩ := merge_grows (by omega) h
      obtain ⟨s₂, hrun₂, hgrow₂⟩ := ih s₁ (Nat.succ_pos n) hgrow₁
      refine ⟨s₂, ?_, hgrow₂⟩
      rw [mergeLoop, hrun₁]
      exact hrun₂

/- What is gathered when the characters below `i` are still to come. -/
structure Gathering (i : Nat) (s : Gathered) : Prop where
  room : s.n + i ≤ END + 1
  held : ∀ x, Holds s.n s.heap x → x ≤ END
  zero : ∀ m, i ≤ m → m ≤ END → s.parent m = 0

theorem gatherAt_gathers (count : Arr Int) {i : Nat} {s : Gathered} (h : Gathering (i + 1) s) :
    ∃ s', gatherAt count i s = .ok s' ∧ Gathering i s' ∧ s.n ≤ s'.n ∧ (count i > 0 → 1 ≤ s'.n) := by
  have hend : END = 256 := rfl
  have hroom := h.room
  have hcount : Table.count.size = 257 := rfl
  have hparent := parent_size
  have hzero : ∀ m, i ≤ m → m ≤ END → put s.parent i 0 m = 0 := by
    intro m hm hmend
    by_cases hmi : m = i
    · rw [hmi, put_self]
    · rw [put_ne _ _ hmi]
      exact h.zero m (by omega) hmend
  rw [gatherAt, inside_bind (by omega), inside_bind (by omega)]
  by_cases hc : count i > 0
  · have hheap := heap_size
    rw [if_pos hc, inside_bind (by omega)]
    refine ⟨_, rfl, ⟨?_, ?_, hzero⟩, Nat.le_succ s.n, fun _ => Nat.succ_pos s.n⟩
    · change s.n + 1 + i ≤ END + 1
      omega
    · rintro x ⟨j, hj, hjn, hx⟩
      by_cases hjs : j = s.n + 1
      · have hnode : i = x := by
          rw [hjs] at hx
          change (put s.heap (s.n + 1) ⟨count i, i⟩ (s.n + 1)).node = x at hx
          rw [put_self] at hx
          exact hx
        omega
      · change (put s.heap (s.n + 1) ⟨count i, i⟩ j).node = x at hx
        rw [put_ne _ _ hjs] at hx
        exact h.held x ⟨j, hj, by change j ≤ s.n + 1 at hjn; omega, hx⟩
  · rw [if_neg hc]
    refine ⟨_, rfl, ⟨?_, h.held, hzero⟩, Nat.le_refl _, fun hpos => absurd hpos hc⟩
    change s.n + i ≤ END + 1
    omega

theorem gather_gathers (count : Arr Int) (i : Nat) (s : Gathered) (h : Gathering i s) :
    ∃ s', gather count i s = .ok s' ∧ Gathering 0 s' ∧ s.n ≤ s'.n := by
  induction i generalizing s with
  | zero => exact ⟨s, rfl, h, Nat.le_refl _⟩
  | succ i ih =>
    obtain ⟨s₁, hrun₁, hgath₁, hle₁, -⟩ := gatherAt_gathers count h
    obtain ⟨s₂, hrun₂, hgath₂, hle₂⟩ := ih s₁ hgath₁
    refine ⟨s₂, ?_, hgath₂, Nat.le_trans hle₁ hle₂⟩
    rw [gather, hrun₁, ok_bind, hrun₂]

/-- Going to the parent goes up among the nodes made, and ends. -/
structure Rooted (parent : Arr Nat) (lastnode : Nat) : Prop where
  low : END ≤ lastnode
  room : lastnode ≤ 2 * END
  up : ∀ m ≤ lastnode, parent m = 0 ∨ m < parent m ∧ parent m ≤ lastnode

theorem Growing.rooted {s : Forest} (h : Growing 1 s) :
    Rooted (put s.parent s.lastnode 0) s.lastnode := by
  refine ⟨h.low, Nat.le_of_succ_le_succ h.room, fun m hm => ?_⟩
  by_cases hlast : m = s.lastnode
  · rw [hlast, put_self]
    exact .inl rfl
  · rw [put_ne _ _ hlast]
    by_cases hmend : m ≤ END
    · exact (h.leaf m hmend).imp_right fun habove => ⟨habove.1, habove.2.2⟩
    · right
      rcases h.inner m (by omega) hm with ⟨j, hj, hjn, hx⟩ | habove
      · exfalso
        -- the one entry left is the last node made
        rcases h.inner s.lastnode (by omega) (Nat.le_refl _) with ⟨k, hk, hkn, hy⟩ | habove
        · have hjk : j = k := by omega
          rw [hjk, hy] at hx
          exact hlast hx.symm
        · have := habove.1
          have := habove.2.2
          omega
      · exact ⟨habove.1, habove.2.2⟩

theorem hufftree_rooted (old : Tables) (count : Arr Int) (hcount : count END > 0) :
    ∃ s t, hufftree old count = .ok (s, t) ∧ ∀ f, t = some f → Rooted f.parent f.lastnode := by
  have hend : END = 256 := rfl
  have hstart : Gathering (END + 1) ⟨old.parent, old.heap, 0, -1, 0⟩ := by
    refine ⟨Nat.le_of_eq (Nat.zero_add _), ?_, ?_⟩
    · rintro x ⟨j, hj, hjn, -⟩
      change j ≤ 0 at hjn
      omega
    · intro m hm hmend
      omega
  obtain ⟨s₁, hrun₁, hgath₁, -, hpos⟩ := gatherAt_gathers count hstart
  obtain ⟨s₂, hrun₂, hgath₂, hle⟩ := gather_gathers count END s₁ hgath₁
  have hgather : gather count (END + 1) ⟨old.parent, old.heap, 0, -1, 0⟩ = .ok s₂ := by
    rw [gather, hrun₁, ok_bind, hrun₂]
  have hn : 1 ≤ s₂.n := Nat.le_trans (hpos hcount) hle
  have hroom := hgath₂.room
  rw [hufftree, hgather, ok_bind]
  by_cases htrivial : s₂.diffbytes = 1
  · rw [if_pos htrivial]
    exact ⟨s₂, none, rfl, fun f hf => nomatch hf⟩
  · rw [if_neg htrivial]
    obtain ⟨heap, hmake, hsame⟩ :=
      makeHeap_spec (n := s₂.n) (by omega) (s₂.n / 2) (by omega) s₂.heap
    have hgrow : Growing s₂.n ⟨heap, s₂.parent, END⟩ := by
      refine ⟨Nat.le_refl _, ?_, fun x hx => hgath₂.held x ((hsame x).mp hx), ?_, ?_⟩
      · change END + s₂.n ≤ 2 * END + 1
        omega
      · exact fun m hm => .inl (hgath₂.zero m (Nat.zero_le m) hm)
      · intro m hm hm'
        change m ≤ END at hm'
        omega
    obtain ⟨f, hmerge, hgrow'⟩ := mergeLoop_grows s₂.n _ hn hgrow
    have hrooted := hgrow'.rooted
    have hlast := hrooted.room
    have hparent := parent_size
    refine ⟨s₂, some { f with parent := put f.parent f.lastnode 0 }, ?_, ?_⟩
    · rw [hmake, ok_bind, hmerge, ok_bind, inside_bind (by omega)]
    · intro f' hf'
      exact Option.some.inj hf' ▸ hrooted

/-- The character has at most 24 nodes above it. -/
def Shallow (parent : Arr Nat) (c : Nat) : Prop := ∃ j ≤ 24, parent.get^[j + 1] c = 0

theorem depth_spec {parent : Arr Nat} {lastnode : Nat} (h : Rooted parent lastnode)
    (fuel p c : Nat) (hp : p ≤ lastnode) (hfuel : lastnode + 2 ≤ fuel + p ∨ p = 0 ∧ 1 ≤ fuel) :
    ∃ k, depth parent fuel p c = .ok (c + k) ∧ ∀ b, (∃ j ≤ b, parent.get^[j] p = 0) ↔ k ≤ b := by
  have hparent := parent_size
  have hroom := h.room
  have hend : END = 256 := rfl
  induction fuel generalizing p c with
  | zero => omega
  | succ fuel ih =>
    rw [depth]
    by_cases hzero : p = 0
    · rw [if_pos hzero]
      exact ⟨0, rfl, fun b => ⟨fun _ => Nat.zero_le b, fun _ => ⟨0, Nat.zero_le b, hzero⟩⟩⟩
    · rw [if_neg hzero, inside_bind (by omega)]
      have hup := h.up p hp
      obtain ⟨k, hrun, hk⟩ := ih (parent p) (c + 1) (by omega) (by omega)
      refine ⟨k + 1, by rw [hrun, Nat.add_assoc, Nat.add_comm 1 k], fun b => ?_⟩
      constructor
      · rintro ⟨j, hj, hjz⟩
        cases j with
        | zero => exact absurd hjz hzero
        | succ j =>
          have hle := (hk (b - 1)).mp ⟨j, by omega, by rwa [Function.iterate_succ_apply] at hjz⟩
          omega
      · intro hle
        obtain ⟨j, hj, hjz⟩ := (hk (b - 1)).mpr (by omega)
        exact ⟨j + 1, by omega, by rwa [Function.iterate_succ_apply]⟩

theorem assignAt_spec {parent : Arr Nat} {lastnode : Nat} (h : Rooted parent lastnode)
    (count : Arr Int) {i : Nat} (hi : i ≤ END) (s : Lengths) :
    (Shallow parent i → ∃ s', assignAt parent count i s = .ok s' ∧
      (s.maxlev ≤ 24 → s'.maxlev ≤ 24)) ∧
    (¬ Shallow parent i → assignAt parent count i s = .error (.outside .levcount)) := by
  have hend : END = 256 := rfl
  have hparent := parent_size
  have hlow := h.low
  have hup := h.up i (by omega)
  obtain ⟨k, hrun, hk⟩ := depth_spec h (2 * END + 2) (parent i) 0 (by omega)
    (by have := h.room; omega)
  rw [Nat.zero_add] at hrun
  have hshallow : Shallow parent i ↔ k ≤ 24 := by
    rw [← hk 24]
    rfl
  have hsize : Table.levcount.size = 25 := rfl
  rw [hshallow, assignAt, inside_bind (by omega), hrun]
  constructor
  · intro hle
    change ∃ s', (inside .levcount k >>= _) = _ ∧ _
    have hcount : Table.count.size = 257 := rfl
    rw [inside_bind (by omega), inside_bind (by omega)]
    exact ⟨_, rfl, fun hmax => Nat.max_le.mpr ⟨hmax, hle⟩⟩
  · intro hgt
    change (inside .levcount k >>= _) = _
    rw [inside, if_neg (by omega)]
    rfl

theorem assign_spec {parent : Arr Nat} {lastnode : Nat} (h : Rooted parent lastnode)
    (count : Arr Int) (i : Nat) (hi : i ≤ END + 1) (s : Lengths) (hs : s.maxlev ≤ 24) :
    ((∀ c < i, Shallow parent c) → ∃ s', assign parent count i s = .ok s' ∧ s'.maxlev ≤ 24) ∧
    (¬ (∀ c < i, Shallow parent c) → assign parent count i s = .error (.outside .levcount)) := by
  induction i with
  | zero => exact ⟨fun _ => ⟨s, rfl, hs⟩, fun hno => absurd (fun c hc => absurd hc c.not_lt_zero) hno⟩
  | succ i ih =>
    obtain ⟨hok, herr⟩ := ih (by omega)
    rw [assign]
    by_cases hall : ∀ c < i, Shallow parent c
    · obtain ⟨s₁, hrun, hmax⟩ := hok hall
      obtain ⟨hok', herr'⟩ := assignAt_spec h count (Nat.le_of_succ_le_succ hi) s₁
      rw [hrun]
      constructor
      · intro hsucc
        obtain ⟨s₂, hrun₂, hmax₂⟩ := hok' (hsucc i (Nat.lt_succ_self i))
        exact ⟨s₂, hrun₂, hmax₂ hmax⟩
      · intro hno
        apply herr'
        intro hi
        apply hno
        intro c hc
        rcases Nat.lt_succ_iff_lt_or_eq.mp hc with hc | rfl
        · exact hall c hc
        · exact hi
    · rw [herr hall]
      exact ⟨fun hsucc => absurd (fun c hc => hsucc c (Nat.lt_succ_of_lt hc)) hall, fun _ => rfl⟩

theorem levels_ok (levcount : Arr Int) (is : List Nat) (h : ∀ i ∈ is, i ≤ 24) :
    ∃ l, levels levcount is = .ok l := by
  have hsize : Table.levcount.size = 25 := rfl
  induction is with
  | nil => exact ⟨[], rfl⟩
  | cons i is ih =>
    obtain ⟨l, hl⟩ := ih fun j hj => h j (List.mem_cons_of_mem i hj)
    have hi := h i List.mem_cons_self
    rw [levels, inside_bind (by omega), hl]
    exact ⟨_, rfl⟩

theorem dictionary_ok (insize : Int) (s : Lengths) (h : s.maxlev ≤ 24) :
    ∃ l, dictionary insize s = .ok l := by
  have hsize : Table.levcount.size = 25 := rfl
  obtain ⟨l, hl⟩ := levels_ok s.levcount (List.range' 1 (s.maxlev - 1)) fun i hi => by
    have := List.mem_range'_1.mp hi
    omega
  rw [dictionary, hl]
  change ∃ l, (inside .levcount s.maxlev >>= _) = Except.ok l
  rw [inside_bind (by omega)]
  exact ⟨_, rfl⟩

theorem encode_spec {f : Forest} (old : Tables) (force : Bool) (count : Arr Int) (s : Gathered)
    (h : Rooted f.parent f.lastnode) :
    ((∀ c ≤ END, Shallow f.parent c) →
      ∃ r, encode old force count s f = .ok r ∧ r ≠ .tooManyLevels) ∧
    (¬ (∀ c ≤ END, Shallow f.parent c) →
      encode old force count s f = .error (.outside .levcount)) := by
  obtain ⟨hok, herr⟩ := assign_spec h count (END + 1) (Nat.le_refl _)
    ⟨clear old.levcount, old.length, 0, 0⟩ (Nat.zero_le 24)
  rw [encode]
  dsimp only
  constructor
  · intro hall
    obtain ⟨t, hrun, hmax⟩ := hok fun c hc => hall c (Nat.le_of_lt_succ hc)
    obtain ⟨l, hl⟩ := dictionary_ok (s.insize / 2) t hmax
    rw [hrun]
    change ∃ r, (if t.maxlev > 24 then _ else _) = Except.ok r ∧ _
    rw [if_neg (by omega)]
    split
    · exact ⟨.noSaving, rfl, fun h => nomatch h⟩
    · rw [hl]
      exact ⟨.packed l, rfl, fun h => nomatch h⟩
  · intro hno
    rw [herr fun hall => hno fun c hc => hall c (Nat.lt_succ_of_le hc)]
    rfl

/-- The test of maxlev never refuses a tree. -/
theorem packfile_never_refuses (old : Tables) (force : Bool) (reads : List (List (Fin 256))) :
    packfile old force reads ≠ .ok .tooManyLevels := by
  obtain ⟨s, t, htree, hrooted⟩ :=
    hufftree_rooted old (put (input reads) END 1) (by rw [put_self]; exact Int.one_pos)
  rw [packfile]
  dsimp only
  rw [htree, ok_bind]
  dsimp only
  cases t with
  | none => exact fun h => nomatch h
  | some f =>
    obtain ⟨hok, herr⟩ := encode_spec old force (put (input reads) END 1) s (hrooted f rfl)
    dsimp only
    by_cases hall : ∀ c ≤ END, Shallow f.parent c
    · obtain ⟨r, hr, hne⟩ := hok hall
      rw [hr]
      exact fun heq => hne (Except.ok.inj heq)
    · rw [herr hall]
      exact fun h => nomatch h

/- The arrays of the program as it starts. -/
def fresh : Tables := ⟨⟨fun _ => 0⟩, ⟨fun _ => ⟨0, 0⟩⟩, ⟨fun _ => 0⟩, ⟨fun _ => 0⟩⟩

end Svr32.Pack
