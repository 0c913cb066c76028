import Svr32.Stream.Queue
import Svr32.Lib.Deque
import Svr32.Lib.Seg
import Svr32.Lib.Count
import Mathlib.Algebra.GroupWithZero.Nat

/-! The messages on the queues: each queue is a doubly linked list of messages, and no block
is in two of them. -/
namespace Svr32.Stream
open Svr32.Lib

namespace Pool
variable {k : Pool} {b : Nat}

/- What a queue sees of a block: its message, its type and its class. -/
def view (k : Pool) (b : Nat) : Option Nat × Option Nat × Option (BitVec 8 × Nat) :=
  ((k.mb b).bCont, (k.mb b).bDatap, (k.mb b).bDatap.map fun d => ((k.db d).dbType, (k.db d).dbClass))

@[simp] theorem next_setNext (b : Nat) (n : Option Nat) (k : Pool) :
    (k.setNext b n).next = Function.update k.next b n := by
  funext x
  by_cases hx : x = b <;> simp [next, setNext, setMb, hx]

@[simp] theorem prev_setNext (b : Nat) (n : Option Nat) (k : Pool) :
    (k.setNext b n).prev = k.prev := by
  funext x
  by_cases hx : x = b <;> simp [prev, setNext, setMb, hx]

@[simp] theorem next_setPrev (b : Nat) (p : Option Nat) (k : Pool) :
    (k.setPrev b p).next = k.next := by
  funext x
  by_cases hx : x = b <;> simp [next, setPrev, setMb, hx]

@[simp] theorem prev_setPrev (b : Nat) (p : Option Nat) (k : Pool) :
    (k.setPrev b p).prev = Function.update k.prev b p := by
  funext x
  by_cases hx : x = b <;> simp [prev, setPrev, setMb, hx]

@[simp] theorem view_setNext (b : Nat) (n : Option Nat) (k : Pool) :
    (k.setNext b n).view = k.view := by
  funext x
  by_cases hx : x = b <;> simp [view, setNext, setMb, hx]

@[simp] theorem view_setPrev (b : Nat) (p : Option Nat) (k : Pool) :
    (k.setPrev b p).view = k.view := by
  funext x
  by_cases hx : x = b <;> simp [view, setPrev, setMb, hx]

@[simp] theorem nmblock_setNext (b : Nat) (n : Option Nat) (k : Pool) :
    (k.setNext b n).nmblock = k.nmblock := rfl

@[simp] theorem nmblock_setPrev (b : Nat) (p : Option Nat) (k : Pool) :
    (k.setPrev b p).nmblock = k.nmblock := rfl

/- Type and weight of a block, by what is seen of it. -/
def btype (k : Pool) (b : Nat) : BitVec 8 := ((k.view b).2.2.map Prod.fst).getD 0

def cls (k : Pool) (b : Nat) : BitVec 8 := k.btype b &&& QPCTL

def bweight (k : Pool) (b : Nat) : Nat := ((k.view b).2.2.map fun x => bsize.getD x.2 0).getD 0

/- The weight of a message of the blocks `l`. -/
def weight (k : Pool) (l : List Nat) : Nat := (l.map k.bweight).sum

end Pool

/- A message: the blocks from `m` on are `l`, and have data. -/
structure Msg (k : Pool) (m : Nat) (l : List Nat) : Prop where
  seg : Seg k.cont (some m) l
  data : ∀ b ∈ l, ∃ d, (k.mb b).bDatap = some d
  nodup : l.Nodup
  lt : ∀ b ∈ l, b < k.nmblock

variable {k k' : Pool} {m b : Nat} {l : List Nat}

theorem Msg.congr (h : Msg k m l) (hv : ∀ b ∈ l, k'.view b = k.view b)
    (hn : k'.nmblock = k.nmblock) : Msg k' m l := by
  refine ⟨h.seg.congr fun b hb => congrArg Prod.fst (hv b hb), fun b hb => ?_, h.nodup, ?_⟩
  · have hd : (k'.mb b).bDatap = (k.mb b).bDatap :=
      congrArg (fun v => v.2.1) (hv b hb)
    rw [hd]
    exact h.data b hb
  · rw [hn]
    exact h.lt

theorem Msg.head_mem (h : Msg k m l) : m ∈ l := by
  cases l with
  | nil => cases h.seg
  | cons x xs =>
    have hx : m = x := Option.some.inj h.seg.1
    simp [hx]

theorem weight_congr (hv : ∀ b ∈ l, k'.view b = k.view b) : k'.weight l = k.weight l := by
  have hmap : l.map k'.bweight = l.map k.bweight :=
    List.map_congr_left fun b hb => by rw [Pool.bweight, Pool.bweight, hv b hb]
  rw [Pool.weight, Pool.weight, hmap]

theorem dbType_eq {d : Nat} (h : (k.mb b).bDatap = some d) : dbType b k = some (k.btype b) := by
  simp [dbType, Pool.btype, Pool.view, h]

theorem queclass_eq {d : Nat} (h : (k.mb b).bDatap = some d) : queclass b k = some (k.cls b) := by
  simp [queclass, dbType_eq h, Pool.cls]

theorem Msg.queclass (h : Msg k m l) : Stream.queclass m k = some (k.cls m) := by
  obtain ⟨d, hd⟩ := h.data m h.head_mem
  exact queclass_eq hd

theorem weigh_eq {p : Option Nat} {fuel : Nat} (hs : Seg k.cont p l)
    (hd : ∀ b ∈ l, ∃ d, (k.mb b).bDatap = some d) (hfuel : l.length ≤ fuel) :
    weigh fuel p k = some (k.weight l) := by
  induction l generalizing p fuel with
  | nil =>
    have hp : p = none := hs
    rw [hp]
    cases fuel <;> rfl
  | cons x l ih =>
    obtain ⟨n, rfl⟩ := Nat.exists_eq_succ_of_ne_zero (Nat.ne_zero_of_lt hfuel)
    have hp : p = some x := hs.1
    obtain ⟨d, hx⟩ := hd x (by simp)
    have hrest := @ih _ n hs.2 (fun b hb => hd b (List.mem_cons_of_mem x hb))
      (Nat.le_of_succ_le_succ hfuel)
    simp only [hp, weigh, hx, hrest, Option.bind_eq_bind, Option.bind_some]
    simp [Pool.weight, Pool.bweight, Pool.view, hx]

theorem Msg.weigh (h : Msg k m l) : Stream.weigh k.nmblock (some m) k = some (k.weight l) := by
  exact weigh_eq h.seg h.data (length_le_of_nodup h.nodup h.lt)

/- The queue `q` has the messages `ls q`, and the message `m` the blocks `ch m`. -/
structure Lists (s : Streams) (ls ch : Nat → List Nat) : Prop where
  queue : ∀ q, Deque s.pool.next s.pool.prev (s.q q).qFirst (s.q q).qLast (ls q)
  msg : ∀ q, ∀ m ∈ ls q, Msg s.pool m (ch m)
  apart : ∀ q q' m m' b, m ∈ ls q → m' ∈ ls q' → b ∈ ch m → b ∈ ch m' → q = q' ∧ m = m'

/- A message that is on no queue. -/
structure Loose (s : Streams) (ls ch : Nat → List Nat) (bp : Nat) : Prop where
  msg : Msg s.pool bp (ch bp)
  apart : ∀ q, ∀ m ∈ ls q, ∀ b ∈ ch m, b ∉ ch bp

variable {s s' : Streams} {ls ch : Nat → List Nat} {q bp : Nat} {pre post : List Nat}

theorem Lists.queue_eq (h : Lists s ls ch) {q q' : Nat} (hm : m ∈ ls q) (hm' : m ∈ ls q') :
    q = q' :=
  (h.apart q q' m m m hm hm' (h.msg q m hm).head_mem (h.msg q' m hm').head_mem).1

theorem Loose.not_mem (h : Loose s ls ch bp) (q : Nat) : bp ∉ ls q := fun hm =>
  h.apart q bp hm bp h.msg.head_mem h.msg.head_mem

/- All of a queue but its ends. -/
def Queue.flow (v : Queue) : Queue := { v with qFirst := none, qLast := none }

/- Only links of messages and the ends of `q` have changed. -/
structure Relinked (q : Nat) (s s' : Streams) : Prop where
  view : s'.pool.view = s.pool.view
  size : s'.pool.nmblock = s.pool.nmblock
  flow : ∀ x, (s'.q x).flow = (s.q x).flow
  ends : ∀ x, x ≠ q → (s'.q x).qFirst = (s.q x).qFirst ∧ (s'.q x).qLast = (s.q x).qLast
  run : s'.nqueue = s.nqueue ∧ s'.qhead = s.qhead ∧ s'.qtail = s.qtail

/- The message `bp` has come between `pre` and `post`. -/
structure Inserted (q bp : Nat) (pre post : List Nat) (s s' : Streams) : Prop
    extends Relinked q s s' where
  bnext : s'.pool.next bp = post.head?
  bprev : s'.pool.prev bp = pre.getLast?
  next : ∀ y, y ≠ bp →
    s'.pool.next y = if pre.getLast? = some y then some bp else s.pool.next y
  prev : ∀ y, y ≠ bp → s'.pool.prev y = if post.head? = some y then some bp else s.pool.prev y
  first : (s'.q q).qFirst = if pre = [] then some bp else (s.q q).qFirst
  last : (s'.q q).qLast = if post = [] then some bp else (s.q q).qLast

/- The message `bp` has gone from between `pre` and `post`. -/
structure Removed (q bp : Nat) (pre post : List Nat) (s s' : Streams) : Prop
    extends Relinked q s s' where
  next : ∀ y, y ≠ bp →
    s'.pool.next y = if pre.getLast? = some y then post.head? else s.pool.next y
  prev : ∀ y, y ≠ bp →
    s'.pool.prev y = if post.head? = some y then pre.getLast? else s.pool.prev y
  first : (s'.q q).qFirst = if pre = [] then post.head? else (s.q q).qFirst
  last : (s'.q q).qLast = if post = [] then pre.getLast? else (s.q q).qLast

theorem mem_insert_queue {x : Nat} (hl : ls q = pre ++ post) :
    m ∈ Function.update ls q (pre ++ bp :: post) x ↔ m ∈ ls x ∨ (x = q ∧ m = bp) := by
  by_cases hx : x = q
  · rw [hx, Function.update_self, hl]
    simp only [List.mem_append, List.mem_cons, true_and]
    grind
  · simp [hx]

theorem mem_remove_queue {x : Nat} (hl : ls q = pre ++ bp :: post)
    (hm : m ∈ Function.update ls q (pre ++ post) x) : m ∈ ls x := by
  by_cases hx : x = q
  · rw [hx, Function.update_self] at hm
    rw [hx, hl]
    simp only [List.mem_append, List.mem_cons] at hm ⊢
    grind
  · rwa [Function.update_of_ne hx] at hm

theorem Lists.insert (h : Lists s ls ch) (hb : Loose s ls ch bp) (hl : ls q = pre ++ post)
    (hi : Inserted q bp pre post s s') :
    Lists s' (Function.update ls q (pre ++ bp :: post)) ch := by
  have hmsg : ∀ m, Msg s.pool m (ch m) → Msg s'.pool m (ch m) := fun m hm =>
    hm.congr (fun b _ => by rw [hi.view]) hi.size
  have hbq := hb.not_mem q
  rw [hl] at hbq
  refine ⟨fun x => ?_, fun x m hm => ?_, fun x x' m m' b hm hm' hbm hbm' => ?_⟩
  · by_cases hx : x = q
    · rw [hx, Function.update_self]
      have hq := h.queue q
      rw [hl] at hq
      have hne : ∀ y ∈ pre ++ post, y ≠ bp := fun y hy he => hbq (he ▸ hy)
      exact hq.insert hbq hi.bnext hi.bprev (fun y hy => hi.next y (hne y hy))
        (fun y hy => hi.prev y (hne y hy)) hi.first hi.last
    · rw [Function.update_of_ne hx, (hi.ends x hx).1, (hi.ends x hx).2]
      refine (h.queue x).congr fun y hy => ?_
      have hyb : y ≠ bp := fun he => hb.not_mem x (he ▸ hy)
      have hyq : y ∉ pre ++ post := fun hm => hx (h.queue_eq hy (hl ▸ hm))
      rw [hi.next y hyb, hi.prev y hyb, if_neg, if_neg]
      · exact ⟨rfl, rfl⟩
      · exact fun he => hyq (List.mem_append_right pre (List.mem_of_mem_head? he))
      · exact fun he => hyq (List.mem_append_left post (List.mem_of_mem_getLast? he))
  · rcases (mem_insert_queue hl).mp hm with hm | ⟨-, he⟩
    · exact hmsg m (h.msg x m hm)
    · exact he ▸ hmsg bp hb.msg
  · rcases (mem_insert_queue hl).mp hm with hm | ⟨hx, he⟩
    · rcases (mem_insert_queue hl).mp hm' with hm' | ⟨-, he'⟩
      · exact h.apart x x' m m' b hm hm' hbm hbm'
      · exact absurd (he' ▸ hbm') (hb.apart x m hm b hbm)
    · rcases (mem_insert_queue hl).mp hm' with hm' | ⟨hx', he'⟩
      · exact absurd (he ▸ hbm) (hb.apart x' m' hm' b hbm')
      · exact ⟨hx.trans hx'.symm, he.trans he'.symm⟩

theorem Lists.remove (h : Lists s ls ch) (hl : ls q = pre ++ bp :: post)
    (hi : Removed q bp pre post s s') : Lists s' (Function.update ls q (pre ++ post)) ch := by
  have hmsg : ∀ m, Msg s.pool m (ch m) → Msg s'.pool m (ch m) := fun m hm =>
    hm.congr (fun b _ => by rw [hi.view]) hi.size
  have hq := h.queue q
  rw [hl] at hq
  have hbq := (List.nodup_cons.mp (List.perm_middle.nodup_iff.mp hq.nodup)).1
  refine ⟨fun x => ?_, fun x m hm => hmsg m (h.msg x m (mem_remove_queue hl hm)),
    fun x x' m m' b hm hm' => h.apart x x' m m' b (mem_remove_queue hl hm)
      (mem_remove_queue hl hm')⟩
  by_cases hx : x = q
  · rw [hx, Function.update_self]
    have hne : ∀ y ∈ pre ++ post, y ≠ bp := fun y hy he => hbq (he ▸ hy)
    exact hq.remove (fun y hy => hi.next y (hne y hy)) (fun y hy => hi.prev y (hne y hy))
      hi.first hi.last
  · rw [Function.update_of_ne hx, (hi.ends x hx).1, (hi.ends x hx).2]
    refine (h.queue x).congr fun y hy => ?_
    have hyq : y ∉ pre ++ bp :: post := fun hm => hx (h.queue_eq hy (hl ▸ hm))
    have hyb : y ≠ bp := fun he => hyq (by simp [he])
    rw [hi.next y hyb, hi.prev y hyb, if_neg, if_neg]
    · exact ⟨rfl, rfl⟩
    · exact fun he => hyq (by simp [List.mem_of_mem_head? he])
    · exact fun he => hyq (by simp [List.mem_of_mem_getLast? he])

end Svr32.Stream
