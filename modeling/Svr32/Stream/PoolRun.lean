import Svr32.Stream.Pullup
import Svr32.Lib.System

/-! Runs of the message block routines on messages that the callers own. -/
namespace Svr32.Stream
open Svr32.Lib
variable {nd : Nat} {k k' : Pool} {fl : List Nat} {ms : List (List Nat)} {b d p : Nat}

namespace Pool

/- The lists that the pointers make. -/
def Free (k : Pool) (b : Nat) : Prop := ∃ l, Seg k.next k.mbfreelist l ∧ b ∈ l

def DFree (k : Pool) (c d : Nat) : Prop := ∃ l, Seg k.freep (k.dbfreelist c) l ∧ d ∈ l

def In (k : Pool) (p b : Nat) : Prop := ∃ l, Seg k.cont (some p) l ∧ b ∈ l

end Pool

/- `own` are the messages that the callers hold. -/
structure PoolWorld where
  k : Pool
  own : Set Nat

def PoolWorld.Owned (w : PoolWorld) (b : Nat) : Prop := ∃ p ∈ w.own, w.k.In p b

inductive Call
  | allocb (size : Int) (pri : Nat)
  | dupb (b : Nat)
  | dupmsg (b : Nat)
  | copyb (b : Nat)
  | copymsg (b : Nat)
  | linkb (mp bp : Nat)
  | unlinkb (b : Nat)
  | rmvb (mp b : Nat)
  | pullupmsg (mp : Nat) (len : Int)
  | freeb (b : Nat)
  | freemsg (b : Nat)
  | write (b : Nat) (r w : Int) (t : BitVec 8) (mem : Int → BitVec 8)

/- What a call does to the pool and to what the callers hold. Who frees the head of a message
   keeps the rest; who has a block may use it. -/
inductive Does : Call → PoolWorld → PoolWorld → Prop
  | allocb {w : PoolWorld} (size : Int) (pri : Nat) : Does (.allocb size pri) w
    ⟨(allocb size pri w.k).2, w.own ∪ {x | (allocb size pri w.k).1 = some x}⟩
  | dupb {w : PoolWorld} {b : Nat} {r : Option Nat} {k' : Pool} : w.Owned b →
    dupb b w.k = some (r, k') → Does (.dupb b) w ⟨k', w.own ∪ {x | r = some x}⟩
  | dupmsg {w : PoolWorld} {b : Nat} {r : Option Nat} {k' : Pool} : w.Owned b →
    dupmsg (some b) w.k = some (r, k') → Does (.dupmsg b) w ⟨k', w.own ∪ {x | r = some x}⟩
  | copyb {w : PoolWorld} {b : Nat} {r : Option Nat} {k' : Pool} : w.Owned b →
    copyb b w.k = some (r, k') → Does (.copyb b) w ⟨k', w.own ∪ {x | r = some x}⟩
  | copymsg {w : PoolWorld} {b : Nat} {r : Option Nat} {k' : Pool} : w.Owned b →
    copymsg (some b) w.k = some (r, k') → Does (.copymsg b) w ⟨k', w.own ∪ {x | r = some x}⟩
  | linkb {w : PoolWorld} {mp bp : Nat} {k' : Pool} : w.Owned mp → bp ∈ w.own → ¬ w.k.In bp mp →
    linkb mp (some bp) w.k = some k' → Does (.linkb mp bp) w ⟨k', w.own \ {bp}⟩
  | unlinkb {w : PoolWorld} {b : Nat} : w.Owned b →
    Does (.unlinkb b) w ⟨(unlinkb b w.k).2, w.own ∪ {x | (unlinkb b w.k).1 = some x}⟩
  | rmvb {w : PoolWorld} {mp b : Nat} {q : Option Nat} {k' : Pool} : mp ∈ w.own →
    rmvb (some mp) b w.k = some (some q, k') →
    Does (.rmvb mp b) w ⟨k', w.own ∪ {b} ∪ {x | q = some x}⟩
  | rmvb_absent {w : PoolWorld} {mp b : Nat} {k' : Pool} : mp ∈ w.own →
    rmvb (some mp) b w.k = some (none, k') → Does (.rmvb mp b) w { w with k := k' }
  | pullupmsg {w : PoolWorld} {mp : Nat} {len : Int} {r : Bool} {k' : Pool} : w.Owned mp →
    -1 ≤ len → pullupmsg mp len w.k = some (r, k') → Does (.pullupmsg mp len) w { w with k := k' }
  | freeb {w : PoolWorld} {b : Nat} {k' : Pool} : b ∈ w.own → freeb b w.k = some k' →
    Does (.freeb b) w ⟨k', w.own \ {b} ∪ {x | w.k.cont b = some x}⟩
  | freemsg {w : PoolWorld} {b : Nat} {k' : Pool} : b ∈ w.own → freemsg (some b) w.k = some k' →
    Does (.freemsg b) w ⟨k', w.own \ {b}⟩
  | write {w : PoolWorld} {b d : Nat} (r t : Int) (ty : BitVec 8) (mem : Int → BitVec 8) :
    w.Owned b → w.k.datap b = some d → r ≤ t → Does (.write b r t ty mem) w
      { w with k := { (w.k.setMb b { w.k.mb b with bRptr := r, bWptr := t }).setDb d
        { w.k.db d with dbType := ty } with mem := mem } }

/- The pool after strinit: all blocks free, and no references. -/
structure Fresh (nd : Nat) (w : PoolWorld) : Prop where
  msgs : ∃ fl, Seg w.k.next w.k.mbfreelist fl ∧ fl.Nodup ∧ ∀ b, b ∈ fl ↔ b < w.k.nmblock
  empty : ∀ b, w.k.datap b = none
  data : ∃ dfl, Family w.k.freep w.k.dbfreelist dfl ∧
    ∀ c d, d ∈ dfl c ↔ d < nd ∧ (w.k.db d).dbClass = c
  zero : ∀ d, (w.k.db d).dbRef = 0
  cnt : ∀ c, w.k.dbaCnt c = 0
  own : w.own = ∅

/- The routines, with the calls that meet `C`. -/
def pool (nd : Nat) (C : Call → Pool → Prop) : System PoolWorld where
  init := Fresh nd
  step w w' := ∃ c, Does c w w' ∧ C c w.k

/- No reference count passes 255, and no call of pullupmsg pulls up nothing. -/
def Fits : Call → Pool → Prop
  | .dupb b, k => ∀ fl, Seg k.next k.mbfreelist fl → DupOk k fl [b]
  | .dupmsg b, k => ∀ fl bs, Seg k.next k.mbfreelist fl → Seg k.cont (some b) bs → DupOk k fl bs
  | .pullupmsg mp len, k => ¬ PullsNothing mp len k
  | _, _ => True

/- The callers hold the heads of the messages. -/
def heads (ms : List (List Nat)) : Set Nat := {x | ∃ l ∈ ms, l.head? = some x}

/- Accounts and messages are in order. -/
def Sound (nd : Nat) (w : PoolWorld) : Prop :=
  ∃ fl ms, Account nd w.k fl ∧ Msgs w.k fl ms ∧ w.own = heads ms

@[simp] theorem heads_cons (l : List Nat) (ms : List (List Nat)) :
    heads (l :: ms) = {x | l.head? = some x} ∪ heads ms := by
  ext x
  simp [heads]

theorem heads_perm {ms' : List (List Nat)} (h : ms.Perm ms') : heads ms = heads ms' := by
  ext x
  exact ⟨fun ⟨l, hl, hx⟩ => ⟨l, h.mem_iff.mp hl, hx⟩, fun ⟨l, hl, hx⟩ => ⟨l, h.mem_iff.mpr hl, hx⟩⟩

theorem heads_sub (hx : p ∈ heads ms) : p ∈ ms.flatten := by
  obtain ⟨l, hl, hp⟩ := hx
  exact List.mem_flatten.mpr ⟨l, hl, List.mem_of_mem_head? hp⟩

/-- A message that a caller holds. -/
theorem own_split (hp : p ∈ heads ms) : ∃ l ms', ms.Perm ((p :: l) :: ms') := by
  obtain ⟨l, hl, hh⟩ := hp
  cases l with
  | nil => cases hh
  | cons x l =>
    cases hh
    exact ⟨l, ms.erase (p :: l), List.perm_cons_erase hl⟩

/-- The block `b` at its place. -/
theorem block_split (hb : b ∈ ms.flatten) :
    ∃ pre post ms', ms.Perm ((pre ++ b :: post) :: ms') := by
  obtain ⟨l, hl, hb⟩ := List.mem_flatten.mp hb
  obtain ⟨pre, post, rfl⟩ := List.append_of_mem hb
  exact ⟨pre, post, ms.erase (pre ++ b :: post), List.perm_cons_erase hl⟩

theorem Msgs.in_iff (h : Msgs k fl ms) (hp : p ∈ heads ms) : k.In p b ↔
    ∃ l ∈ ms, l.head? = some p ∧ b ∈ l := by
  obtain ⟨l, hl, hh⟩ := hp
  have hs := h.seg l hl
  rw [hh] at hs
  constructor
  · intro hi
    obtain ⟨l', hs', hb⟩ := hi
    exact ⟨l, hl, hh, (hs.unique hs') ▸ hb⟩
  · intro hi
    obtain ⟨l', hl', hh', hb⟩ := hi
    have hs' := h.seg l' hl'
    rw [hh'] at hs'
    exact ⟨l', hs', hb⟩

theorem owned_iff {w : PoolWorld} (h : Msgs w.k fl ms) (hown : w.own = heads ms) :
    w.Owned b ↔ b ∈ ms.flatten := by
  constructor
  · intro ho
    obtain ⟨p, hp, hi⟩ := ho
    obtain ⟨l, hl, -, hb⟩ := (h.in_iff (hown ▸ hp)).mp hi
    exact List.mem_flatten.mpr ⟨l, hl, hb⟩
  · intro hb
    obtain ⟨l, hl, hb⟩ := List.mem_flatten.mp hb
    have hhead : l.head? ≠ none := by
      intro hn
      rw [List.head?_eq_none_iff.mp hn] at hb
      cases hb
    obtain ⟨p, hp⟩ := Option.ne_none_iff_exists'.mp hhead
    have hmem : p ∈ heads ms := ⟨l, hl, hp⟩
    exact ⟨p, hown ▸ hmem, (h.in_iff hmem).mpr ⟨l, hl, hp, hb⟩⟩

theorem fresh_sound {w : PoolWorld} (h : Fresh nd w) : Sound nd w := by
  obtain ⟨fl, hseg, hnd, hfl⟩ := h.msgs
  obtain ⟨dfl, hfam, hdfl⟩ := h.data
  have hrefs : ∀ d, w.k.refs d = 0 := by
    intro d
    have hnone : (Finset.range w.k.nmblock).filter (fun b => w.k.datap b = some d) = ∅ :=
      Finset.filter_eq_empty_iff.mpr fun x _ => by simp [h.empty]
    rw [Pool.refs, pointing, hnone]
    rfl
  refine ⟨fl, [], ⟨hseg, hnd, fun b hb => (hfl b).mp hb, fun b _ => h.empty b, ?_, dfl, hfam, ?_,
    ?_, ?_⟩, ⟨by rintro _ ⟨⟩, List.nodup_nil, fun b => ?_, by rintro _ ⟨⟩⟩, ?_⟩
  · intro b _ d hd
    rw [h.empty] at hd
    cases hd
  · intro c d
    rw [hdfl, hrefs]
    simp
  · intro d _
    rw [h.zero, hrefs]
    rfl
  · intro c
    have hnone : w.k.used nd w.k.refs c = ∅ := by
      refine Finset.filter_eq_empty_iff.mpr fun d _ hd => hd.2 (hrefs d)
    rw [h.cnt, hnone]
    rfl
  · simp [hfl]
  · rw [h.own]
    ext x
    simp [heads]

/-- A copy, or nothing, has been added. -/
theorem Copied.sound {w : PoolWorld} {r : Option Nat} (h : Copied nd w.k ms r k')
    (hown : w.own = heads ms) : Sound nd ⟨k', w.own ∪ {x | r = some x}⟩ := by
  obtain ⟨fl', hacc, hout⟩ := h.out
  cases hout with
  | inl hn =>
    obtain ⟨rfl, hm⟩ := hn
    exact ⟨fl', ms, hacc, hm, by simp [hown]⟩
  | inr hs =>
    obtain ⟨n, l, rfl, hm⟩ := hs
    exact ⟨fl', (n :: l) :: ms, hacc, hm, by simp [hown, Set.union_comm]⟩

theorem Msgs.grow_sound {w : PoolWorld} {n : Nat} {rest : List Nat} (h : Msgs w.k fl ms)
    (hacc : Account nd w.k fl) (hg : Grew nd w.k fl k' n rest) (hown : w.own = heads ms) :
    Sound nd ⟨k', w.own ∪ {x | some n = some x}⟩ :=
  ⟨rest, [n] :: ms, hg.acc, h.grow hg hacc, by simp [hown, Set.union_comm]⟩

/-- The blocks from an owned block on. -/
theorem Msgs.suffix (h : Msgs k fl ms) (hb : b ∈ ms.flatten) :
    ∃ bs, Seg k.cont (some b) bs ∧ bs.Nodup ∧ ∀ x ∈ bs, x ∈ ms.flatten := by
  obtain ⟨pre, post, ms', hp⟩ := block_split hb
  have h' := h.perm hp
  have hs := h'.seg (pre ++ b :: post) (by simp)
  refine ⟨b :: post, hs.suffix, ?_, fun x hx => hp.flatten.mem_iff.mpr ?_⟩
  · exact (List.nodup_append'.mp (List.nodup_append'.mp h'.nodup).1).2.1
  · exact List.mem_append_left _ (List.mem_append_right pre hx)

theorem dupmsg_spec (hacc : Account nd k fl) (h : Msgs k fl ms) (hb : b ∈ ms.flatten)
    (hfits : Fits (.dupmsg b) k) :
    ∃ r k', dupmsg (some b) k = some (r, k') ∧ Copied nd k ms r k' := by
  obtain ⟨bs, hs, hnd, hin⟩ := h.suffix hb
  exact eachb_spec (dupb_copies nd) hacc h hs hin hnd (hfits fl bs hacc.seg hs)

theorem copymsg_spec (hacc : Account nd k fl) (h : Msgs k fl ms) (hb : b ∈ ms.flatten) :
    ∃ r k', copymsg (some b) k = some (r, k') ∧ Copied nd k ms r k' := by
  obtain ⟨bs, hs, hnd, hin⟩ := h.suffix hb
  exact eachb_spec (copyb_copies nd) hacc h hs hin hnd trivial

theorem Msgs.block (h : Msgs k fl ms) (hb : b ∈ ms.flatten) :
    b < k.nmblock ∧ b ∉ fl ∧ ∃ d, k.datap b = some d :=
  ⟨((h.cover b).mp hb).1, ((h.cover b).mp hb).2, h.data b hb⟩

/-- A message goes, and the others stay. -/
theorem Msgs.heads_diff {l : List Nat} (h : Msgs k fl ((p :: l) :: ms)) :
    heads ((p :: l) :: ms) \ {p} = heads ms := by
  have hout : p ∉ heads ms := fun hx =>
    (List.nodup_cons.mp h.nodup).1 (List.mem_append_right l (heads_sub hx))
  rw [heads_cons]
  ext x
  by_cases hx : x = p
  · simp [hx, hout]
  · simp [hx]

theorem rmvb_absent {l : List Nat} (h : Msgs k fl ((p :: l) :: ms)) (hb : b ∉ p :: l) :
    rmvb (some p) b k = some (none, k) := by
  have hs : Seg k.cont (some p) (p :: l) := h.seg (p :: l) (by simp)
  exact rmvbLoop_absent hs hb (h.length_le (List.mem_cons_self ..))

/-- Every call that meets the condition keeps the accounts and the messages. -/
theorem sound_step {w w' : PoolWorld} {c : Call} (h : Sound nd w) (hd : Does c w w')
    (hc : Fits c w.k) : Sound nd w' := by
  obtain ⟨fl, ms, hacc, hm, hown⟩ := h
  cases hd with
  | allocb size pri =>
    cases allocb_spec hacc size pri with
    | inl he =>
      rw [he]
      exact ⟨fl, ms, hacc, hm, by simp [hown]⟩
    | inr he =>
      obtain ⟨n, rest, hn, hg⟩ := he
      rw [hn]
      exact hm.grow_sound hacc hg hown
  | @dupb _ b r k' ho hk =>
    have hb := (owned_iff hm hown).mp ho
    obtain ⟨hlt, hout, d, hd⟩ := hm.block hb
    cases (dupb_copies nd).step hacc (hc fl hacc.seg) (fun x hx => by
      rw [List.mem_singleton.mp hx]
      exact hm.block hb) with
    | inl he =>
      rw [he] at hk
      cases hk
      exact ⟨fl, ms, hacc, hm, by simp [hown]⟩
    | inr he =>
      obtain ⟨n, rest, k₁, he, hg, -⟩ := he
      rw [he] at hk
      cases hk
      exact hm.grow_sound hacc hg hown
  | @dupmsg _ b r k' ho hk =>
    obtain ⟨r', k₁, hk', hcop⟩ := dupmsg_spec hacc hm ((owned_iff hm hown).mp ho) hc
    rw [hk'] at hk
    cases hk
    exact hcop.sound hown
  | @copyb _ b r k' ho hk =>
    obtain ⟨-, -, d, hd⟩ := hm.block ((owned_iff hm hown).mp ho)
    cases copyb_spec hacc hd with
    | inl he =>
      rw [he] at hk
      cases hk
      exact ⟨fl, ms, hacc, hm, by simp [hown]⟩
    | inr he =>
      obtain ⟨n, rest, k₁, he, hg⟩ := he
      rw [he] at hk
      cases hk
      exact hm.grow_sound hacc hg hown
  | @copymsg _ b r k' ho hk =>
    obtain ⟨r', k₁, hk', hcop⟩ := copymsg_spec hacc hm ((owned_iff hm hown).mp ho)
    rw [hk'] at hk
    cases hk
    exact hcop.sound hown
  | @linkb _ mp bp k' ho hbp hnot hk =>
    obtain ⟨l₂, ms', hp⟩ := own_split (hown ▸ hbp)
    have hm' := hm.perm hp
    have hmp : mp ∈ ms'.flatten := by
      have hmem := hp.flatten.mem_iff.mp ((owned_iff hm hown).mp ho)
      rcases List.mem_append.mp hmem with hmem | hmem
      · refine absurd ⟨bp :: l₂, ?_, hmem⟩ hnot
        exact hm'.seg (bp :: l₂) (by simp)
      · exact hmem
    obtain ⟨pre, post, ms'', hp'⟩ := block_split hmp
    have hm'' := (hm'.perm (hp'.cons _)).perm (List.Perm.swap _ _ _)
    obtain ⟨k₁, hk₁, hacc₁, hm₁⟩ := linkb_spec hacc hm'' rfl
    have heq : k₁ = k' := Option.some.inj (hk₁.symm.trans hk)
    subst heq
    refine ⟨fl, _, hacc₁, hm₁, ?_⟩
    show w.own \ {bp} = _
    rw [hown, heads_perm hp, hm'.heads_diff, heads_perm hp', heads_cons, heads_cons]
    cases pre <;> rfl
  | @unlinkb _ b ho =>
    obtain ⟨pre, post, ms', hp⟩ := block_split ((owned_iff hm hown).mp ho)
    obtain ⟨hr, hacc₁, hm₁⟩ := unlinkb_spec hacc (hm.perm hp)
    refine ⟨fl, _, hacc₁, hm₁, ?_⟩
    show w.own ∪ _ = _
    rw [hown, heads_perm hp, hr]
    simp only [heads_cons]
    rw [Set.union_assoc, Set.union_comm (heads ms')]
    cases pre <;> rfl
  | @rmvb _ mp b q k' hmp hk =>
    obtain ⟨l, ms', hp⟩ := own_split (hown ▸ hmp)
    have hm' := hm.perm hp
    by_cases hb : b ∈ mp :: l
    · obtain ⟨pre, post, hsplit⟩ := List.append_of_mem hb
      rw [hsplit] at hm' hp
      have hhead : (pre ++ b :: post).head? = some mp := by rw [← hsplit]; rfl
      obtain ⟨k₁, hk₁, hacc₁, hm₁⟩ := rmvb_spec hacc hm' hhead
      rw [hk₁] at hk
      cases hk
      refine ⟨fl, _, hacc₁, hm₁, ?_⟩
      show w.own ∪ _ ∪ _ = _
      rw [hown, heads_perm hp]
      simp only [heads_cons, hhead]
      ext x
      cases pre with
      | nil =>
        cases hhead
        simp
        tauto
      | cons y pre =>
        cases hhead
        simp
        tauto
    · rw [rmvb_absent hm' hb] at hk
      cases hk
  | @rmvb_absent _ mp b k' hmp hk =>
    obtain ⟨l, ms', hp⟩ := own_split (hown ▸ hmp)
    have hm' := hm.perm hp
    by_cases hb : b ∈ mp :: l
    · obtain ⟨pre, post, hsplit⟩ := List.append_of_mem hb
      rw [hsplit] at hm'
      obtain ⟨k₁, hk₁, -⟩ := rmvb_spec hacc hm' (by rw [← hsplit]; rfl)
      rw [hk₁] at hk
      cases hk
    · rw [rmvb_absent hm' hb] at hk
      cases hk
      exact ⟨fl, ms, hacc, hm, hown⟩
  | @pullupmsg _ mp len r k' ho hlen hk =>
    obtain ⟨pre, suf, ms', hp⟩ := block_split ((owned_iff hm hown).mp ho)
    obtain ⟨r₁, k₁, fl', new, hk₁, hacc₁, hm₁⟩ := pullupmsg_spec hacc (hm.perm hp) hc
    rw [hk₁] at hk
    cases hk
    refine ⟨fl', _, hacc₁, hm₁, ?_⟩
    show w.own = _
    rw [hown, heads_perm hp, heads_cons, heads_cons]
    cases pre <;> rfl
  | @freeb _ b k' hb hk =>
    obtain ⟨l, ms', hp⟩ := own_split (hown ▸ hb)
    have hm' := hm.perm hp
    obtain ⟨hlt, -, d, hd⟩ := hm'.block (b := b) (by simp)
    obtain ⟨k₁, hk₁, hacc₁, hone, hcont⟩ := freeb_spec hacc hlt hd
    have heq : k₁ = k' := Option.some.inj (hk₁.symm.trans hk)
    subst heq
    refine ⟨_, _, hacc₁, hm'.free hone hcont, ?_⟩
    have hs := hm'.seg (b :: l) (by simp)
    show w.own \ {b} ∪ _ = _
    rw [hown, heads_perm hp, hm'.heads_diff, hs.2.head, heads_cons, Set.union_comm]
  | @freemsg _ b k' hb hk =>
    obtain ⟨l, ms', hp⟩ := own_split (hown ▸ hb)
    have hm' := hm.perm hp
    obtain ⟨k₁, hk₁, hacc₁, hm₁, -⟩ :=
      freemsgLoop_spec hacc hm' (hm'.length_le (List.mem_cons_self ..))
    have heq : k₁ = k' := Option.some.inj (hk₁.symm.trans hk)
    subst heq
    refine ⟨_, _, hacc₁, hm₁, ?_⟩
    show w.own \ {b} = _
    rw [hown, heads_perm hp, hm'.heads_diff]
  | @write _ b d r t ty mem ho hd hrt =>
    have hmoved := setMb_moved w.k b r t
    refine ⟨fl, ms, hacc.congr (fun x _ => ?_) rfl rfl ?_ (fun x => ?_) rfl rfl,
      hm.congr (fun x _ => ?_) (fun x _ => ?_) rfl, hown⟩
    · exact congrFun hmoved.next x
    · exact hmoved.datap
    · by_cases hx : x = d <;> simp [Pool.setDb, Pool.setMb, hx]
    · exact congrFun hmoved.cont x
    · exact congrFun hmoved.datap x

/- The counts and lists of data blocks are those of the message blocks, and each message block
   is free or in one message. -/
structure Accounts (nd : Nat) (w : PoolWorld) : Prop where
  ref : ∀ d < nd, (w.k.db d).dbRef.toNat = w.k.refs d
  dfree : ∀ c, ∀ d < nd, w.k.DFree c d ↔ (w.k.db d).dbClass = c ∧ w.k.refs d = 0
  cnt : ∀ c, w.k.dbaCnt c = (w.k.used nd w.k.refs c).card
  message : ∀ p ∈ w.own, ∃ l, Seg w.k.cont (some p) l ∧ l.Nodup
  place : ∀ b < w.k.nmblock, (w.k.Free b ∧ ∀ p ∈ w.own, ¬ w.k.In p b) ∨
    (¬ w.k.Free b ∧ ∃! p, p ∈ w.own ∧ w.k.In p b)

theorem Account.free_iff (h : Account nd k fl) : k.Free b ↔ b ∈ fl :=
  ⟨fun ⟨_, hs, hb⟩ => hs.unique h.seg ▸ hb, fun hb => ⟨fl, h.seg, hb⟩⟩

theorem Data.dfree_iff {r : Nat → Nat} {dfl : Nat → List Nat} {c : Nat} (h : Data nd k r dfl) :
    k.DFree c d ↔ d < nd ∧ (k.db d).dbClass = c ∧ r d = 0 := by
  rw [← h.free]
  exact ⟨fun ⟨_, hs, hb⟩ => hs.unique (h.fam.seg c) ▸ hb, fun hb => ⟨dfl c, h.fam.seg c, hb⟩⟩

theorem Sound.accounts {w : PoolWorld} (h : Sound nd w) : Accounts nd w := by
  obtain ⟨fl, ms, hacc, hm, hown⟩ := h
  obtain ⟨dfl, hdata⟩ := hacc.data
  refine ⟨hdata.ref, fun c d hd => ?_, hdata.cnt, fun p hp => ?_, fun b hb => ?_⟩
  · rw [hdata.dfree_iff]
    exact ⟨fun hh => hh.2, fun hh => ⟨hd, hh⟩⟩
  · obtain ⟨l, hl, hh⟩ := hown ▸ hp
    exact ⟨l, hh ▸ hm.seg l hl, (List.nodup_flatten.mp hm.nodup).1 l hl⟩
  · have howned := owned_iff (b := b) hm hown
    by_cases hfl : b ∈ fl
    · refine .inl ⟨hacc.free_iff.mpr hfl, fun p hp hi => ?_⟩
      exact ((hm.cover b).mp (howned.mp ⟨p, hp, hi⟩)).2 hfl
    · have hmem := (hm.cover b).mpr ⟨hb, hfl⟩
      obtain ⟨p, hp, hi⟩ := howned.mpr hmem
      refine .inr ⟨fun hf => hfl (hacc.free_iff.mp hf), p, ⟨hp, hi⟩, fun q hq => ?_⟩
      obtain ⟨l, hl, hh, hbl⟩ := (hm.in_iff (hown ▸ hp)).mp hi
      obtain ⟨l', hl', hh', hbl'⟩ := (hm.in_iff (hown ▸ hq.1)).mp hq.2
      have hsame : l' = l := by
        by_contra hne
        have hp' := List.perm_cons_erase hl
        have hnd := (List.nodup_append'.mp (hm.perm hp').nodup).2.2
        have hin : l' ∈ ms.erase l :=
          (List.mem_cons.mp (hp'.mem_iff.mp hl')).resolve_left hne
        exact hnd hbl (List.mem_flatten.mpr ⟨l', hin, hbl'⟩)
      rw [hsame, hh] at hh'
      exact (Option.some.inj hh').symm

theorem pool_sound {w : PoolWorld} (h : (pool nd Fits).Reachable w) : Sound nd w :=
  System.invariant (Sound nd) (fun _ => fresh_sound)
    (fun _ _ hs hst => by
      obtain ⟨c, hd, hc⟩ := hst
      exact sound_step hs hd hc) h

/-- Calls on messages return. -/
theorem pool_returns {w : PoolWorld} {mp : Nat} (h : (pool nd Fits).Reachable w) (hb : w.Owned b) :
    (Fits (.dupb b) w.k → (dupb b w.k).isSome) ∧ (Fits (.dupmsg b) w.k → (dupmsg (some b) w.k).isSome) ∧
      (copyb b w.k).isSome ∧ (copymsg (some b) w.k).isSome ∧
      (∀ len, Fits (.pullupmsg b len) w.k → (pullupmsg b len w.k).isSome) ∧
      (mp ∈ w.own → (freeb mp w.k).isSome ∧ (freemsg (some mp) w.k).isSome ∧
        (rmvb (some mp) b w.k).isSome ∧ (¬ w.k.In mp b → (linkb b (some mp) w.k).isSome)) := by
  obtain ⟨fl, ms, hacc, hm, hown⟩ := pool_sound h
  have hin := (owned_iff hm hown).mp hb
  obtain ⟨-, -, d, hd⟩ := hm.block hin
  refine ⟨fun hf => ?_, fun hf => ?_, ?_, ?_, fun len hf => ?_, fun hmp => ?_⟩
  · cases (dupb_copies nd).step hacc (hf fl hacc.seg) (fun x hx => by
      rw [List.mem_singleton.mp hx]
      exact hm.block hin) with
    | inl he => rw [he]; rfl
    | inr he =>
      obtain ⟨n, rest, k', he, -⟩ := he
      rw [he]
      rfl
  · obtain ⟨r, k', he, -⟩ := dupmsg_spec hacc hm hin hf
    rw [he]
    rfl
  · cases copyb_spec hacc hd with
    | inl he => rw [he]; rfl
    | inr he =>
      obtain ⟨n, rest, k', he, -⟩ := he
      rw [he]
      rfl
  · obtain ⟨r, k', he, -⟩ := copymsg_spec hacc hm hin
    rw [he]
    rfl
  · obtain ⟨pre, suf, ms', hp⟩ := block_split hin
    obtain ⟨r, k', fl', new, he, -⟩ := pullupmsg_spec hacc (hm.perm hp) hf
    rw [he]
    rfl
  · obtain ⟨l, ms', hp⟩ := own_split (hown ▸ hmp)
    have hm' := hm.perm hp
    obtain ⟨hlt, -, e, he⟩ := hm'.block (b := mp) (by simp)
    obtain ⟨k₁, hk₁, -⟩ := freeb_spec hacc hlt he
    obtain ⟨k₂, hk₂, -⟩ := freemsgLoop_spec hacc hm' (hm'.length_le (List.mem_cons_self ..))
    have hfree : freemsg (some mp) w.k = some k₂ := hk₂
    refine ⟨by rw [hk₁]; rfl, by rw [hfree]; rfl, ?_, fun hnot => ?_⟩
    · by_cases hbl : b ∈ mp :: l
      · obtain ⟨pre, post, hsplit⟩ := List.append_of_mem hbl
        rw [hsplit] at hm'
        obtain ⟨k', hk', -⟩ := rmvb_spec hacc hm' (by rw [← hsplit]; rfl)
        rw [hk']
        rfl
      · rw [rmvb_absent hm' hbl]
        rfl
    · have hmem : b ∈ ms'.flatten := by
        rcases List.mem_append.mp (hp.flatten.mem_iff.mp hin) with hmem | hmem
        · exact absurd ⟨mp :: l, hm'.seg (mp :: l) (by simp), hmem⟩ hnot
        · exact hmem
      obtain ⟨pre, post, ms'', hp'⟩ := block_split hmem
      obtain ⟨k', hk', -⟩ :=
        linkb_spec hacc ((hm'.perm (hp'.cons _)).perm (List.Perm.swap _ _ _)) rfl
      have hlink : linkb b (some mp) w.k = some k' := hk'
      rw [hlink]
      rfl

/-- With 255 references already, dupb makes the count 0 and the references 256. -/
theorem dupb_overrun (hacc : Account nd k fl) (hb : b < k.nmblock) (hd : k.datap b = some d)
    (hmax : k.refs d = 255) (hfl : fl ≠ []) : ∃ n k', dupb b k = some (some n, k') ∧
      (k'.db d).dbRef = 0 ∧ k'.refs d = 256 := by
  cases hfree : k.mbfreelist with
  | none => exact absurd (hacc.free_nil hfree) hfl
  | some n =>
    obtain ⟨rest, rfl⟩ := hacc.free_cons hfree
    obtain ⟨dfl, hdata⟩ := hacc.data
    have hdm : (k.mb b).bDatap = some d := hd
    have href := hdata.ref d (hacc.inside b hb d hd)
    refine ⟨n, _, by simp only [dupb, hfree, hdm, Option.bind_eq_bind, Option.bind_some]; rfl, ?_, ?_⟩
    · have hval : (k.db d).dbRef = 255 := BitVec.eq_of_toNat_eq (href.trans hmax)
      simp [Pool.setMb, Pool.setDb, hval]
    · have hone : OneMb k (({ k with mbfreelist := k.next n }.setDb d
          { k.db d with dbRef := (k.db d).dbRef + 1 }).setMb n
          ⟨none, none, none, (k.mb b).bRptr, (k.mb b).bWptr, some d⟩) n :=
        ⟨fun x hx => by simp [Pool.setDb, Pool.setMb, hx], rfl, fun x => by
          by_cases hx : x = d <;> simp [Pool.setMb, Pool.setDb, hx]⟩
      have hrefs := hone.refs_some (d := d) (hacc.lt n (by simp)) (hacc.nodata n (by simp))
        (by simp [Pool.datap, Pool.setMb])
      have hd' := congrFun hrefs d
      rw [Function.update_self, hmax] at hd'
      exact hd'

/- Four message blocks and three data blocks of 4 bytes. -/
def fourBlocks : PoolWorld where
  k := { mb := fun b => ⟨if b < 3 then some (b + 1) else none, none, none, 0, 0, none⟩
         db := fun d => ⟨if d < 2 then some (d + 1) else none, 4 * d, 4 * d + 4, 0, 0, 0⟩
         mbfreelist := some 0, dbfreelist := fun c => if c = 0 then some 0 else none
         dbaCnt := fun _ => 0, dbaLo := fun _ => 2, dbaMed := fun _ => 3, nmblock := 4
         mem := fun _ => 0 }
  own := ∅

theorem fourBlocks_fresh : Fresh 3 fourBlocks := by
  refine ⟨⟨[0, 1, 2, 3], ⟨rfl, rfl, rfl, rfl, rfl⟩, by decide, fun b => ?_⟩, fun _ => rfl,
    ⟨fun c => if c = 0 then [0, 1, 2] else [], ⟨fun c => ?_, fun c => ?_, fun c c' x hc hc' => ?_⟩,
      fun c d => ?_⟩, fun _ => rfl, fun _ => rfl, rfl⟩
  · show b ∈ [0, 1, 2, 3] ↔ b < 4
    simp only [List.mem_cons, List.not_mem_nil, or_false]
    omega
  · by_cases h : c = 0
    · subst h
      exact ⟨rfl, rfl, rfl, rfl⟩
    · simp [h, fourBlocks, Seg]
  · by_cases h : c = 0 <;> simp [h]
  · by_cases h : c = 0 <;> by_cases h' : c' = 0 <;> simp_all
  · show (d ∈ if c = 0 then [0, 1, 2] else []) ↔ d < 3 ∧ 0 = c
    by_cases h : c = 0
    · simp only [h, if_true, List.mem_cons, List.not_mem_nil, or_false, and_true]
      omega
    · simp [h, Ne.symm h]

theorem pool_returns_fourBlocks : (freeb 0 (allocb 0 BPRI_HI fourBlocks.k).2).isSome ∧
    (freemsg (some 0) (allocb 0 BPRI_HI fourBlocks.k).2).isSome ∧
    (rmvb (some 0) 0 (allocb 0 BPRI_HI fourBlocks.k).2).isSome := by
  have hown : PoolWorld.Owned ⟨(allocb 0 BPRI_HI fourBlocks.k).2, ∅ ∪ {x | some 0 = some x}⟩ 0 :=
    ⟨0, .inr rfl, [0], ⟨rfl, rfl⟩, by simp⟩
  obtain ⟨-, -, -, -, -, hmp⟩ := @pool_returns 3 0 _ 0
    (System.reachable_step (System.reachable_init fourBlocks_fresh)
      ⟨.allocb 0 BPRI_HI, Does.allocb 0 BPRI_HI, trivial⟩) hown
  exact ⟨(hmp (.inr rfl)).1, (hmp (.inr rfl)).2.1, (hmp (.inr rfl)).2.2.1⟩

end Svr32.Stream
