import Svr32.Stream.Blocks
import Mathlib.Data.List.Perm.Basic
import Mathlib.Data.List.Flatten

/-! Messages: every message block is free, or in one message, at one place. -/
namespace Svr32.Stream
open Svr32.Lib
variable {nd : Nat} {k k' : Pool} {fl rest : List Nat} {ms : List (List Nat)} {b n d : Nat}

/- The messages `ms`; what is not in one of them is free. -/
structure Msgs (k : Pool) (fl : List Nat) (ms : List (List Nat)) : Prop where
  seg : ∀ l ∈ ms, Seg k.cont l.head? l
  nodup : ms.flatten.Nodup
  cover : ∀ b, b ∈ ms.flatten ↔ b < k.nmblock ∧ b ∉ fl
  data : ∀ b ∈ ms.flatten, ∃ d, k.datap b = some d

namespace Msgs

theorem perm {ms' : List (List Nat)} (h : Msgs k fl ms) (hp : ms.Perm ms') : Msgs k fl ms' :=
  ⟨fun l hl => h.seg l (hp.mem_iff.mpr hl), hp.flatten.nodup_iff.mp h.nodup,
    fun b => (hp.flatten.mem_iff).symm.trans (h.cover b),
    fun b hb => h.data b (hp.flatten.mem_iff.mpr hb)⟩

/-- Messages when no block of them changes its link or its data. -/
theorem congr (h : Msgs k fl ms) (hcont : ∀ b ∈ ms.flatten, k'.cont b = k.cont b)
    (hdatap : ∀ b ∈ ms.flatten, k'.datap b = k.datap b) (hsize : k'.nmblock = k.nmblock) :
    Msgs k' fl ms := by
  refine ⟨fun l hl => ?_, h.nodup, ?_, fun b hb => ?_⟩
  · exact (h.seg l hl).congr fun x hx => hcont x (List.mem_flatten.mpr ⟨l, hl, hx⟩)
  · rw [hsize]
    exact h.cover
  · rw [hdatap b hb]
    exact h.data b hb

theorem lt (h : Msgs k fl ms) {l : List Nat} (hl : l ∈ ms) (hb : b ∈ l) : b < k.nmblock :=
  ((h.cover b).mp (List.mem_flatten.mpr ⟨l, hl, hb⟩)).1

theorem length_le (h : Msgs k fl ms) {l : List Nat} (hl : l ∈ ms) : l.length ≤ k.nmblock :=
  length_le_of_nodup ((List.nodup_flatten.mp h.nodup).1 l hl) fun _ hx => h.lt hl hx

/-- A new message of one block. -/
theorem grow (h : Msgs k fl ms) (hg : Grew nd k fl k' n rest) (hacc : Account nd k fl) :
    Msgs k' rest ([n] :: ms) := by
  have hn : n ∈ fl := by simp [hg.list]
  have hout : n ∉ ms.flatten := fun hm => ((h.cover n).mp hm).2 hn
  have hne : ∀ x ∈ ms.flatten, x ≠ n := fun x hx he => hout (he ▸ hx)
  have hnd : n ∉ rest := by
    have hf := hacc.nodup
    rw [hg.list] at hf
    exact (List.nodup_cons.mp hf).1
  have hkeep : Msgs k' fl ms := by
    refine h.congr (fun x hx => ?_) (fun x hx => ?_) hg.one.size
    · rw [Pool.cont, hg.one.same x (hne x hx)]
      rfl
    · rw [Pool.datap, hg.one.same x (hne x hx)]
      rfl
  refine ⟨fun l hl => ?_, ?_, fun x => ?_, fun x hx => ?_⟩
  · cases List.mem_cons.mp hl with
    | inl he =>
      rw [he]
      exact ⟨rfl, hg.cont⟩
    | inr hl => exact hkeep.seg l hl
  · exact List.nodup_cons.mpr ⟨hout, h.nodup⟩
  · have hc := hkeep.cover x
    rw [hg.list] at hc
    simp only [List.flatten_cons, List.singleton_append, List.mem_cons] at hc ⊢
    rw [hc]
    by_cases hx : x = n
    · have hlt : n < k'.nmblock := hg.one.size ▸ hacc.lt n hn
      simp [hx, hnd, hlt]
    · simp [hx]
  · cases List.mem_cons.mp hx with
    | inl he => exact he ▸ hg.data
    | inr hx => exact hkeep.data x hx

/-- The first block of a message is freed. -/
theorem free (h : Msgs k fl ((b :: rest) :: ms)) (ho : OneMb k k' b)
    (hcont : k'.cont b = k.cont b) : Msgs k' (b :: fl) (rest :: ms) := by
  have hnd := List.nodup_cons.mp h.nodup
  have hne : ∀ x ∈ (rest :: ms).flatten, x ≠ b := fun x hx he => hnd.1 (he ▸ hx)
  have hc : k'.cont = k.cont := by
    funext x
    by_cases hx : x = b
    · rw [hx, hcont]
    · rw [Pool.cont, ho.same x hx]
      rfl
  refine ⟨fun l hl => ?_, hnd.2, fun x => ?_, fun x hx => ?_⟩
  · rw [hc]
    cases List.mem_cons.mp hl with
    | inl he =>
      have hs := h.seg (b :: rest) (by simp)
      rw [he, ← hs.2.head]
      exact hs.2
    | inr hl => exact h.seg l (by simp [hl])
  · have hx := h.cover x
    rw [ho.size, List.mem_cons, not_or]
    rw [List.flatten_cons, List.cons_append, List.mem_cons] at hx
    constructor
    · intro hm
      have hm' := hx.mp (.inr hm)
      exact ⟨hm'.1, hne x hm, hm'.2⟩
    · intro hm
      exact (hx.mpr ⟨hm.1, hm.2.2⟩).resolve_left hm.2.1
  · rw [Pool.datap, ho.same x (hne x hx)]
    exact h.data x (List.mem_cons_of_mem b hx)

end Msgs

/-- freemsg frees the blocks of a message and touches no other. -/
theorem freemsgLoop_spec {l : List Nat} {fuel : Nat} (hacc : Account nd k fl)
    (h : Msgs k fl (l :: ms)) (hfuel : l.length ≤ fuel) :
    ∃ k', freemsgLoop fuel l.head? k = some k' ∧ Account nd k' (l.reverse ++ fl) ∧
      Msgs k' (l.reverse ++ fl) ms ∧ (∀ x, x ∉ l → k'.mb x = k.mb x) ∧
      k'.nmblock = k.nmblock ∧ ∀ d, (k'.db d).dbClass = (k.db d).dbClass := by
  induction l generalizing k fl fuel with
  | nil =>
    refine ⟨k, ?_, hacc, ⟨fun l hl => h.seg l (by simp [hl]), h.nodup, h.cover, h.data⟩,
      fun _ _ => rfl, rfl, fun _ => rfl⟩
    cases fuel <;> rfl
  | cons b l ih =>
    obtain ⟨m, rfl⟩ := Nat.exists_eq_succ_of_ne_zero (Nat.ne_zero_of_lt hfuel)
    have hmem : b ∈ ((b :: l) :: ms).flatten := by simp
    obtain ⟨d, hd⟩ := h.data b hmem
    obtain ⟨k₁, hk₁, hacc₁, hone, hcont⟩ := freeb_spec hacc ((h.cover b).mp hmem).1 hd
    have hseg := h.seg (b :: l) (by simp)
    obtain ⟨k', hk', hacc', hmsgs', hsame, hsize, hcls⟩ :=
      ih hacc₁ (h.free hone hcont) (Nat.le_of_succ_le_succ hfuel)
    refine ⟨k', ?_, ?_, ?_, fun x hx => ?_, hsize.trans hone.size,
      fun d => (hcls d).trans (hone.cls d)⟩
    · have hhead : k.cont b = l.head? := hseg.2.head
      simp only [List.head?_cons, freemsgLoop, hk₁, hhead, Option.bind_eq_bind, Option.bind_some]
      exact hk'
    · simpa using hacc'
    · simpa using hmsgs'
    · rw [List.mem_cons, not_or] at hx
      rw [hsame x hx.2, hone.same x hx.1]

theorem setCont_self {c : Option Nat} (h : k.cont b = c) : k.setCont b c = k := by
  have hm : { k.mb b with bCont := c } = k.mb b := by rw [← h]; rfl
  rw [Pool.setCont, Pool.setMb, hm, Function.update_eq_self]

theorem setCont_cont (k : Pool) (b : Nat) (c : Option Nat) :
    (k.setCont b c).cont = Function.update k.cont b c := by
  funext x
  by_cases hx : x = b <;> simp [Pool.cont, Pool.setCont, Pool.setMb, hx]

theorem setCont_datap (k : Pool) (b : Nat) (c : Option Nat) : (k.setCont b c).datap = k.datap := by
  funext x
  by_cases hx : x = b <;> simp [Pool.datap, Pool.setCont, Pool.setMb, hx]

theorem setCont_next (k : Pool) (b : Nat) (c : Option Nat) : (k.setCont b c).next = k.next := by
  funext x
  by_cases hx : x = b <;> simp [Pool.next, Pool.setCont, Pool.setMb, hx]

/-- Accounts are not about the links of messages. -/
theorem Account.setCont (h : Account nd k fl) (b : Nat) (c : Option Nat) :
    Account nd (k.setCont b c) fl :=
  h.congr (fun x _ => by rw [setCont_next]) rfl rfl (setCont_datap k b c)
    (fun _ => ⟨rfl, rfl, rfl⟩) rfl rfl

/-- The end of the message of `y` is cut off, and another put in its place. -/
theorem Msgs.bend {pre post l : List Nat} {y : Nat} (h : Msgs k fl ((pre ++ y :: post) :: l :: ms)) :
    Msgs (k.setCont y l.head?) fl ((pre ++ y :: l) :: post :: ms) := by
  have hperm : ((pre ++ y :: post) :: l :: ms).flatten.Perm
      ((pre ++ y :: l) :: post :: ms).flatten := by
    simp only [List.flatten_cons, List.append_assoc, List.cons_append]
    refine List.Perm.append_left pre (List.Perm.cons y ?_)
    rw [← List.append_assoc, ← List.append_assoc]
    exact List.Perm.append_right _ List.perm_append_comm
  have hnd := h.nodup
  simp only [List.flatten_cons, List.append_assoc, List.cons_append] at hnd
  have hy := List.nodup_cons.mp (List.perm_middle.nodup_iff.mp hnd)
  have hpre : y ∉ pre := fun hm => hy.1 (List.mem_append_left _ hm)
  have hpost : y ∉ post := fun hm => hy.1 (by simp [hm])
  have hl : y ∉ l := fun hm => hy.1 (by simp [hm])
  have hms : ∀ l' ∈ ms, y ∉ l' := fun l' hl' hm => hy.1 (by
    simp only [List.mem_append, List.mem_flatten]
    exact .inr (.inr (.inr ⟨l', hl', hm⟩)))
  have hother : ∀ l', y ∉ l' → Seg k.cont l'.head? l' →
      Seg (k.setCont y l.head?).cont l'.head? l' := by
    intro l' hl' hs
    rw [setCont_cont]
    exact hs.congr fun x hx => Function.update_of_ne (fun he : x = y => hl' (he ▸ hx)) _ _
  have hlseg := h.seg l (by simp)
  have hs := h.seg (pre ++ y :: post) (by simp)
  refine ⟨fun l' hl' => ?_, hperm.nodup_iff.mp h.nodup, fun x => hperm.mem_iff.symm.trans (h.cover x),
    fun x hx => ?_⟩
  · rcases List.mem_cons.mp hl' with rfl | hl'
    · have hb := hs.bend hpre hlseg hl
      rw [setCont_cont, ← hb.head]
      exact hb
    · rcases List.mem_cons.mp hl' with rfl | hl'
      · exact hother _ hpost ((@Seg.suffix _ _ _ (pre ++ [y])) (by simpa using hs))
      · exact hother l' (hms l' hl') (h.seg l' (by simp [hl']))
  · rw [setCont_datap]
    exact h.data x (hperm.mem_iff.mpr hx)

/- What a copy of blocks leaves: the new message, or the old ones as they were. -/
structure Copied (nd : Nat) (k : Pool) (ms : List (List Nat)) (r : Option Nat) (k' : Pool) :
    Prop where
  out : ∃ fl', Account nd k' fl' ∧ ((r = none ∧ Msgs k' fl' ms) ∨
    ∃ n l, r = some n ∧ Msgs k' fl' ((n :: l) :: ms))
  same : ∀ x ∈ ms.flatten, k'.mb x = k.mb x
  size : k'.nmblock = k.nmblock
  cls : ∀ d, (k'.db d).dbClass = (k.db d).dbClass

/- A routine for one block, and a condition under which it keeps the accounts. -/
structure Copies (nd : Nat) (f : Nat → Pool → Option (Option Nat × Pool))
    (C : Pool → List Nat → List Nat → Prop) : Prop where
  step : ∀ {k fl b bs}, Account nd k fl → C k fl (b :: bs) →
    (∀ x ∈ b :: bs, x < k.nmblock ∧ x ∉ fl ∧ ∃ d, k.datap x = some d) → f b k = some (none, k) ∨
    ∃ n rest k', f b k = some (some n, k') ∧ Grew nd k fl k' n rest ∧ C k' rest bs
  cont : ∀ {k fl bs b c}, C k fl bs → C (k.setCont b c) fl bs

theorem eachbLoop_spec {f : Nat → Pool → Option (Option Nat × Pool)}
    {C : Pool → List Nat → List Nat → Prop} (hf : Copies nd f C) {bs pre : List Nat}
    {bp nbp head fuel : Nat} (hacc : Account nd k fl) (h : Msgs k fl ((pre ++ [nbp]) :: ms))
    (hhead : (pre ++ [nbp]).head? = some head) (hseg : Seg k.cont (k.cont bp) bs)
    (hbs : ∀ x ∈ bp :: bs, x ∈ ms.flatten) (hC : C k fl bs) (hfuel : bs.length < fuel) :
    ∃ r k', eachbLoop f fuel head nbp bp k = some (r, k') ∧ Copied nd k ms r k' := by
  induction bs generalizing k fl pre bp nbp fuel with
  | nil =>
    obtain ⟨m, rfl⟩ := Nat.exists_eq_succ_of_ne_zero (Nat.ne_zero_of_lt hfuel)
    have hnone : k.cont bp = none := hseg
    refine ⟨some head, k, by simp only [eachbLoop, hnone], ⟨fl, hacc, .inr ?_⟩, fun _ _ => rfl,
      rfl, fun _ => rfl⟩
    cases hp : pre ++ [nbp] with
    | nil => simp at hp
    | cons y l =>
      rw [hp] at h hhead
      cases hhead
      exact ⟨head, l, rfl, h⟩
  | cons b bs ih =>
    obtain ⟨m, rfl⟩ := Nat.exists_eq_succ_of_ne_zero (Nat.ne_zero_of_lt hfuel)
    have hb : k.cont bp = some b := hseg.1
    have hcover : ∀ x ∈ b :: bs, x < k.nmblock ∧ x ∉ fl ∧ ∃ d, k.datap x = some d := by
      intro x hx
      have hm : x ∈ ((pre ++ [nbp]) :: ms).flatten :=
        List.mem_append_right _ (hbs x (List.mem_cons_of_mem bp hx))
      have hc := (h.cover x).mp hm
      exact ⟨hc.1, hc.2, h.data x hm⟩
    cases hf.step hacc hC hcover with
    | inl hfail =>
      -- the copy so far is freed again
      have hlast : k.cont nbp = none := by
        have hs := h.seg (pre ++ [nbp]) (by simp)
        exact hs.next_eq
      obtain ⟨k', hk', hacc', hmsgs', hsame, hsize, hcls⟩ :=
        freemsgLoop_spec hacc h (h.length_le (List.mem_cons_self ..))
      rw [hhead] at hk'
      refine ⟨none, k', ?_, ⟨_, hacc', .inl ⟨rfl, hmsgs'⟩⟩, fun x hx => ?_, hsize, hcls⟩
      · simp only [eachbLoop, hb, hfail, Option.bind_eq_bind, Option.bind_some,
          setCont_self hlast, freemsg, hk']
        rfl
      · exact hsame x fun hm => (List.nodup_append'.mp h.nodup).2.2 hm hx
    | inr hok =>
      obtain ⟨n, rest, k₁, hk₁, hg, hC₁⟩ := hok
      have hgrow := (h.grow hg hacc).perm (List.Perm.swap _ _ _)
      have hbend : Msgs (k₁.setCont nbp (some n)) rest ((pre ++ [nbp] ++ [n]) :: ms) := by
        have hb' := hgrow.bend (l := [n])
        simp only [List.append_assoc, List.singleton_append]
        exact ⟨fun l hl => hb'.seg l (by
          rcases List.mem_cons.mp hl with rfl | hl <;> simp [*]), hb'.nodup, hb'.cover, hb'.data⟩
      have hnfl : n ∈ fl := by simp [hg.list]
      have hne : ∀ x ∈ ms.flatten, x ≠ n ∧ x ≠ nbp := by
        intro x hx
        have hm : x ∈ ((pre ++ [nbp]) :: ms).flatten := List.mem_append_right _ hx
        refine ⟨fun he => ((h.cover x).mp hm).2 (he ▸ hnfl), fun he => ?_⟩
        exact (List.nodup_append'.mp h.nodup).2.2 (by simp) (he ▸ hx)
      have hsame : ∀ x ∈ ms.flatten, (k₁.setCont nbp (some n)).mb x = k.mb x := by
        intro x hx
        simp only [Pool.setCont, Pool.setMb, Function.update_of_ne (hne x hx).2]
        exact hg.one.same x (hne x hx).1
      have hsegs : Seg (k₁.setCont nbp (some n)).cont ((k₁.setCont nbp (some n)).cont b) bs := by
        have hb' : (k₁.setCont nbp (some n)).cont b = k.cont b := by
          rw [Pool.cont, hsame b (hbs b (by simp))]
          rfl
        rw [hb']
        refine hseg.2.congr fun x hx => ?_
        rw [Pool.cont, hsame x (hbs x (by simp [hx]))]
        rfl
      obtain ⟨r, k', hk', hout⟩ := @ih _ _ _ _ _ m (hg.acc.setCont nbp (some n)) hbend
        (by cases pre <;> simpa using hhead) hsegs (fun x hx => hbs x (List.mem_cons_of_mem bp hx))
        (hf.cont hC₁) (Nat.lt_of_succ_lt_succ hfuel)
      refine ⟨r, k', ?_, hout.out, fun x hx => (hout.same x hx).trans (hsame x hx),
        hout.size.trans hg.one.size, fun d => (hout.cls d).trans (hg.one.cls d)⟩
      simp only [eachbLoop, hb, hk₁, Option.bind_eq_bind, Option.bind_some]
      exact hk'

/-- dupmsg and copymsg from a block `b` of a message on: a copy, or everything as before. -/
theorem eachb_spec {f : Nat → Pool → Option (Option Nat × Pool)}
    {C : Pool → List Nat → List Nat → Prop} (hf : Copies nd f C) {bs : List Nat}
    (hacc : Account nd k fl) (h : Msgs k fl ms) (hseg : Seg k.cont (some b) bs)
    (hbs : ∀ x ∈ bs, x ∈ ms.flatten) (hnd : bs.Nodup) (hC : C k fl bs) :
    ∃ r k', eachb f (some b) k = some (r, k') ∧ Copied nd k ms r k' := by
  cases bs with
  | nil => cases hseg
  | cons x bs =>
    cases hseg.1
    have hcover : ∀ x ∈ b :: bs, x < k.nmblock ∧ x ∉ fl ∧ ∃ d, k.datap x = some d :=
      fun x hx => ⟨((h.cover x).mp (hbs x hx)).1, ((h.cover x).mp (hbs x hx)).2,
        h.data x (hbs x hx)⟩
    cases hf.step hacc hC hcover with
    | inl hfail =>
      refine ⟨none, k, ?_, ⟨fl, hacc, .inl ⟨rfl, h⟩⟩, fun _ _ => rfl, rfl, fun _ => rfl⟩
      simp only [eachb, hfail, Option.bind_eq_bind, Option.bind_some]
      rfl
    | inr hok =>
      obtain ⟨n, rest, k₁, hk₁, hg, hC₁⟩ := hok
      have hgrow := h.grow hg hacc
      have hne : ∀ x ∈ ms.flatten, x ≠ n := fun x hx he =>
        ((h.cover x).mp hx).2 (he ▸ by simp [hg.list])
      have hsame : ∀ x ∈ ms.flatten, k₁.mb x = k.mb x := fun x hx => hg.one.same x (hne x hx)
      have hsegs : Seg k₁.cont (k₁.cont b) bs := by
        have hb' : k₁.cont b = k.cont b := by
          rw [Pool.cont, hsame b (hbs b (by simp))]
          rfl
        rw [hb']
        refine hseg.2.congr fun x hx => ?_
        rw [Pool.cont, hsame x (hbs x (by simp [hx]))]
        rfl
      have hfuel : bs.length < k₁.nmblock := by
        rw [hg.one.size]
        exact length_le_of_nodup hnd fun x hx => (hcover x hx).1
      obtain ⟨r, k', hk', hout⟩ := @eachbLoop_spec _ _ _ _ _ _ hf _ [] _ _ n _ hg.acc hgrow rfl
        hsegs hbs hC₁ hfuel
      refine ⟨r, k', ?_, hout.out, fun x hx => (hout.same x hx).trans (hsame x hx),
        hout.size.trans hg.one.size, fun d => (hout.cls d).trans (hg.one.cls d)⟩
      simp only [eachb, hk₁, Option.bind_eq_bind, Option.bind_some]
      exact hk'

/- As many of the blocks `bs` as there are free message blocks leave no data block with more
   than 255 references, when each gets one more. -/
def DupOk (k : Pool) (fl bs : List Nat) : Prop :=
  ∀ d, k.refs d + ((bs.take fl.length).map k.datap).count (some d) ≤ 255

theorem dupb_copies (nd : Nat) : Copies nd dupb DupOk where
  step {k fl b bs} hacc hC hbs := by
    obtain ⟨hlt, -, d, hd⟩ := hbs b (by simp)
    have hroom : fl = [] ∨ k.refs d < 255 := by
      cases hl : fl with
      | nil => exact .inl rfl
      | cons n rest =>
        have hc := hC d
        rw [hl, List.length_cons, List.take_succ_cons, List.map_cons, hd,
          List.count_cons_self] at hc
        exact .inr (by omega)
    cases dupb_spec hacc hlt hd hroom with
    | inl he => exact .inl he.1
    | inr he =>
      obtain ⟨n, rest, k', hk', hg, hdn⟩ := he
      refine .inr ⟨n, rest, k', hk', hg, fun e => ?_⟩
      have hn : n ∈ fl := by simp [hg.list]
      have hrefs := hg.one.refs (hacc.lt n hn) e
      have hsame : (bs.take rest.length).map k'.datap = (bs.take rest.length).map k.datap := by
        refine List.map_congr_left fun x hx => ?_
        have hxn : x ≠ n := fun he =>
          (hbs x (by simp [List.mem_of_mem_take hx])).2.1 (he ▸ hn)
        rw [Pool.datap, hg.one.same x hxn]
        rfl
      have hc := hC e
      rw [hg.list, List.length_cons, List.take_succ_cons, List.map_cons, hd,
        List.count_cons] at hc
      rw [hacc.nodata n hn, hdn, if_neg (by rintro ⟨⟩)] at hrefs
      rw [hsame]
      by_cases he : d = e
      · simp only [he, beq_self_eq_true, if_true] at hc hrefs
        omega
      · have hne : ¬ (some d = some e) := fun h => he (Option.some.inj h)
        simp only [beq_iff_eq, hne, if_false] at hc hrefs
        omega
  cont {k fl bs b c} hC := by
    intro d
    have hc := hC d
    rwa [Pool.refs, setCont_datap]

theorem copyb_copies (nd : Nat) : Copies nd copyb fun _ _ _ => True where
  step {k fl b bs} hacc _ hbs := by
    obtain ⟨-, -, d, hd⟩ := hbs b (by simp)
    cases copyb_spec hacc hd with
    | inl he => exact .inl he
    | inr he =>
      obtain ⟨n, rest, k', hk', hg⟩ := he
      exact .inr ⟨n, rest, k', hk', hg, trivial⟩
  cont _ := trivial

/-- The last block of a message. -/
theorem lastb_spec {pre : List Nat} {y mp fuel : Nat} (hs : Seg k.cont (some mp) (pre ++ [y]))
    (hfuel : pre.length < fuel) : lastb fuel mp k = some y := by
  induction pre generalizing mp fuel with
  | nil =>
    obtain ⟨m, rfl⟩ := Nat.exists_eq_succ_of_ne_zero (Nat.ne_zero_of_lt hfuel)
    have hmp : mp = y := Option.some.inj hs.1
    have hnone : k.cont y = none := hs.2
    simp only [lastb, hmp, hnone]
  | cons x pre ih =>
    obtain ⟨m, rfl⟩ := Nat.exists_eq_succ_of_ne_zero (Nat.ne_zero_of_lt hfuel)
    have hmp : mp = x := Option.some.inj hs.1
    have htail : Seg k.cont (k.cont x) (pre ++ [y]) := hs.2
    cases hc : k.cont x with
    | none =>
      rw [hc] at htail
      cases pre <;> cases htail.1
    | some b =>
      rw [hc] at htail
      simp only [lastb, hmp, hc]
      exact ih htail (Nat.lt_of_succ_lt_succ hfuel)

/-- linkb from any block of the message on. -/
theorem linkb_spec {l₁ l₂ pre post : List Nat} {mp : Nat} (hacc : Account nd k fl)
    (h : Msgs k fl (l₁ :: l₂ :: ms)) (hl : l₁ = pre ++ mp :: post) :
    ∃ k', linkb mp l₂.head? k = some k' ∧ Account nd k' fl ∧ Msgs k' fl ((l₁ ++ l₂) :: ms) := by
  obtain ⟨q, y, hy⟩ : ∃ q y, mp :: post = q ++ [y] :=
    ⟨(mp :: post).dropLast, (mp :: post).getLast (by simp),
      (List.dropLast_append_getLast (by simp)).symm⟩
  have hs := h.seg l₁ (by simp)
  have hsuf : Seg k.cont (some mp) (q ++ [y]) := by
    rw [hl] at hs
    exact hy ▸ hs.suffix
  have hlen := h.length_le (List.mem_cons_self ..)
  have hlast : lastb k.nmblock mp k = some y := by
    refine lastb_spec hsuf ?_
    rw [hl, hy, List.length_append, List.length_append, List.length_singleton] at hlen
    omega
  have hl' : l₁ = (pre ++ q) ++ y :: [] := by rw [hl, hy, List.append_assoc]
  rw [hl'] at h
  refine ⟨k.setCont y l₂.head?, by simp only [linkb, hlast]; rfl, hacc.setCont y _, ?_⟩
  have hb := h.bend
  rw [hl', List.append_assoc, List.singleton_append]
  exact ⟨fun l hm => hb.seg l (by rcases List.mem_cons.mp hm with rfl | hm <;> simp [*]), hb.nodup,
    hb.cover, hb.data⟩

/-- A message that is empty is none. -/
theorem Msgs.nil_iff : Msgs k fl ([] :: ms) ↔ Msgs k fl ms := by
  constructor
  · intro h
    exact ⟨fun l hl => h.seg l (List.mem_cons_of_mem _ hl), h.nodup, h.cover, h.data⟩
  · intro h
    refine ⟨fun l hl => ?_, h.nodup, h.cover, h.data⟩
    cases List.mem_cons.mp hl with
    | inl he =>
      rw [he]
      rfl
    | inr hl => exact h.seg l hl

/-- unlinkb cuts a message behind a block. -/
theorem unlinkb_spec {pre post : List Nat} (hacc : Account nd k fl)
    (h : Msgs k fl ((pre ++ b :: post) :: ms)) : (unlinkb b k).1 = post.head? ∧
      Account nd (unlinkb b k).2 fl ∧ Msgs (unlinkb b k).2 fl ((pre ++ [b]) :: post :: ms) := by
  have hs := h.seg (pre ++ b :: post) (by simp)
  refine ⟨hs.next_eq, hacc.setCont b none, ?_⟩
  exact ((Msgs.nil_iff.mpr h).perm (List.Perm.swap _ _ _)).bend

theorem setCont_comm {x y : Nat} (hxy : x ≠ y) (k : Pool) (c e : Option Nat) :
    (k.setCont x c).setCont y e = (k.setCont y e).setCont x c := by
  simp only [Pool.setCont, Pool.setMb, Function.update_of_ne hxy, Function.update_of_ne hxy.symm,
    Function.update_comm hxy]

theorem rmvbLoop_found {pre post : List Nat} {mp tmp lastp : Option Nat} {fuel : Nat}
    (hs : Seg k.cont tmp (pre ++ b :: post)) (hb : b ∉ pre) (hfuel : pre.length < fuel) :
    rmvbLoop mp b fuel tmp lastp k = match pre.getLast?.or lastp with
      | some l => some (some mp, (k.setCont l (k.cont b)).setCont b none)
      | none => some (some (k.cont b), k.setCont b none) := by
  induction pre generalizing tmp lastp fuel with
  | nil =>
    obtain ⟨m, rfl⟩ := Nat.exists_eq_succ_of_ne_zero (Nat.ne_zero_of_lt hfuel)
    have htmp : tmp = some b := hs.1
    simp only [htmp, rmvbLoop, if_true]
    cases lastp <;> rfl
  | cons x pre ih =>
    obtain ⟨m, rfl⟩ := Nat.exists_eq_succ_of_ne_zero (Nat.ne_zero_of_lt hfuel)
    have htmp : tmp = some x := hs.1
    have hx : x ≠ b := fun he => hb (by simp [he])
    simp only [htmp, rmvbLoop, if_neg hx]
    rw [ih hs.2 (fun hm => hb (List.mem_cons_of_mem x hm)) (Nat.lt_of_succ_lt_succ hfuel),
      List.getLast?_cons]
    cases pre.getLast? <;> rfl

theorem rmvbLoop_absent {l : List Nat} {mp tmp lastp : Option Nat} {fuel : Nat}
    (hs : Seg k.cont tmp l) (hb : b ∉ l) (hfuel : l.length ≤ fuel) :
    rmvbLoop mp b fuel tmp lastp k = some (none, k) := by
  induction l generalizing tmp lastp fuel with
  | nil =>
    have htmp : tmp = none := hs
    rw [htmp]
    cases fuel <;> rfl
  | cons x l ih =>
    obtain ⟨m, rfl⟩ := Nat.exists_eq_succ_of_ne_zero (Nat.ne_zero_of_lt hfuel)
    have htmp : tmp = some x := hs.1
    have hx : x ≠ b := fun he => hb (by simp [he])
    simp only [htmp, rmvbLoop, if_neg hx]
    exact ih hs.2 (fun hm => hb (List.mem_cons_of_mem x hm)) (Nat.le_of_succ_le_succ hfuel)

/-- rmvb takes a block out of a message; the rest is the message that it returns. -/
theorem rmvb_spec {pre post : List Nat} {mp : Nat} (hacc : Account nd k fl)
    (h : Msgs k fl ((pre ++ b :: post) :: ms)) (hmp : (pre ++ b :: post).head? = some mp) :
    ∃ k', rmvb (some mp) b k = some (some (pre ++ post).head?, k') ∧ Account nd k' fl ∧
      Msgs k' fl ([b] :: (pre ++ post) :: ms) := by
  have hs := h.seg (pre ++ b :: post) (by simp)
  have hnd := (List.nodup_append'.mp h.nodup).1
  have hbpre : b ∉ pre := fun hm =>
    (List.nodup_cons.mp (List.perm_middle.nodup_iff.mp hnd)).1 (List.mem_append_left post hm)
  have hlen := h.length_le (List.mem_cons_self ..)
  have hfuel : pre.length < k.nmblock := by
    rw [List.length_append, List.length_cons] at hlen
    omega
  have hfound := (@rmvbLoop_found _ _ _ _ (some mp) _ none) hs hbpre hfuel
  rw [hmp] at hfound
  obtain ⟨-, hacc₁, hmsgs₁⟩ := unlinkb_spec hacc h
  rcases List.eq_nil_or_concat' pre with rfl | ⟨q, y, rfl⟩
  · exact ⟨k.setCont b none, by rw [rmvb, hfound, hs.next_eq]; rfl, hacc₁, hmsgs₁⟩
  · have hyb : y ≠ b := fun he => hbpre (by simp [he])
    rw [List.append_assoc, List.singleton_append] at hmsgs₁
    have hbend := hmsgs₁.bend
    refine ⟨(k.setCont y post.head?).setCont b none, ?_, (hacc.setCont y _).setCont b none, ?_⟩
    · rw [rmvb, hfound, hs.next_eq]
      have hhead : (q ++ [y] ++ post).head? = some mp := by
        rw [← hmp]
        cases q <;> rfl
      rw [hhead, List.getLast?_append]
      rfl
    · rw [setCont_comm hyb, List.append_assoc, List.singleton_append]
      exact hbend.perm (List.Perm.swap _ _ _)

end Svr32.Stream
