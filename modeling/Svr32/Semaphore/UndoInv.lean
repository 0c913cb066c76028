import Svr32.Semaphore.Semop
import Mathlib.Data.List.Perm.Subperm
import Mathlib.Algebra.Order.Group.Int

/-! What semaoe does to the undo table: the entries of a process are a function from
(id, num) of finite support, and a call adjusts it at one place or leaves it alone. -/
namespace Svr32.Semaphore
open Svr32.Lib Svr32.Ipc

def Undo.key (e : Undo) : Int ×ₗ Int := toLex (e.unId, e.unNum)

theorem Undo.ext_key {e e' : Undo} (hk : e.key = e'.key) (hv : e.unAoe = e'.unAoe) : e = e' := by
  have h := toLex_inj.mp hk
  simp only [Prod.mk.injEq] at h
  cases e
  cases e'
  simp_all

/- The value at (id, num) in a list of entries. -/
def aoeOf (es : List Undo) (k : Int ×ₗ Int) : Int := look Undo.key Undo.unAoe es k

/- What holds of the entries of each structure. -/
structure EntOk (info : Seminfo) (es : List Undo) : Prop where
  sparse : Sparse Undo.key Undo.unAoe es
  bound : ∀ e ∈ es, -info.semaem ≤ e.unAoe ∧ e.unAoe ≤ info.semaem
  len : es.length ≤ info.semume

theorem EntOk.nil (info : Seminfo) : EntOk info [] := ⟨⟨by simp, by simp⟩, by simp, by simp⟩

theorem EntOk.aoe_bound {info : Seminfo} {es : List Undo} (h : EntOk info es) (k : Int ×ₗ Int) :
    -info.semaem ≤ aoeOf es k ∧ aoeOf es k ≤ info.semaem := by
  have hnn := info.semaem_nonneg
  by_cases hk : ∃ e ∈ es, e.key = k
  · obtain ⟨e, he, rfl⟩ := hk
    rw [aoeOf, look_mem h.sparse he]
    exact h.bound e he
  · have h0 : aoeOf es k = 0 := look_of_not_mem fun e he hek => hk ⟨e, he, hek⟩
    omega

/- `es'` is `es` with the value at `k` less by `val`. -/
structure Adjusted (info : Seminfo) (val : Int) (k : Int ×ₗ Int) (es es' : List Undo) : Prop where
  ok : EntOk info es'
  at_ : aoeOf es' k = aoeOf es k - val
  ne : ∀ k', k' ≠ k → aoeOf es' k' = aoeOf es k'
  len : aoeOf es k ≠ 0 → aoeOf es' k = 0 → es'.length < es.length

theorem less_iff {id num : Int} {e : Undo} :
    Undo.less id num e = true ↔ e.key < toLex (id, num) := by
  simp [Undo.less, Undo.key, Prod.Lex.toLex_lt_toLex]

/-- The scan of semaoe cuts the entries at (id, num). -/
theorem less_split {info : Seminfo} {es : List Undo} (h : EntOk info es) (id num : Int) :
    (∀ e ∈ es.takeWhile (Undo.less id num), e.key < toLex (id, num)) ∧
      ∀ e ∈ es.dropWhile (Undo.less id num), toLex (id, num) ≤ e.key := by
  refine ⟨fun e he => less_iff.mp (List.mem_takeWhile_imp he), fun e he => ?_⟩
  have hs := h.sparse.sorted
  rw [← List.takeWhile_append_dropWhile (p := Undo.less id num) (l := es)] at hs
  have hd := (List.pairwise_append.mp hs).2.1
  cases hr : es.dropWhile (Undo.less id num) with
  | nil =>
    rw [hr] at he
    cases he
  | cons a rest =>
    have ha : toLex (id, num) ≤ a.key := by
      have hn : ¬ Undo.less id num a = true := by
        have hh := List.head?_dropWhile_not (Undo.less id num) es
        rw [hr] at hh
        simpa using hh
      exact not_lt.mp fun hlt => hn (less_iff.mpr hlt)
    rw [hr] at he hd
    cases List.mem_cons.mp he with
    | inl hea => exact hea ▸ ha
    | inr he => exact ha.trans (le_of_lt ((List.pairwise_cons.mp hd).1 e he))

/- The entries of a process; none for a process without a structure. -/
def entriesOf (p : Nat) (t : UndoTab) : List Undo :=
  match t.semUndo p with
  | none => []
  | some u => t.ent u

/- The undo table: a structure is on the chain when it has entries, and belongs to one
   process or to the free list. -/
structure UndoInv (info : Seminfo) (t : UndoTab) (cs fs : List Nat) : Prop where
  chain : Seg t.np t.semunp cs
  free : Seg t.np t.semfup fs
  nodup : (cs ++ fs).Nodup
  small : ∀ u ∈ cs ++ fs, u < info.semmnu
  onChain : ∀ u, u ∈ cs ↔ t.ent u ≠ []
  owned : ∀ u, u < info.semmnu → u ∈ fs ∨ ∃ p, t.semUndo p = some u
  owner : ∀ p u, t.semUndo p = some u → u < info.semmnu ∧ u ∉ fs
  inj : ∀ p q u, t.semUndo p = some u → t.semUndo q = some u → p = q
  ents : ∀ u, EntOk info (t.ent u)

variable {info : Seminfo} {t : UndoTab} {chain free : List Nat} {p up : Nat} {es : List Undo}

namespace UndoInv

theorem free_empty (h : UndoInv info t chain free) {u : Nat} (hu : u ∈ free) : t.ent u = [] := by
  by_contra hne
  exact (List.nodup_append'.mp h.nodup).2.2 ((h.onChain u).mpr hne) hu

theorem entriesOf_ok (h : UndoInv info t chain free) (p : Nat) : EntOk info (entriesOf p t) := by
  simp only [entriesOf]
  split
  · exact EntOk.nil info
  · exact h.ents _

theorem entriesOf_setEnt (h : UndoInv info t chain free) (hp : t.semUndo p = some up) (q : Nat) :
    entriesOf q (t.setEnt up es) = if q = p then es else entriesOf q t := by
  by_cases hq : q = p
  · rw [if_pos hq, hq]
    simp only [entriesOf, UndoTab.setEnt, hp, Function.update_self]
  · rw [if_neg hq]
    simp only [entriesOf, UndoTab.setEnt]
    cases hu : t.semUndo q with
    | none => rfl
    | some u =>
      have hne : u ≠ up := fun he => hq (h.inj q p u hu (he ▸ hp))
      simp only [Function.update_of_ne hne]

/-- A structure that had entries and keeps some stays where it is. -/
theorem edit (h : UndoInv info t chain free) (hold : t.ent up ≠ []) (hes : EntOk info es)
    (hne : es ≠ []) : UndoInv info (t.setEnt up es) chain free := by
  refine { h with onChain := fun u => ?_, ents := fun u => ?_ }
  · by_cases hu : u = up
    · rw [hu, h.onChain up]
      simp only [UndoTab.setEnt, Function.update_self]
      exact ⟨fun _ => hne, fun _ => hold⟩
    · simp only [UndoTab.setEnt, Function.update_of_ne hu]
      exact h.onChain u
  · by_cases hu : u = up
    · simp only [hu, UndoTab.setEnt, Function.update_self]
      exact hes
    · simp only [UndoTab.setEnt, Function.update_of_ne hu]
      exact h.ents u

/-- A structure that gets its first entry goes on the chain. -/
theorem enter (h : UndoInv info t chain free) (hp : t.semUndo p = some up) (hold : t.ent up = [])
    (hes : EntOk info es) (hne : es ≠ []) :
    UndoInv info ({ t with np := Function.update t.np up t.semunp, semunp := some up }.setEnt up es)
      (up :: chain) free := by
  obtain ⟨hsmall, hfree⟩ := h.owner p up hp
  have hchain : up ∉ chain := fun hm => (h.onChain up).mp hm hold
  refine { h with
    chain := h.chain.push hchain
    free := h.free.congr fun u hu =>
      Function.update_of_ne (fun he : u = up => hfree (he ▸ hu)) _ _
    nodup := ?_
    small := ?_
    onChain := fun u => ?_
    ents := fun u => ?_ }
  · rw [List.cons_append, List.nodup_cons, List.mem_append]
    exact ⟨fun hm => hm.elim hchain hfree, h.nodup⟩
  · intro u hu
    rw [List.cons_append] at hu
    cases List.mem_cons.mp hu with
    | inl he => exact he ▸ hsmall
    | inr hu => exact h.small u hu
  · by_cases hu : u = up
    · simp only [hu, UndoTab.setEnt, Function.update_self, List.mem_cons, true_or, true_iff]
      exact hne
    · simp only [List.mem_cons, hu, false_or, UndoTab.setEnt, Function.update_of_ne hu]
      exact h.onChain u
  · by_cases hu : u = up
    · simp only [hu, UndoTab.setEnt, Function.update_self]
      exact hes
    · simp only [UndoTab.setEnt, Function.update_of_ne hu]
      exact h.ents u

/-- A structure off the chain, with its entries gone; what its own un_np becomes does not
matter. -/
theorem gone {pre post : List Nat} (h : UndoInv info t (pre ++ up :: post) free)
    {np : Nat → Option Nat} {semunp : Option Nat} (hseg : Seg np semunp (pre ++ post))
    (hout : ∀ u ∈ free, np u = t.np u) :
    UndoInv info { t.setEnt up [] with np := np, semunp := semunp } (pre ++ post) free := by
  have hsub : (pre ++ post).Sublist (pre ++ up :: post) :=
    (List.sublist_cons_self up post).append_left pre
  have hup := (List.nodup_cons.mp (List.perm_middle.nodup_iff.mp
    (List.nodup_append'.mp h.nodup).1)).1
  refine { h with
    chain := hseg
    free := h.free.congr hout
    nodup := h.nodup.sublist (hsub.append_right free)
    small := fun u hu => h.small u ((hsub.append_right free).subset hu)
    onChain := fun u => ?_
    ents := fun u => ?_ }
  · by_cases hu : u = up
    · simp only [hu, UndoTab.setEnt, Function.update_self]
      exact ⟨fun hm => absurd hm hup, fun hne => absurd rfl hne⟩
    · have hch := h.onChain u
      rw [List.perm_middle.mem_iff, List.mem_cons] at hch
      simp only [UndoTab.setEnt, Function.update_of_ne hu]
      rw [← hch]
      exact ⟨.inr, fun hm => hm.resolve_left hu⟩
  · by_cases hu : u = up
    · simp only [hu, UndoTab.setEnt, Function.update_self]
      exact EntOk.nil info
    · simp only [UndoTab.setEnt, Function.update_of_ne hu]
      exact h.ents u

theorem chain_length (h : UndoInv info t chain free) : chain.length ≤ info.semmnu := by
  have hsub : chain ⊆ List.range info.semmnu := fun u hu =>
    List.mem_range.mpr (h.small u (List.mem_append_left free hu))
  simpa using (List.subperm_of_subset (List.nodup_append'.mp h.nodup).1 hsub).length_le

/-- A structure that loses its last entry leaves the chain and stays with its process. -/
theorem leave (h : UndoInv info t chain free) (hp : t.semUndo p = some up)
    (hold : t.ent up ≠ []) (n : Option Nat) :
    ∃ chain', UndoInv info { undoOff info up (t.setEnt up []) with
      np := Function.update (undoOff info up (t.setEnt up [])).np up n } chain' free := by
  obtain ⟨pre, post, hc⟩ := List.append_of_mem ((h.onChain up).mpr hold)
  have hlen := h.chain_length
  subst hc
  have hcn := (List.nodup_append'.mp h.nodup).1
  rw [List.length_append, List.length_cons] at hlen
  obtain ⟨hseg, hout⟩ := Seg.unlink (info.semmnu + 1) h.chain hcn (by omega)
  have hup := (List.nodup_cons.mp (List.perm_middle.nodup_iff.mp hcn)).1
  refine ⟨pre ++ post, h.gone (hseg.congr fun u hu => ?_) fun u hu => ?_⟩
  · exact Function.update_of_ne (fun he : u = up => hup (he ▸ hu)) _ _
  · rw [Function.update_of_ne fun he : u = up => (h.owner p up hp).2 (he ▸ hu)]
    exact hout u fun hm => (List.nodup_append'.mp h.nodup).2.2 hm hu

/-- The structure semaoe works on belongs to the process, and nothing else changes. -/
theorem undoOf (h : UndoInv info t chain free) {t' : UndoTab} (hu : undoOf p t = some (up, t')) :
    ∃ free', UndoInv info t' chain free' ∧ t'.semUndo p = some up ∧
      (∀ q u, t.semUndo q = some u → t'.semUndo q = some u) ∧
      ∀ q, entriesOf q t' = entriesOf q t := by
  simp only [Semaphore.undoOf] at hu
  cases hp : t.semUndo p with
  | some u =>
    rw [hp] at hu
    cases hu
    exact ⟨free, h, hp, fun _ _ hq => hq, fun _ => rfl⟩
  | none =>
    rw [hp] at hu
    cases hf : t.semfup with
    | none =>
      rw [hf] at hu
      cases hu
    | some u =>
      rw [hf] at hu
      cases hu
      have hseg := h.free
      rw [hf] at hseg
      cases hfr : free with
      | nil =>
        rw [hfr] at hseg
        cases hseg
      | cons x rest =>
        subst hfr
        obtain ⟨hx, hrest⟩ := hseg
        cases hx
        have hnd := h.nodup
        obtain ⟨hcn, hfn, hdis⟩ := List.nodup_append'.mp hnd
        obtain ⟨hur, hrn⟩ := List.nodup_cons.mp hfn
        have huc : up ∉ chain := fun hm => hdis hm (by simp)
        have hother : ∀ q v, t.semUndo q = some v → v ≠ up := fun q v hq he =>
          (h.owner q v hq).2 (he ▸ List.mem_cons_self)
        refine ⟨rest, { h with
          chain := h.chain.congr fun u hu =>
            Function.update_of_ne (fun he : u = up => huc (he ▸ hu)) _ _
          free := hrest.congr fun u hu =>
            Function.update_of_ne (fun he : u = up => hur (he ▸ hu)) _ _
          nodup := hnd.sublist ((List.sublist_cons_self up rest).append_left chain)
          small := fun u hu => h.small u
            (((List.sublist_cons_self up rest).append_left chain).subset hu)
          owned := fun u hu => ?_
          owner := fun q v hq => ?_
          inj := fun q q' v hq hq' => ?_ }, Function.update_self _ _ _, fun q v hq => ?_, fun q => ?_⟩
        · cases h.owned u hu with
          | inl hm =>
            cases List.mem_cons.mp hm with
            | inl he => exact .inr ⟨p, by simp only [he, Function.update_self]⟩
            | inr hm => exact .inl hm
          | inr hq =>
            obtain ⟨q, hq⟩ := hq
            have hqp : q ≠ p := by
              intro he
              rw [he, hp] at hq
              cases hq
            exact .inr ⟨q, by simp only [Function.update_of_ne hqp, hq]⟩
        · by_cases hqp : q = p
          · rw [hqp] at hq
            simp only [Function.update_self, Option.some.injEq] at hq
            subst hq
            exact ⟨h.small up (by simp), hur⟩
          · simp only [Function.update_of_ne hqp] at hq
            exact ⟨(h.owner q v hq).1, fun hm => (h.owner q v hq).2 (List.mem_cons_of_mem up hm)⟩
        · by_cases hqp : q = p
          · by_cases hqp' : q' = p
            · rw [hqp, hqp']
            · rw [hqp] at hq
              simp only [Function.update_self, Option.some.injEq, Function.update_of_ne hqp'] at hq hq'
              exact absurd hq.symm (hother q' v hq')
          · by_cases hqp' : q' = p
            · rw [hqp'] at hq'
              simp only [Function.update_self, Option.some.injEq, Function.update_of_ne hqp] at hq hq'
              exact absurd hq'.symm (hother q v hq)
            · simp only [Function.update_of_ne hqp, Function.update_of_ne hqp'] at hq hq'
              exact h.inj q q' v hq hq'
        · have hqp : q ≠ p := by
            intro he
            rw [he, hp] at hq
            cases hq
          simp only [Function.update_of_ne hqp, hq]
        · by_cases hqp : q = p
          · rw [hqp]
            simp only [entriesOf, Function.update_self, hp]
            exact h.free_empty (by simp)
          · simp only [entriesOf, Function.update_of_ne hqp]

end UndoInv

theorem i16_limit {info : Seminfo} {x : Int} (h₁ : -(2 * info.semaem) ≤ x)
    (h₂ : x ≤ 2 * info.semaem) :
    (¬ (i16 x > info.semaem ∨ i16 x < -info.semaem) ↔ -info.semaem ≤ x ∧ x ≤ info.semaem) ∧
      (-info.semaem ≤ x ∧ x ≤ info.semaem → i16 x = x) := by
  have hlt := info.semaem_lt
  simp only [i16, Int.bmod_def]
  constructor
  · split <;> omega
  · intro _
    split <;> omega

theorem adjusted_new {front rest : List Undo} {val id num : Int} (h : EntOk info (front ++ rest))
    (h₁ : ∀ e ∈ front, e.key < toLex (id, num)) (h₂ : ∀ e ∈ rest, toLex (id, num) < e.key)
    (hv : val ≠ 0) (hb : -info.semaem ≤ val ∧ val ≤ info.semaem)
    (hlen : (front ++ rest).length < info.semume) :
    Adjusted info val (toLex (id, num)) (front ++ rest) (front ++ ⟨-val, num, id⟩ :: rest) := by
  let e : Undo := ⟨-val, num, id⟩
  have he : e.key = toLex (id, num) := rfl
  have hlook : ∀ k', aoeOf (front ++ e :: rest) k' =
      if e.key = k' then e.unAoe else aoeOf (front ++ rest) k' := look_insert h₁
  have h0 : aoeOf (front ++ rest) (toLex (id, num)) = 0 := by
    refine look_of_not_mem fun a ha hk => ?_
    cases List.mem_append.mp ha with
    | inl ha => exact absurd hk (ne_of_lt (h₁ a ha))
    | inr ha => exact absurd hk (ne_of_gt (h₂ a ha))
  refine ⟨⟨h.sparse.insert h₁ h₂ (neg_ne_zero.mpr hv), fun a ha => ?_, ?_⟩, ?_, fun k' hk => ?_,
    fun hne => absurd h0 hne⟩
  · cases List.mem_cons.mp (List.perm_middle.mem_iff.mp ha) with
    | inl hae =>
      rw [hae]
      show -info.semaem ≤ -val ∧ -val ≤ info.semaem
      omega
    | inr ha => exact h.bound a ha
  · simp only [List.length_append, List.length_cons] at hlen ⊢
    omega
  · rw [hlook, if_pos he, h0, zero_sub]
  · rw [hlook, if_neg fun hek => hk (hek.symm.trans he)]

theorem look_found {front rest : List Undo} {e : Undo} (h : EntOk info (front ++ e :: rest)) :
    aoeOf (front ++ rest) e.key = 0 ∧
      ∀ k', aoeOf (front ++ e :: rest) k' =
        if e.key = k' then e.unAoe else aoeOf (front ++ rest) k' := by
  obtain ⟨-, hs₂, hs⟩ := List.pairwise_append.mp h.sparse.sorted
  have h₁ : ∀ a ∈ front, a.key < e.key := fun a ha => hs a ha e (by simp)
  have h₂ := (List.pairwise_cons.mp hs₂).1
  refine ⟨look_of_not_mem fun a ha hk => ?_, look_insert h₁⟩
  cases List.mem_append.mp ha with
  | inl ha => exact absurd hk (ne_of_lt (h₁ a ha))
  | inr ha => exact absurd hk (ne_of_gt (h₂ a ha))

theorem adjusted_gone {front rest : List Undo} {e : Undo} (h : EntOk info (front ++ e :: rest)) :
    Adjusted info e.unAoe e.key (front ++ e :: rest) (front ++ rest) := by
  obtain ⟨h0, hlook⟩ := look_found h
  have hsub : (front ++ rest).Sublist (front ++ e :: rest) :=
    (List.sublist_cons_self e rest).append_left front
  refine ⟨⟨h.sparse.remove, fun a ha => h.bound a (hsub.subset ha), hsub.length_le.trans h.len⟩,
    ?_, fun k' hk => ?_, fun _ _ => by simp⟩
  · rw [hlook, if_pos rfl, h0, sub_self]
  · rw [hlook, if_neg hk.symm]

theorem adjusted_kept {front rest : List Undo} {e : Undo} {val : Int}
    (h : EntOk info (front ++ e :: rest)) (hne : e.unAoe - val ≠ 0)
    (hb : -info.semaem ≤ e.unAoe - val ∧ e.unAoe - val ≤ info.semaem) :
    Adjusted info val e.key (front ++ e :: rest)
      (front ++ { e with unAoe := e.unAoe - val } :: rest) := by
  obtain ⟨h0, hlook⟩ := look_found h
  obtain ⟨-, hs₂, hs⟩ := List.pairwise_append.mp h.sparse.sorted
  have h₁ : ∀ a ∈ front, a.key < e.key := fun a ha => hs a ha e (by simp)
  have h₂ := (List.pairwise_cons.mp hs₂).1
  let e' : Undo := { e with unAoe := e.unAoe - val }
  have he : e'.key = e.key := rfl
  have hlook' : ∀ k', aoeOf (front ++ e' :: rest) k' =
      if e'.key = k' then e'.unAoe else aoeOf (front ++ rest) k' := look_insert h₁
  refine ⟨⟨h.sparse.remove.insert h₁ h₂ hne, fun a ha => ?_, by simpa using h.len⟩, ?_,
    fun k' hk => ?_, fun _ hz => ?_⟩
  · cases List.mem_cons.mp (List.perm_middle.mem_iff.mp ha) with
    | inl hae => exact hae ▸ hb
    | inr ha => exact h.bound a (((List.sublist_cons_self e rest).append_left front).subset ha)
  · rw [hlook', hlook, if_pos he, if_pos rfl]
  · rw [hlook', hlook, if_neg fun hek => hk hek.symm, if_neg hk.symm]
  · rw [hlook', if_pos he] at hz
    exact absurd hz hne

/- The undo table is in order. -/
def UndoOk (info : Seminfo) (t : UndoTab) : Prop := ∃ chain free, UndoInv info t chain free

theorem UndoOk.entries (h : UndoOk info t) (p : Nat) : EntOk info (entriesOf p t) := by
  obtain ⟨chain, free, h⟩ := h
  exact h.entriesOf_ok p

/- What a call semaoe(val, id, num) of `p` leaves. -/
structure Semaoe (info : Seminfo) (p : Nat) (val : Int) (k : Int ×ₗ Int) (t t' : UndoTab)
    (e : Option Errno) : Prop where
  ok : UndoOk info t'
  owns : ∀ q u, t.semUndo q = some u → t'.semUndo q = some u
  others : ∀ q, q ≠ p → entriesOf q t' = entriesOf q t
  failed : e ≠ none → entriesOf p t' = entriesOf p t
  done : e = none → Adjusted info val k (entriesOf p t) (entriesOf p t') ∧
    (val ≠ 0 → (-info.semaem ≤ val ∧ val ≤ info.semaem) ∧ ∃ u, t'.semUndo p = some u)

theorem semaoe_same {val : Int} {k : Int ×ₗ Int} {e : Errno} {t' : UndoTab}
    (ht : UndoOk info t') (ho : ∀ q u, t.semUndo q = some u → t'.semUndo q = some u)
    (he : ∀ q, entriesOf q t' = entriesOf q t) :
    Semaoe info p val k t t' (some e) :=
  ⟨ht, ho, fun q _ => he q, fun _ => he p, nofun⟩

theorem semaoeNew_spec (h : UndoInv info t chain free) (hp : t.semUndo p = some up)
    {front rest : List Undo} (hes : t.ent up = front ++ rest) {val id num : Int}
    (h₁ : ∀ e ∈ front, e.key < toLex (id, num)) (h₂ : ∀ e ∈ rest, toLex (id, num) < e.key)
    (hv : val ≠ 0) (hb : -info.semaem ≤ val ∧ val ≤ info.semaem) :
    Semaoe info p val (toLex (id, num)) t (semaoeNew info up front rest val id num t).1
      (semaoeNew info up front rest val id num t).2 ∧
    ((front ++ rest).length < info.semume → (semaoeNew info up front rest val id num t).2 = none) := by
  have hlt := info.semaem_lt
  simp only [semaoeNew]
  by_cases hlen : info.semume ≤ (front ++ rest).length
  · rw [if_pos hlen]
    exact ⟨semaoe_same ⟨chain, free, h⟩ (fun _ _ hu => hu) fun _ => rfl, fun hl => by omega⟩
  · rw [if_neg hlen]
    have hent := h.ents up
    rw [hes] at hent
    have hadj := adjusted_new hent h₁ h₂ hv hb (by omega)
    have hi : i16 (-val) = -val := i16_eq (by omega) (by omega)
    have hne : front ++ (⟨-val, num, id⟩ : Undo) :: rest ≠ [] := by simp
    have hold : entriesOf p t = front ++ rest := by simp only [entriesOf, hp, hes]
    simp only [hi]
    refine ⟨?_, fun _ => trivial⟩
    by_cases hnil : front ++ rest = []
    · simp only [if_pos hnil]
      have hent' := h.enter hp (hes.trans hnil) hadj.ok hne
      have hset := @UndoInv.entriesOf_setEnt _ _ _ _ _ _
        (front ++ (⟨-val, num, id⟩ : Undo) :: rest) h hp
      refine ⟨⟨_, _, hent'⟩, fun _ _ hu => hu, fun q hq => (hset q).trans (if_neg hq), fun hn => absurd rfl hn,
        fun _ => ⟨?_, fun _ => ⟨hb, up, hp⟩⟩⟩
      rw [hold]
      exact (congrArg (Adjusted info val _ _) ((hset p).trans (if_pos rfl))).mpr hadj
    · simp only [if_neg hnil]
      have hset := @UndoInv.entriesOf_setEnt _ _ _ _ _ _
        (front ++ (⟨-val, num, id⟩ : Undo) :: rest) h hp
      refine ⟨⟨_, _, h.edit (by rwa [hes]) hadj.ok hne⟩, fun _ _ hu => hu, fun q hq => (hset q).trans (if_neg hq),
        fun hn => absurd rfl hn, fun _ => ⟨?_, fun _ => ⟨hb, up, hp⟩⟩⟩
      rw [hold, hset p, if_pos rfl]
      exact hadj

theorem semaoeFound_spec (h : UndoInv info t chain free) (hp : t.semUndo p = some up)
    {front rest : List Undo} {e : Undo} (hes : t.ent up = front ++ e :: rest) {val : Int}
    (hb : -info.semaem ≤ val ∧ val ≤ info.semaem) :
    Semaoe info p val e.key t (semaoeFound info up front e rest val t).1
      (semaoeFound info up front e rest val t).2 ∧
    (-info.semaem ≤ e.unAoe - val ∧ e.unAoe - val ≤ info.semaem →
      (semaoeFound info up front e rest val t).2 = none) := by
  have hlt := info.semaem_lt
  have hent := h.ents up
  rw [hes] at hent
  have heb := hent.bound e (by simp)
  obtain ⟨hlim, hexact⟩ := (@i16_limit info (e.unAoe - val)) (by omega) (by omega)
  have hold : entriesOf p t = front ++ e :: rest := by simp only [entriesOf, hp, hes]
  have hne : t.ent up ≠ [] := by simp [hes]
  simp only [semaoeFound]
  by_cases hbad : i16 (e.unAoe - val) > info.semaem ∨ i16 (e.unAoe - val) < -info.semaem
  · rw [if_pos hbad]
    have hback : i16 (i16 (e.unAoe - val) + val) = e.unAoe := by
      simp only [i16]
      rw [Int.bmod_add_bmod, sub_add_cancel]
      exact i16_eq (by omega) (by omega)
    have hset := (@UndoInv.entriesOf_setEnt _ _ _ _ _ _ (front ++ e :: rest)) h hp
    simp only [hback]
    refine ⟨semaoe_same ⟨_, _, h.edit hne hent (by simp)⟩ (fun _ _ hu => hu) fun q => ?_,
      fun hok => absurd hbad (hlim.mpr hok)⟩
    rw [hset q]
    by_cases hq : q = p
    · rw [if_pos hq, hq, hold]
    · rw [if_neg hq]
  · rw [if_neg hbad]
    have hok := hlim.mp hbad
    rw [hexact hok]
    by_cases h0 : e.unAoe - val = 0
    · rw [if_pos h0]
      have hval : val = e.unAoe := by omega
      have hadj := adjusted_gone hent
      rw [← hval] at hadj
      by_cases hnil : front ++ rest = []
      · simp only [if_pos hnil]
        obtain ⟨chain', hleave⟩ := h.leave hp hne none
        have hset := (@UndoInv.entriesOf_setEnt _ _ _ _ _ _ []) h hp
        rw [hnil] at hadj ⊢
        refine ⟨⟨⟨_, _, hleave⟩, fun _ _ hu => hu, fun q hq => (hset q).trans (if_neg hq), fun hn => absurd rfl hn,
          fun _ => ⟨?_, fun _ => ⟨hb, up, hp⟩⟩⟩, fun _ => trivial⟩
        rw [hold]
        exact (congrArg (Adjusted info val _ _) ((hset p).trans (if_pos rfl))).mpr hadj
      · simp only [if_neg hnil]
        have hset := (@UndoInv.entriesOf_setEnt _ _ _ _ _ _ (front ++ rest)) h hp
        refine ⟨⟨⟨_, _, h.edit hne hadj.ok hnil⟩, fun _ _ hu => hu, fun q hq => (hset q).trans (if_neg hq),
          fun hn => absurd rfl hn, fun _ => ⟨?_, fun _ => ⟨hb, up, hp⟩⟩⟩, fun _ => trivial⟩
        rw [hold, hset p, if_pos rfl]
        exact hadj
    · rw [if_neg h0]
      have hadj := adjusted_kept hent h0 hok
      have hset := @UndoInv.entriesOf_setEnt _ _ _ _ _ _
        (front ++ { e with unAoe := e.unAoe - val } :: rest) h hp
      refine ⟨⟨⟨_, _, h.edit hne hadj.ok (by simp)⟩, fun _ _ hu => hu, fun q hq => (hset q).trans (if_neg hq),
        fun hn => absurd rfl hn, fun _ => ⟨?_, fun _ => ⟨hb, up, hp⟩⟩⟩, fun _ => rfl⟩
      rw [hold, hset p, if_pos rfl]
      exact hadj

/-- semaoe adjusts the entries at (id, num), or returns an error and leaves them; with a
structure at hand it fails only for a value out of bounds or a full table. -/
theorem semaoe_spec (h : UndoOk info t) (p : Nat) (val id num : Int) :
    Semaoe info p (i16 val) (toLex (id, i16 num)) t (semaoe info p val id num t).1
      (semaoe info p val id num t).2 ∧
    ((-info.semaem ≤ i16 val ∧ i16 val ≤ info.semaem) → (∃ u, t.semUndo p = some u) →
      (-info.semaem ≤ aoeOf (entriesOf p t) (toLex (id, i16 num)) - i16 val ∧
        aoeOf (entriesOf p t) (toLex (id, i16 num)) - i16 val ≤ info.semaem) →
      (aoeOf (entriesOf p t) (toLex (id, i16 num)) = 0 →
        (entriesOf p t).length < info.semume) →
      (semaoe info p val id num t).2 = none) := by
  obtain ⟨chain, free, hI⟩ := h
  simp only [semaoe]
  by_cases h0 : i16 val = 0
  · rw [if_pos h0]
    refine ⟨⟨⟨chain, free, hI⟩, fun _ _ hu => hu, fun _ _ => rfl, fun hn => absurd rfl hn, fun _ => ⟨?_, fun hn =>
      absurd h0 hn⟩⟩, fun _ _ _ _ => rfl⟩
    exact ⟨hI.entriesOf_ok p, by rw [h0, sub_zero], fun _ _ => rfl, fun hne hz => absurd hz hne⟩
  · rw [if_neg h0]
    by_cases hbig : i16 val > info.semaem ∨ i16 val < -info.semaem
    · rw [if_pos hbig]
      exact ⟨semaoe_same ⟨chain, free, hI⟩ (fun _ _ hu => hu) fun _ => rfl,
        fun hb => by omega⟩
    · rw [if_neg hbig]
      have hb : -info.semaem ≤ i16 val ∧ i16 val ≤ info.semaem := by omega
      cases hu : undoOf p t with
      | none =>
        refine ⟨semaoe_same ⟨chain, free, hI⟩ (fun _ _ hu => hu) fun _ => rfl, fun _ hown => ?_⟩
        obtain ⟨u, hown⟩ := hown
        simp [undoOf, hown] at hu
      | some r =>
        obtain ⟨up, t₁⟩ := r
        simp only
        obtain ⟨free', hI₁, hp, howns, hsame⟩ := hI.undoOf hu
        have hold : entriesOf p t = t₁.ent up := by
          rw [← hsame p]
          simp only [entriesOf, hp]
        have hcut := List.takeWhile_append_dropWhile (p := Undo.less id (i16 num)) (l := t₁.ent up)
        obtain ⟨hfront, hrest⟩ := less_split (hI₁.ents up) id (i16 num)
        -- the effect on the table with the structure at hand is the effect on the table
        have hlift : ∀ {t' : UndoTab} {e : Option Errno},
            Semaoe info p (i16 val) (toLex (id, i16 num)) t₁ t' e →
            Semaoe info p (i16 val) (toLex (id, i16 num)) t t' e := by
          intro t' e hs
          refine ⟨hs.ok, fun q u hq => hs.owns q u (howns q u hq),
            fun q hq => (hs.others q hq).trans (hsame q),
            fun hn => (hs.failed hn).trans (hsame p), fun hn => ?_⟩
          rw [← hsame p]
          exact hs.done hn
        have hnew : ∀ rest, (t₁.ent up).dropWhile (Undo.less id (i16 num)) = rest →
            (∀ e ∈ rest, e.key ≠ toLex (id, i16 num)) →
            Semaoe info p (i16 val) (toLex (id, i16 num)) t
              (semaoeNew info up ((t₁.ent up).takeWhile (Undo.less id (i16 num))) rest (i16 val) id
                (i16 num) t₁).1
              (semaoeNew info up ((t₁.ent up).takeWhile (Undo.less id (i16 num))) rest (i16 val) id
                (i16 num) t₁).2 ∧
            ((aoeOf (entriesOf p t) (toLex (id, i16 num)) = 0 →
                (entriesOf p t).length < info.semume) →
              (semaoeNew info up ((t₁.ent up).takeWhile (Undo.less id (i16 num))) rest (i16 val) id
                (i16 num) t₁).2 = none) := by
          intro rest hr hne
          rw [hr] at hcut hrest
          have hs := semaoeNew_spec hI₁ hp hcut.symm hfront
            (fun e he => lt_of_le_of_ne (hrest e he) (hne e he).symm) h0 hb
          refine ⟨hlift hs.1, fun hl => hs.2 ?_⟩
          rw [hcut, ← hold]
          refine hl (look_of_not_mem fun e he => ?_)
          rw [hold, ← hcut] at he
          cases List.mem_append.mp he with
          | inl he => exact ne_of_lt (hfront e he)
          | inr he => exact hne e he
        cases hr : (t₁.ent up).dropWhile (Undo.less id (i16 num)) with
        | nil =>
          simp only
          obtain ⟨hs, hgo⟩ := hnew [] hr (by simp)
          exact ⟨hs, fun _ _ _ hl => hgo hl⟩
        | cons e rest =>
          rw [hr] at hrest hcut
          simp only
          by_cases hek : e.unId = id ∧ e.unNum = i16 num
          · simp only [if_pos hek]
            have hkey : e.key = toLex (id, i16 num) := by
              rw [Undo.key, hek.1, hek.2]
            have hs := semaoeFound_spec hI₁ hp hcut.symm hb
            rw [hkey] at hs
            refine ⟨hlift hs.1, fun _ _ hl _ => hs.2 ?_⟩
            rw [hold, ← hkey] at hl
            have hlook := look_mem (hI₁.ents up).sparse
              (show e ∈ t₁.ent up by rw [← hcut]; simp)
            rw [aoeOf, hlook] at hl
            exact hl
          · simp only [if_neg hek]
            have hne : ∀ a ∈ e :: rest, a.key ≠ toLex (id, i16 num) := by
              intro a ha
              have hek' : e.key ≠ toLex (id, i16 num) := by
                intro hk
                have hk := toLex_inj.mp hk
                simp only [Prod.mk.injEq] at hk
                exact hek hk
              cases List.mem_cons.mp ha with
              | inl hae => exact hae ▸ hek'
              | inr ha =>
                have hs := (hI₁.ents up).sparse.sorted
                rw [← hcut] at hs
                have hlt := (List.pairwise_cons.mp (List.pairwise_append.mp hs).2.1).1 a ha
                exact ne_of_gt (lt_of_le_of_lt (hrest e (by simp)) hlt)
            obtain ⟨hs, hgo⟩ := hnew (e :: rest) hr hne
            exact ⟨hs, fun _ _ _ hl => hgo hl⟩

theorem seminitChain_eq (n u : Nat) (np : Nat → Option Nat) (j : Nat) :
    seminitChain n u np j =
      if u ≤ j ∧ j < u + n then some (j + 1) else if j = u + n then none else np j := by
  induction n generalizing u np with
  | zero =>
    rw [if_neg (by omega)]
    by_cases hj : j = u <;> simp [seminitChain, hj]
  | succ n ih =>
    rw [seminitChain, ih]
    by_cases hj : j = u
    · rw [if_neg (by omega), if_neg (by omega), if_pos (by omega), hj, Function.update_self]
    · rw [Function.update_of_ne hj]
      exact if_congr (by omega) rfl (if_congr (by omega) rfl rfl)

/-- The structures in a row are a list when each points to the next. -/
theorem seg_range' {np : Nat → Option Nat} (n u : Nat)
    (h : ∀ j, u ≤ j → j ≤ u + n → np j = if j < u + n then some (j + 1) else none) :
    Seg np (some u) (List.range' u (n + 1)) := by
  induction n generalizing u with
  | zero => exact ⟨rfl, by rw [h u le_rfl le_rfl, if_neg (by omega)]; rfl⟩
  | succ n ih =>
    refine ⟨rfl, ?_⟩
    rw [h u le_rfl (by omega), if_pos (by omega)]
    refine ih (u + 1) fun j hj hj' => ?_
    rw [h j (by omega) (by omega)]
    exact if_congr (by omega) rfl rfl

/-- seminit puts every structure on the free list. -/
theorem seminitUndo_ok (hu : ∀ p, t.semUndo p = none) (he : ∀ u, t.ent u = [])
    (hc : t.semunp = none) : UndoOk info (seminitUndo info t) := by
  have hpos := info.semmnu_pos
  have hseg : Seg (seminitChain (info.semmnu - 1) 0 t.np) (some 0)
      (List.range' 0 (info.semmnu - 1 + 1)) := by
    refine seg_range' _ 0 fun j _ hj => ?_
    rw [seminitChain_eq]
    by_cases hlt : j < 0 + (info.semmnu - 1)
    · rw [if_pos ⟨Nat.zero_le j, hlt⟩, if_pos hlt]
    · rw [if_neg fun hj' => hlt hj'.2, if_neg hlt, if_pos (by omega)]
  rw [Nat.sub_add_cancel hpos] at hseg
  refine ⟨[], List.range' 0 info.semmnu, hc, hseg, ?_, ?_, fun u => ?_, fun u hlt => .inl ?_,
    fun p u hp => ?_, fun p q u hp => ?_, fun u => ?_⟩
  · exact List.nodup_range'
  · intro u hm
    simpa using hm
  · simp [seminitUndo, he]
  · simpa using hlt
  · simp [seminitUndo, hu] at hp
  · simp [seminitUndo, hu] at hp
  · simp only [seminitUndo, he]
    exact EntOk.nil info

theorem i16_neg {x a : Int} (ha : a < 2 ^ 15) (h : -a ≤ i16 x ∧ i16 x ≤ a) :
    i16 (-x) = -i16 x := by
  simp only [i16, Int.bmod_def] at h ⊢
  split at h <;> split <;> omega

/-- The opposite adjustment cannot fail and brings the entries back. -/
theorem semaoe_back (h : UndoOk info t) {es : List Undo} {val id num : Int} (hE : EntOk info es)
    (hadj : Adjusted info (i16 val) (toLex (id, i16 num)) es (entriesOf p t))
    (hb : -info.semaem ≤ i16 val ∧ i16 val ≤ info.semaem)
    (hown : i16 val ≠ 0 → ∃ u, t.semUndo p = some u) :
    Semaoe info p (i16 (-val)) (toLex (id, i16 num)) t (semaoe info p (-val) id num t).1 none ∧
      entriesOf p (semaoe info p (-val) id num t).1 = es := by
  have hlt := info.semaem_lt
  obtain ⟨hB, hgo⟩ := semaoe_spec h p (-val) id num
  rw [i16_neg (a := info.semaem) (by omega) hb] at hB hgo ⊢
  generalize toLex (id, i16 num) = k at hadj hB hgo ⊢
  have hat := hadj.at_
  have hbound := hE.aoe_bound k
  have hback : (semaoe info p (-val) id num t).2 = none := by
    by_cases h0 : i16 val = 0
    · have h0' : i16 (-val) = 0 := by
        rw [i16_neg (a := info.semaem) (by omega) hb, h0, neg_zero]
      simp only [semaoe, h0', if_true]
    · refine hgo (by omega) (hown h0) (by omega) fun hz => ?_
      exact lt_of_lt_of_le (hadj.len (by omega) hz) hE.len
  obtain ⟨hadj', -⟩ := hB.done hback
  rw [hback] at hB
  refine ⟨hB, hadj'.ok.sparse.ext hE.sparse (fun _ _ => Undo.ext_key) fun k' => ?_⟩
  show aoeOf _ k' = aoeOf _ k'
  by_cases hkk : k' = k
  · rw [hkk, hadj'.at_]
    omega
  · rw [hadj'.ne k' hkk, hadj.ne k' hkk]

end Svr32.Semaphore
