import Svr32.Stream.Concat

/-! What pullupmsg promises, and when it keeps the promise. -/
namespace Svr32.Stream
open Svr32.Lib
variable {nd mp : Nat} {k k' : Pool} {fl suf : List Nat} {ms : List (List Nat)} {len : Int} {r : Bool}

/- How many bytes pullupmsg is to put into one block. -/
def wanted (k : Pool) (mp : Nat) (suf : List Nat) (len : Int) : Int :=
  if len = -1 then k.total (k.leading mp (mp :: suf)) else len

/-- A negative count takes the head's bytes from before its data. -/
theorem Pull.back {done l new : List Nat} {tmp nbp A B : Nat} {k₀ k₁ k₂ : Pool} {left : Option Nat}
    (h : Pull k mp suf len tmp nbp A B k₀ k₁ k₂ left done l new k') (hacc : Account nd k fl)
    (hm : Msgs k fl ((mp :: suf) :: ms)) (hbuf : Buffers nd k)
    (hin : ∀ b ∈ mp :: suf, InBuffer k b) (hneg : len < 0) :
    k'.dataOf (k.btype mp) (mp :: new) ≠ k.dataOf (k.btype mp) (mp :: suf) := by
  have hnd : (mp :: suf).Nodup := hm.nodup.sublist (List.sublist_append_left _ _)
  have hb := h.begun hacc hm hbuf hin
  have htm := (h.out mp List.mem_cons_self).1.symm
  have hnm := (h.out mp List.mem_cons_self).2.symm
  have hsize : 0 ≤ k.size mp := by
    obtain ⟨d, -, -, hle, -⟩ := hin mp List.mem_cons_self
    rw [size_eq]
    omega
  have hmb := hb.mb mp List.mem_cons_self
  have hw := size_eq k mp
  have hmin : min ((k.mb mp).bWptr - (k.mb mp).bRptr) len = len := by omega
  have hloop := h.loop
  have hstop : k₂ = pullTurn nbp mp len k₁ := by
    cases hn : k₁.nmblock with
    | zero =>
      rw [hn] at hloop
      cases hloop
    | succ n =>
      have h₁ : len ≠ 0 := by omega
      have h₂ : (k.mb mp).bRptr + len ≠ (k.mb mp).bWptr := by omega
      simp only [hn, pullupLoop, hmb, hmin, if_neg h₁, if_pos h₂] at hloop
      cases hloop
      rfl
  have hmb₂ : k₂.mb mp = { k.mb mp with bRptr := (k.mb mp).bRptr + len } := by
    rw [hstop, pullTurn_bp hnm, hmb]
  have hne : (k₂.mb mp).bRptr ≠ (k₂.mb mp).bWptr := by
    rw [hmb₂]
    simp only
    omega
  obtain ⟨hdone, hnew⟩ := (h.stop.resolve_right fun hs => hne hs.1).2
  have hl : l = suf := by rw [h.tail, hdone, List.nil_append]
  obtain ⟨hmem, -, hty, hcm, hct, hcx⟩ := pullupEnd_data h.finish htm hnm h.apart
  have hmem' : k'.mem = k.mem := by
    rw [hmem, hstop, pullTurn_mem, ← hb.mem]
    funext a
    rw [bcopy, if_neg (by omega)]
  have hbt₂ : ∀ x ∈ mp :: suf, k₂.btype x = k.btype x := fun x hx => by
    rw [hstop, ← hb.types x hx]
    exact btype_congr (congrFun (pullTurn_moved nbp mp len k₁).datap x) fun _ => rfl
  have hsuf : k'.dataOf (k.btype mp) suf = k.dataOf (k.btype mp) suf := by
    have hc : ∀ x ∈ suf, Carries k₂ x k' x ∧ k₂.mb x = k.mb x := by
      intro x hx
      have hxm : x ≠ mp := fun he => (List.nodup_cons.mp hnd).1 (he ▸ hx)
      have hxo := h.out x (List.mem_cons_of_mem mp hx)
      refine ⟨hcx x hxo.1 hxm hxo.2, ?_⟩
      rw [hstop, pullTurn_mb len hxm hxo.2, hb.mb x (List.mem_cons_of_mem mp hx)]
    refine dataOf_congr (fun x hx => ?_) fun x hx => ?_
    · obtain ⟨hcx, hmx⟩ := hc x hx
      exact data_congr (by rw [hcx.rptr, hmx]) (by rw [hcx.wptr, hmx])
        fun _ _ _ => congrFun hmem' _
    · rw [(hc x hx).1.btype hty, hbt₂ x (List.mem_cons_of_mem mp hx)]
  have hct := hct hne
  have hsize' : k'.size tmp = k.size mp - len := by
    rw [hct.size, size_eq, hmb₂, hw]
    simp only
    omega
  have htype : k'.btype tmp = k.btype mp := (hct.btype hty).trans (hbt₂ mp List.mem_cons_self)
  intro heq
  have hlen := congrArg List.length heq
  rw [hnew, hl, dataOf_cons, dataOf_cons, dataOf_cons, hsuf, if_pos htype, if_pos rfl,
    List.length_append, List.length_append, List.length_append, data_length k' tmp, data_length k mp,
    hsize'] at hlen
  omega

variable {w : Nat}

end Svr32.Stream
