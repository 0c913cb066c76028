import Svr32.Stream.Account

/-! What the routines for one block do to the accounts: allocb, dupb and copyb use the first
free message block, freeb gives one back. -/
namespace Svr32.Stream
open Svr32.Lib
variable {nd : Nat} {k k' : Pool} {fl rest : List Nat} {b n d dp c : Nat}

/- The free block `n` has come into use, alone. -/
structure Grew (nd : Nat) (k : Pool) (fl : List Nat) (k' : Pool) (n : Nat) (rest : List Nat) :
    Prop where
  list : fl = n :: rest
  acc : Account nd k' rest
  one : OneMb k k' n
  cont : k'.cont n = none
  data : ∃ d, k'.datap n = some d

theorem Account.free_cons (h : Account nd k fl) (hn : k.mbfreelist = some n) :
    ∃ rest, fl = n :: rest := by
  have hs := h.seg
  rw [hn] at hs
  cases fl with
  | nil => cases hs
  | cons x rest =>
    cases hs.1
    exact ⟨rest, rfl⟩

theorem Account.free_nil (h : Account nd k fl) (hn : k.mbfreelist = none) : fl = [] := by
  have hs := h.seg
  rw [hn] at hs
  cases fl with
  | nil => rfl
  | cons x rest => cases hs.1

/-- The first block of a class, with the first free message block. -/
theorem gotdp_spec (h : Account nd k fl) (hdp : k.dbfreelist c = some dp) :
    (gotdp c dp k = (none, k) ∧ fl = []) ∨
      ∃ n rest, (gotdp c dp k).1 = some n ∧ Grew nd k fl (gotdp c dp k).2 n rest ∧
        (gotdp c dp k).2.datap n = some dp := by
  cases hfree : k.mbfreelist with
  | none => exact .inl ⟨by simp only [gotdp, hfree], h.free_nil hfree⟩
  | some n =>
    obtain ⟨rest, hl⟩ := h.free_cons hfree
    obtain ⟨dfl, hdata⟩ := h.data
    have hn : n < k.nmblock := h.lt n (by simp [hl])
    obtain ⟨drest, hdl⟩ : ∃ drest, dfl c = dp :: drest := by
      have hs := hdata.fam.seg c
      rw [hdp] at hs
      cases hd : dfl c with
      | nil =>
        rw [hd] at hs
        cases hs
      | cons x xs =>
        rw [hd] at hs
        cases hs.1
        exact ⟨xs, rfl⟩
    obtain ⟨hlt, -, hzero⟩ := (hdata.free c dp).mp (by simp [hdl])
    obtain ⟨k', hk'⟩ : ∃ k', (gotdp c dp k) = (some n, k') := ⟨_, by simp only [gotdp, hfree]; rfl⟩
    have hval : k' = ({ k with
        dbfreelist := Function.update k.dbfreelist c (k.db dp).dbFreep
        dbaCnt := Function.update k.dbaCnt c (k.dbaCnt c + 1)
        mbfreelist := k.next n }.setMb n
          ⟨none, none, none, (k.db dp).dbBase, (k.db dp).dbBase, some dp⟩).setDb dp
          { k.db dp with dbFreep := none, dbType := 0, dbRef := 1 } := by
      simp only [gotdp, hfree] at hk'
      exact (Prod.ext_iff.mp hk').2.symm
    have hdb : OneDb k k' dp :=
      ⟨fun x hx => by simp [hval, Pool.setDb, Pool.setMb, hx], by
        simp [hval, Pool.setDb, Pool.setMb]⟩
    have hone : OneMb k k' n :=
      ⟨fun x hx => by simp [hval, Pool.setDb, Pool.setMb, hx], by rw [hval]; rfl, hdb.cls_eq⟩
    have hdatap : k'.datap n = some dp := by
      simp [hval, Pool.datap, Pool.setDb, Pool.setMb]
    have hrefs := hone.refs_some hn (h.nodata n (by simp [hl])) hdatap
    rw [hzero] at hrefs
    have htake := hdata.take hdb hdl (by simp [hval, Pool.setDb]) (by rw [hval]; rfl)
      (by rw [hval]; rfl)
    rw [hk']
    refine .inr ⟨n, rest, rfl, ⟨hl, ?_, hone, ?_, dp, hdatap⟩, hdatap⟩
    · refine h.rest hl hone (by rw [hval]; rfl) hdatap hlt
        ⟨Function.update dfl c drest, ?_⟩
      rw [hrefs]
      exact htake
    · simp [hval, Pool.cont, Pool.setDb, Pool.setMb]

/-- allocb takes a block, or changes nothing. -/
theorem allocb_spec (h : Account nd k fl) (size : Int) (pri : Nat) :
    allocb size pri k = (none, k) ∨ ∃ n rest, (allocb size pri k).1 = some n ∧
      Grew nd k fl (allocb size pri k).2 n rest := by
  have hroom : ∀ c dp, room c pri k = some dp → k.dbfreelist c = some dp := by
    intro c dp hr
    rw [room] at hr
    split at hr
    · exact hr
    · cases hr
  have hgot : ∀ c dp, room c pri k = some dp → gotdp c dp k = (none, k) ∨
      ∃ n rest, (gotdp c dp k).1 = some n ∧ Grew nd k fl (gotdp c dp k).2 n rest := by
    intro c dp hr
    cases gotdp_spec h (hroom c dp hr) with
    | inl hf => exact .inl hf.1
    | inr hf =>
      obtain ⟨n, rest, hn, hg, -⟩ := hf
      exact .inr ⟨n, rest, hn, hg⟩
  by_cases hc : nclass ≤ getclass size
  · exact .inl (by simp only [allocb, if_pos hc])
  · cases hr : room (getclass size) pri k with
    | some dp =>
      simp only [allocb, if_neg hc, hr]
      exact hgot _ dp hr
    | none =>
      by_cases hlast : getclass size = nclass - 1
      · exact .inl (by simp only [allocb, if_neg hc, hr, if_pos hlast])
      · cases hr' : room (getclass size + 1) pri k with
        | none => exact .inl (by simp only [allocb, if_neg hc, hr, if_neg hlast, hr'])
        | some dp =>
          simp only [allocb, if_neg hc, hr, if_neg hlast, hr']
          exact hgot _ dp hr'

/-- dupb uses a message block for data that has fewer than 255 of them. -/
theorem dupb_spec (h : Account nd k fl) (hb : b < k.nmblock) (hd : k.datap b = some d)
    (hroom : fl = [] ∨ k.refs d < 255) :
    (dupb b k = some (none, k) ∧ fl = []) ∨ ∃ n rest k', dupb b k = some (some n, k') ∧
      Grew nd k fl k' n rest ∧ k'.datap n = some d := by
  cases hfree : k.mbfreelist with
  | none => exact .inl ⟨by simp only [dupb, hfree], h.free_nil hfree⟩
  | some n =>
    obtain ⟨rest, hl⟩ := h.free_cons hfree
    obtain ⟨dfl, hdata⟩ := h.data
    have hn : n < k.nmblock := h.lt n (by simp [hl])
    have hlt := h.inside b hb d hd
    have hpos : 0 < k.refs d := pointing_pos (Finset.mem_range.mpr hb) hd
    have href := hdata.ref d hlt
    have hmax : k.refs d < 255 := hroom.resolve_left (by simp [hl])
    have hk' : dupb b k = some (some n, ({ k with mbfreelist := k.next n }.setDb d
        { k.db d with dbRef := (k.db d).dbRef + 1 }).setMb n
        ⟨none, none, none, (k.mb b).bRptr, (k.mb b).bWptr, some d⟩) := by
      have hdm : (k.mb b).bDatap = some d := hd
      simp only [dupb, hfree, hdm]
      rfl
    generalize hval : ({ k with mbfreelist := k.next n }.setDb d
        { k.db d with dbRef := (k.db d).dbRef + 1 }).setMb n
        ⟨none, none, none, (k.mb b).bRptr, (k.mb b).bWptr, some d⟩ = k' at hk'
    have hdb : OneDb k k' d :=
      ⟨fun x hx => by simp [← hval, Pool.setDb, Pool.setMb, hx], by
        simp [← hval, Pool.setDb, Pool.setMb]⟩
    have hone : OneMb k k' n :=
      ⟨fun x hx => by simp [← hval, Pool.setDb, Pool.setMb, hx], by rw [← hval]; rfl, hdb.cls_eq⟩
    have hdatap : k'.datap n = some d := by
      simp [← hval, Pool.datap, Pool.setDb, Pool.setMb]
    have hrefs := hone.refs_some hn (h.nodata n (by simp [hl])) hdatap
    have hnew : (k'.db d).dbRef.toNat = k.refs d + 1 := by
      simp only [← hval, Pool.setDb, Pool.setMb, Function.update_self, BitVec.toNat_add, href]
      show (k.refs d + 1) % 256 = k.refs d + 1
      omega
    have hstay := hdata.stay hdb hlt hpos.ne' (Nat.succ_ne_zero _) hnew (by rw [← hval]; rfl)
      (by rw [← hval]; rfl)
    refine .inr ⟨n, rest, k', hk', ⟨hl, ?_, hone, ?_, d, hdatap⟩, hdatap⟩
    · refine h.rest hl hone (by rw [← hval]; rfl) hdatap hlt ⟨dfl, ?_⟩
      rw [hrefs]
      exact hstay
    · simp [← hval, Pool.cont, Pool.setDb, Pool.setMb]

theorem grew_fill (hg : Grew nd k fl k' n rest) (m : Mblk) (e : Dblk) (x : Nat) :
    Grew nd k fl (fillb m e n x k') n rest := by
  have hout : ∀ y ∈ rest, y ≠ n := by
    intro y hy he
    have hno := hg.acc.nodata y hy
    obtain ⟨d, hd⟩ := hg.data
    rw [he, hd] at hno
    cases hno
  refine ⟨hg.list, ?_, ⟨fun y hy => ?_, hg.one.size, fun y => ?_⟩, ?_, ?_⟩
  · refine hg.acc.congr (fun y hy => ?_) rfl rfl ?_ (fun y => ?_) rfl rfl
    · simp [fillb, Pool.next, Pool.setMb, Pool.setDb, hout y hy]
    · funext y
      by_cases hy : y = n <;> simp [fillb, Pool.datap, Pool.setMb, Pool.setDb, hy]
    · by_cases hy : y = x <;> simp [fillb, Pool.setMb, Pool.setDb, hy]
  · simp only [fillb, Pool.setMb, Function.update_of_ne hy]
    exact hg.one.same y hy
  · rw [← hg.one.cls]
    by_cases hy : y = x <;> simp [fillb, Pool.setMb, Pool.setDb, hy]
  · simp only [fillb, Pool.cont, Pool.setMb, Function.update_self]
    exact hg.cont
  · simp only [fillb, Pool.datap, Pool.setMb, Function.update_self]
    exact hg.data

/-- copyb is allocb and a copy of the data. -/
theorem copyb_spec (h : Account nd k fl) (hd : k.datap b = some d) :
    copyb b k = some (none, k) ∨ ∃ n rest k', copyb b k = some (some n, k') ∧
      Grew nd k fl k' n rest := by
  have hdm : (k.mb b).bDatap = some d := hd
  cases halloc : allocb ((k.db d).dbLim - (k.db d).dbBase) BPRI_MED k with
  | mk r k₁ =>
    cases allocb_spec h ((k.db d).dbLim - (k.db d).dbBase) BPRI_MED with
    | inl hf =>
      rw [halloc] at hf
      cases hf
      exact .inl (by simp only [copyb, hdm, Option.bind_eq_bind, Option.bind_some, halloc]; rfl)
    | inr hf =>
      obtain ⟨n, rest, hn, hg⟩ := hf
      rw [halloc] at hn hg
      obtain ⟨e, he⟩ := hg.data
      have hem : (k₁.mb n).bDatap = some e := he
      have hn' : r = some n := hn
      subst hn'
      have heq : copyb b k = some (some n, fillb (k.mb b) (k.db d) n e k₁) := by
        simp only [copyb, hdm, Option.bind_eq_bind, Option.bind_some, halloc, hem]
        rfl
      exact .inr ⟨n, rest, _, heq, grew_fill hg _ _ _⟩

/-- One message block less points at `d`. -/
theorem unref_spec {r : Nat → Nat} {dfl : Nat → List Nat} (h : Data nd k r dfl) (hd : d < nd)
    (hpos : 0 < r d) : ∃ dfl', Data nd (unref d k) (Function.update r d (r d - 1)) dfl' := by
  have href := h.ref d hd
  have hsub : ((k.db d).dbRef - 1).toNat = r d - 1 := by
    have h1 : (1 : BitVec 8) ≤ (k.db d).dbRef := by
      rw [BitVec.le_def, href]
      exact hpos
    rw [BitVec.toNat_sub_of_le h1, href]
    rfl
  by_cases hlast : (k.db d).dbRef - 1 = 0
  · have hz : r d - 1 = 0 := by rw [← hsub, hlast]; rfl
    have hone : OneDb k (unref d k) d := by
      refine ⟨fun x hx => ?_, ?_⟩ <;> simp only [unref, if_pos hlast]
      · simp [Pool.setDb, hx]
      · simp [Pool.setDb]
    rw [hz]
    refine ⟨_, h.drop hone hd hpos.ne' rfl ?_ ?_ ?_ ?_⟩ <;> simp only [unref, if_pos hlast]
    · simpa [Pool.setDb] using hlast
    · simp [Pool.setDb]
  · have hnz : r d - 1 ≠ 0 := by
      intro hz
      exact hlast (BitVec.eq_of_toNat_eq (hsub.trans hz))
    have hone : OneDb k (unref d k) d := by
      refine ⟨fun x hx => ?_, ?_⟩ <;> simp only [unref, if_neg hlast]
      · simp [Pool.setDb, hx]
      · simp [Pool.setDb]
    refine ⟨dfl, h.stay hone hd hpos.ne' hnz ?_ ?_ ?_⟩ <;> simp only [unref, if_neg hlast]
    · simpa [Pool.setDb] using hsub
    · rfl
    · rfl

theorem unref_mb (d : Nat) (k : Pool) : (unref d k).mb = k.mb ∧
    (unref d k).mbfreelist = k.mbfreelist ∧ (unref d k).nmblock = k.nmblock ∧
    ∀ x, ((unref d k).db x).dbClass = (k.db x).dbClass := by
  simp only [unref]
  split <;> refine ⟨rfl, rfl, rfl, fun x => ?_⟩ <;>
    by_cases hx : x = d <;> simp [Pool.setDb, hx]

/-- freeb frees a message block, and its data block if it is the last for it. -/
theorem freeb_spec (h : Account nd k fl) (hb : b < k.nmblock) (hd : k.datap b = some d) :
    ∃ k', freeb b k = some k' ∧ Account nd k' (b :: fl) ∧ OneMb k k' b ∧
      k'.cont b = k.cont b := by
  have hdm : (k.mb b).bDatap = some d := hd
  obtain ⟨hmb, hfree, hsize, hcls⟩ := unref_mb d k
  have hk' : freeb b k =
      some (mbfree b ((unref d k).setMb b { k.mb b with bDatap := none })) := by
    simp only [freeb, hdm, Option.bind_eq_bind, Option.bind_some, hmb]
    rfl
  generalize hval : mbfree b ((unref d k).setMb b { k.mb b with bDatap := none }) = k' at hk'
  have hone : OneMb k k' b := by
    refine ⟨fun x hx => ?_, ?_, fun x => ?_⟩
    · simp [← hval, mbfree, Pool.setMb, hx, hmb]
    · rw [← hsize, ← hval]
      rfl
    · rw [← hcls, ← hval]
      rfl
  have hdatap : k'.datap b = none := by simp [← hval, mbfree, Pool.datap, Pool.setMb]
  have hin : b ∉ fl := by
    intro hm
    have hn := h.nodata b hm
    rw [hd] at hn
    cases hn
  obtain ⟨dfl, hdata⟩ := h.data
  have hlt := h.inside b hb d hd
  obtain ⟨dfl', hdata'⟩ := unref_spec hdata hlt (pointing_pos (Finset.mem_range.mpr hb) hd)
  refine ⟨k', hk', ?_, hone, by simp [← hval, mbfree, Pool.cont, Pool.setMb]⟩
  refine h.give hb hin hone (by rw [← hval]; rfl) ?_ hdatap ⟨dfl', ?_⟩
  · rw [← hfree, ← hval]
    simp [mbfree, Pool.next, Pool.setMb]
  · rw [hone.refs_none hb hd hdatap]
    exact hdata'.congr (fun _ => by rw [← hval]; exact ⟨rfl, rfl, rfl⟩) (by rw [← hval]; rfl)
      (by rw [← hval]; rfl)

/-- A block without data goes to the free list. -/
theorem mbfree_spec (h : Account nd k fl) (hb : b < k.nmblock) (hin : b ∉ fl)
    (hd : k.datap b = none) : Account nd (mbfree b k) (b :: fl) := by
  have hone : OneMb k (mbfree b k) b :=
    ⟨fun x hx => by simp [mbfree, Pool.setMb, hx], rfl, fun _ => rfl⟩
  have hdatap : (mbfree b k).datap = k.datap := by
    funext x
    by_cases hx : x = b <;> simp [Pool.datap, mbfree, Pool.setMb, hx]
  have hrefs : (mbfree b k).refs = k.refs := by
    funext e
    rw [Pool.refs, Pool.refs, hdatap]
    rfl
  obtain ⟨dfl, hdata⟩ := h.data
  refine h.give hb hin hone rfl (by simp [Pool.next, mbfree, Pool.setMb]) (hdatap ▸ hd) ⟨dfl, ?_⟩
  rw [hrefs]
  exact hdata.congr (fun _ => ⟨rfl, rfl, rfl⟩) rfl rfl

end Svr32.Stream
