import Svr32.CharQueue.Code
import Svr32.Lib.System

/-! getc and putc are the two ends of a queue of characters, whatever the blocks. -/
namespace Svr32.CharQueue
open Svr32.Lib
variable {Q : Type*} [DecidableEq Q] {k : Tables Q} {ls : Option Q → List Nat} {p : Q} {bp : Nat}

/-- getc on an empty clist. -/
theorem getc_empty (h : Rep k ls) (hb : bytes k ls p = []) : getc p k = some (-1, k) := by
  have hc := h.count p
  rw [hb] at hc
  simp [getc, hc]

/-- getc takes the first character; a block that is used up goes to the free list. -/
theorem getc_spec (h : Rep k ls) {c : BitVec 8} {cs : List (BitVec 8)}
    (hb : bytes k ls p = c :: cs) : ∃ k' ls', getc p k = some ((c.toNat : Int), k') ∧
      Only p k ls k' ls' ∧ bytes k' ls' p = cs ∧ nodes ls' = nodes ls := by
  have hc := h.count p
  have hpos : (k.clist p).cCc > 0 := by
    rw [hc, hb]
    simp
  cases hf : (k.clist p).cCf with
  | none =>
    rw [bytes, head_none h hf] at hb
    cases hb
  | some bp =>
    obtain ⟨rest, hl⟩ := head_some h hf
    have hfull := h.full p bp (by simp [hl])
    have hsplit : bytes k ls p = live (k.blk bp) ++ rest.flatMap fun x => live (k.blk x) := by
      simp [bytes, hl]
    have hlive := live_cons hfull.1
    rw [hsplit, hlive, List.cons_append, List.cons.injEq] at hb
    obtain ⟨hch, hcs⟩ := hb
    let b' : Cblock := { k.blk bp with cFirst := (k.blk bp).cFirst + 1 }
    have hlive' : live (k.blk bp) = c :: live b' := by rw [hlive, hch]
    by_cases hend : (k.blk bp).cFirst + 1 = (k.blk bp).cLast
    · -- the block goes the way of getcb, and then to the free list
      obtain ⟨-, honly, hbytes⟩ := getcb_spec h hl
      have hone : ((k.blk bp).cLast - (k.blk bp).cFirst : Int) = 1 := by omega
      have heq : getc p k = some ((c.toNat : Int), putcf bp ((getcb p k).2.setBlk bp b')) := by
        simp only [getc, if_pos hpos, hf, hch, if_pos hend, getcb, hone]
        rfl
      have hout := not_nodes_pop h hl
      obtain ⟨hrep₁, hsame₁⟩ := setBlk_free honly.rep (fun q hq => hout ⟨some q, hq⟩) b'
      obtain ⟨hrep₂, hsame₂⟩ := putcf_spec hrep₁ hout
      refine ⟨_, _, heq, ⟨hrep₂, fun q hq => ?_, honly.size, fun x hx => ?_⟩, ?_, ?_⟩
      · rw [hsame₂, hsame₁]
        exact honly.others q hq
      · have hne : x ≠ bp := fun he => hx ⟨some p, by simp [he, hl]⟩
        exact (Function.update_of_ne hne _ _).trans (honly.frame x hx)
      · have hnil : live b' = [] := live_nil hend.ge
        rw [hnil, List.nil_append] at hcs
        rw [hlive', hnil, hsplit, hlive', hnil, hcs] at hbytes
        rw [hsame₂, hsame₁]
        exact (List.cons.inj hbytes).2.symm
      · rw [nodes_insert (x := bp) (i := none) _ (fun y => by simp), nodes_pop hl]
    · have hn : (k.clist p).cCc - 1 =
          (k.clist p).cCc + (live b').length - (live (k.blk bp)).length := by
        rw [hlive', List.length_cons]
        omega
      have heq : getc p k = some ((c.toNat : Int), (k.setBlk bp b').setClist p
          { k.clist p with cCc := (k.clist p).cCc - 1 }) := by
        simp only [getc, if_pos hpos, hf, hch, if_neg hend]
        rfl
      obtain ⟨honly, -, hnew⟩ := @reblk_spec _ _ _ _ _ _ h [] _ hl b'
        ⟨by show (k.blk bp).cFirst + 1 < (k.blk bp).cLast; omega, hfull.2⟩ _ hn
      refine ⟨_, ls, heq, honly, ?_, rfl⟩
      rw [hnew, ← hcs]
      rfl

/- The block that putc takes from the free list, with the first character in it. -/
def fresh (bp : Nat) (c : Int) (k : Tables Q) : Tables Q :=
  { k with cfreelist := k.next bp }.setBlk bp
    ⟨0, 1, Function.update (k.blk bp).cData 0 (BitVec.ofInt 8 c)⟩

/-- putc with a new block is putcb of a block of one character. -/
theorem putcBlock_eq (hfree : k.cfreelist = some bp) (c : Int) {o : Option Nat}
    (ho : (k.clist p).cCl = o) (hne : o ≠ some bp) :
    ∃ k₁, putcBlock p o k = some (bp, k₁) ∧ putcLast c p bp k₁ = putcb bp p (fresh bp c k) := by
  cases o with
  | none =>
    refine ⟨_, by simp only [putcBlock, hfree]; rfl, ?_⟩
    simp [putcLast, putcb, fresh, Tables.setClist, Tables.setBlk, Tables.setNext, ho]
  | some x =>
    have hx : bp ≠ x := fun he => hne (by rw [he])
    refine ⟨_, by simp only [putcBlock, hfree]; rfl, ?_⟩
    simp [putcLast, putcb, fresh, Tables.setClist, Tables.setBlk, Tables.setNext, ho,
      Function.update_comm hx]

/-- putc appends a character, or says -1 when the free list is empty. -/
theorem putc_spec (h : Rep k ls) (hsize : 1 ≤ k.cSize) (c : Int) (p : Q) :
    (putc c p k = (-1, k) ∧ k.cfreelist = none) ∨
      ∃ ls', (putc c p k).1 = 0 ∧ Only p k ls (putc c p k).2 ls' ∧
        bytes (putc c p k).2 ls' p = bytes k ls p ++ [BitVec.ofInt 8 c] ∧
        nodes ls' = nodes ls := by
  have hlast := h.last p
  -- with no room in the last block, or no block, a new one is asked for
  have hnew : (∀ bp, (k.clist p).cCl = some bp → (k.blk bp).cLast = k.cSize) →
      (putcBlock p (k.clist p).cCl k = none → putc c p k = (-1, k)) ∧
      ∀ bp k₁, putcBlock p (k.clist p).cCl k = some (bp, k₁) →
        putc c p k = (0, putcLast c p bp k₁) := by
    intro hfull
    cases ho : (k.clist p).cCl with
    | none => exact ⟨fun hb => by simp only [putc, ho, hb], fun bp k₁ hb => by simp only [putc, ho, hb]⟩
    | some o =>
      have hl := hfull o ho
      exact ⟨fun hb => by simp only [putc, ho, if_pos hl, hb],
        fun bp k₁ hb => by simp only [putc, ho, if_pos hl, hb]⟩
  by_cases hroom : ∃ bp, (k.clist p).cCl = some bp ∧ (k.blk bp).cLast ≠ k.cSize
  · obtain ⟨bp, hcl, hne⟩ := hroom
    obtain ⟨pre, hpre⟩ := List.getLast?_eq_some_iff.mp (hlast.symm.trans hcl)
    have hfull := h.full p bp (by simp [hpre])
    have heq : putc c p k = (0, putcLast c p bp k) := by
      simp only [putc, hcl, if_neg hne]
    have hsnoc := live_snoc hfull.1.le (BitVec.ofInt 8 c)
    obtain ⟨honly, hold, hnew⟩ := @reblk_spec _ _ _ _ _ _ h _ [] hpre
      (b := { k.blk bp with
        cData := Function.update (k.blk bp).cData (k.blk bp).cLast (BitVec.ofInt 8 c)
        cLast := (k.blk bp).cLast + 1 })
      ⟨Nat.lt_succ_of_lt hfull.1, Nat.lt_of_le_of_ne hfull.2 hne⟩
      (n := (k.clist p).cCc + 1) (by rw [hsnoc, List.length_append, List.length_singleton]; omega)
    rw [heq]
    refine .inr ⟨ls, rfl, honly, ?_, rfl⟩
    rw [hsnoc] at hnew
    rw [hold]
    refine hnew.trans ?_
    simp
  · have hfull : ∀ bp, (k.clist p).cCl = some bp → (k.blk bp).cLast = k.cSize := by
      intro bp hb
      by_contra hne
      exact hroom ⟨bp, hb, hne⟩
    obtain ⟨hfail, htaken⟩ := hnew hfull
    cases hfree : k.cfreelist with
    | none => exact .inl ⟨hfail (by simp only [putcBlock, hfree]), rfl⟩
    | some bp =>
      obtain ⟨rest, hl⟩ := free_some h hfree
      have hone : (k.clist p).cCl ≠ some bp := by
        intro he
        have hm := List.mem_of_getLast? (hlast.symm.trans he)
        exact Option.some_ne_none p (h.fam.one _ _ bp hm (by simp [hl]))
      obtain ⟨k₁, hk₁, hputcb⟩ := putcBlock_eq hfree c rfl hone
      have hout := not_nodes_pop h hl
      obtain ⟨hrep₁, hsame₁⟩ := free_pop h hl
      obtain ⟨hrep₂, hsame₂⟩ := setBlk_free hrep₁ (fun q hq => hout ⟨some q, hq⟩)
        ⟨0, 1, Function.update (k.blk bp).cData 0 (BitVec.ofInt 8 c)⟩
      obtain ⟨honly, hbytes⟩ := putcb_spec (p := p) hrep₂ hout
        (by simpa [Tables.setBlk] using hsize)
      let ls₁ := Function.update ls none rest
      have honly' : Only p k ls (putcb bp p (fresh bp c k))
          (Function.update ls₁ (some p) (ls₁ (some p) ++ [bp])) := by
        refine ⟨honly.rep, fun q hq => ((honly.others q hq).trans (hsame₂ q)).trans (hsame₁ q),
          honly.size, fun x hx => ?_⟩
        have hne : x ≠ bp := fun he => hx ⟨none, by simp [he, hl]⟩
        refine (honly.frame x fun hm => hx ?_).trans (Function.update_of_ne hne _ _)
        exact nodes_pop hl ▸ Set.mem_insert_of_mem bp hm
      rw [htaken bp k₁ hk₁]
      rw [hputcb]
      refine .inr ⟨_, rfl, honly', ?_, ?_⟩
      · rw [← hsame₁, ← hsame₂]
        refine hbytes.trans ?_
        simp [live, Tables.setBlk]
      · rw [nodes_insert (x := bp) (i := some p) _ (fun y => by simp [or_comm]), nodes_pop hl]

/-- getcf takes a block that is then on no list. -/
theorem getcf_spec (h : Rep k ls) : ((getcf k) = (none, k) ∧ k.cfreelist = none) ∨
    ∃ bp ls', (getcf k).1 = some bp ∧ Rep (getcf k).2 ls' ∧
      (∀ q, bytes (getcf k).2 ls' q = bytes k ls q) ∧ (getcf k).2.cSize = k.cSize ∧
      (∀ x, x ∉ nodes ls → (getcf k).2.blk x = k.blk x) ∧
      ((getcf k).2.blk bp).cLast = k.cSize ∧ bp ∉ nodes ls' ∧
      insert bp (nodes ls') = nodes ls := by
  cases hfree : k.cfreelist with
  | none => exact .inl ⟨by simp only [getcf, hfree], rfl⟩
  | some bp =>
    obtain ⟨rest, hl⟩ := free_some h hfree
    have hout := not_nodes_pop h hl
    obtain ⟨hrep₁, hsame₁⟩ := free_pop h hl
    have hrep₂ := setNext_free hrep₁ hout none
    obtain ⟨hrep₃, hsame₃⟩ := setBlk_free hrep₂ (fun q hq => hout ⟨some q, hq⟩)
      { k.blk bp with cFirst := 0, cLast := k.cSize }
    have heq : getcf k = (some bp, ({ k with cfreelist := k.next bp }.setNext bp none).setBlk bp
        { k.blk bp with cFirst := 0, cLast := k.cSize }) := by
      simp only [getcf, hfree]
      rfl
    rw [heq]
    refine .inr ⟨bp, _, rfl, hrep₃, fun q => (hsame₃ q).trans (hsame₁ q), rfl, fun x hx => ?_, ?_,
      hout, nodes_pop hl⟩
    · have hne : x ≠ bp := fun he => hx ⟨none, by simp [he, hl]⟩
      exact Function.update_of_ne hne _ _
    · simp [Tables.setBlk]

end Svr32.CharQueue

/-! Runs of the clist routines: getc and putc are the two ends of a queue of characters,
getcb and putcb move a block of them, and no cblock is in two places. -/
namespace Svr32.CharQueue
open Svr32.Lib
variable {Q : Type*} [DecidableEq Q] {k : Tables Q} {ls : Option Q → List Nat} {p : Q}

structure World (Q : Type*) where
  k : Tables Q
  held : Set Nat

/- A caller may write into a block it holds, and link it, before it gives it back. -/
inductive Step : World Q → World Q → Prop
  | getc {w : World Q} {p : Q} {c : Int} {k' : Tables Q} :
    getc p w.k = some (c, k') → Step w { w with k := k' }
  | putc {w : World Q} (c : Int) (p : Q) : Step w { w with k := (putc c p w.k).2 }
  | getcf {w : World Q} : Step w ⟨(getcf w.k).2, w.held ∪ {x | (getcf w.k).1 = some x}⟩
  | putcf {w : World Q} {bp : Nat} : bp ∈ w.held → Step w ⟨putcf bp w.k, w.held \ {bp}⟩
  | getcb {w : World Q} (p : Q) :
    Step w ⟨(getcb p w.k).2, w.held ∪ {x | (getcb p w.k).1 = some x}⟩
  | putcb {w : World Q} {bp : Nat} (p : Q) : bp ∈ w.held →
    (w.k.blk bp).cFirst < (w.k.blk bp).cLast → Step w ⟨putcb bp p w.k, w.held \ {bp}⟩
  | write {w : World Q} {bp : Nat} (b : Cblock) : bp ∈ w.held → b.cLast ≤ w.k.cSize →
    Step w { w with k := w.k.setBlk bp b }
  | link {w : World Q} {bp : Nat} (n : Option Nat) : bp ∈ w.held →
    Step w { w with k := w.k.setNext bp n }

/- CLSIZE -/
def clsize : Nat := 64

/- cinit: the cblocks `pool` are free, and every clist is empty. -/
def clists (Q : Type*) [DecidableEq Q] (pool : List Nat) : System (World Q) where
  init w := Seg w.k.next w.k.cfreelist pool ∧ w.k.cSize = clsize ∧
    pool.Nodup ∧ (∀ p, w.k.clist p = ⟨0, none, none⟩) ∧ w.held = ∅
  step := Step

/- A cblock is on one list or held. -/
structure Good (pool : List Nat) (w : World Q) (ls : Option Q → List Nat) : Prop where
  rep : Rep w.k ls
  size : w.k.cSize = clsize
  apart : ∀ x ∈ w.held, x ∉ nodes ls
  pool : nodes ls ∪ w.held = {x | x ∈ pool}
  fits : ∀ x ∈ w.held, (w.k.blk x).cLast ≤ clsize

theorem good_init {pool : List Nat} {w : World Q} (h : (clists Q pool).init w) :
    ∃ ls, Good pool w ls := by
  obtain ⟨hseg, hsize, hnd, hclist, hheld⟩ := h
  let ls : Option Q → List Nat := Function.update (fun _ => []) none pool
  have hsome : ∀ q : Q, ls (some q) = [] := fun q => by simp [ls]
  have hnone : ls none = pool := Function.update_self ..
  have hin : ∀ i x, x ∈ ls i → i = none := by
    intro i x hx
    cases i with
    | none => rfl
    | some q =>
      rw [hsome] at hx
      cases hx
  refine ⟨ls, ⟨⟨fun i => ?_, fun i => ?_, fun i j x hi hj => ?_⟩, fun p => ?_, fun p x hx => ?_,
    fun p => ?_⟩, hsize, ?_, ?_, ?_⟩
  · cases i with
    | none => exact hnone ▸ hseg
    | some q =>
      rw [hsome, heads, hclist]
      rfl
  · cases i with
    | none => exact hnone ▸ hnd
    | some q =>
      rw [hsome]
      exact List.nodup_nil
  · rw [hin i x hi, hin j x hj]
  · rw [hclist, hsome]
    rfl
  · cases hin _ x hx
  · rw [hclist, bytes, hsome]
    rfl
  · rw [hheld]
    exact fun x hx => absurd hx (Set.notMem_empty x)
  · rw [hheld, Set.union_empty]
    ext x
    constructor
    · rintro ⟨i, hx⟩
      exact hnone ▸ hin i x hx ▸ hx
    · exact fun hx => ⟨none, hnone ▸ hx⟩
  · rw [hheld]
    exact fun x hx => absurd hx (Set.notMem_empty x)

omit [DecidableEq Q] in
/-- A clist changes, and the blocks on lists stay the same. -/
theorem Good.only {pool : List Nat} {w : World Q} {ls ls' : Option Q → List Nat}
    (h : Good pool w ls) {p : Q} {k' : Tables Q} (ho : Only p w.k ls k' ls')
    (hn : nodes ls' = nodes ls) : Good pool { w with k := k' } ls' := by
  refine ⟨ho.rep, ho.size.trans h.size, ?_, ?_, fun x hx => ?_⟩
  · rw [hn]
    exact h.apart
  · rw [hn]
    exact h.pool
  · show (k'.blk x).cLast ≤ clsize
    rw [ho.frame x (h.apart x hx)]
    exact h.fits x hx

omit [DecidableEq Q] in
/-- A block leaves its list for a caller. -/
theorem Good.take {pool : List Nat} {w : World Q} {ls ls' : Option Q → List Nat} {k' : Tables Q}
    {bp : Nat} (h : Good pool w ls) (hr : Rep k' ls') (hs : k'.cSize = w.k.cSize)
    (hf : ∀ x, x ∉ nodes ls → k'.blk x = w.k.blk x) (hb : (k'.blk bp).cLast ≤ clsize)
    (hout : bp ∉ nodes ls') (hn : insert bp (nodes ls') = nodes ls) :
    Good pool ⟨k', w.held ∪ {x | some bp = some x}⟩ ls' := by
  have hset : {x | some bp = some x} = {bp} := by
    ext x
    exact ⟨fun he => (Option.some.inj he).symm, fun he => congrArg some (Eq.symm he)⟩
  rw [hset]
  refine ⟨hr, hs.trans h.size, fun x hx => ?_, ?_, fun x hx => ?_⟩
  · cases hx with
    | inl hx => exact fun hm => h.apart x hx (hn ▸ Set.mem_insert_of_mem bp hm)
    | inr hx =>
      rw [Set.mem_singleton_iff.mp hx]
      exact hout
  · rw [← h.pool, ← hn, Set.insert_eq]
    ext x
    simp only [Set.mem_union]
    tauto
  · cases hx with
    | inl hx =>
      rw [hf x (h.apart x hx)]
      exact h.fits x hx
    | inr hx =>
      rw [Set.mem_singleton_iff.mp hx]
      exact hb

omit [DecidableEq Q] in
/-- A held block goes to a list. -/
theorem Good.give {pool : List Nat} {w : World Q} {ls ls' : Option Q → List Nat} {k' : Tables Q}
    {bp : Nat} (h : Good pool w ls) (hr : Rep k' ls') (hs : k'.cSize = w.k.cSize)
    (hf : ∀ x, x ∉ nodes ls → k'.blk x = w.k.blk x) (hb : bp ∈ w.held)
    (hn : nodes ls' = insert bp (nodes ls)) : Good pool ⟨k', w.held \ {bp}⟩ ls' := by
  refine ⟨hr, hs.trans h.size, fun x hx => ?_, ?_, fun x hx => ?_⟩
  · rw [hn]
    exact fun hm => (Set.mem_insert_iff.mp hm).elim hx.2 (h.apart x hx.1)
  · rw [← h.pool, hn]
    ext x
    by_cases hx : x = bp
    · simp [hx, hb]
    · simp [hx]
  · rw [hf x (h.apart x hx.1)]
    exact h.fits x hx.1

theorem good_step {pool : List Nat} {w w' : World Q} (h : ∃ ls, Good pool w ls)
    (hst : Step w w') : ∃ ls, Good pool w' ls := by
  obtain ⟨ls, h⟩ := h
  cases hst with
  | @getc p c k' hget =>
    cases hb : bytes w.k ls p with
    | nil =>
      rw [getc_empty h.rep hb] at hget
      cases hget
      exact ⟨ls, h⟩
    | cons b bs =>
      obtain ⟨k₁, ls₁, heq, ho, -, hn⟩ := getc_spec h.rep hb
      rw [heq] at hget
      cases hget
      exact ⟨ls₁, h.only ho hn⟩
  | putc c p =>
    cases putc_spec h.rep (by rw [h.size]; decide) c p with
    | inl he =>
      rw [he.1]
      exact ⟨ls, h⟩
    | inr he =>
      obtain ⟨ls₁, -, ho, -, hn⟩ := he
      exact ⟨ls₁, h.only ho hn⟩
  | getcf =>
    cases getcf_spec h.rep with
    | inl he =>
      rw [he.1]
      exact ⟨ls, by simpa using h⟩
    | inr he =>
      obtain ⟨bp, ls₁, hbp, hr, -, hs, hf, hlast, hout, hn⟩ := he
      rw [hbp]
      exact ⟨ls₁, h.take hr hs hf (by rw [hlast, h.size]) hout hn⟩
  | @putcf bp hbp =>
    obtain ⟨hr, -⟩ := putcf_spec h.rep (h.apart bp hbp)
    exact ⟨_, h.give hr rfl (fun _ _ => rfl) hbp (nodes_insert ls fun y => List.mem_cons)⟩
  | getcb p =>
    cases hl : ls (some p) with
    | nil =>
      have hhead : (w.k.clist p).cCf = none := by
        have hs := (h.rep.fam.seg (some p)).head
        rw [hl] at hs
        exact hs
      have he : getcb p w.k = (none, w.k) := by simp only [getcb, hhead]
      rw [he]
      exact ⟨ls, by simpa using h⟩
    | cons bp rest =>
      obtain ⟨hbp, ho, -⟩ := getcb_spec h.rep hl
      have hlast : ((getcb p w.k).2.blk bp).cLast ≤ clsize := by
        have hfull := (h.rep.full p bp (by simp [hl])).2
        have hblk : (getcb p w.k).2.blk bp = w.k.blk bp := by
          cases hc : (w.k.clist p).cCf <;> simp [getcb, hc, Tables.setClist]
        rw [hblk, ← h.size]
        exact hfull
      rw [hbp]
      exact ⟨_, h.take ho.rep ho.size ho.frame hlast (not_nodes_pop h.rep hl) (nodes_pop hl)⟩
  | @putcb bp p hbp hlt =>
    have hfull : (w.k.blk bp).cLast ≤ w.k.cSize := by
      rw [h.size]
      exact h.fits bp hbp
    obtain ⟨ho, -⟩ := putcb_spec (p := p) h.rep (h.apart bp hbp) ⟨hlt, hfull⟩
    exact ⟨_, h.give ho.rep ho.size ho.frame hbp
      (nodes_insert (x := bp) ls fun y => by simp [or_comm])⟩
  | @write bp b hbp hb =>
    have hout := h.apart bp hbp
    obtain ⟨hr, -⟩ := setBlk_free h.rep (fun q hq => hout ⟨some q, hq⟩) b
    refine ⟨ls, hr, h.size, h.apart, h.pool, fun x hx => ?_⟩
    by_cases hxb : x = bp
    · simp only [hxb, Tables.setBlk, Function.update_self, ← h.size]
      exact hb
    · simp only [Tables.setBlk, Function.update_of_ne hxb]
      exact h.fits x hx
  | @link bp n hbp =>
    exact ⟨ls, setNext_free h.rep (h.apart bp hbp) n, h.size, h.apart, h.pool, h.fits⟩

/- The clists of `k` hold the characters `f`. -/
def Contents (k : Tables Q) (f : Q → List (BitVec 8)) : Prop :=
  ∃ ls, Rep k ls ∧ bytes k ls = f

omit [DecidableEq Q] in
/-- The tables determine the characters. -/
theorem Contents.unique {f g : Q → List (BitVec 8)} (hf : Contents k f) (hg : Contents k g) :
    f = g := by
  obtain ⟨ls, hr, rfl⟩ := hf
  obtain ⟨ls', hr', rfl⟩ := hg
  funext p
  have hl : ls (some p) = ls' (some p) :=
    (hr.fam.seg (some p)).unique (hr'.fam.seg (some p))
  rw [bytes, bytes, hl]

theorem Only.contents {k' : Tables Q} {ls' : Option Q → List Nat} {l : List (BitVec 8)}
    (h : Only p k ls k' ls') (hl : bytes k' ls' p = l) :
    Contents k' (Function.update (bytes k ls) p l) := by
  refine ⟨ls', h.rep, funext fun q => ?_⟩
  by_cases hq : q = p
  · rw [hq, Function.update_self, hl]
  · rw [Function.update_of_ne hq, h.others q hq]

/- What each routine does to queues `f` of characters. -/
structure Fifo (w : World Q) (f : Q → List (BitVec 8)) : Prop where
  contents : Contents w.k f
  count : ∀ p, (w.k.clist p).cCc = (f p).length
  getc_empty : ∀ p, f p = [] → getc p w.k = some (-1, w.k)
  getc_head : ∀ p c cs, f p = c :: cs → ∃ k', getc p w.k = some ((c.toNat : Int), k') ∧
    Contents k' (Function.update f p cs)
  putc : ∀ c p, (putc c p w.k = (-1, w.k) ∧ w.k.cfreelist = none) ∨ ((putc c p w.k).1 = 0 ∧
    Contents (putc c p w.k).2 (Function.update f p (f p ++ [BitVec.ofInt 8 c])))
  getcf : Contents (getcf w.k).2 f
  putcf : ∀ bp ∈ w.held, Contents (putcf bp w.k) f
  getcb : ∀ p, (getcb p w.k = (none, w.k) ∧ f p = []) ∨ ∃ bp l, (getcb p w.k).1 = some bp ∧
    live (w.k.blk bp) ≠ [] ∧ f p = live (w.k.blk bp) ++ l ∧
    Contents (getcb p w.k).2 (Function.update f p l)
  putcb : ∀ p, ∀ bp ∈ w.held, live (w.k.blk bp) ≠ [] →
    Contents (putcb bp p w.k) (Function.update f p (f p ++ live (w.k.blk bp)))

theorem Good.fifo {pool : List Nat} {w : World Q} {ls : Option Q → List Nat}
    (h : Good pool w ls) : Fifo w (bytes w.k ls) where
  contents := ⟨ls, h.rep, rfl⟩
  count := h.rep.count
  getc_empty p hb := Svr32.CharQueue.getc_empty h.rep hb
  getc_head p c cs hb := by
    obtain ⟨k', ls', heq, ho, hcs, -⟩ := getc_spec h.rep hb
    exact ⟨k', heq, ho.contents hcs⟩
  putc c p := by
    cases putc_spec h.rep (by rw [h.size]; decide) c p with
    | inl he => exact .inl he
    | inr he =>
      obtain ⟨ls', hz, ho, hb, -⟩ := he
      exact .inr ⟨hz, ho.contents hb⟩
  getcf := by
    cases getcf_spec h.rep with
    | inl he => exact he.1 ▸ ⟨ls, h.rep, rfl⟩
    | inr he =>
      obtain ⟨bp, ls', -, hr, hsame, -⟩ := he
      exact ⟨ls', hr, funext hsame⟩
  putcf bp hbp := by
    obtain ⟨hr, hsame⟩ := putcf_spec h.rep (h.apart bp hbp)
    exact ⟨_, hr, funext hsame⟩
  getcb p := by
    cases hl : ls (some p) with
    | nil =>
      have hhead : (w.k.clist p).cCf = none := by
        have hs := (h.rep.fam.seg (some p)).head
        rw [hl] at hs
        exact hs
      exact .inl ⟨by simp only [Svr32.CharQueue.getcb, hhead], by rw [bytes, hl]; rfl⟩
    | cons bp rest =>
      obtain ⟨hbp, ho, hsplit⟩ := getcb_spec h.rep hl
      have hlt := (h.rep.full p bp (by simp [hl])).1
      exact .inr ⟨bp, _, hbp, by simp [live_cons hlt], hsplit, ho.contents rfl⟩
  putcb p bp hbp hne := by
    have hlt : (w.k.blk bp).cFirst < (w.k.blk bp).cLast := by
      by_contra hle
      exact hne (live_nil (Nat.le_of_not_lt hle))
    have hfull : (w.k.blk bp).cLast ≤ w.k.cSize := by
      rw [h.size]
      exact h.fits bp hbp
    obtain ⟨ho, hb⟩ := putcb_spec (p := p) h.rep (h.apart bp hbp) ⟨hlt, hfull⟩
    exact ho.contents hb

/-- Clists are queues of characters in every run, and each cblock is held, or on one list
and on no other. -/
theorem clist_run {pool : List Nat} {w : World Q} (h : (clists Q pool).Reachable w) :
    ∃ ls, Rep w.k ls ∧ Fifo w (bytes w.k ls) ∧ ∀ x ∈ pool,
      (x ∈ w.held ∧ ∀ i, x ∉ ls i) ∨ (x ∉ w.held ∧ ∃! i, x ∈ ls i) := by
  have hgood := System.invariant (fun w => ∃ ls, Good pool w ls) (fun _ => good_init)
    (fun _ _ => good_step) h
  obtain ⟨ls, hg⟩ := hgood
  refine ⟨ls, hg.rep, hg.fifo, fun x hx => ?_⟩
  have hin : x ∈ nodes ls ∪ w.held := hg.pool ▸ hx
  cases hin with
  | inl hn =>
    obtain ⟨i, hi⟩ := hn
    exact .inr ⟨fun hh => hg.apart x hh ⟨i, hi⟩, i, hi, fun j hj => hg.rep.fam.one j i x hj hi⟩
  | inr hh => exact .inl ⟨hh, fun i hi => hg.apart x hh ⟨i, hi⟩⟩

/- Two free cblocks, and one clist. -/
def twoBlocks : World Unit where
  k := { next := fun x => if x = 1 then some 2 else none, blk := fun _ => ⟨0, 0, fun _ => 0⟩
         clist := fun _ => ⟨0, none, none⟩, cfreelist := some 1, cSize := 64, cFlag := false }
  held := ∅

theorem twoBlocks_init : (clists Unit [1, 2]).init twoBlocks :=
  ⟨⟨rfl, rfl, rfl⟩, rfl, by decide, fun _ => rfl, rfl⟩

theorem clist_run_twoBlocks : ∃ ls,
    Rep ({ twoBlocks with k := (putc 65 () twoBlocks.k).2 } : World Unit).k ls ∧
    Fifo { twoBlocks with k := (putc 65 () twoBlocks.k).2 }
      (bytes ({ twoBlocks with k := (putc 65 () twoBlocks.k).2 } : World Unit).k ls) ∧
    ∀ x ∈ [1, 2], (x ∈ (∅ : Set Nat) ∧ ∀ i, x ∉ ls i) ∨ (x ∉ (∅ : Set Nat) ∧ ∃! i, x ∈ ls i) :=
  clist_run (System.reachable_step (System.reachable_init twoBlocks_init) (Step.putc 65 ()))

end Svr32.CharQueue
