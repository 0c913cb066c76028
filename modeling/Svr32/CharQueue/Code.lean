import Mathlib.Logic.Function.Basic
import Svr32.Lib.Family
import Mathlib.Data.Set.Insert

/-! Character queues of io/clist.c: a clist is a chain of cblocks, whose live characters
lie from c_first to c_last. A cblock is named by its number, a clist by any name. -/
namespace Svr32.CharQueue
variable {Q : Type*}

structure Cblock where
  cFirst : Nat
  cLast : Nat
  cData : Nat → BitVec 8

structure Clist where
  cCc : Int
  cCf : Option Nat
  cCl : Option Nat
deriving DecidableEq, Repr

/- `next` is c_next of the cblocks; cfreelist has its own head, c_size and c_flag. -/
structure Tables (Q : Type*) where
  next : Nat → Option Nat
  blk : Nat → Cblock
  clist : Q → Clist
  cfreelist : Option Nat
  cSize : Nat
  cFlag : Bool

namespace Tables

def setNext (bp : Nat) (n : Option Nat) (k : Tables Q) : Tables Q :=
  { k with next := Function.update k.next bp n }

def setBlk (bp : Nat) (b : Cblock) (k : Tables Q) : Tables Q :=
  { k with blk := Function.update k.blk bp b }

end Tables

/- putcf, and the end of getc: the block goes to the free list, and whoever waits for one is
   woken. -/
def putcf (bp : Nat) (k : Tables Q) : Tables Q :=
  { k.setNext bp k.cfreelist with cfreelist := some bp, cFlag := false }

/-- getcf: a block from the free list, said to be full. -/
def getcf (k : Tables Q) : Option Nat × Tables Q :=
  match k.cfreelist with
  | none => (none, k)
  | some bp =>
    (some bp, { ((k.setNext bp none).setBlk bp { k.blk bp with cFirst := 0, cLast := k.cSize }) with
      cfreelist := k.next bp })

variable [DecidableEq Q]

def Tables.setClist (p : Q) (c : Clist) (k : Tables Q) : Tables Q :=
  { k with clist := Function.update k.clist p c }

/-- getc: a character or -1; `none` when it follows a null pointer. -/
def getc (p : Q) (k : Tables Q) : Option (Int × Tables Q) :=
  if (k.clist p).cCc > 0 then
    match (k.clist p).cCf with
    | none => none
    | some bp =>
      let b := k.blk bp
      let c : Int := (b.cData b.cFirst).toNat
      let b := { b with cFirst := b.cFirst + 1 }
      let cl := { k.clist p with cCc := (k.clist p).cCc - 1 }
      let k := k.setBlk bp b
      if b.cFirst = b.cLast then
        let n := k.next bp
        let cl := { cl with cCf := n, cCl := if n = none then none else cl.cCl }
        some (c, putcf bp (k.setClist p cl))
      else some (c, k.setClist p cl)
  else some (-1, k)

/- The character goes into the last block. -/
def putcLast (c : Int) (p : Q) (bp : Nat) (k : Tables Q) : Tables Q :=
  let b := k.blk bp
  (k.setBlk bp { b with
    cData := Function.update b.cData b.cLast (BitVec.ofInt 8 c), cLast := b.cLast + 1 }).setClist p
      { k.clist p with cCc := (k.clist p).cCc + 1 }

/- A new last block behind `obp`, if the free list has one. -/
def putcBlock (p : Q) (obp : Option Nat) (k : Tables Q) : Option (Nat × Tables Q) :=
  match k.cfreelist with
  | none => none
  | some bp =>
    let k := { k with cfreelist := k.next bp }
    let k := (k.setNext bp none).setBlk bp { k.blk bp with cFirst := 0, cLast := 0 }
    match obp with
    | none => some (bp, k.setClist p { k.clist p with cCf := some bp, cCl := some bp })
    | some o => some (bp, (k.setNext o (some bp)).setClist p { k.clist p with cCl := some bp })

/-- putc: 0, or -1 when there is no block. -/
def putc (c : Int) (p : Q) (k : Tables Q) : Int × Tables Q :=
  match (k.clist p).cCl with
  | some bp =>
    if (k.blk bp).cLast = k.cSize then
      match putcBlock p (some bp) k with
      | none => (-1, k)
      | some (bp, k) => (0, putcLast c p bp k)
    else (0, putcLast c p bp k)
  | none =>
    match putcBlock p none k with
    | none => (-1, k)
    | some (bp, k) => (0, putcLast c p bp k)

/-- getcb: the first block of a clist. -/
def getcb (p : Q) (k : Tables Q) : Option Nat × Tables Q :=
  match (k.clist p).cCf with
  | none => (none, k)
  | some bp =>
    let b := k.blk bp
    let n := k.next bp
    let cl := k.clist p
    (some bp, k.setClist p
      { cCc := cl.cCc - (b.cLast - b.cFirst), cCf := n, cCl := if n = none then none else cl.cCl })

/-- putcb: a block to the end of a clist. -/
def putcb (bp : Nat) (p : Q) (k : Tables Q) : Tables Q :=
  let cl := k.clist p
  let b := k.blk bp
  let k := match cl.cCl with
    | none => k
    | some obp => k.setNext obp (some bp)
  (k.setNext bp none).setClist p
    { cCc := cl.cCc + (b.cLast - b.cFirst)
      cCf := if cl.cCl = none then some bp else cl.cCf
      cCl := some bp }

end Svr32.CharQueue

/-! A clist is the queue of the live characters of its cblocks. -/
namespace Svr32.CharQueue
open Svr32.Lib
variable {Q : Type*} {k : Tables Q} {ls : Option Q → List Nat} {p : Q} {bp : Nat}

/- The characters of a block from c_first to c_last. -/
def live (b : Cblock) : List (BitVec 8) :=
  (List.range (b.cLast - b.cFirst)).map fun j => b.cData (b.cFirst + j)

@[simp] theorem live_length (b : Cblock) : (live b).length = b.cLast - b.cFirst := by
  simp [live]

theorem live_cons {b : Cblock} (h : b.cFirst < b.cLast) :
    live b = b.cData b.cFirst :: live { b with cFirst := b.cFirst + 1 } := by
  obtain ⟨n, hn⟩ := Nat.exists_eq_add_of_lt h
  have h₁ : b.cLast - b.cFirst = n + 1 := by omega
  have h₂ : b.cLast - (b.cFirst + 1) = n := by omega
  simp only [live, h₁, h₂, List.range_succ_eq_map, List.map_cons, List.map_map, Nat.add_zero]
  congr 1
  refine List.map_congr_left fun j _ => ?_
  simp only [Function.comp_apply]
  congr 1
  omega

theorem live_snoc {b : Cblock} (h : b.cFirst ≤ b.cLast) (c : BitVec 8) :
    live { b with cData := Function.update b.cData b.cLast c, cLast := b.cLast + 1 } =
      live b ++ [c] := by
  have hl : b.cLast + 1 - b.cFirst = b.cLast - b.cFirst + 1 := by omega
  simp only [live, hl, List.range_succ, List.map_append, List.map_cons, List.map_nil]
  congr 1
  · refine List.map_congr_left fun j hj => ?_
    have hlt := List.mem_range.mp hj
    exact Function.update_of_ne (by omega) _ _
  · rw [Nat.add_sub_of_le h, Function.update_self]

theorem live_nil {b : Cblock} (h : b.cLast ≤ b.cFirst) : live b = [] := by
  simp [live, Nat.sub_eq_zero_of_le h]

/- `none` is the free list. -/
def heads (k : Tables Q) : Option Q → Option Nat
  | none => k.cfreelist
  | some p => (k.clist p).cCf

def bytes (k : Tables Q) (ls : Option Q → List Nat) (p : Q) : List (BitVec 8) :=
  (ls (some p)).flatMap fun bp => live (k.blk bp)

/- The lists behind the heads, with blocks that are not empty, a last block that is the
   last, and a count that counts. -/
structure Rep (k : Tables Q) (ls : Option Q → List Nat) : Prop where
  fam : Family k.next (heads k) ls
  last : ∀ p, (k.clist p).cCl = (ls (some p)).getLast?
  full : ∀ p, ∀ bp ∈ ls (some p), (k.blk bp).cFirst < (k.blk bp).cLast ∧
    (k.blk bp).cLast ≤ k.cSize
  count : ∀ p, (k.clist p).cCc = (bytes k ls p).length

theorem bytes_congr {k' : Tables Q} {ls' : Option Q → List Nat} {q : Q}
    (hl : ls' (some q) = ls (some q)) (hb : ∀ x ∈ ls (some q), k'.blk x = k.blk x) :
    bytes k' ls' q = bytes k ls q := by
  simp only [bytes, hl]
  exact List.flatMap_congr fun x hx => by rw [hb x hx]

/- The blocks on some list. -/
def nodes (ls : Option Q → List Nat) : Set Nat := {x | ∃ i, x ∈ ls i}

/- `k'`, `ls'` are in order, and differ from `k`, `ls` in the clist `p` and its blocks
   at most. -/
structure Only (p : Q) (k : Tables Q) (ls : Option Q → List Nat) (k' : Tables Q)
    (ls' : Option Q → List Nat) : Prop where
  rep : Rep k' ls'
  others : ∀ q, q ≠ p → bytes k' ls' q = bytes k ls q
  size : k'.cSize = k.cSize
  frame : ∀ x, x ∉ nodes ls → k'.blk x = k.blk x

theorem head_some (h : Rep k ls) (hp : (k.clist p).cCf = some bp) :
    ∃ rest, ls (some p) = bp :: rest := by
  have hs : Seg k.next (some bp) (ls (some p)) := hp ▸ h.fam.seg (some p)
  cases hl : ls (some p) with
  | nil =>
    rw [hl] at hs
    cases hs
  | cons x rest =>
    rw [hl] at hs
    cases hs.1
    exact ⟨rest, rfl⟩

theorem head_none (h : Rep k ls) (hp : (k.clist p).cCf = none) : ls (some p) = [] := by
  have hs : Seg k.next none (ls (some p)) := hp ▸ h.fam.seg (some p)
  cases hl : ls (some p) with
  | nil => rfl
  | cons x rest =>
    rw [hl] at hs
    cases hs.1

theorem free_some (h : Rep k ls) (hp : k.cfreelist = some bp) :
    ∃ rest, ls none = bp :: rest := by
  have hs : Seg k.next (some bp) (ls none) := hp ▸ h.fam.seg none
  cases hl : ls none with
  | nil =>
    rw [hl] at hs
    cases hs
  | cons x rest =>
    rw [hl] at hs
    cases hs.1
    exact ⟨rest, rfl⟩

theorem getLast_cons_next {next : Nat → Option Nat} {x : Nat} {rest : List Nat}
    (hs : Seg next (next x) rest) :
    (if next x = none then none else (x :: rest).getLast?) = rest.getLast? := by
  cases rest with
  | nil => rw [if_pos (show next x = none from hs)]; rfl
  | cons y ys =>
    rw [hs.1, if_neg nofun]
    rfl

variable [DecidableEq Q]

/-- One more block on one of the lists, wherever it is put. -/
theorem nodes_insert (ls : Option Q → List Nat) {i : Option Q} {x : Nat} {l : List Nat}
    (hl : ∀ y, y ∈ l ↔ y = x ∨ y ∈ ls i) :
    nodes (Function.update ls i l) = insert x (nodes ls) := by
  ext y
  simp only [nodes, Set.mem_ofPred_eq, Set.mem_insert_iff]
  constructor
  · intro hy
    obtain ⟨j, hj⟩ := hy
    by_cases hji : j = i
    · rw [hji, Function.update_self] at hj
      exact ((hl y).mp hj).imp_right fun hm => ⟨i, hm⟩
    · rw [Function.update_of_ne hji] at hj
      exact .inr ⟨j, hj⟩
  · intro hy
    cases hy with
    | inl he => exact ⟨i, by rw [Function.update_self]; exact (hl y).mpr (.inl he)⟩
    | inr hy =>
      obtain ⟨j, hj⟩ := hy
      by_cases hji : j = i
      · exact ⟨i, by rw [Function.update_self]; exact (hl y).mpr (.inr (hji ▸ hj))⟩
      · exact ⟨j, by rwa [Function.update_of_ne hji]⟩

/-- The blocks but for the first of one list, and that one. -/
theorem nodes_pop {i : Option Q} {x : Nat} {rest : List Nat} (hl : ls i = x :: rest) :
    insert x (nodes (Function.update ls i rest)) = nodes ls := by
  rw [← nodes_insert (i := i) (x := x) (l := ls i) (Function.update ls i rest) (by simp [hl])]
  simp

theorem heads_setClist (c : Clist) (k : Tables Q) (p : Q) :
    heads (k.setClist p c) = Function.update (heads k) (some p) c.cCf := by
  funext i
  cases i with
  | none => simp [heads, Tables.setClist]
  | some q => by_cases h : q = p <;> simp [heads, Tables.setClist, h]

theorem heads_free (k : Tables Q) (h : Option Nat) (f : Bool) :
    heads { k with cfreelist := h, cFlag := f } = Function.update (heads k) none h := by
  funext i
  cases i with
  | none => simp [heads]
  | some q => simp [heads]

/-- A block that is on no list goes to the free list. -/
theorem putcf_spec (h : Rep k ls) (hb : bp ∉ nodes ls) :
    Rep (putcf bp k) (Function.update ls none (bp :: ls none)) ∧
      (∀ q, bytes (putcf bp k) (Function.update ls none (bp :: ls none)) q = bytes k ls q) := by
  have hx : ∀ j, bp ∉ ls j := fun j hj => hb ⟨j, hj⟩
  have hbytes : ∀ q, bytes (putcf bp k) (Function.update ls none (bp :: ls none)) q =
      bytes k ls q := fun q => bytes_congr (by simp) fun _ _ => rfl
  have hf := h.fam.push hx none
  refine ⟨⟨?_, fun q => ?_, fun q => ?_, fun q => ?_⟩, hbytes⟩
  · have hh : heads (putcf bp k) = Function.update (heads k) none (some bp) :=
      heads_free (k.setNext bp k.cfreelist) (some bp) false
    rw [hh]
    exact hf
  · rw [Function.update_of_ne (Option.some_ne_none q)]
    exact h.last q
  · rw [Function.update_of_ne (Option.some_ne_none q)]
    exact h.full q
  · rw [hbytes]
    exact h.count q

omit [DecidableEq Q] in
theorem setNext_free (h : Rep k ls) (hb : bp ∉ nodes ls) (n : Option Nat) :
    Rep (k.setNext bp n) ls := by
  refine ⟨?_, h.last, h.full, h.count⟩
  have hh : heads (k.setNext bp n) = heads k := by
    funext i
    cases i <;> rfl
  rw [hh]
  exact h.fam.set (fun j hj => hb ⟨j, hj⟩) n

/-- The first block leaves the free list. -/
theorem free_pop (h : Rep k ls) {rest : List Nat} (hl : ls none = bp :: rest) :
    Rep { k with cfreelist := k.next bp } (Function.update ls none rest) ∧
      ∀ q, bytes { k with cfreelist := k.next bp } (Function.update ls none rest) q =
        bytes k ls q := by
  have hbytes : ∀ q, bytes { k with cfreelist := k.next bp } (Function.update ls none rest) q =
      bytes k ls q := fun q => bytes_congr (by simp) fun _ _ => rfl
  refine ⟨⟨?_, fun q => ?_, fun q => ?_, fun q => ?_⟩, hbytes⟩
  · have hh : heads { k with cfreelist := k.next bp } =
        Function.update (heads k) none (k.next bp) := heads_free k (k.next bp) k.cFlag
    rw [hh]
    exact h.fam.pop hl
  · rw [Function.update_of_ne (Option.some_ne_none q)]
    exact h.last q
  · rw [Function.update_of_ne (Option.some_ne_none q)]
    exact h.full q
  · rw [hbytes]
    exact h.count q

/-- A node taken off one list is on none. -/
theorem not_nodes_pop (h : Rep k ls) {i : Option Q} {x : Nat} {rest : List Nat}
    (hl : ls i = x :: rest) : x ∉ nodes (Function.update ls i rest) := by
  intro hn
  obtain ⟨j, hj⟩ := hn
  by_cases hji : j = i
  · have hnd := h.fam.nodup i
    rw [hl] at hnd
    rw [hji, Function.update_self] at hj
    exact (List.nodup_cons.mp hnd).1 hj
  · rw [Function.update_of_ne hji] at hj
    exact hji (h.fam.one j i x hj (by simp [hl]))

omit [DecidableEq Q] in
theorem setBlk_free (h : Rep k ls) (hb : ∀ q, bp ∉ ls (some q)) (b : Cblock) :
    Rep (k.setBlk bp b) ls ∧ ∀ q, bytes (k.setBlk bp b) ls q = bytes k ls q := by
  have hblk : ∀ q, ∀ x ∈ ls (some q), (k.setBlk bp b).blk x = k.blk x := fun q x hx =>
    Function.update_of_ne (fun he : x = bp => hb q (he ▸ hx)) _ _
  have hbytes : ∀ q, bytes (k.setBlk bp b) ls q = bytes k ls q := fun q => bytes_congr rfl (hblk q)
  refine ⟨⟨?_, h.last, fun q x hx => ?_, fun q => ?_⟩, hbytes⟩
  · have hh : heads (k.setBlk bp b) = heads k := by
      funext i
      cases i <;> rfl
    rw [hh]
    exact h.fam
  · rw [hblk q x hx]
    exact h.full q x hx
  · rw [hbytes]
    exact h.count q

/-- getcb takes the first block with its characters. -/
theorem getcb_spec (h : Rep k ls) {rest : List Nat} (hl : ls (some p) = bp :: rest) :
    (getcb p k).1 = some bp ∧
      Only p k ls (getcb p k).2 (Function.update ls (some p) rest) ∧
      bytes k ls p = live (k.blk bp) ++ bytes (getcb p k).2 (Function.update ls (some p) rest) p := by
  have hhead : (k.clist p).cCf = some bp := by
    have hs := (h.fam.seg (some p)).head
    rw [hl] at hs
    exact hs
  have hseg : Seg k.next (k.next bp) rest := by
    have hs := h.fam.seg (some p)
    rw [hl] at hs
    exact hs.2
  have hfull := h.full p bp (by simp [hl])
  have hsplit : bytes k ls p = live (k.blk bp) ++
      bytes (getcb p k).2 (Function.update ls (some p) rest) p := by
    simp [bytes, hl, getcb, hhead, Tables.setClist]
  have hothers : ∀ q, q ≠ p →
      bytes (getcb p k).2 (Function.update ls (some p) rest) q = bytes k ls q := by
    intro q hq
    refine bytes_congr (by simp [hq]) fun x _ => ?_
    simp [getcb, hhead, Tables.setClist]
  have hcl : ∀ q, q ≠ p → ((getcb p k).2.clist q) = k.clist q := fun q hq => by
    simp [getcb, hhead, Tables.setClist, hq]
  refine ⟨by simp [getcb, hhead], ⟨⟨?_, fun q => ?_, fun q => ?_, fun q => ?_⟩, hothers, ?_,
    fun x _ => ?_⟩, hsplit⟩
  · have hf := h.fam.pop hl
    simp only [getcb, hhead, heads_setClist]
    exact hf
  · by_cases hq : q = p
    · subst hq
      simp only [getcb, hhead, Tables.setClist, Function.update_self, h.last, hl]
      exact getLast_cons_next hseg
    · rw [hcl q hq, Function.update_of_ne (by simpa using hq)]
      exact h.last q
  · have hsame : (getcb p k).2.blk = k.blk ∧ (getcb p k).2.cSize = k.cSize := by
      simp [getcb, hhead, Tables.setClist]
    rw [hsame.1, hsame.2]
    by_cases hq : q = p
    · subst hq
      rw [Function.update_self]
      exact fun x hx => h.full q x (by rw [hl]; exact List.mem_cons_of_mem bp hx)
    · rw [Function.update_of_ne (by simpa using hq)]
      exact h.full q
  · by_cases hq : q = p
    · subst hq
      have hc := h.count q
      rw [hsplit, List.length_append, live_length] at hc
      have hcc : ((getcb q k).2.clist q).cCc =
          (k.clist q).cCc - ((k.blk bp).cLast - (k.blk bp).cFirst) := by
        simp [getcb, hhead, Tables.setClist]
      rw [hcc, hc]
      omega
    · rw [hcl q hq, hothers q hq]
      exact h.count q
  · simp [getcb, hhead, Tables.setClist]
  · simp [getcb, hhead, Tables.setClist]

/-- putcb puts a block that is on no list, and is not empty, at the end. -/
theorem putcb_spec (h : Rep k ls) (hb : bp ∉ nodes ls)
    (hfull : (k.blk bp).cFirst < (k.blk bp).cLast ∧ (k.blk bp).cLast ≤ k.cSize) :
    Only p k ls (putcb bp p k) (Function.update ls (some p) (ls (some p) ++ [bp])) ∧
      bytes (putcb bp p k) (Function.update ls (some p) (ls (some p) ++ [bp])) p =
        bytes k ls p ++ live (k.blk bp) := by
  have hx : ∀ j, bp ∉ ls j := fun j hj => hb ⟨j, hj⟩
  have hlast := h.last p
  have hblk : (putcb bp p k).blk = k.blk := by
    cases hc : (k.clist p).cCl <;> simp [putcb, hc, Tables.setClist, Tables.setNext]
  have hsize : (putcb bp p k).cSize = k.cSize := by
    cases hc : (k.clist p).cCl <;> simp [putcb, hc, Tables.setClist, Tables.setNext]
  have hclist : (putcb bp p k).clist = Function.update k.clist p
      { cCc := (k.clist p).cCc + ((k.blk bp).cLast - (k.blk bp).cFirst)
        cCf := if (k.clist p).cCl = none then some bp else (k.clist p).cCf
        cCl := some bp } := by
    cases hc : (k.clist p).cCl <;> simp [putcb, hc, Tables.setClist, Tables.setNext]
  have hbytes : bytes (putcb bp p k) (Function.update ls (some p) (ls (some p) ++ [bp])) p =
      bytes k ls p ++ live (k.blk bp) := by
    simp [bytes, hblk]
  have hothers : ∀ q, q ≠ p → bytes (putcb bp p k)
      (Function.update ls (some p) (ls (some p) ++ [bp])) q = bytes k ls q :=
    fun q hq => bytes_congr (by simp [hq]) fun x _ => by rw [hblk]
  refine ⟨⟨⟨?_, fun q => ?_, fun q => ?_, fun q => ?_⟩, hothers, hsize,
    fun x _ => by rw [hblk]⟩, hbytes⟩
  · -- the block's own link first, then the one that leads to it
    have hf := h.fam.set hx none
    obtain ⟨hempty, hsome⟩ := hf.snoc hx (Function.update_self _ _ _) (some p)
    cases hc : (k.clist p).cCl with
    | none =>
      rw [hc] at hlast
      have hnil := List.getLast?_eq_none_iff.mp hlast.symm
      simp only [putcb, hc, heads_setClist, if_true, hnil, List.nil_append]
      exact hempty hnil
    | some obp =>
      rw [hc] at hlast
      have hne : obp ≠ bp := fun he =>
        hx (some p) (he ▸ List.mem_of_getLast? hlast.symm)
      have hfam := hsome obp hlast.symm
      rw [Function.update_comm hne.symm] at hfam
      simp only [putcb, hc, heads_setClist, reduceCtorEq, if_false]
      have hh : Function.update (heads ((k.setNext obp (some bp)).setNext bp none)) (some p)
          (k.clist p).cCf = heads k := by
        funext i
        by_cases hi : i = some p
        · rw [hi, Function.update_self]
          rfl
        · rw [Function.update_of_ne hi]
          cases i <;> rfl
      rw [hh]
      exact hfam
  · by_cases hq : q = p
    · subst hq
      simp [hclist]
    · rw [hclist, Function.update_of_ne hq, Function.update_of_ne (by simpa using hq)]
      exact h.last q
  · rw [hblk, hsize]
    by_cases hq : q = p
    · subst hq
      rw [Function.update_self]
      intro x hxm
      cases List.mem_append.mp hxm with
      | inl hxm => exact h.full q x hxm
      | inr hxm =>
        rw [List.mem_singleton.mp hxm]
        exact hfull
    · rw [Function.update_of_ne (by simpa using hq)]
      exact h.full q
  · by_cases hq : q = p
    · subst hq
      rw [hbytes, List.length_append, live_length, hclist, Function.update_self]
      simp only [h.count q]
      omega
    · rw [hothers q hq, hclist, Function.update_of_ne hq]
      exact h.count q

/-- A block of a clist changes its characters, and the count follows. -/
theorem reblk_spec (h : Rep k ls) {l₁ l₂ : List Nat} (hl : ls (some p) = l₁ ++ bp :: l₂)
    {b : Cblock} (hb : b.cFirst < b.cLast ∧ b.cLast ≤ k.cSize) {n : Int}
    (hn : n = (k.clist p).cCc + (live b).length - (live (k.blk bp)).length) :
    Only p k ls ((k.setBlk bp b).setClist p { k.clist p with cCc := n }) ls ∧
      bytes k ls p = l₁.flatMap (fun x => live (k.blk x)) ++ (live (k.blk bp) ++
        l₂.flatMap fun x => live (k.blk x)) ∧
      bytes ((k.setBlk bp b).setClist p { k.clist p with cCc := n }) ls p =
        l₁.flatMap (fun x => live (k.blk x)) ++ (live b ++ l₂.flatMap fun x => live (k.blk x)) := by
  have hnd := h.fam.nodup (some p)
  rw [hl] at hnd
  have hmem : bp ∈ ls (some p) := by simp [hl]
  have hout : ∀ x, x ≠ bp →
      ((k.setBlk bp b).setClist p { k.clist p with cCc := n }).blk x = k.blk x :=
    fun x hx => Function.update_of_ne hx _ _
  have hold : bytes k ls p = l₁.flatMap (fun x => live (k.blk x)) ++ (live (k.blk bp) ++
      l₂.flatMap fun x => live (k.blk x)) := by
    simp [bytes, hl]
  have hnew : bytes ((k.setBlk bp b).setClist p { k.clist p with cCc := n }) ls p =
      l₁.flatMap (fun x => live (k.blk x)) ++
        (live b ++ l₂.flatMap fun x => live (k.blk x)) := by
    have hmid := List.nodup_cons.mp (List.perm_middle.nodup_iff.mp hnd)
    have h₁ : ∀ x ∈ l₁, x ≠ bp := fun x hx he =>
      hmid.1 (List.mem_append_left l₂ (he ▸ hx))
    have h₂ : ∀ x ∈ l₂, x ≠ bp := fun x hx he =>
      hmid.1 (List.mem_append_right l₁ (he ▸ hx))
    simp only [bytes, hl, List.flatMap_append, List.flatMap_cons]
    rw [List.flatMap_congr fun x hx => by rw [hout x (h₁ x hx)],
      List.flatMap_congr (l := l₂) fun x hx => by rw [hout x (h₂ x hx)]]
    simp [Tables.setBlk, Tables.setClist]
  have hothers : ∀ q, q ≠ p →
      bytes ((k.setBlk bp b).setClist p { k.clist p with cCc := n }) ls q = bytes k ls q := by
    refine fun q hq => bytes_congr rfl fun x hx => hout x fun he => ?_
    exact hq (Option.some.inj (h.fam.one _ _ _ (he ▸ hx) hmem))
  refine ⟨⟨⟨?_, fun q => ?_, fun q x hx => ?_, fun q => ?_⟩, hothers, rfl,
    fun x hx => hout x fun he => hx ⟨some p, he ▸ hmem⟩⟩, hold, hnew⟩
  · have hh : heads ((k.setBlk bp b).setClist p { k.clist p with cCc := n }) = heads k := by
      funext i
      cases i with
      | none => rfl
      | some q => by_cases hq : q = p <;> simp [heads, Tables.setClist, Tables.setBlk, hq]
    rw [hh]
    exact h.fam
  · by_cases hq : q = p
    · subst hq
      simp only [Tables.setClist, Function.update_self]
      exact h.last q
    · simp only [Tables.setClist, Function.update_of_ne hq]
      exact h.last q
  · by_cases hxb : x = bp
    · simp only [hxb, Tables.setClist, Tables.setBlk, Function.update_self]
      exact hb
    · rw [hout x hxb]
      exact h.full q x hx
  · by_cases hq : q = p
    · subst hq
      have hc := h.count q
      rw [hold] at hc
      rw [hnew]
      simp only [Tables.setClist, Function.update_self, hn, hc, List.length_append]
      omega
    · rw [hothers q hq]
      simp only [Tables.setClist, Function.update_of_ne hq]
      exact h.count q

end Svr32.CharQueue
