import Mathlib.Algebra.Order.BigOperators.Group.List
import Mathlib.Tactic.Ring

/-! grow.c: page tables come in pages of eight, which are taken from availsmem and availrmem as a
whole and given back when all eight are free. -/
namespace Svr32.Region

def NPTPP : Nat := 8

def pttopgs (n : Nat) : Nat := (n + NPTPP - 1) / NPTPP

/- The address of a page table; page 0 is never one. -/
structure Pt where
  page : Nat
  index : Nat
deriving DecidableEq

def NULL : Pt := ⟨0, 0⟩

structure Tune where
  minasmem : Int
  minarmem : Int

/- `use` are the pf_use bits of the pages that are held for page tables. -/
structure Mem where
  availsmem : Int
  availrmem : Int
  nptalloced : Int
  nptfree : Int
  use : Nat → Option (Nat → Bool)

/- Where ptalloc finds room: in a page of the free list, or in pages from getcpages. -/
inductive Place where
  | reuse (page index : Nat)
  | fresh (page : Nat)

def change {ι α : Type} [DecidableEq ι] (f : ι → α) (k : ι) (x : α) : ι → α := fun i =>
  if i = k then x else f i

/- ptalloc; `none` is NULL. -/
def Mem.ptalloc (tune : Tune) (npgtbls : Nat) (place : Option Place) (m : Mem) :
    Option (Pt × Mem) :=
  if npgtbls = 0 then none
  else
    match place with
    | none => none
    | some (.reuse page index) =>
      match m.use page with
      | none => none
      | some bits =>
        if npgtbls < NPTPP ∧ index + npgtbls ≤ NPTPP ∧ 0 < page ∧
            ∀ k < npgtbls, bits (index + k) = true then
          some (⟨page, index⟩, { m with
            nptfree := m.nptfree - npgtbls
            use := change m.use page (some fun k =>
              if index ≤ k ∧ k < index + npgtbls then false else bits k) })
        else none
    | some (.fresh page) =>
      let i := pttopgs npgtbls
      if m.availrmem - i < tune.minarmem ∨ m.availsmem - i < tune.minasmem then none
      else if 0 < page ∧ ∀ j < i, m.use (page + j) = none then
        some (⟨page, 0⟩, { m with
          availsmem := m.availsmem - i
          availrmem := m.availrmem - i
          nptalloced := m.nptalloced + NPTPP * i
          nptfree := m.nptfree + NPTPP * i - npgtbls
          use := fun p => if page ≤ p ∧ p < page + i then
            some fun k => decide (npgtbls ≤ (p - page) * NPTPP + k) else m.use p })
      else none

/- Some tables of one page are freed, and the page with them if it has no others. -/
def Mem.freeIn (pt : Pt) (nfree : Nat) (m : Mem) : Mem :=
  match m.use pt.page with
  | none => m
  | some bits =>
    let bits' := fun k => if pt.index ≤ k ∧ k < pt.index + nfree then true else bits k
    if ∀ k < NPTPP, bits' k = true then
      { m with
        use := change m.use pt.page none
        availrmem := m.availrmem + 1
        availsmem := m.availsmem + 1
        nptalloced := m.nptalloced - NPTPP
        nptfree := m.nptfree - (NPTPP - nfree) }
    else
      { m with use := change m.use pt.page (some bits'), nptfree := m.nptfree + nfree }

/- The loop of uptfree over the pages. -/
def Mem.freePages : Nat → Pt → Nat → Mem → Mem
  | 0, _, _, m => m
  | fuel + 1, pt, npgtbls, m =>
    if npgtbls = 0 then m
    else
      let nfree := min npgtbls (NPTPP - pt.index)
      Mem.freePages fuel ⟨pt.page + 1, 0⟩ (npgtbls - nfree) (m.freeIn pt nfree)

def Mem.uptfree (pt : Pt) (npgtbls : Nat) (m : Mem) : Mem :=
  m.freePages (npgtbls + 1) pt npgtbls

/- What is available, with the pages that are held for page tables. -/
def Mem.smem (m : Mem) : Int := m.availsmem + m.nptalloced / NPTPP
def Mem.rmem (m : Mem) : Int := m.availrmem + m.nptalloced / NPTPP

/-- No page is held that has no table in use. -/
def Mem.Held (m : Mem) : Prop := ∀ p bits, m.use p = some bits → ∃ k < NPTPP, bits k = false

section
variable {ι α : Type} [DecidableEq ι]

theorem change_self (f : ι → α) (k : ι) (x : α) : change f k x k = x := if_pos rfl

theorem change_ne {f : ι → α} {k i : ι} {x : α} (h : i ≠ k) : change f k x i = f i := if_neg h

end

/- The bits of a page after some tables have been freed. -/
def freed (pt : Pt) (nfree : Nat) (bits : Nat → Bool) : Nat → Bool :=
  fun k => if pt.index ≤ k ∧ k < pt.index + nfree then true else bits k

end Svr32.Region
