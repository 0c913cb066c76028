import Mathlib.Logic.Function.Basic
import Svr32.Lib.FirstFit

/-! nudnix/auth.c: the heap of the name lists and id maps. Offsets are counted from Heap, which
is aligned; a call holds the table lock, so it runs to its end. -/
namespace Svr32.Rfs

def NBPC : Nat := 2048
/- sizeof(union heap), and ASIZE -/
def HSIZE : Nat := 4
def MAXALLOC : Nat := NBPC - 2 * HSIZE

/- H_BUSY is the last bit. -/
def isbusy (x : Nat) : Prop := x % 2 = 1
def mkfree (x : Nat) : Nat := x - x % 2
def mkbusy (x : Nat) : Nat := mkfree x + 1

instance (x : Nat) : Decidable (isbusy x) := inferInstanceAs (Decidable (x % 2 = 1))

def bump (s : Nat) : Nat := s + if s % HSIZE ≠ 0 then HSIZE - s % HSIZE else 0

/- The words h_next, by the offsets of their headers. -/
abbrev Words := Nat → Nat

def howbig (pavail : Nat) (h : Words) (hp : Nat) : Int :=
  (if mkfree (h hp) ≠ 0 then mkfree (h hp) else pavail : Nat) - (hp + HSIZE : Nat)

/- while (mkfree(hp->h_next) && !isbusy(otop(hp->h_next)->h_next)), a number of turns. -/
def coalesce : Nat → Nat → Words → Option Words
  | 0, _, _ => none
  | f + 1, hp, h =>
    if mkfree (h hp) ≠ 0 ∧ ¬ isbusy (h (mkfree (h hp))) then
      coalesce f hp (Function.update h hp (h (mkfree (h hp))))
    else some h

/- The two fit rules. -/
def fit (pavail size hp : Nat) (h : Words) : Option Words :=
  let fsize := size + HSIZE
  if (fsize : Int) ≤ howbig pavail h hp then
    some (Function.update (Function.update h (hp + fsize) (h hp)) hp (mkbusy (hp + fsize)))
  else if (size : Int) ≤ howbig pavail h hp then some (Function.update h hp (mkbusy (h hp)))
  else none

/- do .. while (hp != Heap), a number of turns. -/
def search (pavail size : Nat) : Nat → Nat → Words → Option (Option Nat × Words)
  | 0, _, _ => none
  | f + 1, hp, h =>
    if isbusy (h hp) then
      if mkfree (h hp) ≠ 0 then search pavail size f (mkfree (h hp)) h else some (none, h)
    else
      match coalesce (pavail + 1) hp h with
      | none => none
      | some h =>
        match fit pavail size hp h with
        | some h => some (some (hp + HSIZE), h)
        | none =>
          if mkfree (h hp) ≠ 0 then search pavail size f (mkfree (h hp)) h else some (none, h)

structure Heap where
  /- Whether Heap is not NULL. -/
  heap : Bool
  pavail : Nat
  words : Words
  /- What the callers have: the blocks and the sizes that were asked for. -/
  live : List (Nat × Nat)

/- if (Heap == NULL) -/
def first (rfsize : Nat) (s : Heap) : Heap :=
  if s.heap then s
  else { s with heap := true, pavail := rfsize, words := Function.update s.words 0 0 }

/-- h_alloc; all callers ask for sizes that are not negative. -/
def hAlloc (rfsize size : Nat) (s : Heap) : Option (Option Nat × Heap) :=
  let s := first rfsize s
  if MAXALLOC < bump size + HSIZE then some (none, s)
  else
    match search s.pavail (bump size) (s.pavail + 1) 0 s.words with
    | none => none
    | some (none, h) => some (none, { s with words := h })
    | some (some p, h) => some (some p, { s with words := h, live := (p, size) :: s.live })

/-- h_free; `none` where ASSERT fails. -/
def hFree (offset : Nat) (s : Heap) : Option Heap :=
  let hp := offset - HSIZE
  if isbusy (s.words hp) ∧ 0 < s.words hp ∧ s.words hp < s.pavail + 1 then
    some { s with
      words := Function.update s.words hp (mkfree (s.words hp))
      live := s.live.filter (·.1 ≠ offset) }
  else none

end Svr32.Rfs

/-! The headers of the heap say how it is divided into blocks; h_alloc is first fit on these. -/
namespace Svr32.Rfs
open Svr32.Lib
variable {h h' : Words} {size o n sz f x : Nat} {b : Bool} {l r : List Blk}

/- The offset of the next header, or 0 at the end. -/
def link (size x : Nat) : Nat := if x = size then 0 else x

/- From `o` to the end the heap is divided into blocks. -/
def Laid (h : Words) (size : Nat) : Nat → List Blk → Prop
  | o, [] => o = size
  | o, b :: r => h o = link size (o + HSIZE + b.len) + b.busy.toNat ∧
    (r ≠ [] → b.len % HSIZE = 0) ∧ Laid h size (o + HSIZE + b.len) r

theorem Laid.span (h : Laid h' size o l) : o + span HSIZE l = size := by
  induction l generalizing o with
  | nil => exact h
  | cons b r ih =>
    have hr := ih h.2.2
    rw [Lib.span]
    omega

/-- Only the words of the headers matter. -/
theorem Laid.headers (h : Laid h' size o l) {h'' : Words}
    (hs : ∀ x ∈ headersAt HSIZE o l, h'' x = h' x) : Laid h'' size o l := by
  induction l generalizing o with
  | nil => exact h
  | cons b r ih =>
    exact ⟨(hs o List.mem_cons_self).trans h.1, h.2.1,
      ih h.2.2 fun x hx => hs x (List.mem_cons_of_mem _ hx)⟩

theorem Laid.congr (h : Laid h' size o l) {h'' : Words} (hs : ∀ x, o ≤ x → h'' x = h' x) :
    Laid h'' size o l := h.headers fun x hx => hs x (headersAt_le hx)

theorem mkfree_word (hx : x % 4 = 0) (b : Bool) : mkfree (x + b.toNat) = x := by
  cases b <;> simp [mkfree] <;> omega

theorem isbusy_word (hx : x % 4 = 0) (b : Bool) : isbusy (x + b.toNat) ↔ b = true := by
  cases b <;> simp [isbusy] <;> omega

/-- What a header says: whether its block is busy, and where the next one is. -/
theorem Laid.word (h : Laid h' size o (⟨n, b⟩ :: r)) (ho : o % 4 = 0) :
    (isbusy (h' o) ↔ b = true) ∧ mkfree (h' o) = link size (o + HSIZE + n) ∧
    (r = [] → link size (o + HSIZE + n) = 0 ∧ o + HSIZE + n = size) ∧
    (r ≠ [] → link size (o + HSIZE + n) = o + HSIZE + n ∧ (o + HSIZE + n) % 4 = 0 ∧
      o + HSIZE + n ≠ 0) := by
  have hspan := h.2.2.span
  have hH : HSIZE = 4 := rfl
  have hnil : r = [] → link size (o + HSIZE + n) = 0 ∧ o + HSIZE + n = size := fun hr => by
    subst hr
    exact ⟨if_pos hspan, hspan⟩
  have hcons : r ≠ [] → link size (o + HSIZE + n) = o + HSIZE + n ∧
      (o + HSIZE + n) % 4 = 0 ∧ o + HSIZE + n ≠ 0 := fun hr => by
    obtain ⟨c, t, rfl⟩ := List.exists_cons_of_ne_nil hr
    have hlen : n % 4 = 0 := h.2.1 hr
    rw [Lib.span] at hspan
    exact ⟨if_neg (by simp only at hspan ⊢; omega), by omega, by omega⟩
  have hmod : link size (o + HSIZE + n) % 4 = 0 := by
    by_cases hr : r = []
    · rw [(hnil hr).1]
    · rw [(hcons hr).1, (hcons hr).2.1]
  have hword : h' o = link size (o + HSIZE + n) + b.toNat := h.1
  rw [hword]
  exact ⟨isbusy_word hmod b, mkfree_word hmod b, hnil, hcons⟩

theorem Laid.big (h : Laid h' size o (⟨n, b⟩ :: r)) (ho : o % 4 = 0) :
    howbig size h' o = n := by
  obtain ⟨-, hfree, hnil, hcons⟩ := h.word ho
  rw [howbig, hfree]
  by_cases hr : r = []
  · obtain ⟨h0, hend⟩ := hnil hr
    rw [h0, if_neg (not_not.mpr rfl)]
    omega
  · obtain ⟨hlink, -, hne⟩ := hcons hr
    rw [hlink, if_pos hne]
    omega

/-- The inner loop joins a free block with those behind it. -/
theorem coalesce_spec (hl : Laid h size o (⟨n, false⟩ :: r)) (ho : o % 4 = 0)
    (hf : r.length < f) : ∃ h', coalesce f o h = some h' ∧
      Laid h' size o (⟨(absorb HSIZE n r).1, false⟩ :: (absorb HSIZE n r).2) ∧
      ∀ x, x ≠ o → h' x = h x := by
  induction r generalizing n h f with
  | nil =>
    obtain ⟨f, rfl⟩ : ∃ g, f = g + 1 := ⟨f - 1, by omega⟩
    obtain ⟨-, hfree, hnil, -⟩ := hl.word ho
    refine ⟨h, ?_, hl, fun _ _ => rfl⟩
    rw [coalesce, hfree, (hnil rfl).1, if_neg fun hc => hc.1 rfl]
  | cons c t ih =>
    obtain ⟨f, rfl⟩ : ∃ g, f = g + 1 := ⟨f - 1, by omega⟩
    obtain ⟨-, hfree, -, hcons⟩ := hl.word ho
    obtain ⟨hlink, hmod, hne⟩ := hcons (List.cons_ne_nil _ _)
    rcases c with ⟨m, _ | _⟩
    · have hnext : Laid h size (o + HSIZE + n) (⟨m, false⟩ :: t) := hl.2.2
      have hfreed : ¬ isbusy (h (o + HSIZE + n)) := fun hb =>
        absurd ((hnext.word hmod).1.mp hb) nofun
      have hstep : Laid (Function.update h o (h (o + HSIZE + n))) size o
          (⟨n + HSIZE + m, false⟩ :: t) := by
        have hH : HSIZE = 4 := rfl
        have hoff : o + HSIZE + (n + HSIZE + m) = o + HSIZE + n + HSIZE + m := by omega
        refine ⟨?_, fun ht => ?_, ?_⟩
        · rw [Function.update_self, hoff]
          exact hnext.1
        · have h1 : n % HSIZE = 0 := hl.2.1 (List.cons_ne_nil _ _)
          have h2 : m % HSIZE = 0 := hnext.2.1 ht
          simp only [hH] at h1 h2 ⊢
          omega
        · simp only [hoff]
          exact hnext.2.2.congr fun x hx => Function.update_of_ne (by omega) _ _
      rw [List.length_cons] at hf
      obtain ⟨h', hco, hlaid, hkeep⟩ := ih (f := f) hstep (by omega)
      refine ⟨h', ?_, hlaid, fun x hx => (hkeep x hx).trans (Function.update_of_ne hx _ _)⟩
      rw [coalesce, hfree, hlink, if_pos ⟨hne, hfreed⟩]
      exact hco
    · have hnext : Laid h size (o + HSIZE + n) (⟨m, true⟩ :: t) := hl.2.2
      refine ⟨h, ?_, hl, fun _ _ => rfl⟩
      rw [coalesce, hfree, hlink, if_neg fun hc => hc.2 ((hnext.word hmod).1.mpr rfl)]

/-- The fit rules on one free block. -/
theorem fit_spec (hl : Laid h size o (⟨n, false⟩ :: r)) (ho : o % 4 = 0) (hsz : sz % 4 = 0) :
    (sz + HSIZE ≤ n ∧ ∃ h', fit size sz o h = some h' ∧
      Laid h' size o (⟨sz, true⟩ :: ⟨n - (sz + HSIZE), false⟩ :: r) ∧ ∀ x < o, h' x = h x) ∨
    (n < sz + HSIZE ∧ sz ≤ n ∧ ∃ h', fit size sz o h = some h' ∧
      Laid h' size o (⟨n, true⟩ :: r) ∧ ∀ x < o, h' x = h x) ∨
    (n < sz + HSIZE ∧ n < sz ∧ fit size sz o h = none) := by
  have hH : HSIZE = 4 := rfl
  have hbig := hl.big ho
  obtain ⟨-, hfree, -, -⟩ := hl.word ho
  rw [fit]
  simp only [hbig]
  by_cases h1 : sz + HSIZE ≤ n
  · refine .inl ⟨h1, _, if_pos (by omega), ⟨?_, fun _ => hsz, ?_, fun hr => ?_, ?_⟩,
      fun x hx => ?_⟩
    · have hend := hl.2.2.span
      have hoff : o + HSIZE + sz = o + (sz + HSIZE) := by omega
      have hnot : o + (sz + HSIZE) ≠ size := by
        simp only at hend
        omega
      have hmod : (o + (sz + HSIZE)) % 2 = 0 := by omega
      rw [Function.update_self, mkbusy, mkfree, hmod]
      simp only [hoff, link, if_neg hnot]
      rfl
    · have hoff : o + HSIZE + sz = o + (sz + HSIZE) := by omega
      have hsum : o + HSIZE + sz + HSIZE + (n - (sz + HSIZE)) = o + HSIZE + n := by omega
      rw [hoff, Function.update_of_ne (by omega), Function.update_self, ← hoff]
      simp only [hsum]
      exact hl.1
    · have hn : n % HSIZE = 0 := hl.2.1 hr
      simp only [hH] at hn ⊢
      omega
    · have hsum : o + HSIZE + sz + HSIZE + (n - (sz + HSIZE)) = o + HSIZE + n := by omega
      simp only [hsum]
      refine hl.2.2.congr fun x hx => ?_
      simp only at hx
      rw [Function.update_of_ne (by omega), Function.update_of_ne (by omega)]
    · rw [Function.update_of_ne (by omega), Function.update_of_ne (by omega)]
  · rw [if_neg (by omega)]
    by_cases h2 : sz ≤ n
    · refine .inr (.inl ⟨by omega, h2, _, if_pos (by omega), ⟨?_, hl.2.1, ?_⟩, fun x hx =>
        Function.update_of_ne (by omega) _ _⟩)
      · rw [Function.update_self, mkbusy, hfree]
        rfl
      · exact hl.2.2.congr fun x hx => Function.update_of_ne (by simp only at hx; omega) _ _
    · exact .inr (.inr ⟨by omega, by omega, if_neg (by omega)⟩)

/-- The search of h_alloc is first fit on the blocks. -/
theorem search_spec (hl : Laid h size o l) (hne : l ≠ []) (ho : o % 4 = 0) (hsz : sz % 4 = 0)
    (hf : l.length ≤ f) : ∃ h', search size sz f o h = some ((place HSIZE sz o l).1, h') ∧
      Laid h' size o (place HSIZE sz o l).2 ∧ ∀ x < o, h' x = h x := by
  induction f generalizing o l h with
  | zero =>
    have hpos := List.length_pos_iff.mpr hne
    omega
  | succ f ih =>
    have hH : HSIZE = 4 := rfl
    obtain ⟨⟨n, b⟩, r, rfl⟩ := List.exists_cons_of_ne_nil hne
    rw [List.length_cons] at hf
    cases b with
    | true =>
      obtain ⟨hbusy, hfree, hnil, hcons⟩ := hl.word ho
      rw [search, if_pos (hbusy.mpr rfl), hfree, place]
      by_cases hr : r = []
      · subst hr
        rw [(hnil rfl).1, if_neg (not_not.mpr rfl), place]
        exact ⟨h, rfl, hl, fun _ _ => rfl⟩
      · obtain ⟨hlink, hmod, hz⟩ := hcons hr
        obtain ⟨h', hs, hlaid, hkeep⟩ := ih hl.2.2 hr hmod (by omega)
        rw [hlink, if_pos hz]
        refine ⟨h', hs, ⟨?_, fun _ => hl.2.1 hr, hlaid⟩, fun x hx => hkeep x (by
          simp only
          omega)⟩
        rw [hkeep o (by simp only; omega)]
        exact hl.1
    | false =>
      have hlong : r.length < size + 1 := by
        have hspan := hl.span
        have hle := length_le_span (k := HSIZE) (by decide) r
        rw [span] at hspan
        omega
      obtain ⟨h₁, hco, hl₁, hkeep₁⟩ := coalesce_spec hl ho hlong
      have hshort := absorb_length HSIZE n r
      have hbusy : ¬ isbusy (h o) := fun hb => absurd ((hl.word ho).1.mp hb) (by rintro ⟨⟩)
      rw [search, if_neg hbusy, hco, place]
      rcases fit_spec hl₁ ho hsz with ⟨hn, h₂, hfit, hl₂, hkeep₂⟩ |
          ⟨hn, hn', h₂, hfit, hl₂, hkeep₂⟩ | ⟨hn, hn', hfit⟩
      · rw [if_pos hn]
        simp only [hfit]
        exact ⟨h₂, rfl, hl₂, fun x hx => (hkeep₂ x hx).trans (hkeep₁ x (by omega))⟩
      · rw [if_neg (by omega), if_pos hn']
        simp only [hfit]
        exact ⟨h₂, rfl, hl₂, fun x hx => (hkeep₂ x hx).trans (hkeep₁ x (by omega))⟩
      · rw [if_neg (by omega), if_neg (by omega)]
        simp only [hfit]
        obtain ⟨-, hfree, hnil, hcons⟩ := hl₁.word ho
        by_cases hr : (absorb HSIZE n r).2 = []
        · rw [hfree, (hnil hr).1, if_neg (not_not.mpr rfl), hr, place]
          rw [hr] at hl₁
          exact ⟨h₁, rfl, hl₁, fun x hx => hkeep₁ x (by omega)⟩
        · obtain ⟨hlink, hmod, hz⟩ := hcons hr
          obtain ⟨h', hs, hlaid, hkeep⟩ := ih hl₁.2.2 hr hmod (by omega)
          rw [hfree, hlink, if_pos hz]
          refine ⟨h', hs, ⟨?_, fun _ => hl₁.2.1 hr, hlaid⟩, fun x hx => ?_⟩
          · rw [hkeep o (by simp only; omega)]
            exact hl₁.1
          · rw [hkeep x (by simp only; omega), hkeep₁ x (by omega)]

end Svr32.Rfs
