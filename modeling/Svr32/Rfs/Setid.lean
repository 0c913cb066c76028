import Svr32.Rfs.Auth
import Svr32.Rfs.Heap
import Svr32.Rfs.Glid
import Svr32.Rfs.HeapRun

/-! nudnix/auth.c: setidmap, with the references of the machines and the heap the maps are in. A
map lies in the words of its block; a call is one step. -/
namespace Svr32.Rfs.Setid
open Auth ( CString upath Errno MAXDNAME)

def GLOBAL_CH : Nat := 46
def MAX_MLINKS : Nat := 2

/- UID_DEV and GID_DEV -/
inductive Dev
  | uid | gid
deriving DecidableEq

structure Gdp where
  flag : Nat
  uname : CString
  idmap : Dev → Option Nat

structure Tables where
  gdp : List Gdp
  /- Global -/
  global : Dev → Option Nat
  heap : Heap

/- Where a reference is. -/
inductive Refp
  | global (d : Dev)
  | link (i : Nat) (d : Dev)
deriving DecidableEq

/- *refp -/
def Tables.ref (s : Tables) : Refp → Option Nat
  | .global d => s.global d
  | .link i d => (s.gdp[i]?).bind fun g => g.idmap d

/- *refp = ref -/
def Tables.setRef (s : Tables) (ref : Option Nat) : Refp → Tables
  | .global d => { s with global := Function.update s.global d ref }
  | .link i d =>
    { s with gdp := s.gdp.modify i fun g => { g with idmap := Function.update g.idmap d ref } }

/- How many references of the machines are to a block. -/
def gcnt (gdp : List Gdp) (offset : Nat) : Nat :=
  (gdp.map fun g => (if g.idmap .uid = some offset then 1 else 0) +
    if g.idmap .gid = some offset then 1 else 0).sum

def hFree (offset : Nat) (s : Tables) : Option Tables :=
  (Rfs.hFree offset s.heap).map fun h => { s with heap := h }

/- freeidmap; `none` where an assertion fails. -/
def freeidmap (offset : Nat) (s : Tables) : Option Tables :=
  if gcnt s.gdp offset ≤ 1 then hFree offset s else some s

/- if (*refp) { freeidmap(*refp); *refp = NULL; } -/
def release (refp : Refp) (s : Tables) : Option Tables :=
  match s.ref refp with
  | none => some s
  | some offset => (freeidmap offset s).map fun s => s.setRef none refp

def releases : List Refp → Tables → Option Tables
  | [], s => some s
  | refp :: l, s => (release refp s).bind (releases l)

/- The same for Global, where there is no count. -/
def releaseGlobal (d : Dev) (s : Tables) : Option Tables :=
  match s.global d with
  | none => some s
  | some offset => (hFree offset s).map fun s => s.setRef none (.global d)

/- NULL name says to clear all tables. -/
def clear (s : Tables) : Option Tables :=
  let busy := (List.range s.gdp.length).filter fun i => (s.gdp[i]?.map (·.flag)).getD 0 ≠ 0
  ((releases (busy.flatMap fun i => [.link i .uid, .link i .gid]) s).bind (releaseGlobal .uid)).bind
    (releaseGlobal .gid)

/- for (g = gdp; g < &gdp[maxgdp] && gcnt < MAX_MLINKS; g++), the machines of that name. -/
def links (sname : CString) : Nat → List Gdp → List Nat
  | _, [] => []
  | i, g :: gdp => if sname.1 = g.uname.1 then i :: links sname (i + 1) gdp
    else links sname (i + 1) gdp

/- The references that are set. -/
def refps (sname : CString) (flag : Nat) (gdp : List Gdp) : List Refp :=
  let d := if flag = 0 then Dev.uid else Dev.gid
  if sname.1.head? = some GLOBAL_CH then [.global d]
  else ((links sname 0 gdp).take MAX_MLINKS).map fun i => .link i d

/- The map of a call: its first entry, unless it cannot be read, the words that copyin stores
of the table behind it, and whether it fails. -/
structure MapArg where
  header : Option IdTab
  table : List Nat
  bad : Bool

/- Two unsigned shorts. -/
def word (hi lo : Nat) : Nat := hi * 0x10000 + lo

/- What is stored in the new block. -/
def fill (header : IdTab) (table : List Nat) : List Nat :=
  [word header.iRem header.iLoc, word (HEADSIZE + CACHESIZE) HEADSIZE, 0, 0] ++
    List.replicate CACHESIZE (word UF UF) ++ table.take header.iLoc

/- Words that are stored from `p` on, in the heap. -/
def store (p : Nat) (l : List Nat) (h : Words) : Words := fun x =>
  if p ≤ x ∧ x < p + HSIZE * l.length then l.getD ((x - p) / HSIZE) 0 else h x

def Tables.stored (s : Tables) (p : Nat) (l : List Nat) : Tables :=
  { s with heap := { s.heap with words := store p l s.heap.words } }

/- for (i = 0; i < gcnt; i++) *refp[i] = ref; -/
def assign (l : List Refp) (ref : Option Nat) (s : Tables) : Tables :=
  l.foldl (fun s refp => s.setRef ref refp) s

/- From the free on. -/
def install (rfsize : Nat) (l : List Refp) (map : Option (IdTab × List Nat × Bool)) (s : Tables) :
    Option (Option Errno × Tables) :=
  match releases l s with
  | none => none
  | some s =>
    match map with
    | none => some (none, assign l none s)
    | some (header, table, bad) =>
      match hAlloc rfsize (HSIZE * (header.iLoc + HEADSIZE + CACHESIZE)) s.heap with
      | none => none
      | some (none, h) => some (some .ENOMEM, { s with heap := h })
      | some (some ref, h) =>
        let s := { s with heap := h }.stored ref (fill header table)
        if bad then (hFree ref s).map fun s => (some .EFAULT, s)
        else some (none, assign l (some ref) s)

/- The name of a call: NULL, or what upath reads. -/
abbrev NameArg := Option (Option CString)

/- The checks in front of the free: an error, or the references and the map's header. -/
def prologue (suser : Bool) (name : Option CString) (flag : Nat) (map : Option MapArg)
    (gdp : List Gdp) : Except Errno (List Refp × Option (IdTab × List Nat × Bool)) :=
  if suser then
    match upath name MAXDNAME with
    | .error .fault => .error .EFAULT
    | .error .long => .error .EINVAL
    | .ok sname =>
      if sname.1 = [] then .error .EINVAL
      else
        let l := refps sname flag gdp
        if l = [] then .error .ENOENT
        else
          match map with
          | none => .ok (l, none)
          | some map =>
            match map.header with
            | none => .error .EFAULT
            | some header => .ok (l, some (header, map.table, map.bad))
  else .error .EPERM

/-- setidmap -/
def setidmap (rfsize : Nat) (suser : Bool) (name : NameArg) (flag : Nat) (map : Option MapArg)
    (s : Tables) : Option (Option Errno × Tables) :=
  match name with
  | none => if suser then (clear s).map fun s => (none, s) else some (some .EPERM, s)
  | some name =>
    match prologue suser name flag map s.gdp with
    | .error e => some (some e, s)
    | .ok (l, map) => install rfsize l map s

end Svr32.Rfs.Setid

/-! What h_alloc and setidmap leave alone: the inside of the blocks that are in use, and the maps
of a call that fails. -/
namespace Svr32.Rfs
open Svr32.Lib
variable {h h' : Words} {rfsize size sz n o p x f : Nat} {l : List Blk} {r : Option Nat}

/- fit writes in the free block it is at. -/
theorem fit_outside (hbig : howbig size h o = n) (hfit : fit size sz o h = some h')
    (hx : o + HSIZE + n ≤ x) : h' x = h x := by
  have hH : HSIZE = 4 := rfl
  rw [fit] at hfit
  simp only [hbig] at hfit
  split at hfit
  · cases hfit
    rw [Function.update_of_ne (by omega), Function.update_of_ne (by omega)]
  · split at hfit
    · cases hfit
      rw [Function.update_of_ne (by omega)]
    · cases hfit

/-- The search leaves the inside of a busy block as it is. -/
theorem search_inside (hl : Laid h size o l) (hne : l ≠ []) (ho : o % 4 = 0) (hsz : sz % 4 = 0)
    (hf : l.length ≤ f) (hs : search size sz f o h = some (r, h')) (hp : (p, n) ∈ busyAt HSIZE o l)
    (hx : p ≤ x) (hx' : x < p + n) : h' x = h x := by
  induction f generalizing o l h with
  | zero => cases hs
  | succ f ih =>
    have hH : HSIZE = 4 := rfl
    obtain ⟨⟨m, b⟩, l, rfl⟩ := List.exists_cons_of_ne_nil hne
    rw [List.length_cons] at hf
    cases b with
    | true =>
      obtain ⟨hbusy, hfree, hnil, hcons⟩ := hl.word ho
      rw [search, if_pos (hbusy.mpr rfl), hfree] at hs
      by_cases hr : l = []
      · rw [(hnil hr).1, if_neg (not_not.mpr rfl)] at hs
        cases hs
        rfl
      · obtain ⟨hlink, hmod, hz⟩ := hcons hr
        rw [hlink, if_pos hz] at hs
        cases hp with
        | head =>
          obtain ⟨h₁, hs₁, -, hkeep⟩ := search_spec (f := f) hl.2.2 hr hmod hsz (by omega)
          have he := (Prod.mk.inj (Option.some.inj (hs.symm.trans hs₁))).2
          rw [he]
          exact hkeep x hx'
        | tail _ hp => exact ih hl.2.2 hr hmod (by omega) hs hp
    | false =>
      have hlong : l.length < size + 1 := by
        have hspan := hl.span
        have hle := length_le_span (k := HSIZE) (by decide) l
        rw [span] at hspan
        omega
      obtain ⟨h₁, hco, hl₁, hkeep⟩ := coalesce_spec hl ho hlong
      have hshort := absorb_length HSIZE m l
      have hbusy : ¬ isbusy (h o) := fun hb => absurd ((hl.word ho).1.mp hb) (by rintro ⟨⟩)
      have hp₁ : (p, n) ∈ busyAt HSIZE (o + HSIZE + (absorb HSIZE m l).1) (absorb HSIZE m l).2 := by
        rw [absorb_busy]
        exact hp
      have hlow := (busyAt_bounds hp₁).1
      simp only at hlow
      have hold := hkeep x (by omega)
      rw [search, if_neg hbusy, hco] at hs
      simp only at hs
      cases hfit : fit size sz o h₁ with
      | some h₂ =>
        rw [hfit] at hs
        cases hs
        exact (fit_outside (hl₁.big ho) hfit (by omega)).trans hold
      | none =>
        rw [hfit] at hs
        simp only at hs
        obtain ⟨-, hfree, hnil, hcons⟩ := hl₁.word ho
        by_cases hr : (absorb HSIZE m l).2 = []
        · rw [hr] at hp₁
          cases hp₁
        · obtain ⟨hlink, hmod, hz⟩ := hcons hr
          rw [hfree, hlink, if_pos hz] at hs
          exact (ih hl₁.2.2 hr hmod (by omega) hs hp₁).trans hold

/-- h_alloc keeps the blocks in use and what is in them. -/
theorem Inv.alloc_kept {s t : Heap} (hi : Inv rfsize s) (ha : hAlloc rfsize size s = some (r, t))
    (hp : (p, sz) ∈ s.live) :
    (p, sz) ∈ t.live ∧ ∀ x, p ≤ x → x < p + sz → t.words x = s.words x := by
  obtain ⟨l, hl⟩ := hi.divided
  have hfirst : first rfsize s = s := first_of_heap (hi.used hp)
  obtain ⟨n, hb, hn⟩ := hl.block hp
  have hfuel : l.length ≤ rfsize + 1 := by
    have hspan := hl.laid.span
    have hle := length_le_span (k := HSIZE) (by decide) l
    omega
  have hlaid := hl.laid
  have hpav := hl.pavail
  rw [hfirst] at hlaid hpav
  have hinside : ∀ {o' h'}, search s.pavail (bump size) (s.pavail + 1) 0 s.words = some (o', h') →
      ∀ x, p ≤ x → x < p + sz → h' x = s.words x := fun hs x hx hx' => by
    rw [hpav] at hs
    exact search_inside hlaid hl.ne rfl (bump_mod size).1 hfuel hs hb hx (by omega)
  rw [hAlloc, hfirst] at ha
  split at ha
  · cases ha
    exact ⟨hp, fun _ _ _ => rfl⟩
  · split at ha
    · cases ha
    · next hs =>
      cases ha
      exact ⟨hp, hinside hs⟩
    · next hs =>
      cases ha
      exact ⟨List.mem_cons_of_mem _ hp, hinside hs⟩

/-- A new block lies apart from those in use. -/
theorem Inv.alloc_apart {s t : Heap} {q : Nat} (hi : Inv rfsize s)
    (ha : hAlloc rfsize size s = some (some q, t)) (hp : (p, sz) ∈ s.live) :
    q + size + HSIZE ≤ p ∨ p + sz + HSIZE ≤ q := by
  have hlive : t.live = (q, size) :: s.live := by
    rw [← first_live rfsize s]
    rw [hAlloc] at ha
    split at ha
    · cases ha
    · split at ha
      · cases ha
      · cases ha
      · cases ha
        rfl
  obtain ⟨r, t', ht, hinv, -⟩ := hi.alloc size
  cases ha.symm.trans ht
  obtain ⟨l, hl⟩ := hinv.divided
  have hapart := hl.apart
  rw [hlive] at hapart
  exact List.rel_of_pairwise_cons hapart hp

namespace Setid
open Auth ( Errno)
variable {s t : Tables} {l : List Refp} {refp : Refp}

/- A reference that is NULL stays so when one is cleared. -/
theorem setRef_none (s : Tables) {q : Refp} (h : s.ref q = none ∨ q = refp) :
    (s.setRef none refp).ref q = none := by
  cases refp with
  | global d =>
    cases q with
    | global d' =>
      simp only [Tables.setRef, Tables.ref]
      by_cases hd : d' = d
      · rw [hd, Function.update_self]
      · rw [Function.update_of_ne hd]
        exact h.resolve_right fun he => hd (by injection he)
    | link i d' => exact h.resolve_right nofun
  | link i d =>
    cases q with
    | global d' => exact h.resolve_right nofun
    | link j d' =>
      simp only [Tables.setRef, Tables.ref, List.getElem?_modify]
      cases hg : s.gdp[j]? with
      | none => rfl
      | some g =>
        by_cases hij : i = j
        · subst hij
          by_cases hd : d' = d
          · simp [hd]
          · have hold := h.resolve_right fun he => hd (by injection he)
            simpa [Tables.ref, hg, hd] using hold
        · have hold := h.resolve_right fun he => hij (by injection he with he; exact he.symm)
          simpa [Tables.ref, hg, hij] using hold

/- What freeidmap does leaves the references. -/
theorem freeidmap_refs {offset : Nat} (h : freeidmap offset s = some t) :
    t.gdp = s.gdp ∧ t.global = s.global := by
  rw [freeidmap] at h
  split at h
  · obtain ⟨h', -, rfl⟩ := Option.map_eq_some_iff.mp h
    exact ⟨rfl, rfl⟩
  · cases h
    exact ⟨rfl, rfl⟩

theorem ref_congr (hg : t.gdp = s.gdp) (hgl : t.global = s.global) (q : Refp) :
    t.ref q = s.ref q := by
  cases q with
  | global d => rw [Tables.ref, Tables.ref, hgl]
  | link i d => rw [Tables.ref, Tables.ref, hg]

/-- A release clears its reference and leaves those that are clear. -/
theorem release_none (h : release refp s = some t) {q : Refp} (hq : s.ref q = none ∨ q = refp) :
    t.ref q = none := by
  rw [release] at h
  split at h
  · next hnone =>
    cases h
    exact hq.elim id fun he => he ▸ hnone
  · obtain ⟨u, hu, rfl⟩ := Option.map_eq_some_iff.mp h
    obtain ⟨hg, hgl⟩ := freeidmap_refs hu
    exact setRef_none u (hq.imp_left (ref_congr hg hgl q).trans)

theorem releases_none (h : releases l s = some t) {q : Refp} (hq : s.ref q = none ∨ q ∈ l) :
    t.ref q = none := by
  induction l generalizing s with
  | nil =>
    cases h
    exact hq.resolve_right List.not_mem_nil
  | cons refp l ih =>
    obtain ⟨u, hu, ht⟩ := Option.bind_eq_some_iff.mp h
    refine ih ht ?_
    rcases hq with hq | hq
    · exact .inl (release_none hu (.inl hq))
    · rcases List.mem_cons.mp hq with hq | hq
      · exact .inl (release_none hu (.inr hq))
      · exact .inr hq

/- There is nothing to release. -/
theorem releases_clear (h : ∀ q ∈ l, s.ref q = none) : releases l s = some s := by
  induction l with
  | nil => rfl
  | cons refp l ih =>
    have hhead : release refp s = some s := by rw [release, h refp List.mem_cons_self]
    rw [releases, hhead]
    exact ih fun q hq => h q (List.mem_cons_of_mem _ hq)

/-- The references are those from before, and so are the blocks they refer to. -/
structure Kept (s t : Tables) : Prop where
  gdp : t.gdp = s.gdp
  global : t.global = s.global
  maps : ∀ q p, s.ref q = some p → ∀ sz, (p, sz) ∈ s.heap.live →
    (p, sz) ∈ t.heap.live ∧ ∀ x, p ≤ x → x < p + sz → t.heap.words x = s.heap.words x

theorem Kept.refl (s : Tables) : Kept s s :=
  ⟨rfl, rfl, fun _ _ _ _ h => ⟨h, fun _ _ _ => rfl⟩⟩

/- What a call that fails past the free does to the references. -/
theorem install_refs {rfsize : Nat} {map : Option (IdTab × List Nat × Bool)} {e : Errno}
    (h : install rfsize l map s = some (some e, t)) :
    ∃ u, releases l s = some u ∧ t.gdp = u.gdp ∧ t.global = u.global := by
  rw [install] at h
  cases hu : releases l s with
  | none =>
    rw [hu] at h
    cases h
  | some u =>
    rw [hu] at h
    refine ⟨u, rfl, ?_⟩
    simp only at h
    split at h
    · cases h
    · split at h
      · cases h
      · cases h
        exact ⟨rfl, rfl⟩
      · split at h
        · obtain ⟨w, hw, he⟩ := Option.map_eq_some_iff.mp h
          cases he
          obtain ⟨h', -, rfl⟩ := Option.map_eq_some_iff.mp hw
          exact ⟨rfl, rfl⟩
        · cases h

theorem fill_length (header : IdTab) (table : List Nat) :
    (fill header table).length ≤ header.iLoc + HEADSIZE + CACHESIZE := by
  have hlen : (fill header table).length = 4 + (CACHESIZE + (table.take header.iLoc).length) := by
    simp only [fill, List.length_append, List.length_replicate]
    exact Nat.add_assoc 4 _ _
  have htake := List.length_take_le header.iLoc table
  have hhead : HEADSIZE = 4 := rfl
  omega

/-- With nothing to release, a call that fails keeps every map: what it stores is in a block
of its own. -/
theorem install_kept {rfsize : Nat} {map : Option (IdTab × List Nat × Bool)} {e : Errno}
    (hi : Inv rfsize s.heap) (h : install rfsize l map s = some (some e, t))
    (hl : ∀ q ∈ l, s.ref q = none) : Kept s t := by
  rw [install, releases_clear hl] at h
  simp only at h
  split at h
  · cases h
  · next header table bad =>
    split at h
    · cases h
    · next ha =>
      cases h
      exact ⟨rfl, rfl, fun _ _ _ _ hp => hi.alloc_kept ha hp⟩
    · next ref heap ha =>
      split at h
      · obtain ⟨w, hw, he⟩ := Option.map_eq_some_iff.mp h
        cases he
        obtain ⟨h', hf, rfl⟩ := Option.map_eq_some_iff.mp hw
        refine ⟨rfl, rfl, fun q p _ sz hp => ?_⟩
        obtain ⟨hlive, hwords⟩ := hi.alloc_kept ha hp
        have hapart := hi.alloc_apart ha hp
        have hfill := Nat.mul_le_mul_left HSIZE (fill_length header table)
        have hH : HSIZE = 4 := rfl
        have hne : p ≠ ref := by omega
        rw [Rfs.hFree] at hf
        split at hf
        · cases hf
          refine ⟨List.mem_filter.mpr ⟨hlive, by simpa using hne⟩, fun x hx hx' => ?_⟩
          have hstore : store ref (fill header table) heap.words x = heap.words x :=
            if_neg (by omega)
          simp only [Tables.stored]
          rw [Function.update_of_ne (by omega), hstore]
          exact hwords x hx hx'
        · cases hf
      · cases h

/- When a call that fails has released nothing: a check in front of the free fails, or the
references it selects are NULL. -/
def Spared (suser : Bool) (name : NameArg) (flag : Nat) (map : Option MapArg) (s : Tables) : Prop :=
  match name with
  | none => True
  | some name =>
    match prologue suser name flag map s.gdp with
    | .error _ => True
    | .ok (l, _) => ∀ q ∈ l, s.ref q = none

/-- A call that fails keeps the maps just when it has released none. -/
theorem setidmap_kept_iff {rfsize : Nat} {suser : Bool} {name : NameArg} {flag : Nat}
    {map : Option MapArg} {e : Errno} (hi : Inv rfsize s.heap)
    (h : setidmap rfsize suser name flag map s = some (some e, t)) :
    Kept s t ↔ Spared suser name flag map s := by
  cases name with
  | none =>
    rw [Spared]
    simp only [setidmap] at h
    split at h
    · obtain ⟨u, -, he⟩ := Option.map_eq_some_iff.mp h
      cases he
    · cases h
      exact iff_of_true (Kept.refl s) trivial
  | some name =>
    simp only [Spared, setidmap] at h ⊢
    cases hp : prologue suser name flag map s.gdp with
    | error e' =>
      rw [hp] at h
      cases h
      exact iff_of_true (Kept.refl s) trivial
    | ok r =>
      obtain ⟨l, map'⟩ := r
      rw [hp] at h
      simp only at h ⊢
      constructor
      · intro hk q hq
        obtain ⟨u, hu, hg, hgl⟩ := install_refs h
        rw [← ref_congr hk.gdp hk.global q, ref_congr hg hgl q]
        exact releases_none hu (.inr hq)
      · exact install_kept hi h

/- One machine with a map for its users, which is the first block of the heap. -/
def boxed : Tables where
  gdp := [⟨1, ⟨[97], by decide⟩, fun d => if d = .uid then some 4 else none⟩]
  global _ := none
  heap := ((hAlloc 3072 40 cold).map (·.2)).getD cold

theorem boxed_inv : Inv 3072 boxed.heap := by
  have hboot : Inv 3072 cold := Inv.boot (by decide) ⟨rfl, rfl⟩
  obtain ⟨r, t, ht, hinv, -⟩ := hboot.alloc 40
  have hheap : boxed.heap = t := by simp only [boxed, ht, Option.map_some, Option.getD_some]
  rw [hheap]
  exact hinv

/-- A call for a machine that is not there. -/
theorem setidmap_kept_iff_absent :
    Kept boxed boxed ↔ Spared true (some (some ⟨[98], by decide⟩)) 0 none boxed :=
  setidmap_kept_iff boxed_inv (e := .ENOENT) rfl

/-- A map that the heap has no room for: the machine's old map is gone. -/
theorem setidmap_lost : ¬ ∀ s, Inv 3072 s.heap → ∀ suser name flag map e t,
    setidmap 3072 suser name flag map s = some (some e, t) → Kept s t := by
  intro h
  have hrun : (setidmap 3072 true (some (some ⟨[97], by decide⟩)) 0
      (some ⟨some ⟨0, 5000⟩, [], false⟩) boxed).map (fun r => (r.1, r.2.ref (.link 0 .uid))) =
      some (some .ENOMEM, none) := by
    rfl
  obtain ⟨⟨e, t⟩, ht, he⟩ := Option.map_eq_some_iff.mp hrun
  obtain ⟨rfl, href⟩ := Prod.mk.inj he
  have hk := h boxed boxed_inv _ _ _ _ _ _ ht
  have hold : boxed.ref (.link 0 .uid) = some 4 := rfl
  rw [ref_congr hk.gdp hk.global, hold] at href
  cases href

end Setid

end Svr32.Rfs
