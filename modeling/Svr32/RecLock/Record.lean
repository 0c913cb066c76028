import Svr32.Lib.Links
import Svr32.Lib.Word
import Mathlib.Data.List.Perm.Subperm

/-! Record locks of os/flock.c: the table flox of lock records, its free list, the
lists of sleeping locks and the lock lists of the inodes. A record is named by its
index in flox; a list is named by what its head pointer belongs to. -/
namespace Svr32.RecLock
open Svr32.Lib

inductive LType where
  | rdlck
  | wrlck
  | unlck
  | other (word : Int)
deriving DecidableEq, Repr

/- p_epid and p_sysid of a process, l_pid and l_sysid of a lock. -/
structure Owner where
  pid : Int
  sysid : Int
deriving DecidableEq, Repr

/- l_end and l_len are one word. -/
structure Flock where
  lType : LType
  lWhence : Int
  lStart : Int
  lEnd : Int
  lSysid : Int
  lPid : Int
deriving DecidableEq, Repr

def Flock.owner (f : Flock) : Owner := ⟨f.lPid, f.lSysid⟩

def maxEnd : Int := 2 ^ 31 - 1

/- The union stat: one word, or two halves of it. -/
inductive Stat where
  | wakeflg (n : Int)
  | blk (o : Owner)
deriving DecidableEq, Repr

namespace Stat

def word : Stat → Int
  | .wakeflg n => n
  | .blk o => o.sysid * 2 ^ 16 + o.pid

def owner : Stat → Owner
  | .wakeflg n => ⟨n % 2 ^ 16, n / 2 ^ 16⟩
  | .blk o => o

end Stat

inductive ListId (I : Type*) where
  | free
  | sleeplcks
  | inode (ip : I)
deriving DecidableEq

theorem ListId.inode_ne_free {I : Type*} (ip : I) : ListId.inode ip ≠ .free := nofun

theorem ListId.sleeplcks_ne_free {I : Type*} : (ListId.sleeplcks : ListId I) ≠ .free := nofun

/- `wchan` is the record a process sleeps on; wakeup takes it off. -/
structure Table (I : Type*) where
  links : Links (ListId I) Nat
  set : Nat → Flock
  stat : Nat → Stat
  wchan : Owner → Option Nat

variable {I : Type*}

/- The macro WAKEUP. -/
def wakeupFlagged (k : Table I) (r : Nat) : Table I :=
  if (k.stat r).word ≠ 0 then
    { k with
      wchan := fun o => if k.wchan o = some r then none else k.wchan o
      stat := Function.update k.stat r (.wakeflg 0) }
  else k

@[simp] theorem wakeupFlagged_links (k : Table I) (r : Nat) :
    (wakeupFlagged k r).links = k.links := by
  simp only [wakeupFlagged]
  split <;> rfl

@[simp] theorem wakeupFlagged_set (k : Table I) (r : Nat) : (wakeupFlagged k r).set = k.set := by
  simp only [wakeupFlagged]
  split <;> rfl

theorem wakeupFlagged_stat (k : Table I) {r x : Nat} (h : x ≠ r) :
    (wakeupFlagged k r).stat x = k.stat x := by
  simp only [wakeupFlagged]
  split
  · exact Function.update_of_ne h _ _
  · rfl

/- The table `k` holds the lists `ls`, all of them within the `recs` records. -/
structure Rep (recs : Nat) (k : Table I) (ls : ListId I → List Nat) : Prop where
  lists : Lists k.links ls
  small : ∀ li, ∀ r ∈ ls li, r < recs

/- Nothing but the list `li` and the free list differs. -/
structure Frame (li : ListId I) (k : Table I) (ls : ListId I → List Nat) (k' : Table I)
    (ls' : ListId I → List Nat) : Prop where
  lists : ∀ l, l ≠ .free → l ≠ li → ls' l = ls l
  set : ∀ l, l ≠ .free → l ≠ li → ∀ r ∈ ls l, k'.set r = k.set r
  stat : ∀ l, l ≠ .free → l ≠ li → ∀ r ∈ ls l, k'.stat r = k.stat r

theorem Frame.refl (li : ListId I) (k : Table I) (ls : ListId I → List Nat) :
    Frame li k ls k ls :=
  ⟨fun _ _ _ => rfl, fun _ _ _ _ _ => rfl, fun _ _ _ _ _ => rfl⟩

theorem Frame.trans {li : ListId I} {k k' k'' : Table I} {ls ls' ls'' : ListId I → List Nat}
    (h : Frame li k ls k' ls') (h' : Frame li k' ls' k'' ls'') : Frame li k ls k'' ls'' := by
  refine ⟨fun l hf hl => ?_, fun l hf hl r hr => ?_, fun l hf hl r hr => ?_⟩
  · rw [h'.lists l hf hl, h.lists l hf hl]
  · rw [h'.set l hf hl r (h.lists l hf hl ▸ hr), h.set l hf hl r hr]
  · rw [h'.stat l hf hl r (h.lists l hf hl ▸ hr), h.stat l hf hl r hr]

theorem Rep.length_le {recs : Nat} {k : Table I} {ls : ListId I → List Nat}
    (h : Rep recs k ls) (li : ListId I) : (ls li).length ≤ recs := by
  have hsub : ls li ⊆ List.range recs := fun r hr => List.mem_range.mpr (h.small li r hr)
  simpa using (List.subperm_of_subset (h.lists.nodup li) hsub).length_le

variable [DecidableEq I]

def flckinitLoop (links : Links (ListId I) Nat) : Nat → Links (ListId I) Nat
  | 0 => links
  | i + 1 => (flckinitLoop links i).insert .free none i

/- flckinit: the free list of all records. -/
def flckinit (recs : Nat) (links : Links (ListId I) Nat) : Links (ListId I) Nat :=
  flckinitLoop links recs

/- insflck for the process `u`; none when no record is free. -/
def insflck (u : Owner) (li : ListId I) (lckdat : Flock) (fl : Option Nat) (k : Table I) :
    Option (Nat × Table I) :=
  match k.links.head .free with
  | none => none
  | some new =>
    some (new,
      { k with
        links := (k.links.pop .free new).insert li fl new
        set := Function.update k.set new { lckdat with lPid := u.pid, lSysid := u.sysid }
        stat := Function.update k.stat new (.wakeflg 0) })

def delflck (li : ListId I) (fl : Nat) (k : Table I) : Table I :=
  let k' := wakeupFlagged { k with links := k.links.remove li fl } fl
  { k' with links := k'.links.insert .free none fl }

@[simp] theorem delflck_set (li : ListId I) (fl : Nat) (k : Table I) :
    (delflck li fl k).set = k.set := by
  simp [delflck]

theorem delflck_stat (li : ListId I) (k : Table I) {fl x : Nat} (h : x ≠ fl) :
    (delflck li fl k).stat x = k.stat x :=
  wakeupFlagged_stat _ h

/-- delflck moves a record from its list to the free list. -/
theorem delflck_lists {k : Table I} {ls : ListId I → List Nat} (h : Lists k.links ls)
    {li : ListId I} (hli : li ≠ .free) {pre post : List Nat} {fl : Nat}
    (hl : ls li = pre ++ fl :: post) :
    Lists (delflck li fl k).links
      (Function.update (Function.update ls li (pre ++ post)) .free (fl :: ls .free)) := by
  have hr := h.remove hl
  have hmem : fl ∈ ls li := by simp [hl]
  have hfree : Function.update ls li (pre ++ post) .free = [] ++ ls .free := by
    simp [Function.update_of_ne hli.symm]
  have hout : ∀ k', fl ∉ Function.update ls li (pre ++ post) k' := by
    intro k' hm
    by_cases hk : k' = li
    · subst hk
      rw [Function.update_self] at hm
      have hnd := h.nodup k'
      rw [hl] at hnd
      exact (List.nodup_cons.mp (List.perm_middle.nodup_iff.mp hnd)).1 hm
    · rw [Function.update_of_ne hk] at hm
      exact hk (h.disj k' li fl hm hmem)
  simpa [delflck] using hr.insert hfree hout

/-- insflck moves the first free record to its place on the list. -/
theorem insflck_lists {k : Table I} {ls : ListId I → List Nat} (h : Lists k.links ls)
    {u : Owner} {li : ListId I} (hli : li ≠ .free) {lckdat : Flock} {pre post : List Nat}
    (hl : ls li = pre ++ post) {new : Nat} {k' : Table I}
    (hins : insflck u li lckdat pre.getLast? k = some (new, k')) :
    ∃ fs, ls .free = new :: fs ∧
      Lists k'.links (Function.update (Function.update ls .free fs) li (pre ++ new :: post)) ∧
      k'.set = Function.update k.set new { lckdat with lPid := u.pid, lSysid := u.sysid } ∧
      k'.stat = Function.update k.stat new (.wakeflg 0) ∧ k'.wchan = k.wchan := by
  have hhead := h.head_eq .free
  cases hf : ls .free with
  | nil =>
    rw [hf] at hhead
    simp [insflck, hhead] at hins
  | cons n fs =>
    rw [hf] at hhead
    simp only [List.head?_cons] at hhead
    simp only [insflck, hhead, Option.some.injEq, Prod.mk.injEq] at hins
    obtain ⟨rfl, rfl⟩ := hins
    refine ⟨fs, rfl, ?_, rfl, rfl, rfl⟩
    have hnd := h.nodup .free
    rw [hf] at hnd
    have hl' : Function.update ls .free fs li = pre ++ post := by
      rw [Function.update_of_ne hli, hl]
    refine (h.pop hf).insert hl' fun k' hm => ?_
    by_cases hk : k' = .free
    · subst hk
      rw [Function.update_self] at hm
      exact (List.nodup_cons.mp hnd).1 hm
    · rw [Function.update_of_ne hk] at hm
      exact hk (h.disj k' .free n hm (by simp [hf]))

theorem flckinit_lists (recs : Nat) {links : Links (ListId I) Nat}
    (h : ∀ li, links.head li = none) :
    ∃ ls, Lists (flckinit recs links) ls ∧ (∀ li, li ≠ .free → ls li = []) ∧
      ∀ r ∈ ls .free, r < recs := by
  induction recs with
  | zero =>
    exact ⟨fun _ => [], ⟨h, by simp, by simp⟩, fun _ _ => rfl, by simp⟩
  | succ n ih =>
    obtain ⟨ls, hls, hnil, hlt⟩ := ih
    have hn : ∀ k', n ∉ ls k' := by
      intro k' hm
      by_cases hk : k' = .free
      · subst hk
        exact Nat.lt_irrefl n (hlt n hm)
      · simp [hnil k' hk] at hm
    refine ⟨_, @Lists.insert _ _ _ _ _ _ hls .free [] _ _ rfl hn, fun li hli => ?_, ?_⟩
    · rw [Function.update_of_ne hli, hnil li hli]
    · simp only [Function.update_self, List.nil_append, List.mem_cons, forall_eq_or_imp]
      exact ⟨n.lt_succ_self, fun r hr => Nat.lt_succ_of_lt (hlt r hr)⟩

variable {recs : Nat} {k : Table I} {ls : ListId I → List Nat} {li : ListId I}

/-- What delflck does to the lists. -/
theorem Rep.delflck (h : Rep recs k ls) (hli : li ≠ .free) {pre post : List Nat} {fl : Nat}
    (hl : ls li = pre ++ fl :: post) :
    ∃ ls', Rep recs (delflck li fl k) ls' ∧ ls' li = pre ++ post ∧
      Frame li k ls (delflck li fl k) ls' := by
  have hmem : fl ∈ ls li := by simp [hl]
  have hother : ∀ l, l ≠ .free → l ≠ li →
      Function.update (Function.update ls li (pre ++ post)) .free (fl :: ls .free) l = ls l := by
    intro l hf hl
    rw [Function.update_of_ne hf, Function.update_of_ne hl]
  refine ⟨_, ⟨delflck_lists h.lists hli hl, fun l r hr => ?_⟩, ?_, hother, ?_, ?_⟩
  · by_cases hf : l = .free
    · subst hf
      rw [Function.update_self] at hr
      cases List.mem_cons.mp hr with
      | inl he => exact he ▸ h.small li fl hmem
      | inr hr => exact h.small _ r hr
    · by_cases hll : l = li
      · subst hll
        rw [Function.update_of_ne hf, Function.update_self] at hr
        apply h.small l
        rw [hl]
        exact ((List.sublist_cons_self fl post).append_left pre).subset hr
      · rw [hother l hf hll] at hr
        exact h.small l r hr
  · rw [Function.update_of_ne hli, Function.update_self]
  · intro l _ _ r _
    rw [delflck_set]
  · intro l _ hll r hr
    exact delflck_stat li k fun he => hll (h.lists.disj l li r hr (he ▸ hmem))

/-- What insflck does to the lists, when a record is free. -/
theorem Rep.insflck (h : Rep recs k ls) (hli : li ≠ .free) {u : Owner} {lckdat : Flock}
    {pre post : List Nat} (hl : ls li = pre ++ post) {new : Nat} {k' : Table I}
    (hins : insflck u li lckdat pre.getLast? k = some (new, k')) :
    ∃ ls', Rep recs k' ls' ∧ ls' li = pre ++ new :: post ∧ Frame li k ls k' ls' ∧
      (∀ l, l ≠ .free → new ∉ ls l) ∧
      k'.set = Function.update k.set new { lckdat with lPid := u.pid, lSysid := u.sysid } ∧
      k'.stat = Function.update k.stat new (.wakeflg 0) ∧ k'.wchan = k.wchan := by
  obtain ⟨fs, hf, hL, hset, hstat, hw⟩ := insflck_lists h.lists hli hl hins
  have hnew : ∀ l, l ≠ .free → new ∉ ls l := fun l hlf hm =>
    hlf (h.lists.disj l .free new hm (by simp [hf]))
  have hother : ∀ l, l ≠ .free → l ≠ li →
      Function.update (Function.update ls .free fs) li (pre ++ new :: post) l = ls l := by
    intro l hlf hl
    rw [Function.update_of_ne hl, Function.update_of_ne hlf]
  refine ⟨_, ⟨hL, fun l r hr => ?_⟩, Function.update_self _ _ _, ⟨hother, ?_, ?_⟩, hnew, hset,
    hstat, hw⟩
  · by_cases hll : l = li
    · subst hll
      rw [Function.update_self] at hr
      cases List.mem_cons.mp (List.perm_middle.mem_iff.mp hr) with
      | inl he => exact he ▸ h.small .free new (by simp [hf])
      | inr hr => exact h.small l r (hl ▸ hr)
    · by_cases hlf : l = .free
      · subst hlf
        rw [Function.update_of_ne hll, Function.update_self] at hr
        exact h.small .free r (by simp [hf, hr])
      · rw [hother l hlf hll] at hr
        exact h.small l r hr
  · intro l hlf _ r hr
    rw [hset]
    exact Function.update_of_ne (fun he : r = new => hnew l hlf (he ▸ hr)) _ _
  · intro l hlf _ r hr
    rw [hstat]
    exact Function.update_of_ne (fun he : r = new => hnew l hlf (he ▸ hr)) _ _

end Svr32.RecLock

/-! What a lock list is for: which ranges may stand side by side on it. -/
namespace Svr32.RecLock

/- Disjoint, and not adjacent when of one type. -/
def Flock.Apart (a b : Flock) : Prop :=
  (a.lEnd < b.lStart ∨ b.lEnd < a.lStart) ∧
  (a.lType = b.lType → a.lEnd + 1 < b.lStart ∨ b.lEnd + 1 < a.lStart)

/- Overlapping ranges are both read locks. -/
def Flock.Compatible (a b : Flock) : Prop :=
  a.lEnd < b.lStart ∨ b.lEnd < a.lStart ∨ (a.lType ≠ .wrlck ∧ b.lType ≠ .wrlck)

/- Apart for one owner, compatible for two. -/
def Flock.Coexist (a b : Flock) : Prop :=
  (a.owner = b.owner → a.Apart b) ∧ (a.owner ≠ b.owner → a.Compatible b)

structure Flock.Valid (a : Flock) : Prop where
  start : 0 ≤ a.lStart
  le : a.lStart ≤ a.lEnd
  max : a.lEnd ≤ maxEnd
  type : a.lType = .rdlck ∨ a.lType = .wrlck

/- The invariant of a lock list: the records `l` with the data `set`. -/
structure Locked (set : Nat → Flock) (l : List Nat) : Prop where
  valid : ∀ r ∈ l, (set r).Valid
  sorted : l.Pairwise fun r r' => (set r).lStart ≤ (set r').lStart
  coexist : l.Pairwise fun r r' => (set r).Coexist (set r')

namespace Flock

theorem Apart.symm {a b : Flock} (h : a.Apart b) : b.Apart a :=
  ⟨h.1.symm, fun ht => (h.2 ht.symm).symm⟩

theorem Compatible.symm {a b : Flock} (h : a.Compatible b) : b.Compatible a := by
  simp only [Compatible] at h ⊢
  tauto

theorem Coexist.symm {a b : Flock} (h : a.Coexist b) : b.Coexist a :=
  ⟨fun ho => (h.1 ho.symm).symm, fun ho => (h.2 ho.symm).symm⟩

/-- A part of a lock stands beside whatever the whole lock does. -/
theorem Coexist.part {a a' b : Flock} (h : a.Coexist b) (hs : a.lStart ≤ a'.lStart)
    (he : a'.lEnd ≤ a.lEnd) (ht : a'.lType = a.lType) (ho : a'.owner = a.owner) :
    a'.Coexist b := by
  simp only [Coexist, Apart, Compatible, ht, ho] at h ⊢
  refine ⟨fun ho => ⟨?_, fun ht => ?_⟩, fun ho => ?_⟩
  · have hd := (h.1 ho).1
    omega
  · have hd := (h.1 ho).2 ht
    omega
  · cases h.2 ho with
    | inl hd => exact .inl (by omega)
    | inr hd =>
      cases hd with
      | inl hd => exact .inr (.inl (by omega))
      | inr hd => exact .inr (.inr hd)

end Flock

namespace Locked
variable {set set' : Nat → Flock} {l pre post : List Nat}

theorem nil : Locked set [] := ⟨by simp, by simp, by simp⟩

theorem congr (h : Locked set l) (hs : ∀ r ∈ l, set' r = set r) : Locked set' l := by
  refine ⟨fun r hr => hs r hr ▸ h.valid r hr, ?_, ?_⟩
  · exact h.sorted.imp_of_mem fun hr hr' hle => by rwa [hs _ hr, hs _ hr']
  · exact h.coexist.imp_of_mem fun hr hr' hc => by rwa [hs _ hr, hs _ hr']

theorem sublist {l' : List Nat} (h : Locked set l) (hl : l'.Sublist l) : Locked set l' :=
  ⟨fun r hr => h.valid r (hl.subset hr), h.sorted.sublist hl, h.coexist.sublist hl⟩

theorem remove {x : Nat} (h : Locked set (pre ++ x :: post)) : Locked set (pre ++ post) :=
  h.sublist ((List.sublist_cons_self x post).append_left pre)

theorem before {x : Nat} (h : Locked set (pre ++ x :: post)) {r : Nat} (hr : r ∈ pre) :
    (set r).lStart ≤ (set x).lStart :=
  (List.pairwise_append.mp h.sorted).2.2 r hr x (by simp)

theorem after {x : Nat} (h : Locked set (pre ++ x :: post)) {r : Nat} (hr : r ∈ post) :
    (set x).lStart ≤ (set r).lStart :=
  (List.pairwise_cons.mp (List.pairwise_append.mp h.sorted).2.1).1 r hr

theorem beside {x : Nat} (h : Locked set (pre ++ x :: post)) {r : Nat} (hr : r ∈ pre ++ post) :
    (set x).Coexist (set r) := by
  have hp := h.coexist
  cases List.mem_append.mp hr with
  | inl hr => exact ((List.pairwise_append.mp hp).2.2 r hr x (by simp)).symm
  | inr hr => exact (List.pairwise_cons.mp (List.pairwise_append.mp hp).2.1).1 r hr

/-- A lock that fits beside all others goes in where the starts stay in order. -/
theorem insert (h : Locked set (pre ++ post)) {n : Nat} {f : Flock} (hn : n ∉ pre ++ post)
    (hf : f.Valid) (hc : ∀ r ∈ pre ++ post, f.Coexist (set r))
    (hpre : ∀ r ∈ pre, (set r).lStart ≤ f.lStart)
    (hpost : ∀ r ∈ post, f.lStart ≤ (set r).lStart) :
    Locked (Function.update set n f) (pre ++ n :: post) := by
  have hset : ∀ r ∈ pre ++ post, Function.update set n f r = set r :=
    fun r hr => Function.update_of_ne (fun he : r = n => hn (he ▸ hr)) _ _
  have hL := h.congr hset
  obtain ⟨hs₁, hs₂, hs⟩ := List.pairwise_append.mp hL.sorted
  obtain ⟨hc₁, hc₂, hcc⟩ := List.pairwise_append.mp hL.coexist
  have hm₁ : ∀ r ∈ pre, r ∈ pre ++ post := fun r hr => List.mem_append_left _ hr
  have hm₂ : ∀ r ∈ post, r ∈ pre ++ post := fun r hr => List.mem_append_right _ hr
  refine ⟨fun r hr => ?_, List.pairwise_append.mpr ⟨hs₁, List.pairwise_cons.mpr ⟨?_, hs₂⟩, ?_⟩,
    List.pairwise_append.mpr ⟨hc₁, List.pairwise_cons.mpr ⟨?_, hc₂⟩, ?_⟩⟩
  · by_cases hrn : r = n
    · rw [hrn, Function.update_self]
      exact hf
    · apply hL.valid
      simpa [hrn] using hr
  · intro r hr
    rw [Function.update_self, hset r (hm₂ r hr)]
    exact hpost r hr
  · intro r hr r' hr'
    cases List.mem_cons.mp hr' with
    | inl he =>
      rw [he, Function.update_self, hset r (hm₁ r hr)]
      exact hpre r hr
    | inr hr' => exact hs r hr r' hr'
  · intro r hr
    rw [Function.update_self, hset r (hm₂ r hr)]
    exact hc r (hm₂ r hr)
  · intro r hr r' hr'
    cases List.mem_cons.mp hr' with
    | inl he =>
      rw [he, Function.update_self, hset r (hm₁ r hr)]
      exact (hc r (hm₁ r hr)).symm
    | inr hr' => exact hcc r hr r' hr'

/-- Cutting a lock down from behind. -/
theorem cut {x : Nat} (h : Locked set (pre ++ x :: post)) (hnd : (pre ++ x :: post).Nodup)
    {e : Int} (hs : (set x).lStart ≤ e) (he : e ≤ (set x).lEnd) :
    Locked (Function.update set x { set x with lEnd := e }) (pre ++ x :: post) := by
  have hx : (set x).Valid := h.valid x (by simp)
  refine h.remove.insert ?_ ⟨hx.start, hs, Int.le_trans he hx.max, hx.type⟩ (fun r hr => ?_) ?_ ?_
  · exact (List.nodup_cons.mp (List.perm_middle.nodup_iff.mp hnd)).1
  · exact (h.beside hr).part (Int.le_refl _) he rfl rfl
  · exact fun r hr => h.before hr
  · exact fun r hr => h.after hr

end Locked
end Svr32.RecLock
