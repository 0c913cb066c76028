import Svr32.RecLock.Record
import Svr32.Lib.Chase
import Svr32.RecLock.Flckadj

/-! deadflck and cleanlocks: whether waiting for a lock closes a cycle, and the release
of everything a process holds. -/
namespace Svr32.RecLock
open Svr32.Lib
variable {I : Type*}

/- The sleeping lock of the process `o`, looked for from `sf` on. -/
def sleepingOf (o : Owner) (k : Table I) : Nat → Option Nat → Option (Option Nat)
  | _, none => some none
  | 0, some _ => none
  | fuel + 1, some sf =>
    if (k.set sf).owner = o then some (some sf)
    else sleepingOf o k fuel (k.links.next sf)

/- The loop of deadflck, at the process `blck`. -/
def deadLoop (recs : Nat) (u : Owner) (k : Table I) : Nat → Owner → Option Bool
  | 0, _ => none
  | fuel + 1, blck =>
    if blck = u then some true
    else
      (sleepingOf blck k (recs + 1) (k.links.head .sleeplcks)).bind fun
        | none => some false
        | some sf => deadLoop recs u k fuel (k.stat sf).owner

/-- deadflck(flp) in the process `u`. -/
def deadflck (recs : Nat) (u : Owner) (flp : Nat) (k : Table I) : Option Bool :=
  deadLoop recs u k (recs + 1) (k.set flp).owner

inductive CleanFlag where
  | usePid
  | ignPid
deriving DecidableEq, Repr

def cleanLoop [DecidableEq I] (u : Owner) (li : ListId I) (flag : CleanFlag) :
    Nat → Option Nat → Table I → Option (Table I)
  | _, none, k => some k
  | 0, some _, _ => none
  | fuel + 1, some flp, k =>
    let nflp := k.links.next flp
    if ((k.set flp).lPid = u.pid ∨ flag = .ignPid) ∧ (k.set flp).lSysid = u.sysid then
      cleanLoop u li flag fuel nflp (delflck li flp k)
    else cleanLoop u li flag fuel nflp k

/-- cleanlocks(ip, flag) in the process `u`. -/
def cleanlocks [DecidableEq I] (recs : Nat) (u : Owner) (li : ListId I) (flag : CleanFlag)
    (k : Table I) : Option (Table I) :=
  cleanLoop u li flag (recs + 1) (k.links.head li) k

variable {recs : Nat} {k : Table I} {ls : ListId I → List Nat} {li : ListId I} {u : Owner}
  {pre post : List Nat}

/- The waits-for graph: an edge for each record of sleeplcks. -/
def Waits (k : Table I) (l : List Nat) (p q : Owner) : Prop :=
  ∃ sf ∈ l, (k.set sf).owner = p ∧ (k.stat sf).owner = q

/- No process sleeps twice. -/
def OnceAsleep (k : Table I) (l : List Nat) : Prop :=
  ∀ r ∈ l, ∀ r' ∈ l, (k.set r).owner = (k.set r').owner → r = r'

/- The process a sleeping process waits for. -/
def waitsFor (k : Table I) (l : List Nat) (p : Owner) : Option Owner :=
  (l.find? fun sf => decide ((k.set sf).owner = p)).map fun sf => (k.stat sf).owner

theorem waits_iff {l : List Nat} (h : OnceAsleep k l) (p q : Owner) :
    Waits k l p q ↔ waitsFor k l p = some q := by
  simp only [Waits, waitsFor, Option.map_eq_some_iff]
  constructor
  · intro hw
    obtain ⟨sf, hm, rfl, hq⟩ := hw
    cases hf : l.find? fun r => decide ((k.set r).owner = (k.set sf).owner) with
    | none =>
      have hno := List.find?_eq_none.mp hf sf hm
      simp at hno
    | some r =>
      have hr : (k.set r).owner = (k.set sf).owner := by simpa using List.find?_some hf
      have he := h r (List.mem_of_find?_eq_some hf) sf hm hr
      exact ⟨r, rfl, he ▸ hq⟩
  · intro hw
    obtain ⟨sf, hf, hq⟩ := hw
    exact ⟨sf, List.mem_of_find?_eq_some hf, by simpa using List.find?_some hf, hq⟩

theorem sleepingOf_spec (fuel : Nat) (h : Lists k.links ls) (hl : ls .sleeplcks = pre ++ post)
    (o : Owner) (hfuel : post.length ≤ fuel) : sleepingOf o k fuel post.head? =
      some (post.find? fun sf => decide ((k.set sf).owner = o)) := by
  induction fuel generalizing pre post with
  | zero =>
    have hnil : post = [] := List.eq_nil_of_length_eq_zero (by omega)
    subst hnil
    rfl
  | succ fuel ih =>
    cases post with
    | nil => rfl
    | cons sf post =>
      simp only [List.head?_cons, sleepingOf, h.next_eq hl, List.find?_cons]
      by_cases ho : (k.set sf).owner = o
      · simp [ho]
      · simp only [ho, if_false, decide_false]
        exact @ih (pre ++ [sf]) _ (by simpa using hl) (by simpa using hfuel)

theorem deadLoop_eq (h : Rep recs k ls) (fuel : Nat) (o : Owner) :
    deadLoop recs u k fuel o = follow (waitsFor k (ls .sleeplcks)) u fuel o := by
  have hlen := h.length_le .sleeplcks
  induction fuel generalizing o with
  | zero => rfl
  | succ fuel ih =>
    have hs := (@sleepingOf_spec _ _ _ []) (recs + 1) h.lists rfl o (by omega)
    rw [← h.lists.head_eq] at hs
    simp only [deadLoop, follow, hs, Option.bind_some, waitsFor]
    cases (ls .sleeplcks).find? fun sf => decide ((k.set sf).owner = o) with
    | none => rfl
    | some sf => simp only [Option.map_some, ih]

/-- In a graph without cycles deadflck ends, and tells whether the owner of the lock
leads to the process. -/
theorem deadflck_spec (h : Rep recs k ls) (ho : OnceAsleep k (ls .sleeplcks))
    (hac : Acyclic (Waits k (ls .sleeplcks))) (u : Owner) (found : Nat) :
    ∃ b, deadflck recs u found k = some b ∧
      (b = true ↔
        Relation.ReflTransGen (Waits k (ls .sleeplcks)) (k.set found).owner u) := by
  rw [deadflck, deadLoop_eq h]
  have hdom : ∀ p q, Waits k (ls .sleeplcks) p q →
      p ∈ (ls .sleeplcks).map fun sf => (k.set sf).owner := by
    intro p q hw
    obtain ⟨sf, hm, rfl, -⟩ := hw
    exact List.mem_map_of_mem hm
  refine follow_spec u (waits_iff ho) hac hdom ?_ _
  have hlen := h.length_le .sleeplcks
  rw [List.length_map]
  omega

variable [DecidableEq I]

theorem cleanLoop_spec (fuel : Nat) (h : Rep recs k ls) (hli : li ≠ .free)
    (hl : ls li = pre ++ post) (flag : CleanFlag) (hfuel : post.length ≤ fuel) :
    ∃ k' ls', cleanLoop u li flag fuel post.head? k = some k' ∧ Rep recs k' ls' ∧
      Frame li k ls k' ls' ∧ k'.set = k.set ∧ (ls' li).Sublist (ls li) := by
  induction fuel generalizing k ls pre post with
  | zero =>
    have hnil : post = [] := List.eq_nil_of_length_eq_zero (by omega)
    subst hnil
    exact ⟨k, ls, by simp [cleanLoop], h, .refl li k ls, rfl, .refl _⟩
  | succ fuel ih =>
    cases post with
    | nil => exact ⟨k, ls, by simp [cleanLoop], h, .refl li k ls, rfl, .refl _⟩
    | cons flp post =>
      simp only [List.length_cons] at hfuel
      simp only [List.head?_cons, cleanLoop, h.lists.next_eq hl]
      split
      · obtain ⟨ls₁, h₁, hl₁, hF₁⟩ := h.delflck hli hl
        obtain ⟨k', ls', hr, h', hF, hset, hsub⟩ := ih h₁ hl₁ (by omega)
        refine ⟨k', ls', hr, h', hF₁.trans hF, hset.trans (delflck_set li flp k), hsub.trans ?_⟩
        rw [hl₁, hl]
        exact (List.sublist_cons_self flp post).append_left pre
      · exact @ih _ _ (pre ++ [flp]) _ h (by simpa using hl) (by omega)

/-- cleanlocks ends, and only takes locks off the list. -/
theorem cleanlocks_spec (h : Rep recs k ls) (hli : li ≠ .free) (hL : Locked k.set (ls li))
    (u : Owner) (flag : CleanFlag) :
    ∃ k' ls', cleanlocks recs u li flag k = some k' ∧ Rep recs k' ls' ∧ Frame li k ls k' ls' ∧
      Locked k'.set (ls' li) := by
  have hlen := h.length_le li
  obtain ⟨k', ls', hr, h', hF, hset, hsub⟩ :=
    (@cleanLoop_spec _ _ _ _ _ u []) (recs + 1) h hli rfl flag (by omega)
  refine ⟨k', ls', by rw [cleanlocks, h.lists.head_eq, hr], h', hF, ?_⟩
  rw [hset]
  exact hL.sublist hsub

end Svr32.RecLock

/-! reclock between two sleeps: the request's range, one pass of its loop, and what it
hands back. -/
namespace Svr32.RecLock
open Svr32.Lib
variable {I : Type*}

/- INOFLCK, SETFLCK and SLPFLCK of cmd; FREAD and FWRITE of flag. -/
structure Cmd where
  inoflck : Bool
  setflck : Bool
  slpflck : Bool
deriving DecidableEq, Repr

structure Flag where
  fread : Bool
  fwrite : Bool
deriving DecidableEq, Repr

/- What l_start is relative to. -/
def convoffBase (iSize whence offset : Int) : Option Int :=
  if whence = 1 then some offset
  else if whence = 2 then some iSize
  else if whence ≠ 0 then none
  else some 0

/- convoff for a file of i_size bytes: the flock is changed also when it fails. -/
def convoff (iSize : Int) (lckdat : Flock) (whence offset : Int) : Flock × Option Errno :=
  match convoffBase iSize lckdat.lWhence offset with
  | none => (lckdat, some .einval)
  | some base =>
    let lckdat := { lckdat with lStart := i32 (lckdat.lStart + base) }
    if lckdat.lStart < 0 then (lckdat, some .einval)
    else
      match convoffBase iSize whence offset with
      | none => (lckdat, some .einval)
      | some base =>
        ({ lckdat with lStart := i32 (lckdat.lStart - base), lWhence := whence }, none)

/- Convert l_len to be the end of the lock. -/
def lenToEnd (lckdat : Flock) : Flock :=
  if lckdat.lEnd = 0 then { lckdat with lEnd := maxEnd }
  else { lckdat with lEnd := i32 (lckdat.lEnd + (lckdat.lStart - 1)) }

/- Restore l_len. -/
def endToLen (lckdat : Flock) : Flock :=
  if lckdat.lEnd = maxEnd then { lckdat with lEnd := 0 }
  else { lckdat with lEnd := i32 (lckdat.lEnd - (lckdat.lStart - 1)) }

/- The checks and conversions in front of the loop. -/
def reclockRange (iSize : Int) (lckdat : Flock) (cmd : Cmd) (flag : Flag) (offset : Int) :
    Flock × Option Errno :=
  if cmd.setflck ∧ ((lckdat.lType = .rdlck ∧ flag.fread = false) ∨
      (lckdat.lType = .wrlck ∧ flag.fwrite = false)) then (lckdat, some .ebadf)
  else
    match convoff iSize lckdat 0 offset with
    | (lckdat, some e) => (lckdat, some e)
    | (lckdat, none) =>
      if lckdat.lEnd < 0 then (lckdat, some .einval)
      else
        let lckdat := lenToEnd lckdat
        if lckdat.lStart > lckdat.lEnd then (lckdat, some .einval) else (lckdat, none)

/- Behind the loop: l_len and l_whence as the caller knows them. -/
def reclockRestore (iSize : Int) (lckdat : Flock) (whence offset : Int) : Flock :=
  (convoff iSize (endToLen lckdat) whence offset).1

/- One pass of the loop ends the call, or sleeps with the record `sf` on sleeplcks. -/
inductive Turn where
  | done (lckdat : Flock) (retval : Option Errno)
  | sleep (sf : Nat)
deriving DecidableEq, Repr

/- found->stat.wakeflg++, sf->stat.blk = owner of found, and SLEEP(found). -/
def sleepOn (u : Owner) (found sf : Nat) (k : Table I) : Table I :=
  { k with
    stat := Function.update (Function.update k.stat found (.wakeflg ((k.stat found).word + 1)))
      sf (.blk (k.set found).owner)
    wchan := Function.update k.wchan u (some found) }

/- The record lists are sound: the lock lists of all inodes, and no cycle of sleepers. -/
structure Sound (recs : Nat) (k : Table I) (ls : ListId I → List Nat) : Prop where
  rep : Rep recs k ls
  locked : ∀ ip, Locked k.set (ls (.inode ip))
  once : OnceAsleep k (ls .sleeplcks)
  acyclic : Acyclic (Waits k (ls .sleeplcks))

/- The sleepers are the same. -/
structure SleepSame (k : Table I) (ls : ListId I → List Nat) (k' : Table I)
    (ls' : ListId I → List Nat) : Prop where
  list : ls' .sleeplcks = ls .sleeplcks
  set : ∀ r ∈ ls .sleeplcks, k'.set r = k.set r
  stat : ∀ r ∈ ls .sleeplcks, k'.stat r = k.stat r

variable {recs : Nat} {k k' : Table I} {ls ls' : ListId I → List Nat} {u : Owner} {ip : I}
  {lckdat : Flock}

theorem SleepSame.refl (k : Table I) (ls : ListId I → List Nat) : SleepSame k ls k ls :=
  ⟨rfl, fun _ _ => rfl, fun _ _ => rfl⟩

theorem Frame.sleepSame (h : Frame (.inode ip) k ls k' ls') : SleepSame k ls k' ls' :=
  ⟨h.lists _ nofun nofun, h.set _ nofun nofun, h.stat _ nofun nofun⟩

theorem SleepSame.once (h : SleepSame k ls k' ls') (ho : OnceAsleep k (ls .sleeplcks)) :
    OnceAsleep k' (ls' .sleeplcks) := by
  rw [OnceAsleep, h.list]
  intro r hr r' hr' he
  rw [h.set r hr, h.set r' hr'] at he
  exact ho r hr r' hr' he

theorem SleepSame.acyclic (h : SleepSame k ls k' ls') (ha : Acyclic (Waits k (ls .sleeplcks))) :
    Acyclic (Waits k' (ls' .sleeplcks)) := by
  rw [h.list]
  refine ha.mono fun p q hw => ?_
  obtain ⟨sf, hm, hp, hq⟩ := hw
  rw [h.set sf hm] at hp
  rw [h.stat sf hm] at hq
  exact ⟨sf, hm, hp, hq⟩

/-- A change to one lock list that keeps it leaves everything sound. -/
theorem Sound.frame [DecidableEq I] (h : Sound recs k ls) (hR : Rep recs k' ls')
    (hF : Frame (.inode ip) k ls k' ls') (hL : Locked k'.set (ls' (.inode ip))) :
    Sound recs k' ls' := by
  refine ⟨hR, fun ip' => ?_, hF.sleepSame.once h.once, hF.sleepSame.acyclic h.acyclic⟩
  by_cases he : ip' = ip
  · exact he ▸ hL
  · have hne : ListId.inode ip' ≠ ListId.inode ip := fun hi => he (ListId.inode.inj hi)
    rw [hF.lists (.inode ip') nofun hne]
    exact (h.locked ip').congr (hF.set (.inode ip') nofun hne)

variable [DecidableEq I]

/- The branch of cmd & SLPFLCK. -/
def reclockSleep (recs : Nat) (u : Owner) (lckdat : Flock) (found : Nat) (k : Table I) :
    Option (Table I × Turn) :=
  (deadflck recs u found k).map fun dead =>
    if dead then (k, .done lckdat (some .edeadlk))
    else
      match insflck u .sleeplcks lckdat none k with
      | none => (k, .done lckdat (some .enolck))
      | some (sf, k) => (sleepOn u found sf k, .sleep sf)

/- flckadj as the last step of a pass. -/
def reclockSet (recs : Nat) (u : Owner) (ip : I) (insrt : Option Nat) (lckdat : Flock)
    (k : Table I) : Option (Table I × Turn) :=
  (flckadj recs u (.inode ip) insrt lckdat k).map fun r => (r.1, .done r.2.1 r.2.2)

/-- One pass of the loop of reclock in the process `u`. -/
def reclockPass (recs : Nat) (u : Owner) (ip : I) (cmd : Cmd) (lckdat : Flock) (k : Table I) :
    Option (Table I × Turn) :=
  match lckdat.lType with
  | .rdlck | .wrlck =>
    (blocked recs u (k.links.head (.inode ip)) lckdat k).bind fun (found, insrt) =>
      match found with
      | none =>
        if cmd.setflck then reclockSet recs u ip insrt lckdat k
        else some (k, .done { lckdat with lType := .unlck } none)
      | some found =>
        if cmd.slpflck then reclockSleep recs u lckdat found k
        else if cmd.setflck then some (k, .done lckdat (some .eagain))
        else some (k, .done (k.set found) none)
  | .unlck =>
    if cmd.setflck then reclockSet recs u ip (k.links.head (.inode ip)) lckdat k
    else some (k, .done lckdat none)
  | .other _ => some (k, .done lckdat (some .einval))

/- When the sleep is over: the record leaves sleeplcks. -/
def reclockWake (sf : Nat) (k : Table I) : Table I :=
  delflck .sleeplcks sf { k with stat := Function.update k.stat sf (.blk ⟨0, 0⟩) }

/- What a pass leaves: everything sound, and at most one new sleeper. -/
def PassOk (recs : Nat) (u : Owner) (lckdat : Flock) (k : Table I) (ls : ListId I → List Nat)
    (r : Option (Table I × Turn)) : Prop :=
  ∃ k' t ls', r = some (k', t) ∧ Sound recs k' ls' ∧
    match t with
    | .done _ _ => SleepSame k ls k' ls'
    | .sleep sf => lckdat.Valid ∧ ls' .sleeplcks = sf :: ls .sleeplcks ∧
        (k'.set sf).owner = u ∧ ∀ r ∈ ls .sleeplcks, k'.set r = k.set r

theorem convoff_start {iSize offset : Int} {ld ld' : Flock}
    (h : convoff iSize ld 0 offset = (ld', none)) : 0 ≤ ld'.lStart := by
  simp only [convoff] at h
  split at h
  · cases h
  · split at h
    · cases h
    · simp only [convoffBase, Int.zero_ne_one, if_false, ne_eq, not_true_eq_false] at h
      simp only [show ¬ (0 : Int) = 2 by decide, if_false, Prod.mk.injEq, and_true] at h
      subst h
      rw [Int.sub_zero, i32_eq (i32_range _).1 (i32_range _).2]
      exact Int.not_lt.mp (by assumption)

theorem lenToEnd_spec (ld : Flock) : (lenToEnd ld).lStart = ld.lStart ∧
    (lenToEnd ld).lType = ld.lType ∧ (lenToEnd ld).lEnd ≤ maxEnd := by
  simp only [lenToEnd, maxEnd]
  have hr := i32_range (ld.lEnd + (ld.lStart - 1))
  split
  · simp
  · refine ⟨rfl, rfl, ?_⟩
    simp only
    omega

/-- The range of a request that passes the checks. -/
theorem reclockRange_asked {iSize : Int} {cmd : Cmd} {flag : Flag} {offset : Int} {ld : Flock}
    (h : reclockRange iSize lckdat cmd flag offset = (ld, none)) :
    0 ≤ ld.lStart ∧ ld.lStart ≤ ld.lEnd ∧ ld.lEnd ≤ maxEnd := by
  simp only [reclockRange] at h
  split at h
  · cases h
  · cases hc : convoff iSize lckdat 0 offset with
    | mk d e =>
      rw [hc] at h
      cases e with
      | some e => cases h
      | none =>
        have hs := convoff_start hc
        obtain ⟨hst, -, hmax⟩ := lenToEnd_spec d
        simp only at h
        split at h
        · cases h
        · split at h
          · cases h
          · simp only [Prod.mk.injEq, and_true] at h
            subst h
            exact ⟨hst ▸ hs, by omega, hmax⟩

theorem reclockSet_spec (h : Sound recs k ls) {insrt : Option Nat} {pre post : List Nat}
    (hl : ls (.inode ip) = pre ++ post)
    (hstart : insrt.or (k.links.head (.inode ip)) = post.head?)
    (hi : AdjInv u k.set pre post insrt lckdat) :
    PassOk recs u lckdat k ls (reclockSet recs u ip insrt lckdat k) := by
  obtain ⟨k', ld', retval, ls', hr, hR, hF, hL⟩ := flckadj_spec h.rep (ListId.inode_ne_free ip) hl hstart hi
  exact ⟨k', .done ld' retval, ls', by rw [reclockSet, hr]; rfl, h.frame hR hF hL, hF.sleepSame⟩

/-- A process that goes to sleep behind a lock adds the one edge deadflck has allowed. -/
theorem reclockSleep_spec (h : Sound recs k ls) (hv : lckdat.Valid)
    (hu : ∀ r ∈ ls .sleeplcks, (k.set r).owner ≠ u) {found : Nat}
    (hf : found ∈ ls (.inode ip)) :
    PassOk recs u lckdat k ls (reclockSleep recs u lckdat found k) := by
  obtain ⟨dead, hdead, hiff⟩ := deadflck_spec h.rep h.once h.acyclic u found
  simp only [reclockSleep, hdead, Option.map_some]
  cases dead with
  | true => exact ⟨k, _, ls, rfl, h, .refl k ls⟩
  | false =>
    have hno : ¬ Relation.ReflTransGen (Waits k (ls .sleeplcks)) (k.set found).owner u :=
      fun hr => Bool.false_ne_true (hiff.mpr hr)
    cases hins : insflck u .sleeplcks lckdat none k with
    | none => exact ⟨k, _, ls, rfl, h, .refl k ls⟩
    | some p =>
      obtain ⟨sf, k₁⟩ := p
      obtain ⟨ls', hR, hl', hF, hnew, hset, hstat, -⟩ :=
        h.rep.insflck ListId.sleeplcks_ne_free (show ls .sleeplcks = [] ++ ls .sleeplcks from rfl) hins
      have hsf : ∀ l, l ≠ .free → ∀ r ∈ ls l, r ≠ sf := fun l hl r hr he => hnew l hl (he ▸ hr)
      have hset' : ∀ l, l ≠ .free → ∀ r ∈ ls l, k₁.set r = k.set r := by
        intro l hl r hr
        rw [hset]
        exact Function.update_of_ne (hsf l hl r hr) _ _
      have hlocks : ∀ ip', ls' (.inode ip') = ls (.inode ip') := fun ip' => hF.lists (.inode ip') nofun nofun
      have hold : ∀ r ∈ ls .sleeplcks, (sleepOn u found sf k₁).stat r = k.stat r := by
        intro r hr
        have hrf : r ≠ found := fun he =>
          nomatch h.rep.lists.disj .sleeplcks (.inode ip) r hr (he ▸ hf)
        have hrs := hsf .sleeplcks nofun r hr
        simp only [sleepOn, Function.update_of_ne hrs, Function.update_of_ne hrf, hstat]
      have howner : (k₁.set sf).owner = u := by
        rw [hset, Function.update_self]
        rfl
      have hblk : ((sleepOn u found sf k₁).stat sf).owner = (k.set found).owner := by
        simp only [sleepOn, Function.update_self, Stat.owner, hset' (.inode ip) nofun found hf]
      refine ⟨sleepOn u found sf k₁, .sleep sf, ls', rfl, ⟨⟨hR.lists, hR.small⟩, fun ip' => ?_, ?_, ?_⟩,
        hv, hl', howner, hset' .sleeplcks nofun⟩
      · rw [hlocks ip']
        exact (h.locked ip').congr (hset' (.inode ip') nofun)
      · rw [hl']
        intro r hr r' hr' he
        simp only [sleepOn] at he
        cases List.mem_cons.mp hr with
        | inl hrs =>
          cases List.mem_cons.mp hr' with
          | inl hrs' => rw [hrs, hrs']
          | inr hr' =>
            rw [hrs, howner, hset' .sleeplcks nofun r' hr'] at he
            exact absurd he.symm (hu r' hr')
        | inr hr =>
          cases List.mem_cons.mp hr' with
          | inl hrs' =>
            rw [hrs', howner, hset' .sleeplcks nofun r hr] at he
            exact absurd he (hu r hr)
          | inr hr' =>
            rw [hset' .sleeplcks nofun r hr, hset' .sleeplcks nofun r' hr'] at he
            exact h.once r hr r' hr' he
      · rw [hl']
        refine h.acyclic.insert (p := u) (q := (k.set found).owner) (fun x y hw => ?_) hno
        obtain ⟨r, hr, hx, hy⟩ := hw
        cases List.mem_cons.mp hr with
        | inl hrs =>
          rw [hrs] at hx hy
          exact .inr ⟨hx.symm.trans howner, hy.symm.trans hblk⟩
        | inr hr =>
          rw [hold r hr] at hy
          exact .inl ⟨r, hr, (congrArg Flock.owner (hset' .sleeplcks nofun r hr)).symm.trans hx, hy⟩

/-- One pass of the loop ends, and keeps everything sound. -/
theorem reclockPass_spec (h : Sound recs k ls) (cmd : Cmd) (hs : 0 ≤ lckdat.lStart)
    (hle : lckdat.lStart ≤ lckdat.lEnd) (hmax : lckdat.lEnd ≤ maxEnd)
    (hu : ∀ r ∈ ls .sleeplcks, (k.set r).owner ≠ u) :
    PassOk recs u lckdat k ls (reclockPass recs u ip cmd lckdat k) := by
  have hsame : ∀ t : Flock × Option Errno, PassOk recs u lckdat k ls (some (k, .done t.1 t.2)) :=
    fun t => ⟨k, .done t.1 t.2, ls, rfl, h, .refl k ls⟩
  have hlock : lckdat.Valid → PassOk recs u lckdat k ls
      ((blocked recs u (k.links.head (.inode ip)) lckdat k).bind fun (found, insrt) =>
        match found with
        | none =>
          if cmd.setflck then reclockSet recs u ip insrt lckdat k
          else some (k, .done { lckdat with lType := .unlck } none)
        | some found =>
          if cmd.slpflck then reclockSleep recs u lckdat found k
          else if cmd.setflck then some (k, .done lckdat (some .eagain))
          else some (k, .done (k.set found) none)) := by
    intro hv
    obtain ⟨found, insrt, hb, hspec⟩ := blocked_spec h.rep (h.locked ip) hv u
    simp only [hb, Option.bind_some]
    cases found with
    | none =>
      obtain ⟨pre, post, hl, hstart, hi⟩ := hspec
      simp only
      split
      · exact reclockSet_spec h hl hstart hi
      · exact hsame (_, _)
    | some found =>
      simp only
      split
      · exact reclockSleep_spec h hv hu hspec.1
      · split
        · exact hsame (_, _)
        · exact hsame (_, _)
  simp only [reclockPass]
  cases ht : lckdat.lType with
  | rdlck => exact hlock ⟨hs, hle, hmax, .inl ht⟩
  | wrlck => exact hlock ⟨hs, hle, hmax, .inr ht⟩
  | unlck =>
    simp only
    split
    · refine reclockSet_spec h (show ls (.inode ip) = [] ++ ls (.inode ip) from rfl) (by rw [← h.rep.lists.head_eq]; simp) ?_
      exact ⟨h.locked ip, ⟨hs, hle, hmax, .inr (.inr ht)⟩, fun hn => absurd ht hn, by simp,
        fun hn => absurd ht hn⟩
    · exact hsame (_, _)
  | other w => exact hsame (_, _)

/-- A sleeper that leaves takes its own edge away. -/
theorem reclockWake_spec (h : Sound recs k ls) {pre post : List Nat} {sf : Nat}
    (hl : ls .sleeplcks = pre ++ sf :: post) :
    ∃ ls', Sound recs (reclockWake sf k) ls' ∧ ls' .sleeplcks = pre ++ post ∧
      (reclockWake sf k).set = k.set := by
  have hR : Rep recs { k with stat := Function.update k.stat sf (.blk ⟨0, 0⟩) } ls :=
    ⟨h.rep.lists, h.rep.small⟩
  obtain ⟨ls', hR', hl', hF⟩ := hR.delflck ListId.sleeplcks_ne_free hl
  have hnd := h.rep.lists.nodup .sleeplcks
  rw [hl] at hnd
  have hset : (reclockWake sf k).set = k.set := delflck_set _ _ _
  have hmem : ∀ r ∈ pre ++ post, r ∈ ls .sleeplcks := by
    rw [hl]
    exact fun r hr => ((List.sublist_cons_self sf post).append_left pre).subset hr
  have hstat : ∀ r ∈ pre ++ post, (reclockWake sf k).stat r = k.stat r := by
    intro r hr
    have hne : r ≠ sf := fun he =>
      (List.nodup_cons.mp (List.perm_middle.nodup_iff.mp hnd)).1 (he ▸ hr)
    exact (delflck_stat _ _ hne).trans (Function.update_of_ne hne _ _)
  refine ⟨ls', ⟨hR', fun ip => ?_, ?_, ?_⟩, hl', hset⟩
  · rw [hset, hF.lists (.inode ip) nofun nofun]
    exact h.locked ip
  · rw [hl']
    intro r hr r' hr' he
    rw [hset] at he
    exact h.once r (hmem r hr) r' (hmem r' hr') he
  · rw [hl']
    refine h.acyclic.mono fun p q hw => ?_
    obtain ⟨r, hr, hp, hq⟩ := hw
    rw [hset] at hp
    rw [hstat r hr] at hq
    exact ⟨r, hmem r hr, hp, hq⟩

end Svr32.RecLock
