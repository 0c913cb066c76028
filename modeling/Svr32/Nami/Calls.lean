import Svr32.Nami.Writes
import Svr32.Nami.Code

/-! NI_LINK, NI_CREAT, NI_XCREAT, NI_MKNOD and NI_MKDIR keep the invariant. -/
namespace Svr32.Nami
open Errno ( EIO)
variable {m : Mount} {env : Env} {s : State} {δ : Nat → Int} {dp dip i j off : Nat}
  {name : List Nat} {bad : Bool} {e : Errno}

/- What holds when s5namei has been given the locked directory `dp`. -/
structure Ready (m : Mount) (env : Env) (dp : Nat) (s : State) : Prop where
  off : Off m (fun _ => 0) s
  linked : Linked s dp
  held : 0 < s.count dp
  kept : env.upd dp = true → s.count dp ≠ 1
  rest : ∀ i, i ≠ dp → (s.core i).mode ≠ 0 → env.upd i = true → 0 < s.count i

theorem Ready.mode (h : Ready m env dp s) : (s.core dp).mode ≠ 0 := mode_of_ftype h.linked.1

theorem fail_sound (h : Off m (fun _ => 0) s) (ha : (s.core dp).mode ≠ 0) (hc : 0 < s.count dp)
    (hk : env.upd dp = true → s.count dp ≠ 1) : Off m (fun _ => 0) (fail env dp s).2 :=
  h.iput ha hc (fun _ => rfl) fun hb => .inl (hk hb)

theorem Ready.fail (h : Ready m env dp s) (e : Option Errno) :
    Off m (fun _ => 0) (fail env dp { s with err := e }).2 :=
  fail_sound (h.off.error e) h.mode h.held h.kept

/- An entry that can be written: the place is empty and the name is not there yet. -/
structure Slot (s : State) (dp off : Nat) (name : List Nat) : Prop where
  free : (s.dir dp off).ino = 0
  new : ∀ k < (s.core dp).size, (s.dir dp k).ino ≠ 0 → (s.dir dp k).name ≠ name

/- The entries of a new directory. -/
def Filled (t : State) (dip dp : Nat) : Prop :=
  (t.core dip).size = 2 ∧ t.dir dip 0 = ⟨dip, [46]⟩ ∧ t.dir dip 1 = ⟨dp, [46, 46]⟩

theorem Filled.within {t : State} (h : Filled t dip dp) (j : Nat) :
    within t dip j = (if j = dip then 1 else 0) + if j = dp then 1 else 0 := by
  obtain ⟨h1, h2, h3⟩ := h
  rw [Nami.within, h1, Finset.card_filter, Finset.sum_range_succ, Finset.sum_range_succ, h2, h3]
  simp only [Finset.range_zero, Finset.sum_empty, Nat.zero_add, eq_comm]

end Svr32.Nami
