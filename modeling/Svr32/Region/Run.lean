import Svr32.Region.Undo

/-! region.c: the reservations balance along every run, and what fails is undone, as long as no
dupreg fails when it has a page table and no growreg when anything has been allocated for it. -/
namespace Svr32.Region
variable {tune : Tune} {s s' : State}

/-- The branches of dupreg and growreg that do not undo what they have done are not taken. -/
def Sound (tune : Tune) (op : Op) (s : State) : Prop :=
  match op with
  | .dup r force places =>
    match (dupreg tune r force places s).1 with
    | .noList => (s.reg r).wanted = false
    | .noTable i => i = 0 ∧ (s.reg r).wanted = false
    | .overflow => False
    | _ => True
  | .grow r c legal nsdt type pte places =>
    match (growreg tune r c legal nsdt type pte places s).1 with
    | .noList => nsdt ≤ s.sdtsz
    | .noTable i => nsdt ≤ s.sdtsz ∧
        ctos (ctos ((s.reg r).pgsz + c.toNat)) ≤ (s.reg r).listsz ∧ i = ctos (s.reg r).pgsz
    | _ => True
  | _ => True

/- Every step of the run takes the other branches. -/
def SoundRun (tune : Tune) : State → List Op → Prop
  | _, [] => True
  | s, op :: ops => Sound tune op s ∧ ∀ s', step tune op s = some s' → SoundRun tune s' ops

/- Two regions, and 200 pages of memory. -/
def small : State where
  mem := ⟨200, 200, 0, 0, fun _ => none⟩
  pde := fun _ _ => zeroPde
  dbd := fun _ _ => zeroDbd
  pfuse := fun _ => 0
  freemem := 200
  swpuse := fun _ _ => 0
  reg := fun _ => ⟨false, false, 0, 0, 0, 0, 0, 0, 0, 0, NULL, fun _ => NULL, none⟩
  ractive := []
  rfree := [0, 1]
  icount := fun _ => 0
  sdt := NULL
  sdtsz := 0
  psize := 0

/- A region of 65 pages: its list and its two page tables are in page 1. -/
def grown : List Op :=
  [.alloc none RT_PRIVATE, .grow 0 65 true 0 DBD_NONE zeroPde
    [none, some (.fresh 1), some (.reuse 1 1), some (.reuse 1 3)]]

theorem sound_changed {r : Nat} {c : Int} {legal : Bool} {nsdt type : Nat} {pte : Pde}
    {places : List (Option Place)}
    (h : (growreg tune r c legal nsdt type pte places s).1 = .changed) :
    Sound tune (.grow r c legal nsdt type pte places) s := by
  rw [Sound, h]
  trivial

end Svr32.Region
