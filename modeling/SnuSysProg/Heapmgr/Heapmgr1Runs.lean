import SnuSysProg.Heapmgr.Heapmgr1Calls
import SnuSysProg.Heapmgr.Runs

/-
  Runs of clients of `heapmgr1.c`.

  `heapmgr1_represents`: as long as the heap has room, no call faults (no assert fails, in
  `heapmgr1.c`, `chunk.c` or `check_heap_validity`), and after every call the memory holds a row of
  chunks and one doubly linked list of its free ones.
-/

namespace SnuSysProg.Heapmgr1
open SnuSysProg.Lib SnuSysProg.Heapmgr

variable {s : State} {T : List Blk} {L : Unit → List Int} {x₀ x : Client Unit} {es : List Move}

/-- Some chunk of the list from `g_free_head` has `n` units. -/
def served (s : State) (n : Int) : Prop :=
  ∃ l, Follows null (fun c => (cellAt s.mem c).link) (s.freeHead ()) l ∧
    ∃ a ∈ l, toSize (cellAt s.mem a).units ≥ n

def manager : Manager Unit where
  findBin := findBin
  check := checkHeapValidity
  malloc := heapmgrMalloc
  served := served

theorem manager_free : manager.free = heapmgrFree := rfl

theorem served_iff (h : Inv findBin 1 s T L) {n : Int} : manager.served s n ↔ Hit s L n := by
  have hfollows := h.follows ()
  constructor
  · intro ⟨l, hl, a, ha, hfit⟩
    obtain rfl := hl.unique hfollows
    exact ⟨a, ha, hfit⟩
  · exact fun ⟨a, ha, hfit⟩ => ⟨L (), hfollows, a, ha, hfit⟩

theorem manager_correct : manager.Correct :=
  .of_hit checks (fun h => served_iff h) (fun ⟨a, ha, hfit⟩ => ⟨(), a, ha, hfit⟩)
    fun grant _ h hpos hsmall =>
      heapmgrMalloc_spec grant h hpos (sizeToUnits_eq hpos hsmall) (unitsFor_bounds hpos).1
        (unitsFor_lt hsmall)

/-- After every call the heap is a row of chunks with headers and footers that agree, the list is
    doubly linked and holds exactly the free chunks, no two neighbours are free, and the next call
    does not fault. -/
theorem heapmgr1_represents (h0 : Start x₀)
    (hrun : Run (Guarded (fun x e => Allowed x e ∧ Roomy manager x e) (step manager)) x₀ es x) :
    (∃ chunks list, Represents findBin x.heap chunks list) ∧
    ∀ e, Allowed x e → Roomy manager x e → ∃ y, exec manager x e = .ok y := by
  obtain ⟨T, L, h, hroom⟩ := consistent_run_roomy manager_correct h0 hrun
  refine ⟨⟨T.map Blk.addr, L, h.between.represents⟩, fun e hallow hroomy => ?_⟩
  obtain ⟨y, hy, -⟩ := h.exec_ok manager_correct hroom hallow hroomy
  exact ⟨y, hy⟩

/-- A first request that the kernel has memory for. -/
theorem heapmgr1_represents_first : ∃ x, Run (Guarded (fun x e => Allowed x e ∧
    Roomy manager x e) (step manager)) starting [.malloc true 100] x ∧
    ∃ chunks list, Represents findBin x.heap chunks list := by
  have hallow : Allowed (starting : Client Unit) (.malloc true 100) := ⟨by decide, by decide⟩
  have hroomy : Roomy manager starting (.malloc true 100) := Or.inr (by decide)
  obtain ⟨x, hx, -⟩ := starting_start.consistent.exec_ok manager_correct
    starting_start.inRoom hallow hroomy
  have hrun := (Run.nil starting).snoc
    (show Guarded (fun x e => Allowed x e ∧ Roomy manager x e) (step manager) starting
      (.malloc true 100) x from ⟨⟨hallow, hroomy⟩, hx⟩)
  exact ⟨x, hrun, (heapmgr1_represents starting_start hrun).1⟩

end SnuSysProg.Heapmgr1
