import SnuSysProg.Heapmgr.Heapmgr2Calls
import SnuSysProg.Heapmgr.Runs

/-
  Runs of clients of `heapmgr2.c`.

  `heapmgr2_represents`: as long as the heap has room, no call faults, and after every call the
  memory holds a row of chunks and 2054 doubly linked lists of its free ones.
  `heapmgr2_live_untouched`: the live blocks lie apart from each other and from all headers and
  footers, and the calls leave their bytes alone.
-/

namespace SnuSysProg.Heapmgr2
open SnuSysProg.Lib SnuSysProg.Heapmgr

variable {lo : Int} {s t : State} {T : List Blk} {L : Bin → List Int} {b c : Blk}
  {x₀ x y : Client Bin} {es : List Move}

def manager : Manager Bin where
  findBin := findBin
  check := checkHeapValidity
  malloc := heapmgrMalloc
  served s n := ∃ c, findBestFitChunk n s = .ok (c, s) ∧ c ≠ null

theorem manager_free : manager.free = heapmgrFree := rfl

theorem served_iff (h : Inv findBin lo s T L) {n : Int} : manager.served s n ↔ Hit s L n := by
  obtain ⟨r, hr, hfound⟩ := findBestFitChunk_found h.toRep n
  rcases hfound with ⟨rfl, hnone⟩ | ⟨i, a, rfl, hi, ha, hfit⟩
  · constructor
    · rintro ⟨c, hc, hne⟩
      rw [hr, Except.ok.injEq, Prod.mk.injEq] at hc
      exact absurd hc.1.symm hne
    · rintro ⟨i, hi, a, ha, hfit⟩
      exact absurd hfit (hnone i hi a ha)
  · constructor
    · exact fun _ => ⟨i, hi, a, ha, hfit⟩
    · intro _
      obtain ⟨c, hc, rfl, -⟩ := h.listed ha
      exact ⟨c.addr, hr, h.covers.addr_ne hc⟩

theorem manager_correct : manager.Correct :=
  .of_hit (checks 1) (fun h => served_iff h) (fun ⟨i, _, a, ha, hfit⟩ => ⟨i, a, ha, hfit⟩)
    fun grant _ h hpos hsmall =>
      have hn := (unitsFor_bounds hpos).1
      heapmgrMalloc_spec grant h hpos (sizeToUnits_eq hpos hsmall) (le_refl 1) hn
        (Int.le_trans Int.one_nonneg hn) (unitsFor_lt hsmall)

/-- After every call the heap is a row of chunks with headers and footers that agree, the bins are
    doubly linked lists of exactly the free chunks, each in the bin of its size, no two neighbours
    are free, and the next call does not fault. -/
theorem heapmgr2_represents (h0 : Start x₀)
    (hrun : Run (Guarded (fun x e => Allowed x e ∧ Roomy manager x e) (step manager)) x₀ es x) :
    (∃ chunks bins, Represents findBin x.heap chunks bins ∧
      ∀ i, ∀ c ∈ bins i, inRange i (cellAt x.heap.mem c).units = true) ∧
    ∀ e, Allowed x e → Roomy manager x e → ∃ y, exec manager x e = .ok y := by
  obtain ⟨T, L, h, hroom⟩ := consistent_run_roomy manager_correct h0 hrun
  constructor
  · refine ⟨T.map Blk.addr, L, h.between.represents, fun i a ha => ?_⟩
    rcases h.between with ⟨-, -, rfl⟩ | ⟨-, hinv⟩
    · exact absurd ha List.not_mem_nil
    · obtain ⟨b, hb, rfl, hk, hunits, hbin⟩ := hinv.listed ha
      rw [(hinv.toRep.cell_units hb (by rw [hk]; decide)).1]
      exact (findBin_eq_iff hunits).mp hbin
  · intro e hallow hroomy
    obtain ⟨y, hy, -⟩ := h.exec_ok manager_correct hroom hallow hroomy
    exact ⟨y, hy⟩

/-- A first request that the kernel has memory for. -/
theorem heapmgr2_represents_first : ∃ x, Run (Guarded (fun x e => Allowed x e ∧
    Roomy manager x e) (step manager)) starting [.malloc true 100] x ∧
    ∃ chunks bins, Represents findBin x.heap chunks bins ∧
      ∀ i, ∀ c ∈ bins i, inRange i (cellAt x.heap.mem c).units = true := by
  have hallow : Allowed (starting : Client Bin) (.malloc true 100) := ⟨by decide, by decide⟩
  have hroomy : Roomy manager starting (.malloc true 100) := Or.inr (by decide)
  obtain ⟨x, hx, -⟩ := starting_start.consistent.exec_ok manager_correct
    starting_start.inRoom hallow hroomy
  have hrun := (Run.nil starting).snoc
    (show Guarded (fun x e => Allowed x e ∧ Roomy manager x e) (step manager) starting
      (.malloc true 100) x from ⟨⟨hallow, hroomy⟩, hx⟩)
  exact ⟨x, hrun, (heapmgr2_represents starting_start hrun).1⟩

/-- At every point of a run the live blocks lie apart from each other, inside the heap and clear of
    the headers and footers, and the next call leaves the bytes of those alone that stay live. -/
theorem heapmgr2_live_untouched (h0 : Start x₀)
    (hrun : Run (Guarded (fun x e => Allowed x e ∧ Small e) (step manager)) x₀ es x) :
    (x.live.Pairwise fun d e => Disjoint (payload d) (payload e)) ∧
    (∃ chunks, Walk x.heap.mem x.heap.gHeapStart chunks x.heap.gHeapEnd ∧
      ∀ e ∈ x.live, ∀ a ∈ payload e, x.heap.gHeapStart ≤ a ∧ a < x.heap.gHeapEnd ∧
        ∀ c ∈ chunks, a ∉ cellBytes c ∧ a ∉ cellBytes (footerOf x.heap.mem c)) ∧
    ∀ e y, Allowed x e → Small e → (∀ a v, e ≠ .write a v) → step manager x e y →
      Untouched x y := by
  obtain ⟨T, L, h⟩ := consistent_run manager_correct h0 hrun
  exact ⟨h.disjoint, ⟨_, h.between.represents.walk, h.clear⟩, fun e y hallow hsmall hcall hstep =>
    (h.step manager_correct hallow hsmall hstep).2 hcall⟩

/-- Two requests, the second of which leaves the block of the first alone. -/
theorem heapmgr2_live_untouched_second : ∃ x y, Run (Guarded (fun x e => Allowed x e ∧ Small e)
    (step manager)) starting [.malloc true 100] x ∧ step manager x (.malloc true 40) y ∧
    Untouched x y := by
  have hallow : Allowed (starting : Client Bin) (.malloc true 100) := ⟨by decide, by decide⟩
  have hroomy : Roomy manager starting (.malloc true 100) := Or.inr (by decide)
  have hsmall : Small (.malloc true 100) := by
    change (100 : Int) ≤ _
    decide
  obtain ⟨x, hx, -⟩ := starting_start.consistent.exec_ok manager_correct
    starting_start.inRoom hallow hroomy
  have hrun := (Run.nil starting).snoc
    (show Guarded (fun x e => Allowed x e ∧ Small e) (step manager) starting
      (.malloc true 100) x from ⟨⟨hallow, hsmall⟩, hx⟩)
  have hpos : (0 : Int) < 40 := by decide
  have hsmall' : (40 : Int) ≤ 16 * (2 ^ 31 - 1) := by decide
  obtain ⟨T, L, h⟩ := consistent_run manager_correct starting_start hrun
  obtain ⟨p, t, heq, -⟩ := manager_correct.malloc true h.between hpos hsmall'
  have hstep : step manager x (.malloc true 40) _ := exec_malloc heq
  have hallow' : Allowed x (.malloc true 40) := ⟨by decide, by decide⟩
  exact ⟨x, _, hrun, hstep, (heapmgr2_live_untouched starting_start hrun).2.2 _ _ hallow' hsmall'
    (fun a v => by simp) hstep⟩

end SnuSysProg.Heapmgr2
