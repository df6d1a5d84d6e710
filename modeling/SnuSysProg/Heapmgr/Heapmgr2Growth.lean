import SnuSysProg.Heapmgr.Heapmgr2Runs

/-
  When `heapmgr2.c` grows the heap.

  A chunk of 33 to 65536 units is filed by its size, but a fixed bin is searched only for requests
  that every chunk of the bin would satisfy. So a request that is larger than the smallest size of
  its own bin does not see the chunks of that bin (`searched_iff`). `heapmgr2_grows_iff` says for
  which requests and free chunks this makes `heapmgr_malloc` ask the kernel for memory although
  a free chunk would have done.
-/

namespace SnuSysProg.Heapmgr2
open SnuSysProg.Lib SnuSysProg.Heapmgr

variable {lo : Int} {s t : State} {T : List Blk} {L : Bin → List Int} {b c : Blk}
  {x₀ x y : Client Bin} {es : List Move}

/-- The largest size in the fixed bin that chunks of `n` units go to. -/
def binTop (n : Int) : Int := (n - 33) / 32 * 32 + 64

/-- `n` is a size of a fixed bin, and not the smallest one. -/
def InsideBin (n : Int) : Prop := 33 < n ∧ n ≤ 65536 ∧ (n - 33) % 32 ≠ 0

theorem searched_iff {n u : Int} (hn : 1 ≤ n) (hu : n ≤ u) :
    Searched n (findBin u) ↔ ¬ (InsideBin n ∧ u ≤ binTop n) := by
  have hrange := findBin_inRange (show 1 ≤ u by omega)
  unfold InsideBin binTop
  rcases hbin : findBin u with i | i | _
  · rw [hbin] at hrange
    have hle := (inRange_exponential hrange).1
    have hmax := exponentialMax_le i
    have hn32 : n ≤ 32 := by omega
    have hsearched : Searched n (.exponential i) := ⟨hn32, by omega⟩
    exact iff_of_true hsearched (by omega)
  · rw [hbin] at hrange
    obtain ⟨h1, h2⟩ := inRange_fixed hrange
    have hi := i.isLt
    unfold fixedBins at hi
    have hmin : fixedMin i = 33 + i.val * 32 := rfl
    have hsearched : Searched n (.fixed i) ↔ n ≤ 65536 ∧ n ≤ fixedMin i := Iff.rfl
    rw [hsearched]
    omega
  · rw [hbin] at hrange
    have hlarge := inRange_large hrange
    exact iff_of_true trivial (by omega)

/-- What the search comes to, in terms of the blocks. -/
theorem hit_iff (h : Inv findBin lo s T L) {n : Int} (hn : 1 ≤ n) :
    Hit s L n ↔ ∃ b ∈ T, b.kind = .free ∧ n ≤ b.units ∧ ¬ (InsideBin n ∧ b.units ≤ binTop n) := by
  constructor
  · rintro ⟨i, hi, a, ha, hfit⟩
    obtain ⟨b, hb, rfl, hfree, hle, rfl⟩ := h.toRep.fits ha hfit
    exact ⟨b, hb, hfree, hle, (searched_iff hn hle).mp hi⟩
  · rintro ⟨b, hb, hfree, hle, hseen⟩
    have hsize := (h.toRep.cell_units hb (by rw [hfree]; decide)).2
    refine ⟨findBin b.units, (searched_iff hn hle).mpr hseen, b.addr, h.filed b hb hfree, ?_⟩
    unfold Fits
    rwa [hsize]

/-- No free chunk of `chunks` has at least `n` units. -/
def NoneFits (m : Mem) (chunks : List Int) (n : Int) : Prop :=
  ∀ c ∈ chunks, (cellAt m c).status = chunkFree → (cellAt m c).units < n

/-- The request is the smallest of its bin or not of a fixed bin, or a free chunk is larger than
    its bin's sizes, or no free chunk is large enough. -/
def SeesWhatFits (m : Mem) (chunks : List Int) (n : Int) : Prop :=
  ¬ InsideBin n ∨
    (∃ c ∈ chunks, (cellAt m c).status = chunkFree ∧ binTop n < (cellAt m c).units) ∨
    NoneFits m chunks n

theorem seesWhatFits_iff (h : Inv findBin lo s T L) {n : Int} (hn : 1 ≤ n) :
    SeesWhatFits s.mem (T.map Blk.addr) n ↔ Hit s L n ∨ NoneFits s.mem (T.map Blk.addr) n := by
  rw [hit_iff h hn]
  constructor
  · intro hsees
    by_cases hnone : NoneFits s.mem (T.map Blk.addr) n
    · exact Or.inr hnone
    refine Or.inl ?_
    by_cases hin : InsideBin n
    · obtain ⟨a, ha, hfree, hlt⟩ := (hsees.resolve_left (not_not.mpr hin)).resolve_right hnone
      obtain ⟨b, hb, rfl⟩ := List.mem_map.mp ha
      obtain ⟨hunits, hiff⟩ := h.chunk hb
      rw [hunits] at hlt
      refine ⟨b, hb, hiff.mp hfree, ?_, fun hh => not_le.mpr hlt hh.2⟩
      have hn33 := hin.1
      unfold binTop at hlt
      omega
    · unfold NoneFits at hnone
      push Not at hnone
      obtain ⟨a, ha, hfree, hle⟩ := hnone
      obtain ⟨b, hb, rfl⟩ := List.mem_map.mp ha
      obtain ⟨hunits, hiff⟩ := h.chunk hb
      exact ⟨b, hb, hiff.mp hfree, hunits ▸ hle, fun hh => hin hh.1⟩
  · rintro (⟨b, hb, hfree, hle, hseen⟩ | hnone)
    · by_cases hin : InsideBin n
      · obtain ⟨hunits, hiff⟩ := h.chunk hb
        refine Or.inr (Or.inl ⟨b.addr, List.mem_map.mpr ⟨b, hb, rfl⟩, hiff.mpr hfree, ?_⟩)
        rw [hunits]
        exact not_le.mp fun hle => hseen ⟨hin, hle⟩
      · exact Or.inl hin
    · exact Or.inr (Or.inr hnone)

/-- In every reachable state, `heapmgr_malloc` asks the kernel for memory only if no free chunk is
    large enough, and the search comes to nothing only then, if and only if the request and the
    free chunks are as `SeesWhatFits` says. -/
theorem heapmgr2_grows_iff (h0 : Start x₀)
    (hrun : Run (Guarded (fun x e => Allowed x e ∧ Small e) (step manager)) x₀ es x)
    (grant : Bool) {size : Int} (hpos : 0 < size) (hsmall : size ≤ 16 * (2 ^ 31 - 1)) :
    ∃ chunks, Walk x.heap.mem x.heap.gHeapStart chunks x.heap.gHeapEnd ∧
      ((∀ p t, heapmgrMalloc grant size x.heap = .ok (p, t) → t.asked ≠ x.heap.asked →
          NoneFits x.heap.mem chunks (sizeToUnits size)) ↔
        SeesWhatFits x.heap.mem chunks (sizeToUnits size)) ∧
      ((findBestFitChunk (sizeToUnits size) x.heap = .ok (null, x.heap) →
          NoneFits x.heap.mem chunks (sizeToUnits size)) ↔
        SeesWhatFits x.heap.mem chunks (sizeToUnits size)) := by
  obtain ⟨T, L, h⟩ := consistent_run manager_correct h0 hrun
  obtain ⟨hn, -⟩ := unitsFor_bounds hpos
  obtain ⟨p, t, heq, hr⟩ := manager_correct.malloc grant h.between hpos hsmall
  have hsees := seesWhatFits_iff h.between.ready hn
  have hhit := served_iff h.between.ready (n := unitsFor size)
  rw [ready_mem] at hsees
  rw [sizeToUnits_eq hpos hsmall]
  refine ⟨T.map Blk.addr, h.between.represents.walk, ?_, ?_⟩
  · have hasked := asked_iff hr
    constructor
    · intro hprop
      by_cases hserved : manager.served (ready x.heap) (unitsFor size)
      · exact hsees.mpr (Or.inl (hhit.mp hserved))
      · exact hsees.mpr (Or.inr (hprop p t heq (hasked.mpr hserved)))
    · intro hcond p' t' heq' hne
      obtain ⟨rfl, rfl⟩ := Prod.mk.inj (Except.ok.inj (heq.symm.trans heq'))
      exact (hsees.mp hcond).resolve_left fun hh => hasked.mp hne (hhit.mpr hh)
  · rcases h.between with ⟨hfresh, rfl, rfl⟩ | ⟨hinit, hinv⟩
    · have hnone : NoneFits x.heap.mem (([] : List Blk).map Blk.addr) (unitsFor size) :=
        fun c hc => absurd hc List.not_mem_nil
      exact iff_of_true (fun _ => hnone) (Or.inr (Or.inr hnone))
    · have hready : ready x.heap = x.heap := if_pos hinit
      rw [hready] at hhit hsees
      constructor
      · intro hprop
        by_cases hserved : manager.served x.heap (unitsFor size)
        · exact hsees.mpr (Or.inl (hhit.mp hserved))
        · refine hsees.mpr (Or.inr (hprop ?_))
          obtain ⟨r, hbest, -⟩ := findBestFitChunk_found hinv.toRep (unitsFor size)
          by_cases hnull : r.getD null = null
          · rw [hbest, hnull]
          · exact absurd ⟨_, hbest, hnull⟩ hserved
      · intro hcond hbest
        refine (hsees.mp hcond).resolve_left fun hh => ?_
        obtain ⟨c, hc, hne⟩ := hhit.mpr hh
        rw [hc] at hbest
        exact hne (Prod.mk.inj (Except.ok.inj hbest)).1

/-- The row of blocks after a first request for 962 units: one block in use, and one free block of
    60 units behind it. -/
theorem first_request : ∃ x T L b c, step manager starting (.malloc true 15392) x ∧
    Consistent manager x T L ∧ T = [b, c] ∧ b.kind = .inUse ∧ c.kind = .free ∧ c.units = 60 := by
  have hpos : (0 : Int) < 15392 := by decide
  have hsmall : (15392 : Int) ≤ 16 * (2 ^ 31 - 1) := by decide
  have h0 : Consistent manager starting [] (fun _ => []) := starting_start.consistent
  obtain ⟨p, t, heq, hr⟩ := manager_correct.malloc true h0.between hpos hsmall
  have hstep : step manager starting (.malloc true 15392) _ := exec_malloc heq
  cases hr with
  | found hhit =>
    obtain ⟨i, -, a, ha, -⟩ := (served_iff h0.between.ready).mp hhit
    exact absurd ha List.not_mem_nil
  | refused _ hno =>
    have hyes : Grants true (ready (starting : Client Bin).heap)
        ((wantedUnits (unitsFor 15392) + 2) * 16) := by decide
    exact absurd hyes hno
  | grown _ _ hp ht hext =>
    subst hp
    have h := h0.taken ht (show (1 : Int) ≤ 15392 by decide) (by decide)
    have hpos := ht.inv.addr_pos ht.mem
    rw [if_neg (by unfold null; omega)] at hstep
    have hrow : newRow (ready (starting : Client Bin).heap) (wantedUnits (unitsFor 15392))
        (unitsFor 15392) = [⟨4096, 962, .inUse⟩, ⟨4096 + 964 * 16, 60, .free⟩] := by decide
    have hT := hext.row
    rw [hrow, List.nil_append] at hT
    exact ⟨_, _, _, _, _, hstep, h, hT, rfl, rfl, rfl⟩

/-- A client that asks for 15392 bytes and then for 960: the chunk of 60 units that the first
    request leaves is in the list of the sizes from 33 to 64, which is not searched for 60. -/
theorem heapmgr2_grows_past_fit : ∃ x p t chunks,
    Run (Guarded (fun x e => Allowed x e ∧ Small e) (step manager)) starting
      [.malloc true 15392] x ∧
    Walk x.heap.mem x.heap.gHeapStart chunks x.heap.gHeapEnd ∧
    heapmgrMalloc true 960 x.heap = .ok (p, t) ∧ t.asked ≠ x.heap.asked ∧
    ¬ NoneFits x.heap.mem chunks (sizeToUnits 960) := by
  obtain ⟨x, T, L, b, c, hstep, h, rfl, hb, hc, hunits⟩ := first_request
  have hpos : (0 : Int) < 960 := by decide
  have hsmall : (960 : Int) ≤ 16 * (2 ^ 31 - 1) := by decide
  have hguard : Allowed (starting : Client Bin) (.malloc true 15392) ∧ Small (.malloc true 15392) :=
    ⟨⟨by decide, by decide⟩, show (15392 : Int) ≤ 16 * (2 ^ 31 - 1) by decide⟩
  obtain ⟨p, t, heq, hr⟩ := manager_correct.malloc true h.between hpos hsmall
  obtain ⟨hinit, hinv⟩ := h.between.inv (b := c) (by simp)
  have hready : ready x.heap = x.heap := if_pos hinit
  refine ⟨x, p, t, [b, c].map Blk.addr, (Run.nil starting).snoc ⟨hguard, hstep⟩,
    h.between.represents.walk, heq, (asked_iff hr).mpr fun hserved => ?_, fun hnone => ?_⟩
  · rw [served_iff h.between.ready, hit_iff h.between.ready (by decide)] at hserved
    obtain ⟨d, hd, hfree, -, hseen⟩ := hserved
    rcases List.mem_pair.mp hd with rfl | rfl
    · rw [hb] at hfree
      exact absurd hfree (by decide)
    · refine hseen ⟨by unfold InsideBin unitsFor; decide, ?_⟩
      rw [hunits]
      decide
  · obtain ⟨hcell, hiff⟩ := hinv.chunk (b := c) (by simp)
    have hlt := hnone c.addr (by simp) (hiff.mpr hc)
    rw [hcell, hunits] at hlt
    exact absurd hlt (by decide)

/-- There the condition fails for 960 bytes, and holds for 528, the smallest size of that list. -/
theorem heapmgr2_grows_iff_smallest : ∃ x, Run (Guarded (fun x e => Allowed x e ∧ Small e)
    (step manager)) starting [.malloc true 15392] x ∧
    ∃ chunks, Walk x.heap.mem x.heap.gHeapStart chunks x.heap.gHeapEnd ∧
      ∀ p t, heapmgrMalloc true 528 x.heap = .ok (p, t) → t.asked ≠ x.heap.asked →
        NoneFits x.heap.mem chunks (sizeToUnits 528) := by
  obtain ⟨x, T, L, b, c, hstep, -⟩ := first_request
  have hguard : Allowed (starting : Client Bin) (.malloc true 15392) ∧ Small (.malloc true 15392) :=
    ⟨⟨by decide, by decide⟩, show (15392 : Int) ≤ 16 * (2 ^ 31 - 1) by decide⟩
  have hrun := (Run.nil starting).snoc
    (show Guarded (fun x e => Allowed x e ∧ Small e) (step manager) starting _ x from
      ⟨hguard, hstep⟩)
  obtain ⟨chunks, hwalk, hiff, -⟩ := heapmgr2_grows_iff starting_start hrun true
    (show (0 : Int) < 528 by decide) (by decide)
  exact ⟨x, hrun, chunks, hwalk, hiff.mpr (Or.inl (by unfold InsideBin; decide))⟩

end SnuSysProg.Heapmgr2
