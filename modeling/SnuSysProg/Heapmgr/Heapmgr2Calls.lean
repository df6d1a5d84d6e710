import SnuSysProg.Heapmgr.Heapmgr2Bins

/-
  `heapmgr_malloc` and `heapmgr_free` of `heapmgr2.c` on a represented heap.

  `heapmgrMalloc_spec`: for a request whose units fit an `int` the call returns, no assert fails,
  and its result is a `MallocResult`. `heapmgrFree_spec` and `heapmgrFree_overflow` cover the
  other call: it returns if the freed chunk with its free neighbours has units that fit an `int`,
  and overflows otherwise.
-/

namespace SnuSysProg.Heapmgr2
open SnuSysProg.Lib SnuSysProg.Heapmgr

variable {lo : Int} {s t : State} {T pre post : List Blk} {L : Bin → List Int} {b c : Blk}

theorem splitAndRelocate_spec {n : Int} (h : Inv findBin lo s (pre ++ [c] ++ post) L)
    (hfree : c.kind = .free) (hlo0 : lo ≤ 1) (hlo : lo ≤ n) (hn : 0 ≤ n)
    (hfit : n + 2 < c.units) :
    Returns (splitAndRelocateRemainingChunk c.addr n) s fun r t =>
      r = (farPart c n .inUse).addr ∧
        Quiet (cellsOf (pre ++ [nearPart c n .free] ++ [farPart c n .inUse] ++ post)) s t ∧ ∃ L',
          Rep findBin lo t (pre ++ [nearPart c n .free] ++ [farPart c n .inUse] ++ post) L' ∧
            (nearPart c n .free).addr ∈ L' (findBin (nearPart c n .free).units) ∧
              ∀ x, x ∈ pre ∨ x ∈ post → ∀ j, x.addr ∈ L j → x.addr ∈ L' j := by
  have hc : c ∈ pre ++ [c] ++ post := by simp
  have hraw : c.kind ≠ .raw := by rw [hfree]; decide
  have hne := h.covers.addr_ne hc
  have hstart := h.tiles.start_le hc
  have hstop := h.tiles.stop_le hc
  have hend : c.addr ≤ s.gHeapEnd := by
    unfold Blk.stop at hstop
    omega
  have hstatus := (status_eq_free_iff h.toRep hc hraw).mpr hfree
  have hsize := (h.toRep.cell_units hc hraw).2
  obtain ⟨htwo, hkeep, hn'⟩ := cut_units hn hfit (h.sized c hc).2
  have hgt : toSize (cellAt s.mem c.addr).units > toSize (n + 2) := by
    rw [hsize, htwo]
    exact hfit
  unfold splitAndRelocateRemainingChunk
  refine Returns.step (get_apply s) ?_
  refine Returns.step (assert_ok ⟨hstart, hend⟩) ?_
  refine Returns.step (chunkGetStatus_ok hne) ?_
  refine Returns.step (assert_ok hstatus) ?_
  refine Returns.step (chunkGetUnits_ok hne) ?_
  refine Returns.step (assert_ok hgt) ?_
  have hlisted := h.filed c hc hfree
  refine Returns.bind (removeChunkFromList_spec h.toRep hlisted) fun _ s1 ⟨h1, hq1⟩ => ?_
  have hc1 : ({ c with kind := .inUse } : Blk) ∈ pre ++ [{ c with kind := .inUse }] ++ post := by
    simp
  have hunl1 := h1.unlisted hc1 (show Kind.inUse ≠ Kind.free by decide)
  have hsize1 : toSize (cellAt s1.mem c.addr).units = c.units :=
    (h1.cell_units hc1 (show Kind.inUse ≠ Kind.raw by decide)).2
  refine Returns.step (chunkGetUnits_ok hne) ?_
  dsimp only
  rw [hsize1, hkeep, hn']
  have hcut := writeUnits_cutEnd h1 hunl1 (show Kind.inUse ≠ Kind.raw by decide) hlo0 hlo hn hfit
  refine Returns.bind hcut fun _ s2 ⟨h2, hq2, _⟩ => ?_
  have h2' : Rep findBin lo s2 (pre ++ [nearPart c n .inUse] ++ (farPart c n .raw :: post)) _ := h2
  have hunl2 := h2'.unlisted (b := nearPart c n .inUse) (by simp)
    (show Kind.inUse ≠ Kind.free by decide)
  have hset := chunkSetStatus_spec (k := .free) h2' hunl2 (show Kind.inUse ≠ Kind.raw by decide)
  refine Returns.bind hset fun _ s3 ⟨h3, hq3, _⟩ => ?_
  have hmem3 : nearPart c n .free ∈
      pre ++ [nearPart c n .free] ++ (farPart c n .raw :: post) := by simp
  have hins := insertChunk_spec h3 hmem3 rfl (nearPart_units_pos hfit) hunl2
  refine Returns.bind hins fun _ s4 ⟨h4, hq4⟩ => ?_
  have hrow : pre ++ [nearPart c n .free] ++ (farPart c n .raw :: post) =
      pre ++ [nearPart c n .free, farPart c n .raw] ++ post := by simp
  have hrow' : pre ++ [nearPart c n .free] ++ (farPart c n .raw :: post) =
      pre ++ [nearPart c n .free] ++ [farPart c n .raw] ++ post := by simp
  refine Returns.step (nextAdjacent_pair (b := nearPart c n .free) (hrow ▸ h4)
    (show Kind.free ≠ Kind.raw by decide)) ?_
  have hform := formRaw_spec (k := .inUse) (hrow' ▸ h4) rfl
  refine Returns.group ?_
  refine Returns.bind hform fun _ t ⟨ht, hqt, _⟩ => ?_
  refine Returns.pure ⟨rfl, ?_, _, ht, mem_filed_self (nearPart c n .free), ?_⟩
  · have hold : cellsOf (pre ++ [c] ++ post) ⊆
        cellsOf (pre ++ [nearPart c n .free] ++ [farPart c n .inUse] ++ post) := by
      rw [List.append_assoc pre [nearPart c n .free]]
      exact cellsOf_cutEnd n .free .inUse
    have hnear : (nearPart c n .free).cells ⊆
        cellsOf (pre ++ [nearPart c n .free] ++ [farPart c n .inUse] ++ post) :=
      cells_sub_cellsOf (by simp)
    have hfar : (farPart c n .inUse).cells ⊆
        cellsOf (pre ++ [nearPart c n .free] ++ [farPart c n .inUse] ++ post) :=
      cells_sub_cellsOf (by simp)
    have hins4 : cellsOf (pre ++ [nearPart c n .free] ++ (farPart c n .raw :: post)) ⊆
        cellsOf (pre ++ [nearPart c n .free] ++ [farPart c n .inUse] ++ post) := by
      rw [hrow']
      exact cellsOf_kind _
    exact ((((hq1.mono hold).trans (hq2.mono hnear)).trans (hq3.mono hnear)).trans
      (hq4.mono hins4)).trans (hqt.mono hfar)
  · intro x hx j hxj
    exact mem_filed_of_mem (mem_after_erase (h.tiles.addr_ne hx) hxj)

/-- The chunk the search found is taken, whole or the far end of it. -/
theorem takeChunk_spec {n : Int} (h : Inv findBin lo s (pre ++ [c] ++ post) L)
    (hfree : c.kind = .free) (hlo0 : lo ≤ 1) (hlo : lo ≤ n) (hn : 0 ≤ n) (hle : n ≤ c.units) :
    Returns (takeChunk n c.addr) s fun r t => ∃ T' L' b, r = b.addr ∧
      Taken findBin lo s t (pre ++ [c] ++ post) T' L' b n ∧ t.gHeapEnd = s.gHeapEnd ∧
        t.asked = s.asked := by
  have hc : c ∈ pre ++ [c] ++ post := by simp
  have hraw : c.kind ≠ .raw := by rw [hfree]; decide
  have hne := h.covers.addr_ne hc
  have hlt := (h.sized c hc).2
  have hsize := (h.toRep.cell_units hc hraw).2
  have htwo : toSize (n + 2) = n + 2 := toSize_of_lt (by omega) (by omega)
  unfold takeChunk
  refine Returns.step (chunkGetUnits_ok hne) ?_
  rw [hsize, htwo]
  by_cases hbig : c.units > n + 2
  · rw [if_pos hbig]
    refine (splitAndRelocate_spec h hfree hlo0 hlo hn hbig).mono
      fun r t ⟨hr, hq, L', ht, hnear, hkeep⟩ => ?_
    exact ⟨_, L', _, hr, taken_of_cut h hfree ht hq hnear hkeep, hq.gHeapEnd, hq.asked⟩
  · rw [if_neg hbig]
    refine Returns.bind (takeWhole_spec h hfree ⟨hle, by omega⟩) fun _ t ⟨L', ht, hq⟩ => ?_
    exact Returns.pure ⟨_, L', { c with kind := .inUse }, rfl, ht, hq.gHeapEnd, hq.asked⟩

theorem mallocFromChunk_spec {n : Int} (h : Inv findBin lo s (pre ++ [c] ++ post) L)
    (hfree : c.kind = .free) (hlo0 : lo ≤ 1) (hlo : lo ≤ n) (hn : 0 ≤ n) (hle : n ≤ c.units) :
    Returns (mallocFromChunk n c.addr) s fun p t => ∃ T' L' b, p = b.addr + 16 ∧
      Taken findBin lo s t (pre ++ [c] ++ post) T' L' b n ∧ t.gHeapEnd = s.gHeapEnd ∧
        t.asked = s.asked := by
  have hc : c ∈ pre ++ [c] ++ post := by simp
  have hne := h.covers.addr_ne hc
  have hsize := (h.toRep.cell_units hc (by rw [hfree]; decide)).2
  unfold mallocFromChunk
  refine Returns.step (chunkGetUnits_ok hne) ?_
  rw [hsize]
  refine Returns.step (assert_ok hle) ?_
  refine Returns.bind (takeChunk_spec h hfree hlo0 hlo hn hle)
    fun r t ⟨T', L', b, hr, ht, hend, hasked⟩ => ?_
  subst hr
  have hraw : b.kind ≠ .raw := ht.inv.noRaw b ht.mem
  have hstatus : (cellAt t.mem b.addr).status = chunkInUse := by
    rw [show (cellAt t.mem b.addr).status = b.kind.status from
      (ht.inv.formed b ht.mem hraw).status, ht.kind]
    rfl
  refine Returns.step (checkHeapValidity_ok ht.inv.toRep) ?_
  refine Returns.step (assert_ok rfl) ?_
  refine Returns.step (chunkGetStatus_ok (ht.inv.covers.addr_ne ht.mem)) ?_
  refine Returns.step (assert_ok hstatus) ?_
  exact Returns.pure ⟨T', L', b, rfl, ht, hend, hasked⟩

theorem initMyHeap_ok (h : Fresh s) :
    initMyHeap s = .ok ((), { s with gHeapStart := s.brk, gHeapEnd := s.brk }) := by
  have hlt : s.brk < 2 ^ 64 - 1 := h.brk.2
  have hheads : (fun i => if i = Bin.large then s.freeHead Bin.large else null) = s.freeHead := by
    funext i
    by_cases hi : i = Bin.large
    · rw [if_pos hi, hi]
    · rw [if_neg hi, h.freeHead i]
  unfold initMyHeap
  rw [bind_of_ok (modify_apply _ s), hheads]
  exact initHeapBounds_ok (ne_of_lt hlt)

theorem initOnce_ok (h : Between findBin lo s T L) : initOnce s = .ok ((), ready s) := by
  unfold initOnce ready
  rw [bind_of_ok (get_apply s)]
  rcases h with ⟨hfresh, -, -⟩ | ⟨hinit, -⟩
  · have hnot : ¬ s.isInit = true := by
      rw [hfresh.isInit]
      decide
    rw [if_neg hnot, if_neg hnot, bind_of_ok (initMyHeap_ok hfresh)]
    rfl
  · rw [if_pos hinit, if_pos hinit]
    rfl

/-- The search has something for a request of `n` units. -/
def Hit (s : State) (L : Bin → List Int) (n : Int) : Prop :=
  ∃ i, Searched n i ∧ ∃ a ∈ L i, Fits s n a

theorem heapmgrMalloc_spec (grant : Bool) {size n : Int} (h : Between findBin lo s T L)
    (hsize : 0 < size) (hunits : sizeToUnits size = n) (hlo0 : lo ≤ 1) (hlo : lo ≤ n)
    (hn : 0 ≤ n) (hn' : n < 2 ^ 31) :
    Returns (heapmgrMalloc grant size) s
      (MallocResult findBin lo grant (ready s) T n (Hit (ready s) L n)) := by
  have hinv := h.ready
  have hcheck := checkHeapValidity_ok hinv.toRep
  obtain ⟨r, hr, hfound⟩ := findBestFitChunk_found hinv.toRep n
  unfold heapmgrMalloc
  rw [if_neg (Int.not_le.mpr hsize)]
  refine Returns.step (initOnce_ok h) ?_
  refine Returns.step hcheck ?_
  refine Returns.step (assert_ok rfl) ?_
  dsimp only
  rw [hunits]
  refine Returns.step hr ?_
  rcases hfound with ⟨rfl, hnone⟩ | ⟨i, a, rfl, hi, ha, hfit⟩
  · have hmiss : ¬ Hit (ready s) L n := by
      rintro ⟨i, hi, a, ha, hfit⟩
      exact hnone i hi a ha hfit
    rw [Option.getD_none, if_neg (not_not.mpr rfl)]
    refine (mallocFromSystem_spec (checks lo) hinv hlo0 hlo hn hn').mono fun p t ht => ?_
    rcases ht with ⟨hno, hp, ht⟩ | ⟨hyes, T', L', b, hp, htaken, hext⟩
    · exact .refused hmiss hno hp ht
    · exact .grown hmiss hyes hp htaken hext
  · obtain ⟨c, hc, rfl, hfree, hle, -⟩ := hinv.toRep.fits ha hfit
    have hne := hinv.covers.addr_ne hc
    obtain ⟨pre, post, rfl⟩ := List.append_of_mem hc
    have hrow : pre ++ c :: post = pre ++ [c] ++ post := by simp
    rw [hrow] at hinv ⊢
    rw [Option.getD_some, if_pos hne]
    refine (mallocFromChunk_spec hinv hfree hlo0 hlo hn hle).mono
      fun p t ⟨T', L', b, hp, ht, hend, hasked⟩ => ?_
    exact .found ⟨i, hi, c.addr, ha, hfit⟩ hp ht hend hasked

end SnuSysProg.Heapmgr2
