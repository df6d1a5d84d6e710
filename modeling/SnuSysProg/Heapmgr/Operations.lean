import SnuSysProg.Heapmgr.Rep

/-
  What the functions on chunks do to the represented heap.

  One lemma a function: started in a state that represents blocks `T` and lists `L`, the function
  returns, and the state it leaves represents the blocks and lists the function is for. Writes stay
  inside the cells of the blocks involved, so everything else in memory is as before.
-/

namespace SnuSysProg.Heapmgr
open SnuSysProg.Lib

variable {β : Type} {findBin : Int → β} {lo : Int} {s t : Heap β} {T pre post : List Blk}
  {L : β → List Int} {b c c1 c2 : Blk} {i : β} {W : Set Int}

/-! ## Writes -/

theorem Quiet.write {a : Int} {m : Mem} (h : Quiet W s t) (hm : AgreeOff (cellBytes a) t.mem m)
    (ha : cellBytes a ⊆ W) : Quiet W s { t with mem := m } :=
  ⟨h.mem.trans (hm.mono ha), h.brk, h.asked, h.gHeapStart, h.gHeapEnd, h.isInit⟩

theorem Quiet.heads (h : Quiet W s t) (g : β → Int) : Quiet W s { t with freeHead := g } :=
  ⟨h.mem, h.brk, h.asked, h.gHeapStart, h.gHeapEnd, h.isInit⟩

theorem header_sub_cellsOf (hb : b ∈ T) : cellBytes b.addr ⊆ cellsOf T :=
  (header_sub_cells b).trans (cells_sub_cellsOf hb)

theorem footer_sub_cellsOf (hb : b ∈ T) : cellBytes b.footer ⊆ cellsOf T :=
  (footer_sub_cells b).trans (cells_sub_cellsOf hb)

/-! ## Neighbours -/

/-- A heap whose bounds are those of a row of blocks. -/
structure Covers (s : Heap β) (T : List Blk) : Prop where
  start : 0 < s.gHeapStart
  tiles : Tiles s.gHeapStart T s.gHeapEnd

theorem Rep.covers (h : Rep findBin lo s T L) : Covers s T := ⟨h.start, h.tiles⟩

theorem Covers.addr_ne (h : Covers s T) (hb : b ∈ T) : b.addr ≠ 0 := by
  have := h.tiles.start_le hb
  have := h.start
  omega

theorem Covers.footer_ne (h : Covers s T) (hb : b ∈ T) : b.footer ≠ 0 := by
  have := h.tiles.start_le hb
  have := h.tiles.units_nonneg hb
  have := h.start
  unfold Blk.footer
  omega

theorem footerFromHeader_blk (h : Covers s T) (hb : b ∈ T)
    (hunits : (recAt s.mem b).units = b.units) :
    footerFromHeader b.addr s = .ok (b.footer, s) := by
  have hstart := h.tiles.start_le hb
  have hstop := h.tiles.stop_le hb
  have hnonneg := h.tiles.units_nonneg hb
  have hcell : (cellAt s.mem b.addr).units = b.units := hunits
  have hlt : b.addr + (b.units + 1) * 16 < s.gHeapEnd := by
    unfold Blk.stop at hstop
    omega
  have hle : b.addr ≤ s.gHeapEnd := by omega
  unfold footerFromHeader
  rw [bind_of_ok (get_apply s), chunkGetFooterFromHeader_ok (h.addr_ne hb) hstart hle, hcell,
    if_neg (Int.not_le.mpr hlt)]
  rfl

theorem nextAdjacent_blk (h : Covers s T) (hb : b ∈ T)
    (hunits : (recAt s.mem b).units = b.units) :
    nextAdjacent b.addr s = .ok (if b.stop ≥ s.gHeapEnd then 0 else b.stop, s) := by
  have hcell : (cellAt s.mem b.addr).units = b.units := hunits
  unfold nextAdjacent
  rw [bind_of_ok (get_apply s), chunkGetNextAdjacent_ok (h.addr_ne hb) (h.tiles.start_le hb), hcell]
  rfl

/-- The block behind `b`, if there is one. -/
theorem nextAdjacent_mid (h : Covers s (pre ++ [b] ++ c :: post))
    (hunits : (recAt s.mem b).units = b.units) : nextAdjacent b.addr s = .ok (c.addr, s) := by
  have hb : b ∈ pre ++ [b] ++ c :: post := by simp
  have hc : c ∈ pre ++ [b] ++ c :: post := by simp
  have hstop : b.stop = c.addr := by
    obtain ⟨y, hpb, hcp⟩ := Tiles.append_iff.mp h.tiles
    obtain ⟨x, -, hb'⟩ := Tiles.append_iff.mp hpb
    exact hb'.2.2.trans hcp.1.symm
  have hlt : b.stop < s.gHeapEnd := by
    have := h.tiles.stop_le hc
    have := h.tiles.units_nonneg hc
    unfold Blk.stop at *
    omega
  rw [nextAdjacent_blk h hb hunits, if_neg (Int.not_le.mpr hlt), hstop]

theorem nextAdjacent_last (h : Covers s (pre ++ [b]))
    (hunits : (recAt s.mem b).units = b.units) : nextAdjacent b.addr s = .ok (0, s) := by
  have hb : b ∈ pre ++ [b] := by simp
  have hstop : b.stop = s.gHeapEnd := by
    obtain ⟨y, -, hb'⟩ := Tiles.append_iff.mp h.tiles
    exact hb'.2.2
  rw [nextAdjacent_blk h hb hunits, if_pos (le_of_eq hstop.symm)]

theorem prevAdjacent_mid (h : Covers s (pre ++ [c] ++ b :: post))
    (hunits : (recAt s.mem c).footerUnits = c.units) :
    prevAdjacent b.addr s = .ok (c.addr, s) := by
  have hc : c ∈ pre ++ [c] ++ b :: post := by simp
  have hb : b ∈ pre ++ [c] ++ b :: post := by simp
  have hstop : c.stop = b.addr := by
    obtain ⟨y, hpc, hbp⟩ := Tiles.append_iff.mp h.tiles
    obtain ⟨x, -, hc'⟩ := Tiles.append_iff.mp hpc
    exact hc'.2.2.trans hbp.1.symm
  have hfooter : b.addr - 16 = c.footer := by
    unfold Blk.stop at hstop
    unfold Blk.footer
    omega
  have hcell : (cellAt s.mem c.footer).units = c.units := hunits
  have hstart := h.tiles.start_le hc
  have hnonneg := h.tiles.units_nonneg hc
  have hend : b.addr ≤ s.gHeapEnd := by
    have := h.tiles.stop_le hb
    have := h.tiles.units_nonneg hb
    unfold Blk.stop at *
    omega
  have hge : ¬ c.footer < s.gHeapStart := by
    unfold Blk.footer
    omega
  have hback : c.footer - (c.units + 1) * 16 = c.addr := by
    unfold Blk.footer
    omega
  unfold prevAdjacent chunkGetPrevAdjacent
  rw [bind_of_ok (get_apply s), bind_of_ok (assert_ok hend), hfooter, if_neg hge,
    bind_of_ok (chunkFooterGetUnits_ok (h.footer_ne hc)), hcell, hback,
    if_neg (Int.not_lt.mpr hstart)]
  rfl

theorem prevAdjacent_first (h : Covers s (b :: post)) : prevAdjacent b.addr s = .ok (0, s) := by
  have hb : b ∈ b :: post := List.mem_cons_self ..
  have haddr : b.addr = s.gHeapStart := h.tiles.1
  have hend : b.addr ≤ s.gHeapEnd := by
    have := h.tiles.stop_le hb
    have := h.tiles.units_nonneg hb
    unfold Blk.stop at *
    omega
  have hlt : b.addr - 16 < s.gHeapStart := by omega
  unfold prevAdjacent chunkGetPrevAdjacent
  rw [bind_of_ok (get_apply s), bind_of_ok (assert_ok hend), if_pos hlt]
  rfl

/-- The pointers of a block fit in 64 bits. -/
theorem Rep.addr_range (h : Rep findBin lo s T L) (hb : b ∈ T) : 0 ≤ b.addr ∧ b.addr < 2 ^ 64 := by
  have hpos := h.addr_pos hb
  have hlt := h.stop_lt hb
  have hu := h.tiles.units_nonneg hb
  unfold Blk.stop at hlt
  omega

theorem Rep.cell_units (h : Rep findBin lo s T L) (hb : b ∈ T) (hk : b.kind ≠ .raw) :
    (cellAt s.mem b.addr).units = b.units ∧ toSize (cellAt s.mem b.addr).units = b.units := by
  have hunits : (cellAt s.mem b.addr).units = b.units := (h.formed b hb hk).units
  have hu := h.tiles.units_nonneg hb
  have hlt := (h.sized b hb).2
  refine ⟨hunits, ?_⟩
  rw [hunits, toSize_of_lt hu (by omega)]

/-- The chunk at `a` has `n` units at least. -/
def Fits (s : Heap β) (n a : Int) : Prop := toSize (cellAt s.mem a).units ≥ n

/-- A chunk of a list that is large enough is a free block that is. -/
theorem Rep.fits {n a : Int} (h : Rep findBin lo s T L) (ha : a ∈ L i) (hfit : Fits s n a) :
    ∃ c ∈ T, c.addr = a ∧ c.kind = .free ∧ n ≤ c.units ∧ findBin c.units = i := by
  obtain ⟨c, hc, rfl, hfree, hbin⟩ := h.listed ha
  have hsize := (h.cell_units hc (by rw [hfree]; decide)).2
  unfold Fits at hfit
  rw [hsize] at hfit
  exact ⟨c, hc, rfl, hfree, hfit, hbin.2⟩

/-! ## Unlinking and inserting -/

section Lists

variable [DecidableEq β]

theorem unlinkChunk_spec (h : Rep findBin lo s T L) (hci : c.addr ∈ L i) :
    Returns (unlinkChunk i (predOf 0 (L i) c.addr) (succOf 0 (L i) c.addr)) s fun _ t =>
      Rep findBin lo t T (Function.update L i ((L i).erase c.addr)) ∧
        Quiet (cellsOf T) s t := by
  have hpos : ∀ b ∈ T, b.addr ≠ 0 := fun b hb => (h.addr_pos hb).ne'
  have hcov := h.covers
  unfold unlinkChunk
  rcases h.ptr_cases (predOf_mem_or 0 (L i) c.addr) with hp | ⟨bp, hbp, hp, -, hpfree⟩ <;>
    rcases h.ptr_cases (succOf_mem_or 0 (L i) c.addr) with hn | ⟨bn, hbn, hn, -, hnfree⟩
  · -- the only chunk of its list
    rw [hp, hn, if_pos ⟨rfl, rfl⟩]
    have hq : Quiet (cellsOf T) s { s with freeHead := Function.update s.freeHead i 0 } :=
      (Quiet.refl _ s).heads _
    refine Returns.intro rfl ⟨h.unlink hci hq ?_ fun b hb => ?_, hq⟩
    · rw [hp, hn, if_pos rfl]
    · rw [hp, hn, if_neg (hpos b hb), if_neg (hpos b hb)]
  · -- the first of several
    have hne := hpos bn hbn
    have hunits := (h.formed bn hbn (by rw [hnfree]; decide)).units
    rw [hp, ← hn, if_neg fun hh => hne hh.2, if_pos rfl]
    refine Returns.step (footerFromHeader_blk hcov hbn hunits) ?_
    refine Returns.step (assert_ok (hcov.footer_ne hbn)) ?_
    refine Returns.step (chunkFooterSetPrevFreeChunk_ok (hcov.footer_ne hbn)) ?_
    have hq := (((Quiet.refl _ s).write (agreeOff_setLink s.mem bn.footer 0)
      (footer_sub_cellsOf hbn)).heads (Function.update s.freeHead i bn.addr))
    refine Returns.intro rfl ⟨h.unlink hci hq ?_ fun b hb => ?_, hq⟩
    · rw [hp, ← hn, if_pos rfl]
    · rw [hp, ← hn, if_neg (hpos b hb)]
      rw [recAt_setPrev h.tiles hb hbn (by decide) (by decide)]
      split <;> rfl
  · -- the last of several
    have hne := hpos bp hbp
    rw [hn, ← hp, if_neg fun hh => hne hh.1, if_neg hne, if_pos rfl]
    have hq := (Quiet.refl (cellsOf T) s).write (agreeOff_setLink s.mem bp.addr 0)
      (header_sub_cellsOf hbp)
    refine Returns.intro (chunkSetNextFreeChunk_ok hne) ⟨h.unlink hci hq ?_ fun b hb => ?_, hq⟩
    · rw [← hp, if_neg hne]
    · rw [← hp, hn, if_neg (hpos b hb)]
      rw [recAt_setNext h.tiles hb hbp (by decide) (by decide)]
      split <;> rfl
  · -- between two others
    have hpne := hpos bp hbp
    have hnne := hpos bn hbn
    have hunits := (h.formed bn hbn (by rw [hnfree]; decide)).units
    have hplt := h.stop_lt hbp
    have hpu := h.tiles.units_nonneg hbp
    have hpp := h.addr_pos hbp
    have hnlt := h.stop_lt hbn
    have hnu := h.tiles.units_nonneg hbn
    have hnp := h.addr_pos hbn
    unfold Blk.stop at hplt hnlt
    rw [← hp, ← hn, if_neg fun hh => hpne hh.1, if_neg hpne, if_neg hnne]
    refine Returns.step (footerFromHeader_blk hcov hbn hunits) ?_
    refine Returns.step (assert_ok (hcov.footer_ne hbn)) ?_
    refine Returns.step (chunkFooterSetPrevFreeChunk_ok (hcov.footer_ne hbn)) ?_
    have hq := (((Quiet.refl _ s).write (agreeOff_setLink s.mem bn.footer bp.addr)
      (footer_sub_cellsOf hbn)).write (agreeOff_setLink _ bp.addr bn.addr) (header_sub_cellsOf hbp))
    refine Returns.intro (chunkSetNextFreeChunk_ok hpne) ⟨h.unlink hci hq ?_ fun b hb => ?_, hq⟩
    · rw [← hp, if_neg hpne]
    · rw [← hp, ← hn]
      rw [recAt_setNext h.tiles hb hbp (by omega) (by omega),
        recAt_setPrev h.tiles hb hbn (by omega) (by omega)]
      split <;> split <;> rfl

theorem insertChunk_spec (h : Rep findBin lo s T L) (hc : c ∈ T) (hfree : c.kind = .free)
    (hunits : 1 ≤ c.units) (hunlisted : ∀ j, c.addr ∉ L j) :
    Returns (insertChunk findBin c.addr) s fun _ t =>
      Rep findBin lo t T
          (Function.update L (findBin c.units) (c.addr :: L (findBin c.units))) ∧
        Quiet (cellsOf T) s t := by
  have hcov := h.covers
  have hne := hcov.addr_ne hc
  have hfne := hcov.footer_ne hc
  have hform := h.formed c hc (by rw [hfree]; decide)
  obtain ⟨hcell, hsize⟩ := h.cell_units hc (by rw [hfree]; decide)
  have hstatus : (cellAt s.mem c.addr).status = chunkFree := hform.status.trans (by rw [hfree]; rfl)
  have hge : 1 ≤ (cellAt s.mem c.addr).units := by rw [hcell]; exact hunits
  unfold insertChunk
  refine Returns.step (assert_ok hne) ?_
  refine Returns.step (chunkGetUnits_ok hne) ?_
  refine Returns.step (assert_ok hge) ?_
  refine Returns.step (chunkGetStatus_ok hne) ?_
  refine Returns.step (assert_ok hstatus) ?_
  refine Returns.step (chunkGetUnits_ok hne) ?_
  rw [hsize]
  refine Returns.step (footerFromHeader_blk hcov hc hform.units) ?_
  refine Returns.step (assert_ok hfne) ?_
  refine Returns.step (get_apply s) ?_
  dsimp only
  by_cases hnil : L (findBin c.units) = []
  · have hhead : s.freeHead (findBin c.units) = null := by rw [h.head, hnil]; rfl
    rw [if_pos hhead]
    refine Returns.step (modify_apply _ _) ?_
    refine Returns.step (chunkSetNextFreeChunk_ok hne) ?_
    have hq := ((((Quiet.refl _ s).heads
        (Function.update s.freeHead (findBin c.units) c.addr)).write
      (agreeOff_setLink _ c.addr 0) (header_sub_cellsOf hc)).write (agreeOff_setLink _ c.footer 0)
      (footer_sub_cellsOf hc))
    refine Returns.intro (chunkFooterSetPrevFreeChunk_ok hfne)
      ⟨h.link hc hfree hunits rfl hunlisted hq rfl fun b hb => ?_, hq⟩
    rw [hnil, List.headD_nil, if_neg (h.addr_pos hb).ne',
      recAt_setPrev h.tiles hb hc (by decide) (by decide),
      recAt_setNext h.tiles hb hc (by decide) (by decide)]
    split <;> rfl
  · -- the old head gets `c` as its predecessor
    have hfirst : (L (findBin c.units)).headD 0 ∈ L (findBin c.units) := headD_mem hnil
    obtain ⟨bh, hbh, hbhead, hbfree, -⟩ := h.listed hfirst
    have hhead : s.freeHead (findBin c.units) = bh.addr := by rw [h.head, hbhead]
    have hbform := h.formed bh hbh (by rw [hbfree]; decide)
    have hbc : bh.addr ≠ c.addr := fun heq =>
      hunlisted (findBin c.units) (heq ▸ hbhead ▸ headD_mem hnil)
    obtain ⟨hc1, hc2⟩ := h.addr_range hc
    obtain ⟨hb1, hb2⟩ := h.addr_range hbh
    rw [hhead, if_neg (hcov.addr_ne hbh)]
    refine Returns.step (chunkSetNextFreeChunk_ok hne) ?_
    refine Returns.step (chunkFooterSetPrevFreeChunk_ok hfne) ?_
    have hunits' : (recAt (setLink (setLink s.mem c.addr bh.addr) c.footer null) bh).units =
        bh.units := by
      rw [recAt_setPrev h.tiles hbh hc (by decide) (by decide), if_neg hbc,
        recAt_setNext h.tiles hbh hc hb1 hb2, if_neg hbc, hbform.units]
    refine Returns.step (footerFromHeader_blk ⟨h.start, h.tiles⟩ hbh hunits') ?_
    refine Returns.step (assert_ok (hcov.footer_ne hbh)) ?_
    refine Returns.step (chunkFooterSetPrevFreeChunk_ok (hcov.footer_ne hbh)) ?_
    have hq := ((((Quiet.refl _ s).write (agreeOff_setLink _ c.addr bh.addr)
      (header_sub_cellsOf hc)).write (agreeOff_setLink _ c.footer 0) (footer_sub_cellsOf hc)).write
      (agreeOff_setLink _ bh.footer c.addr) (footer_sub_cellsOf hbh)).heads
      (Function.update s.freeHead (findBin c.units) c.addr)
    refine Returns.intro rfl ⟨h.link hc hfree hunits rfl hunlisted hq rfl fun b hb => ?_, hq⟩
    dsimp only
    rw [← hbhead, recAt_setPrev h.tiles hb hbh hc1 hc2,
      recAt_setPrev h.tiles hb hc (by decide) (by decide), recAt_setNext h.tiles hb hc hb1 hb2]
    by_cases hbb : b.addr = c.addr
    · have hbn : b.addr ≠ bh.addr := fun heq => hbc (heq.symm.trans hbb)
      rw [if_neg hbn, if_pos hbb, if_pos hbb, if_pos hbb, if_pos hbb]
    · rw [if_neg hbb, if_neg hbb, if_neg hbb, if_neg hbb]
      split <;> rfl

theorem removeChunkFromList_spec (h : Rep findBin lo s (pre ++ [c] ++ post) L)
    (hci : c.addr ∈ L i) :
    Returns (removeChunkFromList findBin c.addr) s fun _ t =>
      Rep findBin lo t (pre ++ [{ c with kind := .inUse }] ++ post)
          (Function.update L i ((L i).erase c.addr)) ∧
        Quiet (cellsOf (pre ++ [c] ++ post)) s t := by
  have hc : c ∈ pre ++ [c] ++ post := by simp
  obtain ⟨hfree, -, hbin⟩ := h.of_mem_list hc hci
  have hcov := h.covers
  have hne := hcov.addr_ne hc
  have hfne := hcov.footer_ne hc
  have hraw : c.kind ≠ .raw := by rw [hfree]; decide
  have hform := h.formed c hc hraw
  obtain ⟨hcell, hsize⟩ := h.cell_units hc hraw
  have hstatus : (cellAt s.mem c.addr).status = chunkFree := hform.status.trans (by rw [hfree]; rfl)
  obtain ⟨hnext, hprev⟩ := h.linked i c hc hci
  unfold removeChunkFromList
  refine Returns.step (assert_ok hne) ?_
  refine Returns.step (chunkGetStatus_ok hne) ?_
  refine Returns.step (assert_ok hstatus) ?_
  refine Returns.step (chunkGetUnits_ok hne) ?_
  rw [hsize, hbin]
  refine Returns.step (footerFromHeader_blk hcov hc hform.units) ?_
  refine Returns.step (assert_ok hfne) ?_
  refine Returns.step (chunkFooterGetPrevFreeChunk_ok hfne) ?_
  refine Returns.step (chunkGetNextFreeChunk_ok hne) ?_
  rw [show (cellAt s.mem c.footer).link = predOf 0 (L i) c.addr from hprev,
    show (cellAt s.mem c.addr).link = succOf 0 (L i) c.addr from hnext]
  refine Returns.bind (unlinkChunk_spec h hci) fun _ s1 ⟨h1, hq1⟩ => ?_
  refine Returns.step (chunkSetNextFreeChunk_ok hne) ?_
  refine Returns.step (chunkFooterSetPrevFreeChunk_ok hfne) ?_
  have hwrites : ∀ W, cellBytes c.addr ⊆ W → cellBytes c.footer ⊆ W →
      Quiet W s1
        { s1 with mem := setStatus (setLink (setLink s1.mem c.addr 0) c.footer 0) c.addr 1 } :=
    fun W hh hf =>
    (((Quiet.refl W s1).write (agreeOff_setLink _ c.addr 0) hh).write
      (agreeOff_setLink _ c.footer 0) hf).write (agreeOff_setStatus _ c.addr 1) hh
  refine Returns.intro (chunkSetStatus_ok hne) ⟨?_, hq1.trans (hwrites _ (header_sub_cellsOf hc)
    (footer_sub_cellsOf hc))⟩
  have hspan : c.cells ⊆ spanOf [c] := fun x hx =>
    ⟨c, List.mem_singleton_self c, cells_sub_span (h.tiles.units_nonneg hc) hx⟩
  refine h1.replace (hwrites _ ((header_sub_cells c).trans hspan)
    ((footer_sub_cells c).trans hspan))
    rfl ?_ ?_ ?_ ?_
  · intro b hb j hbj
    obtain rfl := List.mem_singleton.mp hb
    by_cases hji : j = i
    · subst hji
      rw [Function.update_self] at hbj
      exact ((List.Nodup.mem_erase_iff (h.nodup j)).mp hbj).1 rfl
    · rw [Function.update_of_ne hji] at hbj
      exact hji ((h.of_mem_list hc hbj).2.2.symm.trans hbin)
  · exact fun x y hxy => hxy
  · intro b hb
    obtain rfl := List.mem_singleton.mp hb
    exact h.sized c hc
  · intro b hb _
    obtain rfl := List.mem_singleton.mp hb
    have hform1 := h1.formed c hc hraw
    have hrec : recAt (setStatus (setLink (setLink s1.mem c.addr 0) c.footer 0) c.addr chunkInUse)
        c = { recAt s1.mem c with next := 0, prev := 0, status := chunkInUse } := by
      rw [recAt_setStatus h.tiles hc hc (by decide) (by decide), if_pos rfl,
        recAt_setPrev h.tiles hc hc (by decide) (by decide), if_pos rfl,
        recAt_setNext h.tiles hc hc (by decide) (by decide), if_pos rfl]
    refine ⟨?_, ?_, ?_⟩
    · exact (congrArg Rec.units hrec).trans hform1.units
    · exact (congrArg Rec.footerUnits hrec).trans hform1.footerUnits
    · exact congrArg Rec.status hrec

end Lists

/-! ## Writing the cells of a block that no list holds -/

/-- Only free blocks are in a list. -/
theorem Rep.unlisted (h : Rep findBin lo s T L) (hb : b ∈ T) (hk : b.kind ≠ .free) (j : β) :
    b.addr ∉ L j := fun hbj => hk (h.of_mem_list hb hbj).1

theorem Tiles.mem_spanOf {x y w : Int} (h : Tiles x T y) (hx : x ≤ w) (hy : w < y) :
    w ∈ spanOf T := by
  induction T generalizing x with
  | nil =>
    have : x = y := h
    omega
  | cons b T ih =>
    obtain ⟨hb, hu, hT⟩ := h
    by_cases hw : w < b.stop
    · exact ⟨b, List.mem_cons_self .., by omega, hw⟩
    · obtain ⟨c, hc, hcw⟩ := ih hT (Int.not_lt.mp hw)
      exact ⟨c, List.mem_cons_of_mem _ hc, hcw⟩

/-- A stretch that no list holds becomes the block `b`, whose cells have been written, and raw
    blocks behind it. -/
theorem Rep.rebuild {mid raws : List Blk} (h : Rep findBin lo s (pre ++ mid ++ post) L)
    (hunlisted : ∀ b ∈ mid, ∀ j, b.addr ∉ L j)
    (hmid : ∀ x y, Tiles x mid y → Tiles x (b :: raws) y) (hraws : ∀ r ∈ raws, r.kind = .raw)
    (hsized : ∀ r ∈ b :: raws, lo ≤ r.units ∧ r.units < 2 ^ 31) (hq : Quiet b.cells s t)
    (hhead : t.freeHead = s.freeHead) (hform : Formed t.mem b) :
    Rep findBin lo t (pre ++ (b :: raws) ++ post) L := by
  have hspan : b.cells ⊆ spanOf mid := by
    obtain ⟨y, hpm, -⟩ := Tiles.append_iff.mp h.tiles
    obtain ⟨x, -, hm⟩ := Tiles.append_iff.mp hpm
    obtain ⟨hb, hu, hr⟩ := hmid x y hm
    have hle := hr.bounds.1
    intro w hw
    obtain ⟨h1, h2⟩ := cells_sub_span hu hw
    exact hm.mem_spanOf (by omega) (by omega)
  refine h.replace (hq.mono hspan) hhead hunlisted hmid hsized fun r hr hraw => ?_
  rcases List.mem_cons.mp hr with rfl | hr
  · exact hform
  · exact absurd (hraws r hr) hraw

/-- Memory after `writeUnits` on the block. -/
def sizedMem (m : Mem) (b : Blk) : Mem := setUnits (setUnits m b.addr b.units) b.footer b.units

theorem quiet_sizedMem (s : Heap β) (b : Blk) :
    Quiet b.cells s { s with mem := sizedMem s.mem b } :=
  ((Quiet.refl _ s).write (agreeOff_setUnits _ _ _) (header_sub_cells b)).write
    (agreeOff_setUnits _ _ _) (footer_sub_cells b)

theorem recAt_sizedMem {m : Mem} (h : Covers s T) (hb : b ∈ T) (hlt : b.units < 2 ^ 31) :
    recAt (sizedMem m b) b = { recAt m b with units := b.units, footerUnits := b.units } := by
  have hu := h.tiles.units_nonneg hb
  unfold sizedMem
  rw [recAt_setFooterUnits h.tiles hb hb (by omega) hlt, if_pos rfl,
    recAt_setHeaderUnits h.tiles hb hb (by omega) hlt, if_pos rfl]

theorem writeUnits_blk (h : Covers s T) (hb : b ∈ T) (hlt : b.units < 2 ^ 31) :
    writeUnits b.addr b.units s = .ok (b.footer, { s with mem := sizedMem s.mem b }) := by
  have hu := h.tiles.units_nonneg hb
  have hunits : (recAt (setUnits s.mem b.addr b.units) b).units = b.units := by
    rw [recAt_setHeaderUnits h.tiles hb hb (by omega) hlt, if_pos rfl]
  have hcov : Covers { s with mem := setUnits s.mem b.addr b.units } T := ⟨h.start, h.tiles⟩
  unfold writeUnits
  rw [bind_of_ok (chunkSetUnits_ok (h.addr_ne hb)),
    bind_of_ok (footerFromHeader_blk hcov hb hunits), bind_of_ok (assert_ok (h.footer_ne hb)),
    bind_of_ok (chunkFooterSetUnits_ok (h.footer_ne hb))]
  rfl

/-! ## Merging two blocks -/

/-- The block that `mergeChunk` makes of two neighbours. -/
def merged (c1 c2 : Blk) : Blk := ⟨c1.addr, c1.units + c2.units + 2, .inUse⟩

theorem Tiles.pair {x y : Int} (h : Tiles x [c1, c2] y) :
    c1.stop = c2.addr ∧ (merged c1 c2).footer = c2.footer ∧ Tiles x [merged c1 c2] y := by
  obtain ⟨h1, hu1, h2, hu2, hy⟩ := h
  have hy' : c2.stop = y := hy
  unfold Blk.stop at h2 hy'
  refine ⟨by unfold Blk.stop; omega, ?_, h1, ?_, ?_⟩
  · unfold Blk.footer merged
    dsimp only
    omega
  · unfold merged
    dsimp only
    omega
  · unfold Blk.stop merged
    change _ = y
    dsimp only
    omega

/-- The header of a merged block is the first one's, the footer the second one's. -/
theorem cellsOf_merge {a z : Int} (h : Tiles a (pre ++ [c1, c2] ++ post) z) :
    cellsOf (pre ++ [merged c1 c2] ++ post) ⊆ cellsOf (pre ++ [c1, c2] ++ post) := by
  have hfooter : (merged c1 c2).footer = c2.footer := by
    obtain ⟨y, hpm, -⟩ := Tiles.append_iff.mp h
    obtain ⟨x, -, hmid⟩ := Tiles.append_iff.mp hpm
    exact hmid.pair.2.1
  rintro x ⟨b, hb, hx⟩
  rcases mem_middle.mp hb with hb | hb
  · obtain rfl := List.mem_singleton.mp hb
    rcases hx with hx | hx
    · exact header_sub_cellsOf (b := c1) (by simp) hx
    · exact footer_sub_cellsOf (b := c2) (by simp) (hfooter ▸ hx)
  · exact ⟨b, mem_middle.mpr (Or.inr hb), hx⟩

/-- The asserts of `mergeChunk` hold; what is left is the addition and the writes. -/
theorem mergeChunk_checks (h : Rep findBin lo s (pre ++ [c1, c2] ++ post) L)
    (hk1 : c1.kind = .inUse) (hk2 : c2.kind = .inUse) :
    c1.addr < c2.addr ∧ nextAdjacent c1.addr s = .ok (c2.addr, s) ∧
      (cellAt s.mem c1.addr).status = chunkInUse ∧ (cellAt s.mem c2.addr).status = chunkInUse := by
  have h1 : c1 ∈ pre ++ [c1, c2] ++ post := by simp
  have h2 : c2 ∈ pre ++ [c1, c2] ++ post := by simp
  have hf1 := h.formed c1 h1 (by rw [hk1]; decide)
  have hf2 := h.formed c2 h2 (by rw [hk2]; decide)
  have hsplit : pre ++ [c1, c2] ++ post = pre ++ [c1] ++ c2 :: post := by simp
  have hcov := h.covers
  rw [hsplit] at hcov
  refine ⟨?_, nextAdjacent_mid hcov hf1.units, ?_, ?_⟩
  · have hle := hcov.tiles.before (T := pre ++ [c1]) (b := c1) (c := c2) (by simp) (by simp)
    have hu := h.tiles.units_nonneg h1
    unfold Blk.stop at hle
    omega
  · exact hf1.status.trans (by rw [hk1]; rfl)
  · exact hf2.status.trans (by rw [hk2]; rfl)

theorem mergeChunk_spec (h : Rep findBin lo s (pre ++ [c1, c2] ++ post) L)
    (hk1 : c1.kind = .inUse) (hk2 : c2.kind = .inUse) (hfit : c1.units + c2.units + 2 < 2 ^ 31) :
    Returns (mergeChunk c1.addr c2.addr) s fun r t =>
      r = c1.addr ∧ Rep findBin lo t (pre ++ [merged c1 c2] ++ post) L ∧
        Quiet (merged c1 c2).cells s t := by
  have h1 : c1 ∈ pre ++ [c1, c2] ++ post := by simp
  have h2 : c2 ∈ pre ++ [c1, c2] ++ post := by simp
  have hm : merged c1 c2 ∈ pre ++ [merged c1 c2] ++ post := by simp
  obtain ⟨hlt, hnext, hs1, hs2⟩ := mergeChunk_checks h hk1 hk2
  have hu1 := h.tiles.units_nonneg h1
  have hu2 := h.tiles.units_nonneg h2
  have hcell1 := (h.cell_units h1 (by rw [hk1]; decide)).1
  have hcell2 := (h.cell_units h2 (by rw [hk2]; decide)).1
  have hpair : ∀ x y, Tiles x [c1, c2] y → Tiles x [merged c1 c2] y := fun x y hxy => hxy.pair.2.2
  have hcov : Covers s (pre ++ [merged c1 c2] ++ post) := ⟨h.start, h.tiles.replace hpair⟩
  have hne1 := h.covers.addr_ne h1
  have hne2 := h.covers.addr_ne h2
  unfold mergeChunk
  refine Returns.step (assert_ok hlt) ?_
  refine Returns.step hnext ?_
  refine Returns.step (assert_ok rfl) ?_
  refine Returns.step (chunkGetStatus_ok hne1) ?_
  refine Returns.step (assert_ok hs1) ?_
  refine Returns.step (chunkGetStatus_ok hne2) ?_
  refine Returns.step (assert_ok hs2) ?_
  refine Returns.step (chunkGetUnits_ok hne1) ?_
  refine Returns.step (chunkGetUnits_ok hne2) ?_
  rw [hcell1, hcell2]
  refine Returns.step (addInt_ok (by omega) (by omega)) ?_
  refine Returns.step (addInt_ok (by omega) hfit) ?_
  refine Returns.step (writeUnits_blk (b := merged c1 c2) hcov hm hfit) ?_
  refine Returns.step (chunkFooterSetPrevFreeChunk_ok (hcov.footer_ne hm)) ?_
  have hq := (quiet_sizedMem s (merged c1 c2)).write
    (agreeOff_setLink _ (merged c1 c2).footer null) (footer_sub_cells _)
  refine Returns.pure ⟨rfl, ?_, hq⟩
  refine h.rebuild ?_ hpair (fun r hr => absurd hr List.not_mem_nil) ?_ hq rfl ?_
  · intro b hb
    have hk : b.kind ≠ .free := by
      rcases List.mem_pair.mp hb with rfl | rfl
      · rw [hk1]; decide
      · rw [hk2]; decide
    exact h.unlisted (mem_middle.mpr (Or.inl hb)) hk
  · intro b hb
    obtain rfl := List.mem_singleton.mp hb
    have hlo := (h.sized c1 h1).1
    exact ⟨by unfold merged; dsimp only; omega, hfit⟩
  · have hrec : recAt (setLink (sizedMem s.mem (merged c1 c2)) (merged c1 c2).footer null)
        (merged c1 c2) = { recAt s.mem (merged c1 c2) with
          units := (merged c1 c2).units, footerUnits := (merged c1 c2).units, prev := 0 } := by
      rw [recAt_setPrev hcov.tiles hm hm (by decide) (by decide), if_pos rfl,
        recAt_sizedMem hcov hm hfit]
    refine ⟨?_, ?_, ?_⟩
    · exact congrArg Rec.units hrec
    · exact congrArg Rec.footerUnits hrec
    · exact (congrArg Rec.status hrec).trans hs1

/-- Units that do not fit an `int` end the merge. -/
theorem mergeChunk_overflow (h : Rep findBin lo s (pre ++ [c1, c2] ++ post) L)
    (hk1 : c1.kind = .inUse) (hk2 : c2.kind = .inUse)
    (hbig : ¬ c1.units + c2.units + 2 < 2 ^ 31) :
    mergeChunk c1.addr c2.addr s = .error .intOverflow := by
  have h1 : c1 ∈ pre ++ [c1, c2] ++ post := by simp
  have h2 : c2 ∈ pre ++ [c1, c2] ++ post := by simp
  obtain ⟨hlt, hnext, hs1, hs2⟩ := mergeChunk_checks h hk1 hk2
  have hu1 := h.tiles.units_nonneg h1
  have hu2 := h.tiles.units_nonneg h2
  have hcell1 := (h.cell_units h1 (by rw [hk1]; decide)).1
  have hcell2 := (h.cell_units h2 (by rw [hk2]; decide)).1
  have hne1 := h.covers.addr_ne h1
  have hne2 := h.covers.addr_ne h2
  unfold mergeChunk
  rw [bind_of_ok (assert_ok hlt), bind_of_ok hnext, bind_of_ok (assert_ok rfl),
    bind_of_ok (chunkGetStatus_ok hne1), bind_of_ok (assert_ok hs1),
    bind_of_ok (chunkGetStatus_ok hne2), bind_of_ok (assert_ok hs2),
    bind_of_ok (chunkGetUnits_ok hne1), bind_of_ok (chunkGetUnits_ok hne2), hcell1, hcell2]
  by_cases hfirst : c1.units + c2.units < 2 ^ 31
  · rw [bind_of_ok (addInt_ok (by omega) hfirst), bind_of_error (addInt_fails hbig)]
  · rw [bind_of_error (addInt_fails hfirst)]

/-! ## Growing the heap -/

/-- The heap with room for `u` more units behind its end. -/
def grown (s : Heap β) (u : Int) : Heap β :=
  { s with
    brk := s.brk + (u + 2) * 16
    asked := (u + 2) * 16 :: s.asked
    gHeapEnd := s.brk + (u + 2) * 16 }

/-- The block that covers the new room. -/
def newBlk (s : Heap β) (u : Int) (k : Kind) : Blk := ⟨s.brk, u, k⟩

theorem Rep.grow {u : Int} (h : Rep findBin lo s T L) (hbrk : s.brk = s.gHeapEnd)
    (hlo : lo ≤ u) (hu : 0 ≤ u) (hu' : u < 2 ^ 31) (hroom : s.brk + (u + 2) * 16 < 2 ^ 64 - 1) :
    Rep findBin lo (grown s u) (T ++ [newBlk s u .raw]) L := by
  have hold : ∀ b ∈ T ++ [newBlk s u .raw], b ∈ T ∨ b = newBlk s u .raw := by
    intro b hb
    simpa using hb
  refine ⟨h.start, ?_, hroom, ?_, ?_, h.head, h.nodup, ?_, ?_⟩
  · exact Tiles.append_iff.mpr ⟨s.gHeapEnd, h.tiles, hbrk, hu, rfl⟩
  · intro b hb
    rcases hold b hb with hb | rfl
    · exact h.sized b hb
    · exact ⟨hlo, hu'⟩
  · intro b hb hraw
    rcases hold b hb with hb | rfl
    · exact h.formed b hb hraw
    · exact absurd rfl hraw
  · intro i a ha
    obtain ⟨b, hb, hrest⟩ := h.listed ha
    exact ⟨b, List.mem_append_left _ hb, hrest⟩
  · intro i b hb hbi
    obtain ⟨b', hb', haddr, -⟩ := h.listed hbi
    rcases hold b hb with hb | rfl
    · exact h.linked i b hb hbi
    · -- the old blocks end where the new one starts
      have hstop := h.tiles.stop_le hb'
      have hnonneg := h.tiles.units_nonneg hb'
      have haddr' : b'.addr = s.brk := haddr
      unfold Blk.stop at hstop
      omega

/-- `sbrk` was refused: only the request is remembered. -/
theorem sbrk_refused {grant : Bool} {inc : Int} (hinc : inc ≠ 0)
    (hno : ¬ Grants grant s inc) :
    sbrk grant inc s = .ok (sbrkFailed, { s with asked := inc :: s.asked }) := by
  unfold sbrk
  rw [bind_of_ok (get_apply s), if_neg hinc, if_neg hno]
  rfl

theorem sbrk_granted {grant : Bool} {inc : Int} (hinc : inc ≠ 0)
    (hyes : Grants grant s inc) :
    sbrk grant inc s = .ok (s.brk, { s with brk := s.brk + inc, asked := inc :: s.asked }) := by
  unfold sbrk
  rw [bind_of_ok (get_apply s), if_neg hinc, if_pos hyes]
  rfl

theorem sbrk_zero {grant : Bool} : sbrk grant 0 s = .ok (s.brk, s) := by
  unfold sbrk
  rw [bind_of_ok (get_apply s), if_pos rfl]
  rfl

theorem wantedUnits_ge (n : Int) : n ≤ wantedUnits n ∧ 1024 ≤ wantedUnits n := by
  unfold wantedUnits
  split
  · next hlt =>
    have hlt' : n < 1024 := hlt
    exact ⟨hlt'.le, le_refl 1024⟩
  · next hge =>
    have hge' : ¬ n < 1024 := hge
    exact ⟨le_refl n, by omega⟩

theorem wantedUnits_lt {n : Int} (h : n < 2 ^ 31) : wantedUnits n < 2 ^ 31 := by
  unfold wantedUnits
  split
  · decide
  · exact h

/-- The request goes through and there is a new free block, or it fails and the heap is as
    before. -/
theorem allocateMoreMemory_spec {n : Int} (grant : Bool) (h : Rep findBin lo s T L)
    (hlo : lo ≤ 1) (hbrk : s.brk = s.gHeapEnd) (hn : n < 2 ^ 31) :
    Returns (allocateMoreMemory grant n) s fun c t =>
      (¬ Grants grant s ((wantedUnits n + 2) * 16) ∧ c = 0 ∧
          t = { s with asked := (wantedUnits n + 2) * 16 :: s.asked }) ∨
        (Grants grant s ((wantedUnits n + 2) * 16) ∧ c = (newBlk s (wantedUnits n) .free).addr ∧
          Rep findBin lo t (T ++ [newBlk s (wantedUnits n) .free]) L ∧
          Quiet (newBlk s (wantedUnits n) .free).cells (grown s (wantedUnits n)) t) := by
  have hw := (wantedUnits_ge n).2
  have hw' := wantedUnits_lt hn
  have hinc : toIntptr ((wantedUnits n + 2) * chunkUnit) = (wantedUnits n + 2) * 16 :=
    toIntptr_of_lt (n := (wantedUnits n + 2) * 16) (by omega) (by omega)
  have hinc0 : (wantedUnits n + 2) * 16 ≠ 0 := by omega
  unfold allocateMoreMemory
  dsimp only
  rw [hinc]
  by_cases hyes : Grants grant s ((wantedUnits n + 2) * 16)
  · have hlimit : s.brk + (wantedUnits n + 2) * 16 < 2 ^ 64 - 1 := hyes.2.2
    have hgrown := h.grow hbrk (show lo ≤ wantedUnits n by omega) (by omega) hw' (by omega)
    have hmem : newBlk s (wantedUnits n) .free ∈ T ++ [newBlk s (wantedUnits n) .free] := by simp
    have hcov : Covers (grown s (wantedUnits n)) (T ++ [newBlk s (wantedUnits n) .free]) := by
      obtain ⟨y, hT, hnew⟩ := Tiles.append_iff.mp hgrown.tiles
      exact ⟨hgrown.start, Tiles.append_iff.mpr ⟨y, hT, hnew⟩⟩
    have hne : s.brk ≠ sbrkFailed := by
      have : s.brk < 2 ^ 64 - 1 := by omega
      exact ne_of_lt this
    refine Returns.step (sbrk_granted hinc0 hyes) ?_
    rw [if_neg hne]
    refine Returns.step sbrk_zero ?_
    refine Returns.step (modify_apply _ _) ?_
    rw [toInt_of_lt (by omega) hw']
    refine Returns.step (writeUnits_blk (b := newBlk s (wantedUnits n) .free) hcov hmem hw') ?_
    refine Returns.step (chunkFooterSetPrevFreeChunk_ok (hcov.footer_ne hmem)) ?_
    refine Returns.step (chunkSetStatus_ok (hcov.addr_ne hmem)) ?_
    have hq := ((quiet_sizedMem (grown s (wantedUnits n)) (newBlk s (wantedUnits n) .free)).write
      (agreeOff_setLink _ _ null) (footer_sub_cells _)).write
      (agreeOff_setStatus _ _ chunkFree) (header_sub_cells _)
    refine Returns.pure (Or.inr ⟨hyes, rfl, ?_, hq⟩)
    have hgrown' : Rep findBin lo (grown s (wantedUnits n))
        (T ++ [newBlk s (wantedUnits n) .raw] ++ []) L := by
      rw [List.append_nil]
      exact hgrown
    rw [← List.append_nil (T ++ [newBlk s (wantedUnits n) .free])]
    refine hgrown'.rebuild ?_ (fun x y hxy => hxy) (fun r hr => absurd hr List.not_mem_nil) ?_ hq
      rfl ?_
    · intro b hb
      obtain rfl := List.mem_singleton.mp hb
      exact hgrown.unlisted (by simp) (show Kind.raw ≠ Kind.free by decide)
    · intro b hb
      obtain rfl := List.mem_singleton.mp hb
      exact ⟨show lo ≤ wantedUnits n by omega, hw'⟩
    · have hrec : recAt (setStatus (setLink (sizedMem s.mem (newBlk s (wantedUnits n) .free))
          (newBlk s (wantedUnits n) .free).footer null) (newBlk s (wantedUnits n) .free).addr
          chunkFree) (newBlk s (wantedUnits n) .free) =
          ⟨(recAt s.mem (newBlk s (wantedUnits n) .free)).next, 0, wantedUnits n, wantedUnits n,
            chunkFree⟩ := by
        rw [recAt_setStatus hcov.tiles hmem hmem (by decide) (by decide), if_pos rfl,
          recAt_setPrev hcov.tiles hmem hmem (by decide) (by decide), if_pos rfl,
          recAt_sizedMem hcov hmem hw']
        rfl
      exact ⟨congrArg Rec.units hrec, congrArg Rec.footerUnits hrec, congrArg Rec.status hrec⟩
  · refine Returns.step (sbrk_refused hinc0 hyes) ?_
    rw [if_pos rfl]
    exact Returns.pure (Or.inl ⟨hyes, rfl, rfl⟩)

/-! ## Splitting a block -/

/-- A block that no list holds may change its kind. -/
theorem chunkSetStatus_spec {k : Kind} (h : Rep findBin lo s (pre ++ [c] ++ post) L)
    (hunlisted : ∀ j, c.addr ∉ L j) (hraw : c.kind ≠ .raw) :
    Returns (chunkSetStatus c.addr k.status) s fun _ t =>
      Rep findBin lo t (pre ++ [{ c with kind := k }] ++ post) L ∧ Quiet c.cells s t ∧
        t.freeHead = s.freeHead := by
  have hc : c ∈ pre ++ [c] ++ post := by simp
  have hk1 : -2 ^ 31 ≤ k.status := by cases k <;> decide
  have hk2 : k.status < 2 ^ 31 := by cases k <;> decide
  have hq := (Quiet.refl c.cells s).write (agreeOff_setStatus _ c.addr k.status)
    (header_sub_cells c)
  refine Returns.intro (chunkSetStatus_ok (h.covers.addr_ne hc)) ⟨?_, hq, rfl⟩
  refine h.rebuild ?_ (fun x y hxy => hxy) (fun r hr => absurd hr List.not_mem_nil) ?_ hq rfl ?_
  · intro b hb
    obtain rfl := List.mem_singleton.mp hb
    exact hunlisted
  · intro b hb
    obtain rfl := List.mem_singleton.mp hb
    exact h.sized c hc
  · have hform := h.formed c hc hraw
    have hrec : recAt (setStatus s.mem c.addr k.status) { c with kind := k } =
        { recAt s.mem c with status := k.status } := by
      have hself := recAt_setStatus (m := s.mem) h.tiles hc hc hk1 hk2
      rw [if_pos rfl] at hself
      exact hself
    refine ⟨?_, ?_, ?_⟩
    · exact (congrArg Rec.units hrec).trans hform.units
    · exact (congrArg Rec.footerUnits hrec).trans hform.footerUnits
    · exact congrArg Rec.status hrec

/-- The first part of `c` when `n` units of it are kept, and the room behind it. -/
def firstPart (c : Blk) (n : Int) (k : Kind) : Blk := ⟨c.addr, n, k⟩

def restPart (c : Blk) (n : Int) (k : Kind) : Blk :=
  ⟨c.addr + (n + 2) * 16, c.units - n - 2, k⟩

theorem Tiles.split {x y n : Int} {k k' : Kind} (hn : 0 ≤ n) (hfit : n + 2 ≤ c.units)
    (h : Tiles x [c] y) : Tiles x [firstPart c n k, restPart c n k'] y := by
  obtain ⟨haddr, hu, hy⟩ := h
  have hy' : c.addr + (c.units + 2) * 16 = y := hy
  refine ⟨haddr, hn, rfl, ?_, ?_⟩
  · unfold restPart
    dsimp only
    omega
  · change c.addr + (n + 2) * 16 + (c.units - n - 2 + 2) * 16 = y
    omega

/-- Cutting a block that no list holds: the header and the footer of the first part are written,
    what is behind it is raw. -/
theorem writeUnits_cut {n : Int} (h : Rep findBin lo s (pre ++ [c] ++ post) L)
    (hunlisted : ∀ j, c.addr ∉ L j) (hraw : c.kind ≠ .raw) (hlo : lo ≤ n)
    (hlo' : lo ≤ c.units - n - 2) (hn : 0 ≤ n) (hfit : n + 2 ≤ c.units) :
    Returns (writeUnits c.addr n) s fun _ t =>
      Rep findBin lo t (pre ++ [firstPart c n c.kind, restPart c n .raw] ++ post) L ∧
        Quiet (firstPart c n c.kind).cells s t ∧ t.freeHead = s.freeHead := by
  have hc : c ∈ pre ++ [c] ++ post := by simp
  have hlt := (h.sized c hc).2
  have hn' : n < 2 ^ 31 := by omega
  have hsplit : ∀ x y, Tiles x [c] y → Tiles x [firstPart c n c.kind, restPart c n .raw] y :=
    fun x y hxy => hxy.split hn hfit
  have hm : firstPart c n c.kind ∈
      pre ++ [firstPart c n c.kind, restPart c n .raw] ++ post := by simp
  have hcov : Covers s (pre ++ [firstPart c n c.kind, restPart c n .raw] ++ post) :=
    ⟨h.start, h.tiles.replace hsplit⟩
  have hq := quiet_sizedMem s (firstPart c n c.kind)
  refine Returns.intro (writeUnits_blk (b := firstPart c n c.kind) hcov hm hn') ⟨?_, hq, rfl⟩
  refine h.rebuild ?_ hsplit ?_ ?_ hq rfl ?_
  · intro b hb
    obtain rfl := List.mem_singleton.mp hb
    exact hunlisted
  · intro r hr
    obtain rfl := List.mem_singleton.mp hr
    rfl
  · intro r hr
    rcases List.mem_pair.mp hr with rfl | rfl
    · exact ⟨hlo, hn'⟩
    · unfold restPart
      dsimp only
      omega
  · have hrec := recAt_sizedMem (m := s.mem) hcov hm hn'
    refine ⟨congrArg Rec.units hrec, congrArg Rec.footerUnits hrec, ?_⟩
    exact (congrArg Rec.status hrec).trans (h.formed c hc hraw).status

/-- What stays of `c` when its last `n` units are cut off, and those units. -/
def nearPart (c : Blk) (n : Int) (k : Kind) : Blk := ⟨c.addr, c.units - n - 2, k⟩

def farPart (c : Blk) (n : Int) (k : Kind) : Blk := ⟨c.addr + (c.units - n) * 16, n, k⟩

theorem writeUnits_cutEnd {n : Int} (h : Rep findBin lo s (pre ++ [c] ++ post) L)
    (hunlisted : ∀ j, c.addr ∉ L j) (hraw : c.kind ≠ .raw) (hlo0 : lo ≤ 1) (hlo : lo ≤ n)
    (hn : 0 ≤ n) (hfit : n + 2 < c.units) :
    Returns (writeUnits c.addr (c.units - n - 2)) s fun _ t =>
      Rep findBin lo t (pre ++ [nearPart c n c.kind] ++ (farPart c n .raw :: post)) L ∧
        Quiet (nearPart c n c.kind).cells s t ∧ t.freeHead = s.freeHead := by
  have hcut := writeUnits_cut (n := c.units - n - 2) h hunlisted hraw (by omega) (by omega)
    (by omega) (by omega)
  have hfar : restPart c (c.units - n - 2) .raw = farPart c n .raw := by
    unfold restPart farPart
    rw [show c.units - n - 2 + 2 = c.units - n by omega,
      show c.units - (c.units - n - 2) - 2 = n by omega]
  have hrow : pre ++ [firstPart c (c.units - n - 2) c.kind, farPart c n .raw] ++ post =
      pre ++ [nearPart c n c.kind] ++ (farPart c n .raw :: post) := by
    simp [firstPart, nearPart]
  rw [hfar, hrow] at hcut
  exact hcut

/-- A raw block gets its units and its status. -/
theorem formRaw_spec {k : Kind} (h : Rep findBin lo s (pre ++ [c] ++ post) L)
    (hraw : c.kind = .raw) :
    Returns (writeUnits c.addr c.units >>= fun _ => chunkSetStatus c.addr k.status) s fun _ t =>
      Rep findBin lo t (pre ++ [{ c with kind := k }] ++ post) L ∧ Quiet c.cells s t ∧
        t.freeHead = s.freeHead := by
  have hc : c ∈ pre ++ [c] ++ post := by simp
  have hlt := (h.sized c hc).2
  have hk1 : -2 ^ 31 ≤ k.status := by cases k <;> decide
  have hk2 : k.status < 2 ^ 31 := by cases k <;> decide
  have hcov := h.covers
  refine Returns.step (writeUnits_blk hcov hc hlt) ?_
  have hq := (quiet_sizedMem s c).write (agreeOff_setStatus _ c.addr k.status) (header_sub_cells c)
  refine Returns.intro (chunkSetStatus_ok (hcov.addr_ne hc)) ⟨?_, hq, rfl⟩
  refine h.rebuild ?_ (fun x y hxy => hxy) (fun r hr => absurd hr List.not_mem_nil) ?_ hq rfl ?_
  · intro b hb
    obtain rfl := List.mem_singleton.mp hb
    exact h.unlisted hc (by rw [hraw]; decide)
  · intro b hb
    obtain rfl := List.mem_singleton.mp hb
    exact h.sized c hc
  · have hrec : recAt (setStatus (sizedMem s.mem c) c.addr k.status) c =
        { recAt s.mem c with units := c.units, footerUnits := c.units, status := k.status } := by
      rw [recAt_setStatus hcov.tiles hc hc hk1 hk2, if_pos rfl, recAt_sizedMem hcov hc hlt]
    exact ⟨congrArg Rec.units hrec, congrArg Rec.footerUnits hrec, congrArg Rec.status hrec⟩

section Lists

variable [DecidableEq β]

/-- The lists after `c` joined its own. -/
def filed (findBin : Int → β) (L : β → List Int) (c : Blk) : β → List Int :=
  Function.update L (findBin c.units) (c.addr :: L (findBin c.units))

omit [DecidableEq β] in
theorem nextAdjacent_pair (h : Rep findBin lo s (pre ++ [b, c] ++ post) L)
    (hk : b.kind ≠ .raw) : nextAdjacent b.addr s = .ok (c.addr, s) := by
  have hsplit : pre ++ [b, c] ++ post = pre ++ [b] ++ c :: post := by simp
  have hform := h.formed b (by simp) hk
  have hcov := h.covers
  rw [hsplit] at hcov
  exact nextAdjacent_mid hcov hform.units

theorem splitNewChunk_spec {n : Int} (h : Rep findBin lo s (pre ++ [c] ++ post) L)
    (hfree : c.kind = .free) (hunlisted : ∀ j, c.addr ∉ L j) (hlo0 : lo ≤ 1) (hlo : lo ≤ n)
    (hn : 0 ≤ n) (hfit : n ≤ c.units) :
    Returns (splitNewChunk findBin c.addr n) s fun _ t =>
      (c.units ≤ n + 2 ∧ t = s) ∨
        (n + 2 < c.units ∧
          Rep findBin lo t (pre ++ [firstPart c n .free, restPart c n .free] ++ post)
            (filed findBin L (restPart c n .free)) ∧
          Quiet (cellsOf (pre ++ [firstPart c n .free, restPart c n .free] ++ post)) s t) := by
  have hc : c ∈ pre ++ [c] ++ post := by simp
  have hraw : c.kind ≠ .raw := by rw [hfree]; decide
  have hlt := (h.sized c hc).2
  have hsize := (h.cell_units hc hraw).2
  have htwo : toSize (n + 2) = n + 2 := toSize_of_lt (by omega) (by omega)
  have hn' : toInt n = n := toInt_of_lt (by omega) (by omega)
  have hrest : toInt (c.units - n - 2) = c.units - n - 2 := toInt_of_lt (by omega) (by omega)
  unfold splitNewChunk
  refine Returns.step (chunkGetUnits_ok (h.covers.addr_ne hc)) ?_
  dsimp only
  rw [hsize, htwo, hn', hrest]
  by_cases hsmall : c.units ≤ n + 2
  · rw [if_pos hsmall]
    exact Returns.pure (Or.inl ⟨hsmall, rfl⟩)
  rw [if_neg hsmall]
  have hbig : n + 2 < c.units := by omega
  refine Returns.bind (writeUnits_cut h hunlisted hraw hlo (by omega) hn hbig.le)
    fun _ s1 ⟨h1, hq1, _⟩ => ?_
  rw [hfree] at h1 hq1
  refine Returns.step (nextAdjacent_pair (b := firstPart c n .free) h1
    (show Kind.free ≠ Kind.raw by decide)) ?_
  have hsplit : ∀ k, pre ++ [firstPart c n .free, restPart c n k] ++ post =
      pre ++ [firstPart c n .free] ++ [restPart c n k] ++ post := fun k => by simp
  rw [hsplit] at h1
  refine Returns.group ?_
  refine Returns.bind (formRaw_spec (k := .free) h1 rfl) fun _ s2 ⟨h2, hq2, _⟩ => ?_
  have hmem : restPart c n .free ∈
      pre ++ [firstPart c n .free] ++ [restPart c n .free] ++ post := by simp
  have hnew : ∀ j, (restPart c n .free).addr ∉ L j := h1.unlisted (b := restPart c n .raw)
    (by simp) (show Kind.raw ≠ Kind.free by decide)
  have hunits : 1 ≤ (restPart c n .free).units := by
    unfold restPart
    dsimp only
    omega
  refine (insertChunk_spec h2 hmem rfl hunits hnew).mono fun _ t ⟨ht, hqt⟩ => ?_
  rw [hsplit]
  refine Or.inr ⟨hbig, ht, ?_⟩
  have hsub1 : (firstPart c n .free).cells ⊆
      cellsOf (pre ++ [firstPart c n .free] ++ [restPart c n .free] ++ post) :=
    cells_sub_cellsOf (by simp)
  exact ((hq1.mono hsub1).trans (hq2.mono (cells_sub_cellsOf hmem))).trans hqt

end Lists

end SnuSysProg.Heapmgr
