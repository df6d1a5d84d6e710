import SnuSysProg.Heapmgr.Heapmgr1
import SnuSysProg.Heapmgr.Runs

/-
  `heapmgr_malloc` of `heapmgr1.c` on a represented heap.

  `split_chunk` puts the far end of a free chunk into the list right behind the chunk, and
  `remove_chunk_from_list` takes it out again (`splitChunk_spec`, `takeSplit_spec`). Its
  `check_heap_validity` also walks over the chunks in use (`checks`).
-/

namespace SnuSysProg.Heapmgr1
open SnuSysProg.Lib SnuSysProg.Heapmgr

variable {lo : Int} {s t : State} {T pre post : List Blk} {L : Unit → List Int} {b c : Blk}

/-! ## split_chunk -/

/-- Memory after `split_chunk`, but for the chunk behind the two in the list. -/
def splitMem (m : Mem) (near far : Blk) (prev next : Int) : Mem :=
  setLink (setLink (setStatus (setUnits (setLink (setUnits (setLink (sizedMem m near)
    near.footer prev) far.addr far.units) far.footer near.addr) far.footer far.units)
    far.addr chunkFree) near.addr far.addr) far.addr next

section Split

variable {near far : Blk} {m : Mem} {a z prev next : Int}

/-- What `split_chunk` writes fits where it is written. -/
structure Writable (near far : Blk) (prev next : Int) : Prop where
  nearUnits : near.units < 2 ^ 31
  farUnits : far.units < 2 ^ 31
  nearAddr : 0 ≤ near.addr ∧ near.addr < 2 ^ 64
  farAddr : 0 ≤ far.addr ∧ far.addr < 2 ^ 64
  prev : 0 ≤ prev ∧ prev < 2 ^ 64
  next : 0 ≤ next ∧ next < 2 ^ 64

theorem recAt_splitMem (h : Tiles a T z) (hn : near ∈ T) (hf : far ∈ T) (hb : b ∈ T)
    (hw : Writable near far prev next) (hne : near.addr ≠ far.addr) :
    recAt (splitMem m near far prev next) b =
      if b.addr = near.addr then
        ⟨far.addr, prev, near.units, near.units, (recAt m b).status⟩
      else if b.addr = far.addr then ⟨next, near.addr, far.units, far.units, chunkFree⟩
      else recAt m b := by
  have hnu := h.units_nonneg hn
  have hfu := h.units_nonneg hf
  unfold splitMem sizedMem
  rw [recAt_setNext h hb hf hw.next.1 hw.next.2, recAt_setNext h hb hn hw.farAddr.1 hw.farAddr.2,
    recAt_setStatus h hb hf (by decide) (by decide),
    recAt_setFooterUnits h hb hf (by omega) hw.farUnits,
    recAt_setPrev h hb hf hw.nearAddr.1 hw.nearAddr.2,
    recAt_setHeaderUnits h hb hf (by omega) hw.farUnits, recAt_setPrev h hb hn hw.prev.1 hw.prev.2,
    recAt_setFooterUnits h hb hn (by omega) hw.nearUnits,
    recAt_setHeaderUnits h hb hn (by omega) hw.nearUnits]
  by_cases hbn : b.addr = near.addr
  · have hbf : b.addr ≠ far.addr := hbn ▸ hne
    simp only [if_pos hbn, if_neg hbf]
  · by_cases hbf : b.addr = far.addr
    · simp only [if_neg hbn, if_pos hbf]
    · simp only [if_neg hbn, if_neg hbf]

end Split

theorem Tiles.cutEnd {x y n : Int} {k k' : Kind} (h : Tiles x [c] y) (hn : 0 ≤ n)
    (hfit : n + 2 < c.units) : Tiles x [nearPart c n k, farPart c n k'] y := by
  obtain ⟨haddr, hu, hy⟩ := h
  have hy' : c.addr + (c.units + 2) * 16 = y := hy
  refine ⟨haddr, show 0 ≤ c.units - n - 2 by omega, ?_, hn, ?_⟩
  · change c.addr + (c.units - n) * 16 = c.addr + (c.units - n - 2 + 2) * 16
    omega
  · change c.addr + (c.units - n) * 16 + (n + 2) * 16 = y
    omega

/-- The row with the block `c` cut in two free blocks. -/
def cutRow (pre : List Blk) (c : Blk) (n : Int) (post : List Blk) : List Blk :=
  pre ++ [nearPart c n .free] ++ [farPart c n .free] ++ post

theorem cutRow_eq (pre : List Blk) (c : Blk) (n : Int) (post : List Blk) :
    cutRow pre c n post = pre ++ [nearPart c n .free, farPart c n .free] ++ post := by
  simp [cutRow]

theorem mem_cutRow {n : Int} : b ∈ cutRow pre c n post ↔
    b = nearPart c n .free ∨ b = farPart c n .free ∨ b ∈ pre ∨ b ∈ post := by
  rw [cutRow_eq, mem_middle, List.mem_pair, or_assoc]

theorem Tiles.cutRow {a z n : Int} (h : Tiles a (pre ++ [c] ++ post) z) (hn : 0 ≤ n)
    (hfit : n + 2 < c.units) : Tiles a (cutRow pre c n post) z := by
  rw [cutRow_eq]
  exact h.replace fun x y hxy => Tiles.cutEnd hxy hn hfit

/-- The far end of a block is no address of the row. -/
theorem farPart_notMem {n : Int} {k : Kind} (h : Rep findBin lo s (pre ++ [c] ++ post) L)
    (hn : 0 ≤ n) (hfit : n + 2 < c.units) (i : Unit) : (farPart c n k).addr ∉ L i := by
  intro hmem
  obtain ⟨b, hb, haddr, -⟩ := h.listed hmem
  have hbu := h.tiles.units_nonneg hb
  have haddr' : b.addr = c.addr + (c.units - n) * 16 := haddr
  have hc : c ∈ pre ++ [c] ++ post := by simp
  rcases h.tiles.apart hb hc with rfl | hlt | hlt
  · omega
  · unfold Blk.stop at hlt
    omega
  · unfold Blk.stop at hlt
    omega

/-- The other blocks of the row are at neither end of a block that is cut. -/
theorem outside_cut {a z n : Int} {k : Kind} (h : Tiles a (pre ++ [c] ++ post) z) (hn : 0 ≤ n)
    (hfit : n + 2 < c.units) (hb : b ∈ pre ∨ b ∈ post) :
    b.addr ≠ c.addr ∧ b.addr ≠ (farPart c n k).addr := by
  refine ⟨h.addr_ne hb, fun heq => ?_⟩
  have hbu := h.units_nonneg (mem_middle.mpr (Or.inr hb))
  have hfaddr : (farPart c n k).addr = c.addr + (c.units - n) * 16 := rfl
  have hspan : (farPart c n k).addr ∈ spanOf [c] := by
    refine ⟨c, List.mem_singleton_self c, ?_, ?_⟩
    · omega
    · unfold Blk.stop
      omega
  refine h.around hb hspan ⟨heq.le, ?_⟩
  unfold Blk.stop
  omega

/-- `split_chunk` in terms of the blocks: the far end stands behind the near end in the list. -/
theorem Rep.cutListed {n : Int} (h : Rep findBin lo s (pre ++ [c] ++ post) L) (hci : c.addr ∈ L ())
    (hlo0 : lo ≤ 1) (hlo : lo ≤ n) (hn : 1 ≤ n) (hfit : n + 2 < c.units)
    (hq : Quiet (cellsOf (cutRow pre c n post)) s t) (hhead : t.freeHead = s.freeHead)
    (hrec : ∀ b ∈ cutRow pre c n post, recAt t.mem b =
      if b.addr = (nearPart c n .free).addr then
        ⟨(farPart c n .free).addr, predOf 0 (L ()) c.addr, (nearPart c n .free).units,
          (nearPart c n .free).units, chunkFree⟩
      else if b.addr = (farPart c n .free).addr then
        ⟨succOf 0 (L ()) c.addr, c.addr, n, n, chunkFree⟩
      else { recAt s.mem b with
        prev := if b.addr = succOf 0 (L ()) c.addr then (farPart c n .free).addr
          else (recAt s.mem b).prev }) :
    Rep findBin lo t (cutRow pre c n post)
      (fun _ => insertAfter c.addr (farPart c n .free).addr (L ())) := by
  have hc : c ∈ pre ++ [c] ++ post := by simp
  have hclt := (h.sized c hc).2
  have htiles := Tiles.cutRow h.tiles (by omega : 0 ≤ n) hfit
  have hfar := farPart_notMem (k := .free) h (by omega : 0 ≤ n) hfit ()
  have hnodup := h.nodup ()
  have h0 := h.zero_notMem ()
  have hnear : (nearPart c n .free).addr = c.addr := rfl
  have hne : c.addr ≠ (farPart c n .free).addr := fun heq => hfar (heq ▸ hci)
  have hnm : nearPart c n .free ∈ cutRow pre c n post := mem_cutRow.mpr (Or.inl rfl)
  have hfm : farPart c n .free ∈ cutRow pre c n post := mem_cutRow.mpr (Or.inr (Or.inl rfl))
  have hold : ∀ b, b ∈ pre ∨ b ∈ post → b ∈ pre ++ [c] ++ post ∧ b.addr ≠ c.addr ∧
      b.addr ≠ (farPart c n .free).addr := fun b hb =>
    ⟨mem_middle.mpr (Or.inr hb), outside_cut h.tiles (by omega) hfit hb⟩
  have hnearRec := hrec _ hnm
  have hfarRec := hrec _ hfm
  rw [if_pos rfl] at hnearRec
  rw [hnear, if_neg (Ne.symm hne), if_pos rfl] at hfarRec
  have holdRec : ∀ b, b ∈ pre ∨ b ∈ post → recAt t.mem b = { recAt s.mem b with
      prev := if b.addr = succOf 0 (L ()) c.addr then (farPart c n .free).addr
        else (recAt s.mem b).prev } := by
    intro b hb
    obtain ⟨-, hbc, hbf⟩ := hold b hb
    have hb' := hrec b (mem_cutRow.mpr (Or.inr (Or.inr hb)))
    rwa [hnear, if_neg hbc, if_neg hbf] at hb'
  refine ⟨hq.gHeapStart ▸ h.start, ?_, hq.gHeapEnd ▸ h.limit, ?_, ?_, ?_, ?_, ?_, ?_⟩
  · rw [hq.gHeapStart, hq.gHeapEnd]
    exact htiles
  · intro b hb
    rcases mem_cutRow.mp hb with rfl | rfl | hb
    · change lo ≤ c.units - n - 2 ∧ c.units - n - 2 < 2 ^ 31
      omega
    · change lo ≤ n ∧ n < 2 ^ 31
      omega
    · exact h.sized b (hold b hb).1
  · intro b hb hraw
    rcases mem_cutRow.mp hb with rfl | rfl | hb
    · exact ⟨congrArg Rec.units hnearRec, congrArg Rec.footerUnits hnearRec,
        congrArg Rec.status hnearRec⟩
    · exact ⟨congrArg Rec.units hfarRec, congrArg Rec.footerUnits hfarRec,
        congrArg Rec.status hfarRec⟩
    · obtain ⟨hf1, hf2, hf3⟩ := h.formed b (hold b hb).1 hraw
      refine ⟨?_, ?_, ?_⟩
      · rw [holdRec b hb]
        exact hf1
      · rw [holdRec b hb]
        exact hf2
      · rw [holdRec b hb]
        exact hf3
  · intro i
    rw [hhead, h.head i, headD_insertAfter]
  · exact fun i => nodup_insertAfter hnodup hci hfar
  · intro i a ha
    rcases (mem_insertAfter hci).mp ha with rfl | ha
    · exact ⟨_, hfm, rfl, rfl, hn, rfl⟩
    · obtain ⟨b, hb, rfl, hfree, hunits, -⟩ := h.listed ha
      rcases mem_middle.mp hb with hb | hb
      · obtain rfl := List.mem_singleton.mp hb
        exact ⟨_, hnm, rfl, rfl, show 1 ≤ b.units - n - 2 by omega, rfl⟩
      · exact ⟨b, mem_cutRow.mpr (Or.inr (Or.inr hb)), rfl, hfree, hunits, rfl⟩
  · intro i b hb hbi
    rw [succOf_insertAfter hci hfar hnodup, predOf_insertAfter hci hfar hnodup h0]
    rcases mem_cutRow.mp hb with rfl | rfl | hb
    · rw [hnearRec, hnear, if_pos rfl, if_neg hne,
        if_neg (Ne.symm (succOf_ne_self hnodup h0 hci))]
      exact ⟨rfl, rfl⟩
    · rw [hfarRec, if_neg (Ne.symm hne), if_pos rfl, if_pos rfl]
      exact ⟨rfl, rfl⟩
    · obtain ⟨hbT, hbc, hbf⟩ := hold b hb
      have hbl : b.addr ∈ L () := ((mem_insertAfter hci).mp hbi).resolve_left hbf
      obtain ⟨hnext, hprev⟩ := h.linked () b hbT hbl
      rw [holdRec b hb, if_neg hbc, if_neg hbf, if_neg hbf, ← hprev]
      exact ⟨hnext, rfl⟩

/-- The pointers of a list are addresses. -/
theorem Rep.ptr_range (h : Rep findBin lo s T L) {i : Unit} {p : Int} (hp : p ∈ L i ∨ p = 0) :
    0 ≤ p ∧ p < 2 ^ 64 := by
  rcases h.ptr_cases hp with rfl | ⟨b, hb, rfl, -⟩
  · decide
  · exact h.addr_range hb

theorem Rep.writable {n : Int} (h : Rep findBin lo s (pre ++ [c] ++ post) L)
    (hc : c ∈ pre ++ [c] ++ post) (hn : 0 ≤ n) (hfit : n + 2 < c.units) :
    Writable (nearPart c n .free) (farPart c n .free) (predOf 0 (L ()) c.addr)
      (succOf 0 (L ()) c.addr) := by
  have hlt := (h.sized c hc).2
  have hstop := h.stop_lt hc
  have hpos := h.addr_pos hc
  have hfar : (farPart c n .free).addr = c.addr + (c.units - n) * 16 := rfl
  unfold Blk.stop at hstop
  exact ⟨nearPart_units_lt hn hlt, show n < 2 ^ 31 by omega,
    show 0 ≤ c.addr ∧ c.addr < 2 ^ 64 from h.addr_range hc, by omega,
    Rep.ptr_range h (predOf_mem_or 0 (L ()) c.addr),
    Rep.ptr_range h (succOf_mem_or 0 (L ()) c.addr)⟩

theorem quiet_splitMem {near far : Blk} {W : Set Int} (prev next : Int)
    (hn : near.cells ⊆ W) (hf : far.cells ⊆ W) :
    Quiet W s { s with mem := splitMem s.mem near far prev next } := by
  have hnh := (header_sub_cells near).trans hn
  have hnf := (footer_sub_cells near).trans hn
  have hfh := (header_sub_cells far).trans hf
  have hff := (footer_sub_cells far).trans hf
  have hsized := (quiet_sizedMem s near).mono hn
  exact ((((((hsized.write (agreeOff_setLink _ _ prev) hnf).write
    (agreeOff_setUnits _ _ _) hfh).write
    (agreeOff_setLink _ _ _) hff).write (agreeOff_setUnits _ _ _) hff).write
    (agreeOff_setStatus _ _ _) hfh).write (agreeOff_setLink _ _ _) hnh).write
    (agreeOff_setLink _ _ next) hfh

/-- The end of `split_chunk`: the chunk behind the two in the list points back to the second. -/
theorem relinkNext_spec {n : Int} {m : Mem} (h : Rep findBin lo s (pre ++ [c] ++ post) L)
    (hci : c.addr ∈ L ()) (hlo0 : lo ≤ 1) (hlo : lo ≤ n) (hn : 1 ≤ n) (hfit : n + 2 < c.units)
    (hq : Quiet (cellsOf (cutRow pre c n post)) s { s with mem := m })
    (hrec : ∀ b ∈ cutRow pre c n post, recAt m b =
      if b.addr = (nearPart c n .free).addr then
        ⟨(farPart c n .free).addr, predOf 0 (L ()) c.addr, (nearPart c n .free).units,
          (nearPart c n .free).units, chunkFree⟩
      else if b.addr = (farPart c n .free).addr then
        ⟨succOf 0 (L ()) c.addr, c.addr, n, n, chunkFree⟩
      else recAt s.mem b) :
    Returns (do
      if succOf 0 (L ()) c.addr ≠ null then
        let c3Footer ← footerFromHeader (succOf 0 (L ()) c.addr)
        assert (c3Footer ≠ null)
        chunkFooterSetPrevFreeChunk c3Footer (farPart c n .free).addr
      return (farPart c n .free).addr) { s with mem := m } fun r t =>
      r = (farPart c n .free).addr ∧
        Rep findBin lo t (cutRow pre c n post)
          (fun _ => insertAfter c.addr (farPart c n .free).addr (L ())) ∧
        Quiet (cellsOf (cutRow pre c n post)) s t := by
  have hc : c ∈ pre ++ [c] ++ post := by simp
  have hn0 : 0 ≤ n := by omega
  have htiles := Tiles.cutRow h.tiles hn0 hfit
  have hcov : Covers { s with mem := m } (cutRow pre c n post) := ⟨h.start, htiles⟩
  have hw := Rep.writable h hc hn0 hfit
  have hfar := farPart_notMem (k := .free) h hn0 hfit ()
  have hself := succOf_ne_self (h.nodup ()) (h.zero_notMem ()) hci
  rcases h.ptr_cases (succOf_mem_or 0 (L ()) c.addr) with hnil | ⟨d, hd, hdaddr, hdl, hdfree⟩
  · -- nothing stands behind `c` in the list
    have hnot : ¬ succOf 0 (L ()) c.addr ≠ null := not_not.mpr hnil
    rw [if_neg hnot]
    refine Returns.pure ⟨rfl, Rep.cutListed h hci hlo0 hlo hn hfit hq rfl fun b hb => ?_, hq⟩
    have hb0 : ¬ b.addr = succOf 0 (L ()) c.addr := by
      rw [hnil]
      exact hcov.addr_ne hb
    rw [hrec b hb]
    simp only [if_neg hb0]
  · -- `d` stands behind `c`
    have hdc : d.addr ≠ c.addr := by rwa [hdaddr]
    have hdf : d.addr ≠ (farPart c n .free).addr := fun heq => hfar (heq ▸ hdaddr ▸ hdl)
    have hdm : d ∈ cutRow pre c n post := by
      rcases mem_middle.mp hd with hd | hd
      · exact absurd (congrArg Blk.addr (List.mem_singleton.mp hd)) hdc
      · exact mem_cutRow.mpr (Or.inr (Or.inr hd))
    have hdrec : recAt m d = recAt s.mem d := by
      rw [hrec d hdm, if_neg (show d.addr ≠ (nearPart c n .free).addr from hdc), if_neg hdf]
    have hdunits : (recAt m d).units = d.units := by
      rw [hdrec]
      exact (h.formed d hd (by rw [hdfree]; decide)).units
    have hdfoot := hcov.footer_ne hdm
    have hyes : succOf 0 (L ()) c.addr ≠ null := by
      rw [← hdaddr]
      exact hcov.addr_ne hdm
    rw [if_pos hyes, ← hdaddr]
    refine Returns.step (footerFromHeader_blk hcov hdm hdunits) ?_
    refine Returns.step (assert_ok hdfoot) ?_
    refine Returns.step (chunkFooterSetPrevFreeChunk_ok hdfoot) ?_
    have hq' := hq.write (agreeOff_setLink m d.footer (farPart c n .free).addr)
      (footer_sub_cellsOf hdm)
    refine Returns.pure ⟨rfl, Rep.cutListed h hci hlo0 hlo hn hfit hq' rfl fun b hb => ?_, hq'⟩
    have hset := recAt_setPrev (m := m) htiles hb hdm hw.farAddr.1 hw.farAddr.2
    refine hset.trans ?_
    rw [hrec b hb, ← hdaddr]
    by_cases hbd : b.addr = d.addr
    · have hbn : ¬ b.addr = (nearPart c n .free).addr := hbd ▸ hdc
      have hbf : ¬ b.addr = (farPart c n .free).addr := hbd ▸ hdf
      simp only [if_pos hbd, if_neg hbn, if_neg hbf]
    · simp only [if_neg hbd]

theorem splitChunk_spec {n : Int} (h : Rep findBin lo s (pre ++ [c] ++ post) L)
    (hci : c.addr ∈ L ()) (hlo0 : lo ≤ 1) (hlo : lo ≤ n) (hn : 1 ≤ n) (hfit : n + 2 < c.units) :
    Returns (splitChunk c.addr n) s fun r t => r = (farPart c n .free).addr ∧
      Rep findBin lo t (cutRow pre c n post)
        (fun _ => insertAfter c.addr (farPart c n .free).addr (L ())) ∧
      Quiet (cellsOf (cutRow pre c n post)) s t := by
  have hc : c ∈ pre ++ [c] ++ post := by simp
  obtain ⟨hfree, -, -⟩ := h.of_mem_list hc hci
  have hraw : c.kind ≠ .raw := by rw [hfree]; decide
  have hne := h.covers.addr_ne hc
  have hfne := h.covers.footer_ne hc
  have hstart := h.tiles.start_le hc
  have hstop := h.tiles.stop_le hc
  have hn0 : 0 ≤ n := by omega
  have hend : c.addr ≤ s.gHeapEnd := by
    unfold Blk.stop at hstop
    omega
  have htiles := Tiles.cutRow h.tiles hn0 hfit
  obtain ⟨htwo, hkeep, hn'⟩ := cut_units hn0 hfit (h.sized c hc).2
  have hnear_lt : (nearPart c n .free).units < 2 ^ 31 := nearPart_units_lt hn0 (h.sized c hc).2
  have hstatus := (status_eq_free_iff h hc hraw).mpr hfree
  obtain ⟨hcell, hsize⟩ := h.cell_units hc hraw
  obtain ⟨hnext, hprev⟩ := h.linked () c hc hci
  have hnext' : (cellAt s.mem c.addr).link = succOf 0 (L ()) c.addr := hnext
  have hprev' : (cellAt s.mem c.footer).link = predOf 0 (L ()) c.addr := hprev
  have hgt : toSize (cellAt s.mem c.addr).units > toSize (n + 2) := by
    rw [hsize, htwo]
    exact hfit
  have hnlo : -2 ^ 31 ≤ n := by omega
  have hw := Rep.writable h hc hn0 hfit
  have hcov : ∀ m, Covers { s with mem := m } (cutRow pre c n post) := fun m => ⟨h.start, htiles⟩
  have hnm : nearPart c n .free ∈ cutRow pre c n post := mem_cutRow.mpr (Or.inl rfl)
  have hfm : farPart c n .free ∈ cutRow pre c n post := mem_cutRow.mpr (Or.inr (Or.inl rfl))
  have hrow : cutRow pre c n post = pre ++ [nearPart c n .free] ++ farPart c n .free :: post := by
    simp [cutRow]
  have hnf : (nearPart c n .free).footer ≠ 0 := (hcov s.mem).footer_ne hnm
  have hfh : (farPart c n .free).addr ≠ 0 := (hcov s.mem).addr_ne hfm
  have hff : (farPart c n .free).footer ≠ 0 := (hcov s.mem).footer_ne hfm
  have hnearUnits : (recAt (setLink (sizedMem s.mem (nearPart c n .free))
      (nearPart c n .free).footer (predOf 0 (L ()) c.addr)) (nearPart c n .free)).units =
      (nearPart c n .free).units := by
    rw [recAt_setPrev htiles hnm hnm hw.prev.1 hw.prev.2, if_pos rfl,
      recAt_sizedMem (hcov s.mem) hnm hnear_lt]
  have hfarUnits : (recAt (setUnits (setLink (sizedMem s.mem (nearPart c n .free))
      (nearPart c n .free).footer (predOf 0 (L ()) c.addr)) (farPart c n .free).addr n)
      (farPart c n .free)).units = n := by
    rw [recAt_setHeaderUnits htiles hfm hfm hnlo hw.farUnits, if_pos rfl]
  unfold splitChunk
  refine Returns.step (get_apply s) ?_
  refine Returns.step (assert_ok ⟨hstart, hend⟩) ?_
  refine Returns.step (chunkGetStatus_ok hne) ?_
  refine Returns.step (assert_ok hstatus) ?_
  refine Returns.step (chunkGetUnits_ok hne) ?_
  refine Returns.step (assert_ok hgt) ?_
  refine Returns.step (chunkGetNextFreeChunk_ok hne) ?_
  refine Returns.step (chunkGetUnits_ok hne) ?_
  refine Returns.step (footerFromHeader_blk h.covers hc hcell) ?_
  refine Returns.step (assert_ok hfne) ?_
  refine Returns.step (chunkFooterGetPrevFreeChunk_ok hfne) ?_
  rw [hnext', hprev']
  dsimp only
  rw [hsize, hkeep, hn']
  -- the near end
  refine Returns.step (writeUnits_blk (b := nearPart c n .free) (hcov s.mem) hnm hnear_lt) ?_
  refine Returns.step (chunkFooterSetPrevFreeChunk_ok hnf) ?_
  refine Returns.step (nextAdjacent_mid (b := nearPart c n .free) (c := farPart c n .free)
    (hrow ▸ hcov _) hnearUnits) ?_
  -- the far end
  refine Returns.step (chunkSetUnits_ok hfh) ?_
  refine Returns.step (footerFromHeader_blk (hcov _) hfm hfarUnits) ?_
  refine Returns.step (assert_ok hff) ?_
  refine Returns.step (chunkFooterSetPrevFreeChunk_ok hff) ?_
  refine Returns.step (chunkFooterSetUnits_ok hff) ?_
  refine Returns.step (chunkSetStatus_ok hfh) ?_
  -- the list
  refine Returns.step (chunkSetNextFreeChunk_ok hne) ?_
  refine Returns.step (chunkSetNextFreeChunk_ok hfh) ?_
  refine relinkNext_spec h hci hlo0 hlo hn hfit
    (quiet_splitMem _ _ (cells_sub_cellsOf hnm) (cells_sub_cellsOf hfm)) fun b hb => ?_
  have hnear_far : (nearPart c n .free).addr ≠ (farPart c n .free).addr := fun heq =>
    farPart_notMem (k := .free) h hn0 hfit () (heq ▸ hci)
  refine (recAt_splitMem htiles hnm hfm hb hw hnear_far).trans ?_
  by_cases hbn : b.addr = (nearPart c n .free).addr
  · obtain rfl := htiles.eq_of_addr hb hnm hbn
    have hbstatus : (recAt s.mem (nearPart c n .free)).status = chunkFree := hstatus
    rw [if_pos rfl, if_pos rfl, hbstatus]
  · rw [if_neg hbn, if_neg hbn]
    rfl

/-! ## check_heap_validity -/

theorem chunkIsValid_blk (h : Rep findBin 1 s T L) (hb : b ∈ T) (hraw : b.kind ≠ .raw) :
    chunkIsValid b.addr s.gHeapStart s.gHeapEnd s = .ok (true, s) := by
  have hstart := h.tiles.start_le hb
  have hstop := h.tiles.stop_le hb
  have hnonneg := h.tiles.units_nonneg hb
  have hunits := (h.sized b hb).1
  have hpos := h.start
  have hend : b.addr < s.gHeapEnd := by
    unfold Blk.stop at hstop
    omega
  have hcell : (cellAt s.mem b.addr).units ≠ 0 := by
    rw [(h.cell_units hb hraw).1]
    omega
  exact chunkIsValid_ok (h.covers.addr_ne hb) (by omega) (by omega) hstart hend hcell

/-- The walk over the chunks, from any block of the row to its end. -/
theorem checkChunks_ok {fuel : Nat} (h : Rep findBin 1 s (pre ++ post) L)
    (hraw : ∀ b ∈ pre ++ post, b.kind ≠ .raw) (hfuel : post.length ≤ fuel) :
    checkChunks fuel (headAddr post) s = .ok (true, s) := by
  induction post generalizing pre fuel with
  | nil =>
    have hstop : ¬ (headAddr [] ≠ null ∧ headAddr [] < s.gHeapEnd) := fun hh => hh.1 rfl
    cases fuel with
    | zero =>
      rw [checkChunks, bind_of_ok (get_apply s), if_neg hstop]
      rfl
    | succ fuel =>
      rw [checkChunks, bind_of_ok (get_apply s), if_neg hstop]
      rfl
  | cons c post ih =>
    cases fuel with
    | zero => exact absurd hfuel (by simp)
    | succ fuel =>
      have hc : c ∈ pre ++ c :: post := by simp
      have hne := h.covers.addr_ne hc
      have hstop := h.tiles.stop_le hc
      have hnonneg := h.tiles.units_nonneg hc
      have hgo : c.addr ≠ null ∧ c.addr < s.gHeapEnd := by
        refine ⟨hne, ?_⟩
        unfold Blk.stop at hstop
        omega
      have hrow : pre ++ c :: post = pre ++ [c] ++ post := by simp
      have hnext : nextAdjacent c.addr s = .ok (headAddr post, s) :=
        nextAdjacent_row (hrow ▸ h.covers) (h.formed c hc (hraw c hc)).units
      have hlen : post.length ≤ fuel := by simpa using hfuel
      rw [show headAddr (c :: post) = c.addr from rfl, checkChunks, bind_of_ok (get_apply s),
        if_pos hgo, bind_of_ok (chunkIsValid_blk h hc (hraw c hc)), if_neg (by decide),
        bind_of_ok hnext]
      rw [hrow] at h hraw
      exact ih h hraw hlen

theorem checkFreeChunk_ok (h : Rep findBin 1 s T L) {a : Int} (ha : a ∈ L ()) :
    checkFreeChunk a s = .ok (none, s) := by
  obtain ⟨b, hb, rfl, hfree, -⟩ := h.listed ha
  have hraw : b.kind ≠ .raw := by rw [hfree]; decide
  have hstatus := (status_eq_free_iff h hb hraw).mpr hfree
  unfold checkFreeChunk
  rw [bind_of_ok (get_apply s), bind_of_ok (chunkGetStatus_ok (h.covers.addr_ne hb)),
    if_neg (not_not.mpr hstatus), bind_of_ok (chunkIsValid_blk h hb hraw)]
  rfl

theorem gFreeHead_ok : gFreeHead s = .ok (s.freeHead (), s) := rfl

theorem checks : Checks findBin 1 checkHeapValidity := by
  intro s T L h hraw
  have hpos := h.start
  have hle := h.tiles.bounds.1
  have hstart : ¬ s.gHeapStart = 0 := by omega
  have hend : ¬ s.gHeapEnd = 0 := by omega
  unfold checkHeapValidity
  rw [bind_of_ok (get_apply s), if_neg hstart, if_neg hend]
  cases T with
  | nil =>
    have hempty : s.gHeapStart = s.gHeapEnd := h.tiles
    have hlist : L () = [] := by
      refine List.eq_nil_iff_forall_not_mem.mpr fun a ha => ?_
      obtain ⟨b, hb, -⟩ := h.listed ha
      exact absurd hb List.not_mem_nil
    have hhead : s.freeHead () = null := by rw [h.head (), hlist]; rfl
    rw [if_pos hempty, bind_of_ok gFreeHead_ok, hhead]
    rfl
  | cons c T =>
    have hc : c ∈ c :: T := List.mem_cons_self ..
    have haddr : c.addr = s.gHeapStart := h.tiles.1
    have hstop := h.tiles.stop_le hc
    have hnonneg := h.tiles.units_nonneg hc
    have hne : ¬ s.gHeapStart = s.gHeapEnd := by
      unfold Blk.stop at hstop
      omega
    have hchunks : checkChunks s.fuel s.gHeapStart s = .ok (true, s) := by
      rw [← haddr]
      have hrow : Rep findBin 1 s ([] ++ c :: T) L := h
      exact checkChunks_ok hrow hraw h.blocks_lt_fuel.le
    have hlist := forFreeChunks_reads (h.follows ()) (h.list_le_fuel ())
      (fun a ha => checkFreeChunk_ok h ha)
    have hnone : (L ()).findSome? (fun _ => (none : Option Unit)) = none := by
      rw [List.findSome?_eq_none_iff]
      exact fun _ _ => rfl
    rw [if_neg hne, bind_of_ok hchunks, if_neg (by decide), bind_of_ok gFreeHead_ok,
      bind_of_ok hlist, hnone]
    rfl

/-! ## heapmgr_malloc -/

/-- The block for `n` units is all of the chunk `c`, or the far end of it. -/
inductive Carved (pre : List Blk) (c : Blk) (post : List Blk) (n : Int) : List Blk → Blk → Prop
  | whole (hsmall : c.units ≤ n + 2) :
      Carved pre c post n (pre ++ [{ c with kind := .inUse }] ++ post) { c with kind := .inUse }
  | farEnd (hbig : n + 2 < c.units) :
      Carved pre c post n (pre ++ [nearPart c n .free, farPart c n .inUse] ++ post)
        (farPart c n .inUse)

/-- A free chunk that is large enough is taken, whole or the far end of it. -/
theorem takeSplit_spec {n : Int} (h : Inv findBin lo s (pre ++ [c] ++ post) L)
    (hfree : c.kind = .free) (hlo0 : lo ≤ 1) (hlo : lo ≤ n) (hn : 1 ≤ n) (hle : n ≤ c.units) :
    Returns (splitIfLarge n c.addr >>= fun a => do removeChunkFromList a; return a) s fun r t =>
      ∃ T' L' b, r = b.addr ∧ Carved pre c post n T' b ∧
        Taken findBin lo s t (pre ++ [c] ++ post) T' L' b n ∧
        t.gHeapEnd = s.gHeapEnd ∧ t.asked = s.asked := by
  have hc : c ∈ pre ++ [c] ++ post := by simp
  have hraw : c.kind ≠ .raw := by rw [hfree]; decide
  have hne := h.covers.addr_ne hc
  have hlt := (h.sized c hc).2
  have htwo : toSize (n + 2) = n + 2 := toSize_of_lt (by omega) (by omega)
  have hsize := (h.toRep.cell_units hc hraw).2
  have hci : c.addr ∈ L () := h.filed c hc hfree
  unfold splitIfLarge
  rw [bind_assoc]
  refine Returns.step (chunkGetUnits_ok hne) ?_
  rw [hsize, htwo]
  by_cases hbig : c.units > n + 2
  · rw [if_pos hbig]
    refine Returns.bind (splitChunk_spec h.toRep hci hlo0 hlo hn hbig) fun r s1 ⟨hr, h1, hq1⟩ => ?_
    subst hr
    have hfar := farPart_notMem (k := .free) h.toRep (by omega : 0 ≤ n) hbig ()
    have hmem : (farPart c n .free).addr ∈
        insertAfter c.addr (farPart c n .free).addr (L ()) := (mem_insertAfter hci).mpr (Or.inl rfl)
    unfold cutRow at h1 hq1
    refine Returns.bind (removeChunkFromList_spec (i := ()) h1 hmem) fun _ t ⟨ht, hqt⟩ => ?_
    have hlists : Function.update
        (fun _ : Unit => insertAfter c.addr (farPart c n .free).addr (L ()))
        () ((insertAfter c.addr (farPart c n .free).addr (L ())).erase (farPart c n .free).addr) =
        L := by
      funext i
      rw [erase_insertAfter hci hfar]
      exact Function.update_self ..
    rw [hlists] at ht
    have hq := (hq1.trans hqt).mono (cellsOf_kind (k := .inUse) (farPart c n .free))
    exact Returns.pure ⟨_, L, farPart c n .inUse, rfl, .farEnd hbig,
      taken_of_cut h hfree ht hq hci fun x _ j hx => hx, hq.gHeapEnd, hq.asked⟩
  · rw [if_neg hbig, pure_bind]
    have hwhole : n ≤ c.units ∧ c.units ≤ n + 2 := ⟨hle, by omega⟩
    refine Returns.bind (takeWhole_spec h hfree hwhole) fun _ t ⟨L', ht, hq⟩ => ?_
    exact Returns.pure
      ⟨_, L', { c with kind := .inUse }, rfl, .whole hwhole.2, ht, hq.gHeapEnd, hq.asked⟩

theorem mallocFromChunk_small {n a : Int} (ha : a ≠ 0) (hnot : ¬ Fits s n a) :
    mallocFromChunk n a s = .ok (none, s) := by
  unfold mallocFromChunk
  rw [bind_of_ok (chunkGetUnits_ok ha), if_pos (not_le.mp hnot)]
  rfl

theorem mallocFromChunk_spec {n : Int} (h : Inv findBin 1 s (pre ++ [c] ++ post) L)
    (hfree : c.kind = .free) (hn : 1 ≤ n) (hle : n ≤ c.units) :
    Returns (mallocFromChunk n c.addr) s fun r t => r.isSome ∧ ∃ T' L' b,
      r = some (b.addr + 16) ∧ Carved pre c post n T' b ∧
        Taken findBin 1 s t (pre ++ [c] ++ post) T' L' b n ∧
        t.gHeapEnd = s.gHeapEnd ∧ t.asked = s.asked := by
  have hc : c ∈ pre ++ [c] ++ post := by simp
  have hsize := (h.toRep.cell_units hc (by rw [hfree]; decide)).2
  unfold mallocFromChunk
  refine Returns.step (chunkGetUnits_ok (h.covers.addr_ne hc)) ?_
  rw [hsize, if_neg (not_lt.mpr hle)]
  obtain ⟨r, t, heq, T', L', b, rfl, hcarved, ht, hend, hasked⟩ :=
    takeSplit_spec h hfree (le_refl 1) hn hn hle
  obtain ⟨a, s1, hsplit, hrest⟩ := ok_of_bind heq
  obtain ⟨u, s2, hremove, hret⟩ := ok_of_bind hrest
  obtain ⟨rfl, rfl⟩ := Prod.mk.inj (Except.ok.inj hret)
  refine Returns.step hsplit ?_
  refine Returns.step hremove ?_
  refine Returns.step (checks _ _ _ ht.inv.toRep ht.inv.noRaw) ?_
  refine Returns.step (assert_ok rfl) ?_
  exact Returns.pure ⟨rfl, T', L', b, rfl, hcarved, ht, hend, hasked⟩

theorem initOnce_ok (h : Between findBin lo s T L) : initOnce s = .ok ((), ready s) := by
  unfold initOnce ready
  rw [bind_of_ok (get_apply s)]
  rcases h with ⟨hfresh, -, -⟩ | ⟨hinit, -⟩
  · have hnot : ¬ s.isInit = true := by
      rw [hfresh.isInit]
      decide
    have hlt : s.brk < 2 ^ 64 - 1 := hfresh.brk.2
    unfold initMyHeap
    rw [if_neg hnot, if_neg hnot, bind_of_ok (initHeapBounds_ok (ne_of_lt hlt))]
    rfl
  · rw [if_pos hinit, if_pos hinit]
    rfl

/-- Some chunk of the free list is large enough. -/
def Hit (s : State) (L : Unit → List Int) (n : Int) : Prop := ∃ a ∈ L (), Fits s n a

/-- The block for `n` units comes from the first chunk of the list that is large enough. -/
def FromFirst (s : State) (T : List Blk) (L : Unit → List Int) (n : Int) (T' : List Blk) (b : Blk) :
    Prop :=
  ∃ l l' pre c post, L () = l ++ c.addr :: l' ∧ (∀ a ∈ l, ¬ Fits s n a) ∧ T = pre ++ [c] ++ post ∧
    n ≤ c.units ∧ Carved pre c post n T' b

/-- The search loop takes the first chunk of the list that is large enough. -/
theorem search_spec {n : Int} (h : Inv findBin 1 s T L) (hn : 1 ≤ n) :
    (¬ Hit s L n → forFreeChunks s.fuel (s.freeHead ()) (mallocFromChunk n) s = .ok (none, s)) ∧
    (Hit s L n → Returns (forFreeChunks s.fuel (s.freeHead ()) (mallocFromChunk n)) s fun r t =>
      ∃ T' L' b, r = some (b.addr + 16) ∧ FromFirst s T L n T' b ∧
        Taken findBin 1 s t T T' L' b n ∧ t.gHeapEnd = s.gHeapEnd ∧ t.asked = s.asked) := by
  have hne : ∀ a ∈ L (), a ≠ 0 := fun a ha h0 => h.zero_notMem () (h0 ▸ ha)
  have hfollows := h.follows ()
  have hfuel := h.list_le_fuel ()
  constructor
  · intro hmiss
    have hbody : ∀ a ∈ L (), mallocFromChunk n a s = .ok (none, s) :=
      fun a ha => mallocFromChunk_small (hne a ha) fun hfit => hmiss ⟨a, ha, hfit⟩
    have hnone : (L ()).findSome? (fun _ => (none : Option Int)) = none := by
      rw [List.findSome?_eq_none_iff]
      exact fun _ _ => rfl
    rw [forFreeChunks_reads hfollows hfuel hbody, hnone]
  · rintro ⟨a, ha, hfit⟩
    have hsome : ((L ()).find? fun a => decide (toSize (cellAt s.mem a).units ≥ n)).isSome :=
      List.find?_isSome.mpr ⟨a, ha, decide_eq_true hfit⟩
    obtain ⟨d, hd⟩ := Option.isSome_iff_exists.mp hsome
    obtain ⟨hdfit, l, l', hl, hbefore⟩ := List.find?_eq_some_iff_append.mp hd
    have hdl : d ∈ L () := hl ▸ by simp
    obtain ⟨c, hc, rfl, hfree, -⟩ := h.listed hdl
    obtain ⟨pre, post, rfl⟩ := List.append_of_mem hc
    have hrow : pre ++ c :: post = pre ++ [c] ++ post := by simp
    rw [hrow] at h hc ⊢
    have hle : n ≤ c.units := by
      have hge := of_decide_eq_true hdfit
      rwa [(h.toRep.cell_units hc (by rw [hfree]; decide)).2] at hge
    rw [hl] at hfollows hfuel hne
    have hsmall : ∀ b ∈ l, ¬ Fits s n b := by
      intro b hb hbfit
      have hb' := hbefore b hb
      rw [decide_eq_true (show toSize (cellAt s.mem b).units ≥ n from hbfit)] at hb'
      exact absurd hb' (by decide)
    refine (forFreeChunks_first hfollows hfuel
      (fun b hb => mallocFromChunk_small (hne b (by simp [hb])) (hsmall b hb))
      (mallocFromChunk_spec h hfree hn hle)).mono fun r t ht => ?_
    obtain ⟨T', L', b, hr, hcarved, hrest⟩ := ht
    exact ⟨T', L', b, hr, ⟨l, l', pre, c, post, hl, hsmall, rfl, hle, hcarved⟩, hrest⟩

/-- After its checks, `heapmgr_malloc` searches the list, and turns to the system if it finds
    nothing. -/
theorem heapmgrMalloc_searches (grant : Bool) {size n : Int} (h : Between findBin 1 s T L)
    (hsize : 0 < size) (hunits : sizeToUnits size = n) {Q : Int → State → Prop}
    (hrest : Returns (do
      match ← forFreeChunks (ready s).fuel ((ready s).freeHead ()) (mallocFromChunk n) with
      | some p => return p
      | none => mallocFromSystem findBin checkHeapValidity grant n) (ready s) Q) :
    Returns (heapmgrMalloc grant size) s Q := by
  have hinv := h.ready
  unfold heapmgrMalloc
  rw [if_neg (Int.not_le.mpr hsize)]
  refine Returns.step (initOnce_ok h) ?_
  refine Returns.step (checks _ _ _ hinv.toRep hinv.noRaw) ?_
  refine Returns.step (assert_ok rfl) ?_
  dsimp only
  rw [hunits]
  refine Returns.step (get_apply _) ?_
  refine Returns.step gFreeHead_ok ?_
  exact hrest

theorem heapmgrMalloc_hit (grant : Bool) {size n : Int} (h : Between findBin 1 s T L)
    (hsize : 0 < size) (hunits : sizeToUnits size = n) (hn : 1 ≤ n) (hhit : Hit (ready s) L n) :
    Returns (heapmgrMalloc grant size) s fun p t => ∃ T' L' b, p = b.addr + 16 ∧
      FromFirst (ready s) T L n T' b ∧ Taken findBin 1 (ready s) t T T' L' b n ∧
        t.gHeapEnd = (ready s).gHeapEnd ∧ t.asked = (ready s).asked := by
  refine heapmgrMalloc_searches grant h hsize hunits ?_
  refine Returns.bind ((search_spec h.ready hn).2 hhit) fun r t ⟨T', L', b, hr, hrest⟩ => ?_
  subst hr
  exact Returns.pure ⟨T', L', b, rfl, hrest⟩

theorem heapmgrMalloc_spec (grant : Bool) {size n : Int} (h : Between findBin 1 s T L)
    (hsize : 0 < size) (hunits : sizeToUnits size = n) (hn : 1 ≤ n) (hn' : n < 2 ^ 31) :
    Returns (heapmgrMalloc grant size) s
      (MallocResult findBin 1 grant (ready s) T n (Hit (ready s) L n)) := by
  have hinv := h.ready
  by_cases hhit : Hit (ready s) L n
  · refine (heapmgrMalloc_hit grant h hsize hunits hn hhit).mono fun p t hp => ?_
    obtain ⟨T', L', b, hp, -, ht, hend, hasked⟩ := hp
    exact .found hhit hp ht hend hasked
  · refine heapmgrMalloc_searches grant h hsize hunits ?_
    refine Returns.step ((search_spec hinv hn).1 hhit) ?_
    refine (mallocFromSystem_spec checks hinv (le_refl 1) hn (by omega) hn').mono fun p t ht => ?_
    rcases ht with ⟨hno, hp, ht⟩ | ⟨hyes, T', L', b, hp, htaken, hext⟩
    · exact .refused hhit hno hp ht
    · exact .grown hhit hyes hp htaken hext

end SnuSysProg.Heapmgr1
