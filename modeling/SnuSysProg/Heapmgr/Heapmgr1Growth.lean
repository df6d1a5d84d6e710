import SnuSysProg.Heapmgr.Heapmgr1Runs

/-
  When `heapmgr1.c` grows the heap, and where a block comes from otherwise.

  Between two calls the free list holds every free chunk, so the search loop misses nothing:
  `heapmgr_malloc` asks the kernel for memory if and only if no free chunk is large enough. If one
  is, the block is the first such chunk of the list or its far end, and `split_chunk` and
  `remove_chunk_from_list` change no other chunk (`heapmgr1_first_fit`).
-/

namespace SnuSysProg.Heapmgr1
open SnuSysProg.Lib SnuSysProg.Heapmgr

variable {s t : State} {T T' pre post : List Blk} {L L' : Unit → List Int} {b c : Blk} {n p : Int}
  {x₀ x : Client Unit} {es : List Move}

/-- A free chunk of `chunks` has at least `n` units. -/
def SomeFits (m : Mem) (chunks : List Int) (n : Int) : Prop :=
  ∃ c ∈ chunks, (cellAt m c).status = chunkFree ∧ n ≤ (cellAt m c).units

/-- The header of the chunk says the same in both memories. -/
def SameChunk (m m' : Mem) (c : Int) : Prop :=
  (cellAt m' c).units = (cellAt m c).units ∧ (cellAt m' c).status = (cellAt m c).status

/-- From the heap `s` of the chunks `chunks`, the free ones in the order `list`, the block at `p`
    was taken: from the first chunk of the list that has `n` units, either all of it or the end of
    it; the others are where they were, as large and as free. -/
structure FirstFit (s t : State) (chunks list : List Int) (n p : Int) (c : Int)
    (pre mid post : List Int) : Prop where
  first : ∃ l l', list = l ++ c :: l' ∧ ∀ a ∈ l, (cellAt s.mem a).units < n
  fits : n ≤ (cellAt s.mem c).units
  before : chunks = pre ++ [c] ++ post
  after : Walk t.mem s.gHeapStart (pre ++ mid ++ post) s.gHeapEnd
  bounds : t.gHeapStart = s.gHeapStart ∧ t.gHeapEnd = s.gHeapEnd
  pieces : mid = [c] ∧ p - chunkUnit = c ∨
    mid = [c, p - chunkUnit] ∧ (cellAt t.mem c).status = chunkFree
  inside : c ≤ p - chunkUnit ∧
    p - chunkUnit + ((cellAt t.mem (p - chunkUnit)).units + 2) * chunkUnit =
      c + ((cellAt s.mem c).units + 2) * chunkUnit
  block : n ≤ (cellAt t.mem (p - chunkUnit)).units ∧
    (cellAt t.mem (p - chunkUnit)).status = chunkInUse
  others : ∀ a, a ∈ pre ∨ a ∈ post → SameChunk s.mem t.mem a

/-- The search finds a chunk exactly when a free one is large enough. -/
theorem hit_iff (h : Inv findBin 1 s T L) : Hit s L n ↔ SomeFits s.mem (T.map Blk.addr) n := by
  constructor
  · intro hhit
    obtain ⟨a, ha, hfit⟩ := hhit
    obtain ⟨c, hc, -, hfree, hle, -⟩ := h.toRep.fits ha hfit
    obtain ⟨hunits, hiff⟩ := h.chunk hc
    exact ⟨c.addr, List.mem_map.mpr ⟨c, hc, rfl⟩, hiff.mpr hfree, hunits ▸ hle⟩
  · intro ⟨a, ha, hfree, hle⟩
    obtain ⟨c, hc, rfl⟩ := List.mem_map.mp ha
    obtain ⟨hunits, hiff⟩ := h.chunk hc
    refine ⟨c.addr, h.filed c hc (hiff.mp hfree), ?_⟩
    unfold Fits
    rw [(h.toRep.cell_units hc (h.noRaw c hc)).2]
    rwa [hunits] at hle

/-- A block that is in the row before and after the call keeps its chunk. -/
theorem sameChunk (h : Inv findBin 1 s T L) (h' : Inv findBin 1 t T' L') (hb : b ∈ T)
    (hb' : b ∈ T') : SameChunk s.mem t.mem b.addr := by
  have hstatus : (cellAt s.mem b.addr).status = b.kind.status :=
    (h.formed b hb (h.noRaw b hb)).status
  have hstatus' : (cellAt t.mem b.addr).status = b.kind.status :=
    (h'.formed b hb' (h'.noRaw b hb')).status
  exact ⟨(h'.chunk hb').1.trans (h.chunk hb).1.symm, hstatus'.trans hstatus.symm⟩

/-- So do the blocks around the one that was taken. -/
theorem Taken.sameChunk (ht : Taken findBin 1 s t (pre ++ [c] ++ post) T' L' b n)
    (h : Inv findBin 1 s (pre ++ [c] ++ post) L) (hkept : ∀ d, d ∈ pre ∨ d ∈ post → d ∈ T')
    (a : Int) (ha : a ∈ pre.map Blk.addr ∨ a ∈ post.map Blk.addr) : SameChunk s.mem t.mem a := by
  have hd : ∃ d, (d ∈ pre ∨ d ∈ post) ∧ d.addr = a := by
    obtain ha | ha := ha
    · obtain ⟨d, hd, rfl⟩ := List.mem_map.mp ha
      exact ⟨d, Or.inl hd, rfl⟩
    · obtain ⟨d, hd, rfl⟩ := List.mem_map.mp ha
      exact ⟨d, Or.inr hd, rfl⟩
  obtain ⟨d, hd, rfl⟩ := hd
  exact Heapmgr1.sameChunk h ht.inv (mem_middle.mpr (Or.inr hd)) (hkept d hd)

/-- The chunk in use that a block is. -/
theorem chunk_inUse (h : Inv findBin 1 s T L) (hb : b ∈ T) (hk : b.kind = .inUse) :
    (cellAt s.mem b.addr).status = chunkInUse := by
  have hstatus : (cellAt s.mem b.addr).status = b.kind.status :=
    (h.formed b hb (h.noRaw b hb)).status
  rw [hstatus, hk]
  rfl

/-- The chunks before the first one that is large enough have fewer units. -/
theorem units_lt_of_not_fits (h : Inv findBin 1 s T L) {a : Int} (ha : a ∈ L ())
    (hnot : ¬ Fits s n a) : (cellAt s.mem a).units < n := by
  obtain ⟨b, hb, rfl, -⟩ := h.listed ha
  obtain ⟨hunits, hsize⟩ := h.toRep.cell_units hb (h.noRaw b hb)
  unfold Fits at hnot
  rw [hsize] at hnot
  rw [hunits]
  exact not_le.mp hnot

/-- What was carved out of the first chunk that is large enough, in memory. -/
theorem firstFit_of_taken (h : Inv findBin 1 s T L) (hfrom : FromFirst s T L n T' b)
    (ht : Taken findBin 1 s t T T' L' b n) (hend : t.gHeapEnd = s.gHeapEnd) :
    ∃ c pre mid post, FirstFit s t (T.map Blk.addr) (L ()) n (b.addr + 16) c pre mid post := by
  obtain ⟨l, l', pre, c, post, hlist, hsmall, rfl, hle, hcarved⟩ := hfrom
  have hc : c ∈ pre ++ [c] ++ post := by simp
  have hptr : b.addr + 16 - chunkUnit = b.addr := by unfold chunkUnit; omega
  have hfirst : ∃ l l', L () = l ++ c.addr :: l' ∧ ∀ a ∈ l, (cellAt s.mem a).units < n :=
    ⟨l, l', hlist, fun a ha => units_lt_of_not_fits h (hlist ▸ List.mem_append_left _ ha)
      (hsmall a ha)⟩
  have hcunits := (h.chunk hc).1
  have hbunits := (ht.inv.chunk ht.mem).1
  have hblock := chunk_inUse ht.inv ht.mem ht.kind
  have hwalk : Walk t.mem s.gHeapStart (T'.map Blk.addr) s.gHeapEnd := by
    rw [← ht.gHeapStart, ← hend]
    exact ht.inv.tiles.walk fun d hd => (ht.inv.chunk hd).1
  have hbefore : (pre ++ [c] ++ post).map Blk.addr =
      pre.map Blk.addr ++ [c.addr] ++ post.map Blk.addr := by simp
  cases hcarved with
  | whole hsmall' =>
    refine ⟨c.addr, pre.map Blk.addr, [c.addr], post.map Blk.addr, hfirst, hcunits ▸ hle, hbefore,
      ?_, ⟨ht.gHeapStart, hend⟩, Or.inl ⟨rfl, hptr⟩, ?_, ?_,
      Taken.sameChunk ht h fun d hd => ?_⟩
    · rw [List.map_append, List.map_append] at hwalk
      exact hwalk
    · rw [hptr, hbunits, hcunits]
      exact ⟨le_refl _, rfl⟩
    · rw [hptr, hbunits]
      exact ⟨hle, hblock⟩
    · exact mem_middle.mpr (Or.inr hd)
  | farEnd hbig =>
    have hnear : nearPart c n .free ∈ pre ++ [nearPart c n .free, farPart c n .inUse] ++ post := by
      simp
    refine ⟨c.addr, pre.map Blk.addr, [c.addr, (farPart c n .inUse).addr], post.map Blk.addr,
      hfirst, hcunits ▸ hle, hbefore, ?_, ⟨ht.gHeapStart, hend⟩, Or.inr ⟨by rw [hptr], ?_⟩, ?_, ?_,
      Taken.sameChunk ht h fun d hd => mem_middle.mpr (Or.inr hd)⟩
    · rw [List.map_append, List.map_append] at hwalk
      exact hwalk
    · exact (ht.inv.chunk hnear).2.mpr rfl
    · rw [hptr, hbunits, hcunits]
      unfold farPart chunkUnit
      dsimp only
      omega
    · rw [hptr, hbunits]
      exact ⟨le_refl _, hblock⟩

/-- Where the heap is not set up yet there is no chunk to find. -/
theorem ready_of_hit (h : Between findBin 1 s T L) (hhit : Hit (ready s) L n) : ready s = s := by
  obtain ⟨-, -, rfl⟩ | ⟨hinit, -⟩ := h
  · obtain ⟨a, ha, -⟩ := hhit
    exact absurd ha List.not_mem_nil
  · exact if_pos hinit

/-- **The heap grows only when it must, and otherwise the first fit is taken.** In every reachable
    state a call of `heapmgr_malloc` returns; it asked the kernel for memory if and only if no
    free chunk of the heap has the units that the size needs; and if it did not ask, its block
    comes from the first chunk of the free list that has them, and is large enough. -/
theorem heapmgr1_first_fit (h0 : Start x₀)
    (hrun : Run (Guarded (fun x e => Allowed x e ∧ Small e) (step manager)) x₀ es x)
    (grant : Bool) {size : Int} (hpos : 0 < size) (hsmall : size ≤ 16 * (2 ^ 31 - 1)) :
    ∃ chunks list p t, Represents findBin x.heap chunks list ∧
      heapmgrMalloc grant size x.heap = .ok (p, t) ∧
      (t.asked ≠ x.heap.asked ↔ ¬ SomeFits x.heap.mem chunks (sizeToUnits size)) ∧
      (t.asked = x.heap.asked →
        size ≤ (cellAt t.mem (p - chunkUnit)).units * chunkUnit ∧
        ∃ c pre mid post,
          FirstFit x.heap t chunks (list ()) (sizeToUnits size) p c pre mid post) := by
  obtain ⟨T, L, h⟩ := consistent_run manager_correct h0 hrun
  obtain ⟨hn, hbytes⟩ := unitsFor_bounds hpos
  have hunits := sizeToUnits_eq hpos hsmall
  have hbetween : Between findBin 1 x.heap T L := h.between
  have hhit := hit_iff hbetween.ready (n := unitsFor size)
  rw [ready_mem] at hhit
  rw [hunits]
  by_cases hfound : Hit (ready x.heap) L (unitsFor size)
  · obtain ⟨p, t, heq, T', L', b, rfl, hfrom, ht, hend, hasked⟩ :=
      heapmgrMalloc_hit grant hbetween hpos hunits hn hfound
    have hready := ready_of_hit hbetween hfound
    have hinv := hbetween.ready
    rw [hready] at hfrom ht hend hasked hinv
    refine ⟨T.map Blk.addr, L, _, t, h.between.represents, heq, ?_, fun _ => ?_⟩
    · exact iff_of_false (fun hne => hne hasked) (fun hnone => hnone (hhit.mp hfound))
    · obtain ⟨c, pre, mid, post, hfirst⟩ := firstFit_of_taken hinv hfrom ht hend
      have hroom := hfirst.block.1
      refine ⟨?_, c, pre, mid, post, hfirst⟩
      unfold chunkUnit at hroom ⊢
      omega
  · obtain ⟨p, t, heq, hr⟩ := heapmgrMalloc_spec grant hbetween hpos hunits hn (unitsFor_lt hsmall)
    have hasked := (asked_iff hr).mpr hfound
    refine ⟨T.map Blk.addr, L, p, t, h.between.represents, heq, ?_, fun hsame => ?_⟩
    · exact iff_of_true hasked fun hsome => hfound (hhit.mpr hsome)
    · exact absurd hsame hasked

/-- The second request of a client. -/
theorem heapmgr1_first_fit_second : ∃ x p t chunks,
    Run (Guarded (fun x e => Allowed x e ∧ Small e) (step manager)) starting
      [.malloc true 100] x ∧
    heapmgrMalloc true 100 x.heap = .ok (p, t) ∧
    (t.asked ≠ x.heap.asked ↔ ¬ SomeFits x.heap.mem chunks (sizeToUnits 100)) := by
  have hallow : Allowed (starting : Client Unit) (.malloc true 100) := ⟨by decide, by decide⟩
  have hsmall : Small (.malloc true 100) := show (100 : Int) ≤ 16 * (2 ^ 31 - 1) by decide
  obtain ⟨x, hx, -⟩ := starting_start.consistent.exec_ok manager_correct
    starting_start.inRoom hallow (Or.inr (by decide))
  have hrun := (Run.nil starting).snoc
    (show Guarded (fun x e => Allowed x e ∧ Small e) (step manager) starting (.malloc true 100) x
      from ⟨⟨hallow, hsmall⟩, hx⟩)
  obtain ⟨chunks, list, p, t, -, heq, hiff, -⟩ :=
    heapmgr1_first_fit starting_start hrun true (show (0 : Int) < 100 by decide) hsmall
  exact ⟨x, p, t, chunks, hrun, heq, hiff⟩

end SnuSysProg.Heapmgr1
