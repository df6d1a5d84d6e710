import SnuSysProg.Heapmgr.Calls

/-
  Where `heapmgr_malloc` gets a block from.

  `Taken` describes a successful allocation. A block comes from the system
  (`mallocFromSystem_spec`), or a free block is taken out of its list, whole (`takeWhole`) or the
  far end of it (`takeEnd`).
-/

namespace SnuSysProg.Heapmgr
open SnuSysProg.Lib

variable {β : Type} {findBin : Int → β} {lo : Int} {s t : Heap β} {T pre post : List Blk}
  {L : β → List Int} {b c : Blk} {i : β}

/-- From `s` with the blocks `T` the block `b`, good for `n` units, was taken, and the heap is now
    `t` with the blocks `T'`: the other blocks in use are those of before. -/
structure Taken (findBin : Int → β) (lo : Int) (s t : Heap β) (T T' : List Blk)
    (L' : β → List Int) (b : Blk) (n : Int) : Prop where
  inv : Inv findBin lo t T' L'
  mem : b ∈ T'
  kind : b.kind = .inUse
  units : n ≤ b.units ∧ b.units ≤ n + 2
  fresh : b ∉ T
  others : ∀ x : Blk, x.kind = .inUse → (x ∈ T' ↔ x ∈ T ∨ x = b)
  agree : AgreeOff (cellsOf T') s.mem t.mem
  gHeapStart : t.gHeapStart = s.gHeapStart
  isInit : t.isInit = s.isInit

/-- A block that is not free separates what is before it from what is behind it. -/
theorem chain_taken_iff (hk : c.kind ≠ .free) :
    (pre ++ [c] ++ post).IsChain Apart ↔ pre.IsChain Apart ∧ post.IsChain Apart := by
  have hleft : ∀ d, Apart d c := fun d hh => hk hh.2
  have hright : ∀ d, Apart c d := fun d hh => hk hh.1
  rw [List.append_assoc, List.isChain_append, List.singleton_append, List.isChain_cons]
  simp only [List.head?_cons, Option.mem_some_iff, forall_eq']
  exact ⟨fun hh => ⟨hh.1, hh.2.1.2⟩, fun hh => ⟨hh.1, ⟨fun d _ => hright d, hh.2⟩,
    fun d _ => hleft d⟩⟩

/-- The record of refused requests is not part of what a state represents. -/
theorem Inv.with_asked (h : Inv findBin lo s T L) (l : List Int) :
    Inv findBin lo { s with asked := l } T L :=
  ⟨⟨h.start, h.tiles, h.limit, h.sized, h.formed, h.head, h.nodup, h.binned, h.linked⟩, h.noRaw,
    h.filed, h.coalesced, h.brk⟩

/-- `Inv` from its parts, for a row around a block in use. -/
theorem Inv.of_row (h : Rep findBin lo s (pre ++ [c] ++ post) L) (hk : c.kind = .inUse)
    (hraw : ∀ x, x ∈ pre ∨ x ∈ post → x.kind ≠ .raw)
    (hfiled : ∀ x, x ∈ pre ∨ x ∈ post → x.kind = .free → x.addr ∈ L (findBin x.units))
    (hpre : pre.IsChain Apart) (hpost : post.IsChain Apart) (hbrk : s.brk = s.gHeapEnd) :
    Inv findBin lo s (pre ++ [c] ++ post) L := by
  refine ⟨h, ?_, ?_, (chain_taken_iff (by rw [hk]; decide)).mpr ⟨hpre, hpost⟩, hbrk⟩
  · intro x hx
    rcases mem_middle.mp hx with hx | hx
    · obtain rfl := List.mem_singleton.mp hx
      rw [hk]
      decide
    · exact hraw x hx
  · intro x hx hf
    rcases mem_middle.mp hx with hx | hx
    · obtain rfl := List.mem_singleton.mp hx
      rw [hk] at hf
      exact absurd hf (by decide)
    · exact hfiled x hx hf

/-- A stretch of free blocks gave way to the block `b` and free blocks. -/
theorem Taken.of_row {mid mid' : List Blk} {n : Int}
    (hinv : Inv findBin lo t (pre ++ mid' ++ post) L) (hb : b ∈ mid') (hk : b.kind = .inUse)
    (hunits : n ≤ b.units ∧ b.units ≤ n + 2) (hold : ∀ x ∈ mid, x.kind = .free)
    (hnew : ∀ x ∈ mid', x = b ∨ x.kind = .free)
    (hagree : AgreeOff (cellsOf (pre ++ mid' ++ post)) s.mem t.mem)
    (hstart : t.gHeapStart = s.gHeapStart) (hinit : t.isInit = s.isInit) :
    Taken findBin lo s t (pre ++ mid ++ post) (pre ++ mid' ++ post) L b n := by
  have hmem : b ∈ pre ++ mid' ++ post := mem_middle.mpr (Or.inl hb)
  have hu := hinv.tiles.units_nonneg hmem
  have haround : ∀ x, x ∈ pre ∨ x ∈ post → x ≠ b := by
    rintro x hx rfl
    refine hinv.tiles.around hx ⟨x, hb, le_refl _, ?_⟩ ⟨le_refl _, ?_⟩ <;> unfold Blk.stop <;> omega
  refine ⟨hinv, hmem, hk, hunits, ?_, ?_, hagree, hstart, hinit⟩
  · intro hbT
    rcases mem_middle.mp hbT with hbm | hbo
    · have hfree := hold b hbm
      rw [hk] at hfree
      exact absurd hfree (by decide)
    · exact haround b hbo rfl
  · intro x hx
    have hfree : x.kind ≠ .free := by rw [hx]; decide
    rw [mem_middle, mem_middle]
    constructor
    · rintro (hxm | hxo)
      · exact Or.inr ((hnew x hxm).resolve_right hfree)
      · exact Or.inl (Or.inr hxo)
    · rintro ((hxm | hxo) | rfl)
      · exact absurd (hold x hxm) hfree
      · exact Or.inr hxo
      · exact Or.inl hb

/-! ## A block from the system -/

/-- The cells of a row do not depend on the kinds of its blocks. -/
theorem cellsOf_kind {k : Kind} (c : Blk) :
    cellsOf (pre ++ [c] ++ post) ⊆ cellsOf (pre ++ [{ c with kind := k }] ++ post) := by
  rintro x ⟨b, hb, hx⟩
  rcases mem_middle.mp hb with hb | hb
  · obtain rfl := List.mem_singleton.mp hb
    exact ⟨{ b with kind := k }, by simp, hx⟩
  · exact ⟨b, mem_middle.mpr (Or.inr hb), hx⟩

/-- The end of `heapmgr_malloc` for a block fresh from the system. -/
theorem finishNew_spec {check : HeapM β Bool} (hcheck : Checks findBin lo check)
    (h : Rep findBin lo s (pre ++ [c] ++ post) L) (hunlisted : ∀ j, c.addr ∉ L j)
    (hk : c.kind ≠ .raw) (hraw : ∀ x, x ∈ pre ∨ x ∈ post → x.kind ≠ .raw)
    (hfiled : ∀ x, x ∈ pre ∨ x ∈ post → x.kind = .free → x.addr ∈ L (findBin x.units))
    (hpre : pre.IsChain Apart) (hpost : post.IsChain Apart) (hbrk : s.brk = s.gHeapEnd) :
    Returns (do
      chunkSetStatus c.addr chunkInUse
      assert ((← check) = true)
      return c.addr + chunkUnit) s fun p t =>
      p = c.addr + 16 ∧ Inv findBin lo t (pre ++ [{ c with kind := .inUse }] ++ post) L ∧
        Quiet c.cells s t := by
  refine Returns.bind (chunkSetStatus_spec (k := .inUse) h hunlisted hk) fun _ t ⟨ht, hq, _⟩ => ?_
  have hinv := Inv.of_row ht rfl hraw hfiled hpre hpost (by rw [hq.brk, hq.gHeapEnd, hbrk])
  refine Returns.step (hcheck t _ L hinv.toRep hinv.noRaw) ?_
  refine Returns.step (assert_ok rfl) ?_
  exact Returns.pure ⟨rfl, hinv, hq⟩

/-- What stands behind the old row after `sbrk` gave `w` units for a request of `n` units. -/
def newRow (s : Heap β) (w n : Int) : List Blk :=
  if w ≤ n + 2 then [newBlk s w .inUse]
  else [firstPart (newBlk s w .free) n .inUse, restPart (newBlk s w .free) n .free]

/-- `sbrk` was asked for memory and gave it: the heap ends that much later. -/
structure Extended (s t : Heap β) (T T' : List Blk) (w n : Int) : Prop where
  gHeapEnd : t.gHeapEnd = s.gHeapEnd + (w + 2) * 16
  asked : t.asked = (w + 2) * 16 :: s.asked
  row : T' = T ++ newRow s w n

section Lists

variable [DecidableEq β]

theorem mem_filed_self (c : Blk) : c.addr ∈ filed findBin L c (findBin c.units) := by
  unfold filed
  rw [Function.update_self]
  exact List.mem_cons_self ..

theorem mem_filed {a : Int} {j : β} (ha : a ∈ filed findBin L c j) : a = c.addr ∨ a ∈ L j := by
  unfold filed at ha
  by_cases hj : j = findBin c.units
  · subst hj
    rw [Function.update_self] at ha
    exact List.mem_cons.mp ha
  · rw [Function.update_of_ne hj] at ha
    exact Or.inr ha

theorem mem_filed_of_mem {a : Int} {j : β} (ha : a ∈ L j) : a ∈ filed findBin L c j := by
  unfold filed
  by_cases hj : j = findBin c.units
  · subst hj
    rw [Function.update_self]
    exact List.mem_cons_of_mem _ ha
  · rwa [Function.update_of_ne hj]

theorem cells_split {n : Int} {k k' : Kind} (c : Blk) :
    c.cells ⊆ cellsOf [firstPart c n k, restPart c n k'] := by
  have hfooter : (restPart c n k').footer = c.footer := by
    unfold restPart Blk.footer
    dsimp only
    omega
  intro x hx
  rcases hx with hx | hx
  · exact header_sub_cellsOf (b := firstPart c n k) (by simp) hx
  · exact footer_sub_cellsOf (b := restPart c n k') (by simp) (hfooter ▸ hx)

/-- The cells of a fresh block that was split do not depend on what the first part is for. -/
theorem cells_firstPart {n : Int} (c : Blk) (k k' : Kind) :
    cellsOf (T ++ [firstPart c n k, restPart c n .free] ++ []) ⊆
      cellsOf (T ++ [firstPart c n k', restPart c n .free] ++ []) := by
  have hsplit : ∀ k, T ++ [firstPart c n k, restPart c n .free] ++ [] =
      T ++ [firstPart c n k] ++ [restPart c n .free] := fun k => by simp
  rw [hsplit, hsplit]
  exact cellsOf_kind _

/-- The end of `heapmgr_malloc` for a block fresh from the system that was split. -/
theorem finishSplit_spec {check : HeapM β Bool} {n : Int} (hcheck : Checks findBin lo check)
    (h : Rep findBin lo s (T ++ [firstPart c n .free, restPart c n .free] ++ [])
      (filed findBin L (restPart c n .free))) (hunlisted : ∀ j, c.addr ∉ L j) (hn : 0 ≤ n)
    (hraw : ∀ x ∈ T, x.kind ≠ .raw)
    (hfiled : ∀ x ∈ T, x.kind = .free → x.addr ∈ L (findBin x.units)) (hchain : T.IsChain Apart)
    (hbrk : s.brk = s.gHeapEnd) :
    Returns (do
      chunkSetStatus c.addr chunkInUse
      assert ((← check) = true)
      return c.addr + chunkUnit) s fun p t =>
      p = c.addr + 16 ∧
        Inv findBin lo t (T ++ [firstPart c n .inUse, restPart c n .free] ++ [])
          (filed findBin L (restPart c n .free)) ∧
        Quiet (firstPart c n .free).cells s t := by
  have hsplit : ∀ k, T ++ [firstPart c n k, restPart c n .free] ++ [] =
      T ++ [firstPart c n k] ++ [restPart c n .free] := fun k => by simp
  have hbefore : (firstPart c n .free).addr ≠ (restPart c n .free).addr := by
    unfold firstPart restPart
    dsimp only
    omega
  have hunlisted' : ∀ j, (firstPart c n .free).addr ∉ filed findBin L (restPart c n .free) j :=
    fun j hj => (mem_filed hj).elim hbefore (hunlisted j)
  rw [hsplit] at h ⊢
  refine finishNew_spec hcheck h hunlisted' (show Kind.free ≠ Kind.raw by decide) ?_ ?_ hchain
    (List.IsChain.singleton _) hbrk
  · rintro x (hx | hx)
    · exact hraw x hx
    · obtain rfl := List.mem_singleton.mp hx
      exact (show Kind.free ≠ Kind.raw by decide)
  · rintro x (hx | hx) hf
    · exact mem_filed_of_mem (hfiled x hx hf)
    · obtain rfl := List.mem_singleton.mp hx
      exact mem_filed_self _

omit [DecidableEq β] in
/-- A new block lies behind every block that a list holds. -/
theorem new_unlisted {w : Int} {k : Kind} (h : Inv findBin lo s T L) (j : β) :
    (newBlk s w k).addr ∉ L j := by
  intro hj
  obtain ⟨x, hx, haddr, -⟩ := h.listed hj
  have hstop := h.tiles.stop_le hx
  have hu := h.tiles.units_nonneg hx
  have haddr' : x.addr = s.brk := haddr
  have hend := h.brk
  unfold Blk.stop at hstop
  omega

omit [DecidableEq β] in
/-- The blocks `mid` stand where `sbrk` gave `w` units. -/
theorem Taken.of_new {mid : List Blk} {w n : Int} (hend : s.brk = s.gHeapEnd)
    (hrow : newRow s w n = mid) (hinv : Inv findBin lo t (T ++ mid ++ []) L)
    (hq : Quiet (cellsOf (T ++ mid ++ [])) (grown s w) t) (hb : b ∈ mid) (hk : b.kind = .inUse)
    (hunits : n ≤ b.units ∧ b.units ≤ n + 2) (hnew : ∀ x ∈ mid, x = b ∨ x.kind = .free) :
    Taken findBin lo s t T (T ++ mid) L b n ∧ Extended s t T (T ++ mid) w n := by
  have htaken : Taken findBin lo s t (T ++ [] ++ []) (T ++ mid ++ []) L b n :=
    Taken.of_row hinv hb hk hunits (fun x hx => absurd hx List.not_mem_nil) hnew hq.mem
      hq.gHeapStart hq.isInit
  rw [List.append_nil, List.append_nil, List.append_nil] at htaken
  refine ⟨htaken, ?_, hq.asked, by rw [hrow]⟩
  rw [hq.gHeapEnd, ← hend]
  rfl

theorem mallocFromSystem_spec {check : HeapM β Bool} {grant : Bool} {n : Int}
    (hcheck : Checks findBin lo check) (h : Inv findBin lo s T L) (hlo0 : lo ≤ 1) (hlo : lo ≤ n)
    (hn : 0 ≤ n) (hn' : n < 2 ^ 31) :
    Returns (mallocFromSystem findBin check grant n) s fun p t =>
      (¬ Grants grant s ((wantedUnits n + 2) * 16) ∧ p = 0 ∧
          t = { s with asked := (wantedUnits n + 2) * 16 :: s.asked }) ∨
        Grants grant s ((wantedUnits n + 2) * 16) ∧ ∃ T' L' b, p = b.addr + 16 ∧
          Taken findBin lo s t T T' L' b n ∧
          Extended s t T T' (wantedUnits n) n := by
  have hw := wantedUnits_ge n
  have halloc := allocateMoreMemory_spec grant h.toRep hlo0 h.brk hn'
  generalize wantedUnits n = w at hw halloc ⊢
  unfold mallocFromSystem
  refine Returns.bind halloc fun r s1 hr => ?_
  rcases hr with ⟨hno, rfl, rfl⟩ | ⟨hyes, rfl, h1, hq1⟩
  · rw [if_pos rfl]
    have hinv := h.with_asked ((w + 2) * 16 :: s.asked)
    refine Returns.step (hcheck _ T L hinv.toRep hinv.noRaw) ?_
    refine Returns.step (assert_ok rfl) ?_
    exact Returns.pure (Or.inl ⟨hno, rfl, rfl⟩)
  have hbrk1 : s1.brk = s1.gHeapEnd := by rw [hq1.brk, hq1.gHeapEnd]; rfl
  have hmem : newBlk s w .free ∈ T ++ [newBlk s w .free] := by simp
  have hne := h1.covers.addr_ne hmem
  have hsize := (h1.cell_units hmem (show Kind.free ≠ Kind.raw by decide)).2
  have hge : toSize (cellAt s1.mem (newBlk s w .free).addr).units ≥ n := by
    rw [hsize]
    exact hw.1
  rw [if_neg hne]
  refine Returns.step (chunkGetUnits_ok hne) ?_
  refine Returns.step (assert_ok hge) ?_
  rw [← List.append_nil (T ++ [_])] at h1
  refine Returns.bind (splitNewChunk_spec h1 rfl (new_unlisted h) hlo0 hlo hn hw.1)
    fun _ s2 hs2 => ?_
  rcases hs2 with ⟨hsmall, rfl⟩ | ⟨hbig, h2, hq2⟩
  · have hcells : (newBlk s w .free).cells ⊆ cellsOf (T ++ [newBlk s w .inUse] ++ []) :=
      cells_sub_cellsOf (b := newBlk s w .inUse) (by simp)
    refine (finishNew_spec hcheck h1 (new_unlisted h) (show Kind.free ≠ Kind.raw by decide)
      (fun x hx => h.noRaw x (by simpa using hx)) (fun x hx => h.filed x (by simpa using hx))
      h.coalesced List.IsChain.nil hbrk1).mono fun p t ⟨hp, ht, hq⟩ => ?_
    obtain ⟨htaken, hext⟩ := Taken.of_new (b := newBlk s w .inUse) h.brk (if_pos hsmall) ht
      ((hq1.trans hq).mono hcells) (List.mem_singleton_self _) rfl ⟨hw.1, hsmall⟩
      (fun x hx => Or.inl (List.mem_singleton.mp hx))
    exact Or.inr ⟨hyes, _, _, newBlk s w .inUse, hp, htaken, hext⟩
  · have hcells : (newBlk s w .free).cells ⊆ cellsOf (T ++ [firstPart (newBlk s w .free) n .inUse,
        restPart (newBlk s w .free) n .free] ++ []) :=
      (cells_split _).trans (cellsOf_mono fun x hx => mem_middle.mpr (Or.inl hx))
    have hfirst : (firstPart (newBlk s w .free) n .free).cells ⊆
        cellsOf (T ++ [firstPart (newBlk s w .free) n .inUse,
          restPart (newBlk s w .free) n .free] ++ []) :=
      cells_sub_cellsOf (b := firstPart (newBlk s w .free) n .inUse) (by simp)
    have hnew : ∀ x ∈ [firstPart (newBlk s w .free) n .inUse, restPart (newBlk s w .free) n .free],
        x = firstPart (newBlk s w .free) n .inUse ∨ x.kind = .free := by
      intro x hx
      rcases List.mem_pair.mp hx with rfl | rfl
      · exact Or.inl rfl
      · exact Or.inr rfl
    refine (finishSplit_spec hcheck h2 (new_unlisted h) hn h.noRaw h.filed h.coalesced
      (by rw [hq2.brk, hq2.gHeapEnd, hbrk1])).mono fun p t ⟨hp, ht, hq⟩ => ?_
    obtain ⟨htaken, hext⟩ := Taken.of_new (b := firstPart (newBlk s w .free) n .inUse) h.brk
      (if_neg (Int.not_le.mpr hbig)) ht
      (((hq1.mono hcells).trans (hq2.mono (cells_firstPart _ _ _))).trans (hq.mono hfirst))
      List.mem_cons_self rfl ⟨le_refl n, by unfold firstPart; dsimp only; omega⟩ hnew
    exact Or.inr ⟨hyes, _, _, firstPart (newBlk s w .free) n .inUse, hp, htaken, hext⟩

/-! ## A block from a free list -/

omit [DecidableEq β] in
theorem nearPart_units_pos {n : Int} {k : Kind} (hfit : n + 2 < c.units) :
    1 ≤ (nearPart c n k).units := by
  have h : 1 ≤ c.units - n - 2 := by omega
  exact h

omit [DecidableEq β] in
theorem nearPart_units_lt {n : Int} {k : Kind} (hn : 0 ≤ n) (hlt : c.units < 2 ^ 31) :
    (nearPart c n k).units < 2 ^ 31 := by
  have h : c.units - n - 2 < 2 ^ 31 := by omega
  exact h

omit [DecidableEq β] in
theorem cells_cutEnd (n : Int) (k k' : Kind) (c : Blk) :
    c.cells ⊆ cellsOf [nearPart c n k, farPart c n k'] := by
  have hfooter : (farPart c n k').footer = c.footer := by
    unfold farPart Blk.footer
    dsimp only
    omega
  intro x hx
  rcases hx with hx | hx
  · exact header_sub_cellsOf (b := nearPart c n k) (by simp) hx
  · exact footer_sub_cellsOf (b := farPart c n k') (by simp) (hfooter ▸ hx)

omit [DecidableEq β] in
/-- Cutting a block leaves no cell of the row out. -/
theorem cellsOf_cutEnd (n : Int) (k k' : Kind) :
    cellsOf (pre ++ [c] ++ post) ⊆ cellsOf (pre ++ [nearPart c n k, farPart c n k'] ++ post) := by
  rintro x ⟨b, hb, hx⟩
  rcases mem_middle.mp hb with hb | hb
  · obtain rfl := List.mem_singleton.mp hb
    obtain ⟨d, hd, hxd⟩ := cells_cutEnd n k k' b hx
    exact ⟨d, mem_middle.mpr (Or.inl hd), hxd⟩
  · exact ⟨b, mem_middle.mpr (Or.inr hb), hx⟩

omit [DecidableEq β] in
theorem chain_around (h : (pre ++ [c] ++ post).IsChain Apart) :
    (pre ++ [c]).IsChain Apart ∧ pre.IsChain Apart ∧ post.IsChain Apart :=
  ⟨h.left_of_append, h.left_of_append.left_of_append, h.right_of_append⟩

theorem takeWhole_spec {n : Int} (h : Inv findBin lo s (pre ++ [c] ++ post) L)
    (hfree : c.kind = .free) (hunits : n ≤ c.units ∧ c.units ≤ n + 2) :
    Returns (removeChunkFromList findBin c.addr) s fun _ t => ∃ L',
      Taken findBin lo s t (pre ++ [c] ++ post) (pre ++ [{ c with kind := .inUse }] ++ post) L'
          { c with kind := .inUse } n ∧
        Quiet (cellsOf (pre ++ [c] ++ post)) s t := by
  have hlisted := h.filed c (by simp) hfree
  obtain ⟨-, hpre, hpost⟩ := chain_around h.coalesced
  refine (removeChunkFromList_spec h.toRep hlisted).mono fun _ t ⟨ht, hq⟩ => ?_
  refine ⟨_, Taken.of_row (Inv.of_row ht rfl ?_ ?_ hpre hpost ?_) (by simp) rfl hunits ?_ ?_
    (hq.mem.mono (cellsOf_kind c)) hq.gHeapStart hq.isInit, hq⟩
  · exact fun x hx => h.noRaw x (mem_middle.mpr (Or.inr hx))
  · intro x hx hf
    exact mem_after_erase (h.tiles.addr_ne hx) (h.filed x (mem_middle.mpr (Or.inr hx)) hf)
  · rw [hq.brk, hq.gHeapEnd, h.brk]
  · intro x hx
    obtain rfl := List.mem_singleton.mp hx
    exact hfree
  · exact fun x hx => Or.inl (List.mem_singleton.mp hx)

omit [DecidableEq β] in
/-- The far end of a free block was taken, what is left of it is in its list. -/
theorem taken_of_cut {n : Int} {L' : β → List Int} (h : Inv findBin lo s (pre ++ [c] ++ post) L)
    (hfree : c.kind = .free)
    (ht : Rep findBin lo t (pre ++ [nearPart c n .free] ++ [farPart c n .inUse] ++ post) L')
    (hq : Quiet (cellsOf (pre ++ [nearPart c n .free] ++ [farPart c n .inUse] ++ post)) s t)
    (hnear : (nearPart c n .free).addr ∈ L' (findBin (nearPart c n .free).units))
    (hkeep : ∀ x, x ∈ pre ∨ x ∈ post → ∀ j, x.addr ∈ L j → x.addr ∈ L' j) :
    Taken findBin lo s t (pre ++ [c] ++ post)
      (pre ++ [nearPart c n .free, farPart c n .inUse] ++ post) L' (farPart c n .inUse) n := by
  have hraws : ∀ x, x ∈ pre ∨ x ∈ post → x.kind ≠ .raw :=
    fun x hx => h.noRaw x (mem_middle.mpr (Or.inr hx))
  have hfiled : ∀ x, x ∈ pre ∨ x ∈ post → x.kind = .free → x.addr ∈ L (findBin x.units) :=
    fun x hx hf => h.filed x (mem_middle.mpr (Or.inr hx)) hf
  obtain ⟨hleft, -, hpost⟩ := chain_around h.coalesced
  have hrow : pre ++ [nearPart c n .free] ++ [farPart c n .inUse] ++ post =
      pre ++ [nearPart c n .free, farPart c n .inUse] ++ post := by simp
  have hchain : (pre ++ [nearPart c n .free]).IsChain Apart := by
    obtain ⟨h1, -, h3⟩ := List.isChain_append.mp hleft
    refine List.isChain_append.mpr ⟨h1, List.IsChain.singleton _, fun x hx y hy => ?_⟩
    obtain rfl : nearPart c n .free = y := by simpa using hy
    exact fun hh => h3 x hx c rfl ⟨hh.1, hfree⟩
  have hinv := Inv.of_row ht rfl ?_ ?_ hchain hpost (by rw [hq.brk, hq.gHeapEnd, h.brk])
  · rw [hrow] at hinv hq
    refine Taken.of_row hinv (by simp) rfl ⟨le_refl n, ?_⟩ ?_ ?_ hq.mem hq.gHeapStart hq.isInit
    · unfold farPart
      dsimp only
      omega
    · intro x hx
      obtain rfl := List.mem_singleton.mp hx
      exact hfree
    · intro x hx
      rcases List.mem_pair.mp hx with rfl | rfl
      · exact Or.inr rfl
      · exact Or.inl rfl
  · rintro x (hx | hx)
    · rcases List.mem_append.mp hx with hx | hx
      · exact hraws x (Or.inl hx)
      · obtain rfl := List.mem_singleton.mp hx
        exact (show Kind.free ≠ Kind.raw by decide)
    · exact hraws x (Or.inr hx)
  · rintro x (hx | hx) hf
    · rcases List.mem_append.mp hx with hx | hx
      · exact hkeep x (Or.inl hx) _ (hfiled x (Or.inl hx) hf)
      · obtain rfl := List.mem_singleton.mp hx
        exact hnear
    · exact hkeep x (Or.inr hx) _ (hfiled x (Or.inr hx) hf)

end Lists

/-! ## The result of a call -/

/-- What `heapmgr_malloc` for `n` units makes of `s`: a chunk comes from the free lists if the
    search hits, otherwise from the system unless that refuses. -/
inductive MallocResult (findBin : Int → β) (lo : Int) (grant : Bool) (s : Heap β) (T : List Blk)
    (n : Int) (hit : Prop) (p : Int) (t : Heap β) : Prop
  | found {T' : List Blk} {L' : β → List Int} {b : Blk} (hhit : hit) (hp : p = b.addr + 16)
      (taken : Taken findBin lo s t T T' L' b n) (hend : t.gHeapEnd = s.gHeapEnd)
      (hasked : t.asked = s.asked)
  | grown {T' : List Blk} {L' : β → List Int} {b : Blk} (hmiss : ¬ hit)
      (hyes : Grants grant s ((wantedUnits n + 2) * 16)) (hp : p = b.addr + 16)
      (taken : Taken findBin lo s t T T' L' b n)
      (extended : Extended s t T T' (wantedUnits n) n)
  | refused (hmiss : ¬ hit) (hno : ¬ Grants grant s ((wantedUnits n + 2) * 16)) (hp : p = 0)
      (ht : t = { s with asked := (wantedUnits n + 2) * 16 :: s.asked })

/-- The state of the allocator before its first call. -/
structure Fresh (s : Heap β) : Prop where
  isInit : s.isInit = false
  gHeapStart : s.gHeapStart = null
  gHeapEnd : s.gHeapEnd = null
  freeHead : ∀ i, s.freeHead i = null
  brk : 0 < s.brk ∧ s.brk < sbrkFailed

/-- The state after `init_my_heap`: an empty heap at the break. -/
def opened (s : Heap β) : Heap β :=
  { s with gHeapStart := s.brk, gHeapEnd := s.brk, isInit := true }

theorem Fresh.opened (h : Fresh s) (lo : Int) :
    Inv findBin lo (opened s) [] (fun _ => []) := by
  have hlimit : s.brk < 2 ^ 64 - 1 := h.brk.2
  refine ⟨⟨h.brk.1, rfl, ?_, ?_, ?_, h.freeHead, fun _ => List.nodup_nil, ?_, ?_⟩, ?_, ?_,
    List.IsChain.nil, rfl⟩
  · exact hlimit
  all_goals intros; simp at *

/-- Between two calls: nothing was called yet, or the heap is the blocks `T`. -/
def Between (findBin : Int → β) (lo : Int) (s : Heap β) (T : List Blk) (L : β → List Int) : Prop :=
  (Fresh s ∧ T = [] ∧ L = fun _ => []) ∨ (s.isInit = true ∧ Inv findBin lo s T L)

/-- The state in which a call of `heapmgr_malloc` starts its work. -/
def ready (s : Heap β) : Heap β := if s.isInit then s else opened s

theorem Between.ready (h : Between findBin lo s T L) : Inv findBin lo (ready s) T L := by
  unfold Heapmgr.ready
  rcases h with ⟨hfresh, rfl, rfl⟩ | ⟨hinit, hinv⟩
  · rw [if_neg (by rw [hfresh.isInit]; decide)]
    exact hfresh.opened lo
  · rwa [if_pos hinit]

/-- A bound on the units may be lowered. -/
theorem Between.weaken {lo' : Int} (h : Between findBin lo s T L) (hlo : lo' ≤ lo) :
    Between findBin lo' s T L := by
  rcases h with hfresh | ⟨hinit, hinv⟩
  · exact Or.inl hfresh
  · have hsized : ∀ b ∈ T, lo' ≤ b.units ∧ b.units < 2 ^ 31 := fun b hb =>
      ⟨hlo.trans (hinv.sized b hb).1, (hinv.sized b hb).2⟩
    exact Or.inr ⟨hinit, ⟨⟨hinv.start, hinv.tiles, hinv.limit, hsized, hinv.formed, hinv.head,
      hinv.nodup, hinv.binned, hinv.linked⟩, hinv.noRaw, hinv.filed, hinv.coalesced, hinv.brk⟩⟩

theorem ready_isInit (s : Heap β) : (ready s).isInit = true := by
  unfold ready
  split
  · assumption
  · rfl

theorem initHeapBounds_ok (hne : s.brk ≠ 2 ^ 64 - 1) :
    initHeapBounds s = .ok ((), { s with gHeapStart := s.brk, gHeapEnd := s.brk }) := by
  unfold initHeapBounds
  rw [bind_of_ok sbrk_zero, bind_of_ok (modify_apply _ s), if_neg hne]
  rfl

end SnuSysProg.Heapmgr
