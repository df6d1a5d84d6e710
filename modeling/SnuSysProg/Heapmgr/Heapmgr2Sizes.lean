import SnuSysProg.Heapmgr.Heapmgr2Runs
import SnuSysProg.Heapmgr.Oversized

/-
  Which requests `heapmgr2.c` honours.

  Three widths meet in `heapmgr_malloc`: `size + 15` wraps in `size_to_units`, the bytes asked for
  wrap on their way to `sbrk`, and the units of a chunk are an `int`. `heapmgr2_honours_iff` says
  exactly for which sizes, free lists and answers of the kernel the call returns either `NULL` with
  the heap as it was or a chunk that is large enough and overlaps nothing.
-/

namespace SnuSysProg.Heapmgr2
open SnuSysProg.Lib SnuSysProg.Heapmgr

variable {lo : Int} {s t : State} {T : List Blk} {L : Bin → List Int} {b c : Blk}
  {x₀ x y : Client Bin} {es : List Move} {grant : Bool} {size p n : Int}

/-- The heap bounds, the chunks and the bins are those that the call found after `init_my_heap`. -/
structure LeftAlone (s t : State) : Prop where
  mem : t.mem = s.mem
  gHeapStart : t.gHeapStart = (ready s).gHeapStart
  gHeapEnd : t.gHeapEnd = (ready s).gHeapEnd
  freeHead : t.freeHead = s.freeHead

/-- `p` points to the data of a chunk of the heap `t` that holds `size` bytes, and no byte of the
    chunk belongs to a live block or to the header or footer of another chunk. -/
def Handed (x : Client Bin) (size p : Int) (t : State) : Prop :=
  ∃ chunks c, Walk t.mem t.gHeapStart chunks t.gHeapEnd ∧ c ∈ chunks ∧ p = c + 16 ∧
    t.gHeapStart ≤ c ∧ c + ((cellAt t.mem c).units + 2) * 16 ≤ t.gHeapEnd ∧
    size ≤ (cellAt t.mem c).units * 16 ∧
    ∀ a, c ≤ a → a < c + ((cellAt t.mem c).units + 2) * 16 →
      (∀ e ∈ x.live, a ∉ payload e) ∧
      ∀ d ∈ chunks, d ≠ c → a ∉ cellBytes d ∧ a ∉ cellBytes (footerOf t.mem d)

def Honours (x : Client Bin) (grant : Bool) (size : Int) : Prop :=
  ∃ p t, heapmgrMalloc grant size x.heap = .ok (p, t) ∧
    (p = null ∧ LeftAlone x.heap t ∨ Handed x size p t)

/-- The units of the request fit an `int`; or `sbrk` fails, and the sum in `size_to_units` does not
    wrap or all bins are empty. -/
def SizeMeets (x : Client Bin) (grant : Bool) (size : Int) : Prop :=
  size ≤ 16 * (2 ^ 31 - 1) ∨
    Refuses grant (ready x.heap) (increment (sizeToUnits size)) ∧
      (size ≤ 2 ^ 64 - 16 ∨ ∀ i, x.heap.freeHead i = null)

/-- The steps of the runs: every request meets the condition. -/
def MoveMeets (x : Client Bin) : Move → Prop
  | .malloc grant size => SizeMeets x grant size
  | _ => True

theorem ready_freeHead (s : State) : (ready s).freeHead = s.freeHead := by
  unfold ready
  split <;> rfl

theorem leftAlone_asked (s : State) (l : List Int) : LeftAlone s { ready s with asked := l } :=
  ⟨ready_mem s, rfl, rfl, ready_freeHead s⟩

/-! ## Requests whose units fit an int -/

theorem handed_of_taken {T' : List Blk} {L' : Bin → List Int} (h : Consistent manager x T L)
    (ht : Taken findBin 1 (ready x.heap) t T T' L' b n) (hp : p = b.addr + 16)
    (hn : size ≤ 16 * n) : Handed x size p t := by
  have hunits := ht.units.1
  have hcell := (ht.inv.chunk ht.mem).1
  have hbstop : b.stop = b.addr + (b.units + 2) * 16 := rfl
  have hstop := ht.inv.tiles.stop_le ht.mem
  refine ⟨T'.map Blk.addr, b.addr, ht.inv.represents.walk, List.mem_map.mpr ⟨b, ht.mem, rfl⟩, hp,
    ht.inv.tiles.start_le ht.mem, by rw [hcell]; omega, by rw [hcell]; omega, ?_⟩
  rw [hcell]
  intro a ha ha'
  constructor
  · intro e he hae
    obtain ⟨c, hc, hk, haddr, -, hcu⟩ := h.live e he
    have hcT' := (ht.others c hk).mpr (Or.inl hc)
    obtain ⟨h1, h2⟩ := payload_sub_data haddr hcu hae
    have hcstop := c.footer_stop
    rcases ht.inv.tiles.apart ht.mem hcT' with rfl | hlt | hlt
    · exact ht.fresh hc
    · omega
    · omega
  · intro d hd hne
    obtain ⟨c, hc, rfl⟩ := List.mem_map.mp hd
    have hcu := ht.inv.tiles.units_nonneg hc
    have hcells : a ∉ c.cells := by
      intro hac
      have hspan := cells_sub_span hcu hac
      rcases ht.inv.tiles.apart ht.mem hc with rfl | hlt | hlt
      · exact hne rfl
      · omega
      · omega
    rw [footerOf_blk ht.inv.toRep hc (ht.inv.noRaw c hc)]
    exact ⟨fun hin => hcells (header_sub_cells c hin), fun hin => hcells (footer_sub_cells c hin)⟩

theorem honours_small (h : Consistent manager x T L) (hpos : 0 < size)
    (hsmall : size ≤ 16 * (2 ^ 31 - 1)) : Honours x grant size := by
  obtain ⟨-, hn⟩ := unitsFor_bounds hpos
  obtain ⟨p, t, heq, hr⟩ := manager_correct.malloc grant h.between hpos hsmall
  refine ⟨p, t, heq, ?_⟩
  cases hr with
  | found _ hp ht => exact Or.inr (handed_of_taken h ht hp hn)
  | grown _ _ hp ht => exact Or.inr (handed_of_taken h ht hp hn)
  | refused _ _ hp ht =>
    subst ht
    exact Or.inl ⟨hp, leftAlone_asked _ _⟩

/-! ## Requests of 2^31 units and more -/

theorem sizeToUnits_large (h : 16 * (2 ^ 31 - 1) < size) (h' : size ≤ 2 ^ 64 - 16) :
    2 ^ 31 ≤ sizeToUnits size ∧ sizeToUnits size < 2 ^ 60 := by
  have hsize : toSize (size + 15) = size + 15 := toSize_of_lt (by omega) (by omega)
  have hdiv : sizeToUnits size = (size + 15) / 16 := by
    change toSize (size + 15) / 16 = (size + 15) / 16
    rw [hsize]
  rw [hdiv]
  omega

/-- No chunk is large enough, and the kernel decides. -/
theorem heapmgrMalloc_oversized (grant : Bool) (h : Between findBin 1 s T L) (hpos : 0 < size)
    (hn : 2 ^ 31 ≤ sizeToUnits size) (hn' : sizeToUnits size < 2 ^ 60) :
    (Refuses grant (ready s) (increment (sizeToUnits size)) → heapmgrMalloc grant size s =
      .ok (0, { ready s with asked := increment (sizeToUnits size) :: (ready s).asked })) ∧
    (¬ Refuses grant (ready s) (increment (sizeToUnits size)) →
      ∀ p t, heapmgrMalloc grant size s ≠ .ok (p, t)) := by
  have hinv := h.ready
  obtain ⟨r, hr, hfound⟩ := findBestFitChunk_found hinv.toRep (sizeToUnits size)
  have hnone : r = none := by
    rcases hfound with ⟨hr, -⟩ | ⟨i, a, -, hi, ha, hfit⟩
    · exact hr
    · obtain ⟨c, hc, -, -, hle, -⟩ := hinv.toRep.fits ha hfit
      have hlt := (hinv.sized c hc).2
      omega
  rw [hnone] at hr
  have hcall : heapmgrMalloc grant size s =
      mallocFromSystem findBin checkHeapValidity grant (sizeToUnits size) (ready s) := by
    unfold heapmgrMalloc
    rw [if_neg (Int.not_le.mpr hpos), bind_of_ok (initOnce_ok h),
      bind_of_ok (checkHeapValidity_ok hinv.toRep), bind_of_ok (assert_ok rfl), bind_of_ok hr,
      Option.getD_none, if_neg (not_not.mpr rfl)]
  rw [hcall]
  exact mallocFromSystem_oversized (checks 1) hinv hn hn'

/-! ## Requests whose units wrap to zero -/

theorem sizeToUnits_wrapped (h : 2 ^ 64 - 16 < size) (h' : size < 2 ^ 64) :
    sizeToUnits size = 0 := by
  have hdiv : sizeToUnits size = (size + 15) % 2 ^ 64 / 16 := rfl
  rw [hdiv]
  omega

/-- Every free chunk is large enough for nothing. -/
theorem hit_zero_iff (h : Inv findBin lo s T L) : Hit s L 0 ↔ ∃ i, s.freeHead i ≠ null := by
  constructor
  · rintro ⟨i, -, a, ha, -⟩
    refine ⟨i, ?_⟩
    rw [h.head i]
    intro hnull
    have hhead : (L i).headD 0 ∈ L i := by
      cases hL : L i with
      | nil => exact absurd (hL ▸ ha) List.not_mem_nil
      | cons c l => exact List.mem_cons_self ..
    rw [hnull] at hhead
    exact h.zero_notMem i hhead
  · rintro ⟨i, hne⟩
    rw [h.head i] at hne
    have hsearched : Searched 0 i := by
      cases i with
      | exponential i => exact ⟨by decide, Int.mul_nonneg (by decide) (Int.pow_nonneg (by decide))⟩
      | fixed i =>
        have hmin : fixedMin i = 33 + i.val * 32 := rfl
        exact ⟨by decide, by omega⟩
      | large => trivial
    cases hL : L i with
    | nil =>
      rw [hL] at hne
      exact absurd rfl hne
    | cons c l =>
      refine ⟨i, hsearched, c, by rw [hL]; exact List.mem_cons_self .., ?_⟩
      unfold Fits toSize
      omega

theorem not_handed_of_taken {T' : List Blk} {L' : Bin → List Int}
    (ht : Taken findBin 0 (ready s) t T T' L' b 0) (hsize : 32 < size) :
    ¬ (b.addr + 16 = null ∧ LeftAlone x.heap t ∨ Handed x size (b.addr + 16) t) := by
  have hpos := ht.inv.addr_pos ht.mem
  have hunits := ht.units.2
  rintro (⟨hnull, -⟩ | ⟨chunks, c, -, -, hp, -, -, hle, -⟩)
  · have hnull' : b.addr + 16 = 0 := hnull
    omega
  · obtain rfl : c = b.addr := by omega
    rw [(ht.inv.chunk ht.mem).1] at hle
    omega

/-- A request that wraps gets a chunk of at most two units, unless there is no free chunk and the
    kernel refuses. -/
theorem malloc_wrapped (grant : Bool) (h : Consistent manager x T L) (hwrap : 2 ^ 64 - 16 < size)
    (hlt : size < 2 ^ 64) :
    ((Refuses grant (ready x.heap) (increment 0) ∧ ∀ i, x.heap.freeHead i = null) ∧
      ∃ l, heapmgrMalloc grant size x.heap = .ok (0, { ready x.heap with asked := l })) ∨
    (¬ (Refuses grant (ready x.heap) (increment 0) ∧ ∀ i, x.heap.freeHead i = null) ∧
      ∃ p t, heapmgrMalloc grant size x.heap = .ok (p, t) ∧
        ¬ (p = null ∧ LeftAlone x.heap t ∨ Handed x size p t)) := by
  have hinv := h.between.ready
  have hbetween := h.between.weaken (show (0 : Int) ≤ 1 by decide)
  have hheads := ready_freeHead x.heap
  obtain ⟨p, t, heq, hr⟩ := heapmgrMalloc_spec grant hbetween (show 0 < size by omega)
    (sizeToUnits_wrapped hwrap hlt) (by decide) (le_refl 0) (le_refl 0) (by decide)
  cases hr with
  | found hhit hp ht =>
    obtain ⟨i, hi⟩ := (hit_zero_iff hinv).mp hhit
    rw [hheads] at hi
    subst hp
    exact Or.inr ⟨fun hh => hi (hh.2 i), _, t, heq, not_handed_of_taken ht (by omega)⟩
  | grown _ hyes hp ht =>
    subst hp
    exact Or.inr ⟨fun hh => hh.1.2 hyes, _, t, heq, not_handed_of_taken ht (by omega)⟩
  | refused hmiss hno hp ht =>
    subst hp ht
    refine Or.inl ⟨⟨⟨by decide, hno⟩, fun i => ?_⟩, _, heq⟩
    by_contra hne
    rw [← hheads] at hne
    exact hmiss ((hit_zero_iff hinv).mpr ⟨i, hne⟩)

/-! ## All requests -/

/-- A request whose units do not fit an `int` and that meets the condition is refused. -/
theorem malloc_refused (h : Consistent manager x T L) (hpos : 0 < size) (hlt : size < 2 ^ 64)
    (hbig : ¬ size ≤ 16 * (2 ^ 31 - 1)) (hmeets : SizeMeets x grant size) :
    ∃ l, heapmgrMalloc grant size x.heap = .ok (0, { ready x.heap with asked := l }) := by
  obtain ⟨hno, hrest⟩ := hmeets.resolve_left hbig
  by_cases hwrap : size ≤ 2 ^ 64 - 16
  · obtain ⟨hn, hn'⟩ := sizeToUnits_large (by omega) hwrap
    exact ⟨_, (heapmgrMalloc_oversized grant h.between hpos hn hn').1 hno⟩
  · rw [sizeToUnits_wrapped (by omega) hlt] at hno
    rcases malloc_wrapped grant h (by omega) hlt with ⟨-, hret⟩ | ⟨hnot, -⟩
    · exact hret
    · exact absurd ⟨hno, hrest.resolve_left hwrap⟩ hnot

theorem honours_iff (h : Consistent manager x T L) (hpos : 0 < size) (hlt : size < 2 ^ 64) :
    Honours x grant size ↔ SizeMeets x grant size := by
  by_cases hsmall : size ≤ 16 * (2 ^ 31 - 1)
  · exact iff_of_true (honours_small h hpos hsmall) (Or.inl hsmall)
  constructor
  · rintro ⟨p, t, heq, hprop⟩
    by_cases hwrap : size ≤ 2 ^ 64 - 16
    · obtain ⟨hn, hn'⟩ := sizeToUnits_large (by omega) hwrap
      refine Or.inr ⟨?_, Or.inl hwrap⟩
      by_contra hmoves
      exact (heapmgrMalloc_oversized grant h.between hpos hn hn').2 hmoves p t heq
    · unfold SizeMeets
      rw [sizeToUnits_wrapped (by omega) hlt]
      rcases malloc_wrapped grant h (by omega) hlt with
        ⟨⟨hno, hheads⟩, -⟩ | ⟨-, p', t', heq', hnot⟩
      · exact Or.inr ⟨hno, Or.inr hheads⟩
      · obtain ⟨rfl, rfl⟩ := Prod.mk.inj (Except.ok.inj (heq.symm.trans heq'))
        exact absurd hprop hnot
  · intro hmeets
    obtain ⟨l, heq⟩ := malloc_refused h hpos hlt hsmall hmeets
    exact ⟨0, _, heq, Or.inl ⟨rfl, leftAlone_asked _ l⟩⟩

/-- A move that meets the condition keeps the client and the heap consistent. -/
theorem consistent_meets (h : Consistent manager x T L) {e : Move} (hallow : Allowed x e)
    (hmeets : MoveMeets x e) (hstep : step manager x e y) :
    ∃ T' L', Consistent manager y T' L' := by
  by_cases hsmall : Small e
  · exact (h.step manager_correct hallow hsmall hstep).1
  cases e with
  | free m => exact absurd trivial hsmall
  | write a v => exact absurd trivial hsmall
  | malloc grant size =>
    obtain ⟨l, heq⟩ := malloc_refused h hallow.1 hallow.2 hsmall hmeets
    have hexec : exec manager x (.malloc grant size) = _ := exec_malloc heq
    rw [if_pos rfl] at hexec
    obtain rfl := Except.ok.inj (hexec.symm.trans hstep)
    exact ⟨T, L, Or.inr ⟨ready_isInit _, h.between.ready.with_asked l⟩, h.live, h.distinct⟩

theorem consistent_run_meets (h0 : Start x₀)
    (hrun : Run (Guarded (fun x e => Allowed x e ∧ MoveMeets x e) (step manager)) x₀ es x) :
    ∃ T L, Consistent manager x T L := by
  refine Run.preserves_of_steps (P := fun x => ∃ T L, Consistent manager x T L) ?_ hrun
    ⟨[], fun _ => [], h0.consistent⟩
  rintro x e y ⟨T, L, h⟩ ⟨hallow, hmeets⟩ hstep
  exact consistent_meets h hallow hmeets hstep

/-- In every state that requests which meet the condition lead to, a request is honoured if and
    only if it meets the condition. -/
theorem heapmgr2_honours_iff (h0 : Start x₀)
    (hrun : Run (Guarded (fun x e => Allowed x e ∧ MoveMeets x e) (step manager)) x₀ es x)
    (grant : Bool) {size : Int} (hpos : 0 < size) (hlt : size < 2 ^ 64) :
    Honours x grant size ↔ SizeMeets x grant size := by
  obtain ⟨T, L, h⟩ := consistent_run_meets h0 hrun
  exact honours_iff h hpos hlt

/-- The largest size there is, asked for first: the sum in `size_to_units` wraps, and the caller
    gets a chunk of no units. -/
theorem heapmgr2_wrapped_not_honoured :
    Start (starting : Client Bin) ∧ ¬ Honours starting true (2 ^ 64 - 1) := by
  have h : Consistent manager starting [] (fun _ => []) := starting_start.consistent
  refine ⟨starting_start, fun hh => ?_⟩
  rcases (honours_iff h (by decide) (by decide)).mp hh with hsmall | ⟨hno, -⟩
  · exact absurd hsmall (by decide)
  · exact hno.2 (by decide)

/-- After a first request of 100 bytes, one of 2^35 bytes that the kernel refuses is honoured. -/
theorem heapmgr2_honours_refused : ∃ x, Run (Guarded (fun x e => Allowed x e ∧ MoveMeets x e)
    (step manager)) starting [.malloc true 100] x ∧ Honours x false (2 ^ 35) := by
  have hallow : Allowed (starting : Client Bin) (.malloc true 100) := ⟨by decide, by decide⟩
  have hmeets : MoveMeets starting (.malloc true 100) := Or.inl (by decide)
  have h : Consistent manager starting [] (fun _ => []) := starting_start.consistent
  obtain ⟨x, hx, -⟩ := h.exec_ok manager_correct starting_start.inRoom hallow (Or.inr (by decide))
  have hrun := (Run.nil starting).snoc
    (show Guarded (fun x e => Allowed x e ∧ MoveMeets x e) (step manager) starting
      (.malloc true 100) x from ⟨⟨hallow, hmeets⟩, hx⟩)
  exact ⟨x, hrun, (heapmgr2_honours_iff starting_start hrun false (by decide) (by decide)).mpr
    (Or.inr ⟨⟨by decide, fun hyes => absurd hyes.1 (by decide)⟩, Or.inl (by decide)⟩)⟩

end SnuSysProg.Heapmgr2
