import Mathlib.Data.Set.Lattice
import Mathlib.Order.CompletePartialOrder
import SnuSysProg.Heapmgr.Represents
import SnuSysProg.Lib.Run

/-
  A client of a heap manager.

  The client keeps the list of the blocks it got and did not free yet, and it makes three kinds of
  moves: it calls `heapmgr_malloc`, it calls `heapmgr_free`, it writes a byte of a live block.
  `Consistent` relates its list to the blocks of the heap; every move it is allowed to make keeps
  that (`Consistent.step`), and a call leaves the bytes of the blocks alone that are live before
  and after it (`Consistent.frame`).
-/

namespace SnuSysProg.Heapmgr
open SnuSysProg.Lib

variable {β : Type} {findBin : Int → β} {lo : Int} {s t : Heap β} {T pre post : List Blk}
  {L : β → List Int} {b c : Blk}

/-- What tells `heapmgr1.c` and `heapmgr2.c` apart. -/
structure Manager (β : Type) where
  findBin : Int → β
  check : HeapM β Bool
  malloc : Bool → Int → HeapM β Int
  /-- The search of `malloc` for this many units comes to a chunk. -/
  served : Heap β → Int → Prop

/-- The units that `size` bytes need. -/
def unitsFor (size : Int) : Int := (size + 15) / 16

theorem sizeToUnits_eq {size : Int} (h : 0 < size) (h' : size ≤ 16 * (2 ^ 31 - 1)) :
    sizeToUnits size = unitsFor size := by
  have hsize : toSize (size + 15) = size + 15 := toSize_of_lt (by omega) (by omega)
  change toSize (size + 15) / 16 = (size + 15) / 16
  rw [hsize]

theorem unitsFor_bounds {size : Int} (h : 0 < size) :
    1 ≤ unitsFor size ∧ size ≤ 16 * unitsFor size := by
  unfold unitsFor
  omega

theorem unitsFor_lt {size : Int} (h : size ≤ 16 * (2 ^ 31 - 1)) : unitsFor size < 2 ^ 31 := by
  unfold unitsFor
  omega

/-! ## Moves of the client -/

inductive Move where
  /-- `heapmgr_malloc(size)`; the kernel would give more memory if `grant`. -/
  | malloc (grant : Bool) (size : Int)
  | free (m : Int)
  | write (a : Int) (v : UInt8)

/-- The heap and the live blocks, each by its address and the size it was asked for with. -/
structure Client (β : Type) where
  heap : Heap β
  live : List (Int × Int)

/-- The bytes of a live block. -/
def payload (e : Int × Int) : Set Int := {a | e.1 ≤ a ∧ a < e.1 + e.2}

/-- A size is a positive `size_t`, only live blocks and `NULL` are freed, and the client writes
    inside live blocks only. -/
def Allowed (x : Client β) : Move → Prop
  | .malloc _ size => 0 < size ∧ size < 2 ^ 64
  | .free m => m = null ∨ ∃ e ∈ x.live, e.1 = m
  | .write a _ => ∃ e ∈ x.live, a ∈ payload e

/-- The units asked for fit an `int`. -/
def Small : Move → Prop
  | .malloc _ size => size ≤ 16 * (2 ^ 31 - 1)
  | _ => True

/-- The heap, with the extension that the call asks the kernel for if its search fails, has less
    than 2^31 - 1 units. -/
def Roomy (M : Manager β) (x : Client β) : Move → Prop
  | .malloc _ size => M.served (ready x.heap) (unitsFor size) ∨
      ((ready x.heap).gHeapEnd - (ready x.heap).gHeapStart) / 16 +
        (wantedUnits (unitsFor size) + 2) < 2 ^ 31 - 1
  | _ => True

/-- Nothing was called yet. -/
structure Start (x : Client β) : Prop where
  fresh : Fresh x.heap
  live : x.live = []

/-! ## The live blocks in the heap -/

structure Consistent (M : Manager β) (x : Client β) (T : List Blk) (L : β → List Int) : Prop where
  between : Between M.findBin 1 x.heap T L
  live : ∀ e ∈ x.live, ∃ b ∈ T, b.kind = .inUse ∧ b.addr + 16 = e.1 ∧ 1 ≤ e.2 ∧ e.2 ≤ 16 * b.units
  distinct : (x.live.map Prod.fst).Nodup

/-- What the runs need to know about the functions of a manager. -/
structure Manager.Correct (M : Manager β) : Prop where
  checks : Checks M.findBin 1 M.check
  malloc : ∀ {s T L} (grant : Bool) {size : Int}, Between M.findBin 1 s T L → 0 < size →
    size ≤ 16 * (2 ^ 31 - 1) →
    Returns (M.malloc grant size) s (MallocResult M.findBin 1 grant (ready s) T (unitsFor size)
      (M.served (ready s) (unitsFor size)))
  served_lt : ∀ {s T L n}, Inv M.findBin 1 s T L → M.served s n → n < 2 ^ 31

variable {M : Manager β} {x y : Client β}

/-- A manager whose `malloc` does what it should when its search finds a chunk of the lists. -/
theorem Manager.Correct.of_hit {hit : Heap β → (β → List Int) → Int → Prop}
    (hchecks : Checks M.findBin 1 M.check)
    (hserved : ∀ {s T L n}, Inv M.findBin 1 s T L → (M.served s n ↔ hit s L n))
    (hfits : ∀ {s L n}, hit s L n → ∃ i, ∃ a ∈ L i, Fits s n a)
    (hmalloc : ∀ {s T L} (grant : Bool) {size : Int}, Between M.findBin 1 s T L → 0 < size →
      size ≤ 16 * (2 ^ 31 - 1) →
      Returns (M.malloc grant size) s (MallocResult M.findBin 1 grant (ready s) T (unitsFor size)
        (hit (ready s) L (unitsFor size)))) : M.Correct := by
  refine ⟨hchecks, fun grant size h hpos hsmall => ?_, fun h hs => ?_⟩
  · rw [propext (hserved h.ready)]
    exact hmalloc grant h hpos hsmall
  · obtain ⟨i, a, ha, hfit⟩ := hfits ((hserved h).mp hs)
    obtain ⟨c, hc, -, -, hle, -⟩ := h.toRep.fits ha hfit
    exact lt_of_le_of_lt hle (h.sized c hc).2

/-- A program that starts, with the break at 4096. -/
def starting : Client β := ⟨⟨fun _ => 0, 4096, [], null, null, fun _ => null, false⟩, []⟩

theorem starting_start : Start (starting : Client β) :=
  ⟨⟨rfl, rfl, rfl, fun _ => rfl, show (0 : Int) < 4096 by decide,
    show (4096 : Int) < sbrkFailed by decide⟩, rfl⟩

theorem Start.consistent (h : Start x) : Consistent M x [] (fun _ => []) := by
  refine ⟨Or.inl ⟨h.fresh, rfl, rfl⟩, ?_, ?_⟩
  · rw [h.live]
    exact fun e he => absurd he List.not_mem_nil
  · rw [h.live]
    exact List.nodup_nil

/-- With a block in the heap, the heap was initialised. -/
theorem Between.inv (h : Between findBin lo s T L) (hb : b ∈ T) :
    s.isInit = true ∧ Inv findBin lo s T L := by
  rcases h with ⟨-, rfl, -⟩ | h
  · exact absurd hb List.not_mem_nil
  · exact h

/-- The data bytes of a block belong to no header or footer. -/
theorem Tiles.data_notMem_cells {a z w : Int} (h : Tiles a T z) (hb : b ∈ T)
    (hw : b.addr + 16 ≤ w) (hw' : w < b.footer) : w ∉ cellsOf T := by
  rintro ⟨c, hc, hwc⟩
  have hcu := h.units_nonneg hc
  have hspan := cells_sub_span hcu hwc
  have hstop := b.footer_stop
  rcases h.apart hb hc with rfl | hlt | hlt
  · rcases mem_cells.mp hwc with hwc | hwc <;> omega
  · omega
  · omega

theorem payload_sub_data {e : Int × Int} (haddr : b.addr + 16 = e.1) (hsize : e.2 ≤ 16 * b.units)
    {a : Int} (ha : a ∈ payload e) : b.addr + 16 ≤ a ∧ a < b.footer := by
  obtain ⟨h1, h2⟩ := ha
  unfold Blk.footer
  omega

theorem Consistent.live_pos (h : Consistent M x T L) {e : Int × Int} (he : e ∈ x.live) :
    0 < e.1 := by
  obtain ⟨b, hb, -, haddr, -⟩ := h.live e he
  have hpos := (h.between.inv hb).2.addr_pos hb
  omega

/-! ## heapmgr_malloc -/

/-- The list of live blocks after `b` was taken. -/
theorem Consistent.taken {n size : Int} {T' : List Blk} {L' : β → List Int}
    (h : Consistent M x T L) (ht : Taken M.findBin 1 (ready x.heap) t T T' L' b n)
    (hsize : 1 ≤ size) (hn : size ≤ 16 * n) :
    Consistent M ⟨t, (b.addr + 16, size) :: x.live⟩ T' L' := by
  have hinit : t.isInit = true := by rw [ht.isInit, ready_isInit]
  refine ⟨Or.inr ⟨hinit, ht.inv⟩, ?_, ?_⟩
  · intro e he
    rcases List.mem_cons.mp he with rfl | he
    · have hunits := ht.units.1
      exact ⟨b, ht.mem, ht.kind, rfl, hsize, by dsimp only; omega⟩
    · obtain ⟨c, hc, hk, hrest⟩ := h.live e he
      exact ⟨c, (ht.others c hk).mpr (Or.inl hc), hk, hrest⟩
  · refine List.nodup_cons.mpr ⟨fun hmem => ?_, h.distinct⟩
    obtain ⟨e, he, heq⟩ := List.mem_map.mp hmem
    obtain ⟨c, hc, hk, haddr, -⟩ := h.live e he
    have hcb : c.addr = b.addr := by
      have heq' : e.1 = b.addr + 16 := heq
      omega
    obtain rfl := ht.inv.tiles.eq_of_addr ((ht.others c hk).mpr (Or.inl hc)) ht.mem hcb
    exact ht.fresh hc

theorem Consistent.malloc {grant : Bool} {n size p : Int} {hit : Prop} (h : Consistent M x T L)
    (hr : MallocResult M.findBin 1 grant (ready x.heap) T n hit p t) (hsize : 1 ≤ size)
    (hn : size ≤ 16 * n) :
    ∃ T' L', Consistent M ⟨t, if p = null then x.live else (p, size) :: x.live⟩ T' L' := by
  have htaken : ∀ T' L' b, p = b.addr + 16 → Taken M.findBin 1 (ready x.heap) t T T' L' b n →
      Consistent M ⟨t, if p = null then x.live else (p, size) :: x.live⟩ T' L' := by
    rintro T' L' b rfl ht
    have hpos := ht.inv.addr_pos ht.mem
    have hne : ¬ b.addr + 16 = 0 := by omega
    rw [if_neg hne]
    exact h.taken ht hsize hn
  cases hr with
  | found _ hp ht => exact ⟨_, _, htaken _ _ _ hp ht⟩
  | grown _ _ hp ht => exact ⟨_, _, htaken _ _ _ hp ht⟩
  | refused _ _ hp ht =>
    subst hp ht
    rw [if_pos rfl]
    exact ⟨T, L, Or.inr ⟨ready_isInit _, h.between.ready.with_asked _⟩, h.live, h.distinct⟩

theorem Consistent.data_out (h : Consistent M x T L) {T' : List Blk} {a z w : Int}
    (ht : Tiles a T' z) (hold : ∀ b ∈ T, b.kind = .inUse → b ∈ T') {e : Int × Int}
    (he : e ∈ x.live) (hw : w ∈ payload e) : w ∉ cellsOf T' := by
  obtain ⟨b, hb, hk, haddr, -, hunits⟩ := h.live e he
  obtain ⟨h1, h2⟩ := payload_sub_data haddr hunits hw
  exact ht.data_notMem_cells (hold b hb hk) h1 h2

/-- Two live blocks have no byte in common. -/
theorem Consistent.disjoint (h : Consistent M x T L) :
    x.live.Pairwise fun d e => Disjoint (payload d) (payload e) := by
  have hdistinct : x.live.Pairwise fun d e => d.1 ≠ e.1 := List.pairwise_map.mp h.distinct
  refine hdistinct.imp_of_mem fun {d e} hd he hne => ?_
  obtain ⟨b, hb, -, hbaddr, -, hbu⟩ := h.live d hd
  obtain ⟨c, hc, -, hcaddr, -, hcu⟩ := h.live e he
  have htiles := (h.between.inv hb).2.tiles
  refine Set.disjoint_left.mpr fun a had hae => ?_
  obtain ⟨hb1, hb2⟩ := payload_sub_data hbaddr hbu had
  obtain ⟨hc1, hc2⟩ := payload_sub_data hcaddr hcu hae
  have hbstop := b.footer_stop
  have hcstop := c.footer_stop
  rcases htiles.apart hb hc with rfl | hlt | hlt <;> omega

/-- The live blocks lie inside the heap, clear of all headers and footers. -/
theorem Consistent.clear (h : Consistent M x T L) :
    ∀ e ∈ x.live, ∀ a ∈ payload e, x.heap.gHeapStart ≤ a ∧ a < x.heap.gHeapEnd ∧
      ∀ c ∈ T.map Blk.addr, a ∉ cellBytes c ∧ a ∉ cellBytes (footerOf x.heap.mem c) := by
  intro e he a ha
  obtain ⟨b, hb, -, haddr, -, hunits⟩ := h.live e he
  have hinv := (h.between.inv hb).2
  obtain ⟨h1, h2⟩ := payload_sub_data haddr hunits ha
  have hstart := hinv.tiles.start_le hb
  have hstop := hinv.tiles.stop_le hb
  have hfooter := b.footer_stop
  have hout := hinv.tiles.data_notMem_cells hb h1 h2
  refine ⟨by omega, by omega, fun d hd => ?_⟩
  obtain ⟨c, hc, rfl⟩ := List.mem_map.mp hd
  rw [footerOf_blk hinv.toRep hc (hinv.noRaw c hc)]
  exact ⟨fun hin => hout (header_sub_cellsOf hc hin), fun hin => hout (footer_sub_cellsOf hc hin)⟩

theorem ready_mem (s : Heap β) : (ready s).mem = s.mem := by
  unfold ready
  split <;> rfl

theorem ready_asked (s : Heap β) : (ready s).asked = s.asked := by
  unfold ready
  split <;> rfl

/-- The kernel is asked for memory exactly when the search comes to nothing. -/
theorem asked_iff {grant : Bool} {n p : Int} {hit : Prop}
    (hr : MallocResult findBin lo grant (ready s) T n hit p t) : t.asked ≠ s.asked ↔ ¬ hit := by
  have hcons : ∀ a : Int, a :: (ready s).asked ≠ s.asked := by
    intro a
    rw [ready_asked]
    exact List.cons_ne_self a s.asked
  cases hr with
  | found hhit _ _ _ hasked =>
    rw [hasked, ready_asked]
    exact iff_of_false (fun hne => hne rfl) (fun hmiss => hmiss hhit)
  | grown hmiss _ _ _ hext =>
    rw [hext.asked]
    exact iff_of_true (hcons _) hmiss
  | refused hmiss _ _ ht =>
    rw [ht]
    exact iff_of_true (hcons _) hmiss

theorem Consistent.malloc_frame {grant : Bool} {n p : Int} {hit : Prop} (h : Consistent M x T L)
    (hr : MallocResult M.findBin 1 grant (ready x.heap) T n hit p t) {e : Int × Int}
    (he : e ∈ x.live) {a : Int} (ha : a ∈ payload e) : t.mem a = x.heap.mem a := by
  have htaken : ∀ T' L' b, Taken M.findBin 1 (ready x.heap) t T T' L' b n →
      t.mem a = x.heap.mem a := by
    intro T' L' b ht
    rw [ht.agree a (h.data_out ht.inv.tiles
      (fun c hc hk => (ht.others c hk).mpr (Or.inl hc)) he ha),
      ready_mem]
  cases hr with
  | found _ _ ht => exact htaken _ _ _ ht
  | grown _ _ _ ht => exact htaken _ _ _ ht
  | refused _ _ _ ht =>
    rw [ht]
    exact congrFun (ready_mem x.heap) a

/-! ## heapmgr_free -/

theorem Tiles.absorbNext {a z : Int} (h : Tiles a (pre ++ [c] ++ post) z) :
    Tiles a (pre ++ [(absorbNext c post).1] ++ (absorbNext c post).2) z := by
  cases post with
  | nil => exact h
  | cons n post =>
    by_cases hfree : n.kind = .free
    · have hsplit : pre ++ [c] ++ n :: post = pre ++ [c, n] ++ post := by simp
      rw [absorbNext_free hfree]
      rw [hsplit] at h
      exact h.replace fun x y hxy => hxy.pair.2.2
    · rwa [absorbNext_taken hfree]

theorem Tiles.absorbPrev {a z : Int} {rpre : List Blk}
    (h : Tiles a (rpre.reverse ++ [c] ++ post) z) :
    Tiles a ((absorbPrev c rpre).2.reverse ++ [(absorbPrev c rpre).1] ++ post) z := by
  cases rpre with
  | nil => exact h
  | cons p rpre =>
    by_cases hfree : p.kind = .free
    · have hsplit : (p :: rpre).reverse ++ [c] ++ post = rpre.reverse ++ [p, c] ++ post := by simp
      rw [absorbPrev_free hfree]
      rw [hsplit] at h
      exact h.replace fun x y hxy => hxy.pair.2.2
    · rwa [absorbPrev_taken hfree]

/-- The freed block with its free neighbours is no larger than the heap. -/
theorem freed_units_le {a z : Int} {rpre : List Blk}
    (h : Tiles a (rpre.reverse ++ [c] ++ post) z) :
    a + ((freed rpre c post).units + 2) * 16 ≤ z := by
  have htiles := h.absorbNext.absorbPrev
  have hmem : (absorbPrev (absorbNext c post).1 rpre).1 ∈
      (absorbPrev (absorbNext c post).1 rpre).2.reverse ++
        [(absorbPrev (absorbNext c post).1 rpre).1] ++ (absorbNext c post).2 := by simp
  have hstart := htiles.start_le hmem
  have hstop := htiles.stop_le hmem
  unfold Blk.stop at hstop
  unfold freed
  dsimp only
  omega

/-- A freed block takes the free neighbours with it and leaves the blocks in use. -/
theorem mem_coalesce {rpre : List Blk} (hb : b ∈ rpre.reverse ++ [c] ++ post) (hne : b ≠ c)
    (hk : b.kind ≠ .free) : b ∈ coalesce rpre c post := by
  obtain ⟨-, -, -, hnext⟩ := absorbNext_facts c post
  obtain ⟨-, -, hprev⟩ := absorbPrev_facts (absorbNext c post).1 rpre
  refine mem_middle.mpr (Or.inr ?_)
  rcases mem_middle.mp hb with hb | hb | hb
  · exact absurd (List.mem_singleton.mp hb) hne
  · exact Or.inl (List.mem_reverse.mpr (hprev b (List.mem_reverse.mp hb) hk))
  · exact Or.inr (hnext b hb hk)

/-- A live block, and the row split at it. -/
theorem Consistent.split (h : Consistent M x T L) {e : Int × Int} (he : e ∈ x.live) :
    ∃ (rpre : List Blk) (c : Blk) (post : List Blk), T = rpre.reverse ++ [c] ++ post ∧
      c.kind = .inUse ∧ c.addr + 16 = e.1 ∧
      1 ≤ c.units := by
  obtain ⟨c, hc, hk, haddr, hsize, hunits⟩ := h.live e he
  obtain ⟨pre, post, rfl⟩ := List.append_of_mem hc
  exact ⟨pre.reverse, c, post, by simp, hk, haddr, by omega⟩

theorem Consistent.afterFree {rpre : List Blk} {L' : β → List Int}
    (h : Consistent M x (rpre.reverse ++ [c] ++ post) L) (hinit : t.isInit = true)
    (ht : Inv M.findBin 1 t (coalesce rpre c post) L') :
    Consistent M ⟨t, x.live.filter fun e => e.1 ≠ c.addr + 16⟩ (coalesce rpre c post) L' := by
  refine ⟨Or.inr ⟨hinit, ht⟩, ?_, h.distinct.sublist (List.filter_sublist.map _)⟩
  intro e he
  obtain ⟨he, hne⟩ := List.mem_filter.mp he
  obtain ⟨b, hb, hk, haddr, hrest⟩ := h.live e he
  have hbc : b ≠ c := by
    rintro rfl
    exact of_decide_eq_true hne haddr.symm
  exact ⟨b, mem_coalesce hb hbc (by rw [hk]; decide), hk, haddr, hrest⟩

/-! ## The moves as programs -/

section Lists

variable [DecidableEq β]

def Manager.free (M : Manager β) (m : Int) : HeapM β Unit := freeWith M.findBin M.check m

def exec (M : Manager β) (x : Client β) : Move → Except Fault (Client β)
  | .malloc grant size => do
    let (p, t) ← M.malloc grant size x.heap
    return ⟨t, if p = null then x.live else (p, size) :: x.live⟩
  | .free m => do
    let (_, t) ← M.free m x.heap
    return ⟨t, x.live.filter fun e => e.1 ≠ m⟩
  | .write a v => return { x with heap := { x.heap with mem := Function.update x.heap.mem a v } }

/-- The step relation of runs: the move is made, and the program is still alive. -/
def step (M : Manager β) (x : Client β) (e : Move) (y : Client β) : Prop := exec M x e = .ok y

/-- Freeing `NULL` is a return. -/
theorem free_null : M.free null s = .ok ((), s) := by
  unfold Manager.free freeWith
  rw [if_pos rfl]
  rfl

/-- The block that freeing makes is no smaller than the block freed. -/
theorem units_le_freed {a z : Int} {rpre : List Blk}
    (h : Tiles a (rpre.reverse ++ [c] ++ post) z) : c.units ≤ (freed rpre c post).units := by
  have hnext : c.units ≤ (absorbNext c post).1.units := by
    cases post with
    | nil => exact le_refl _
    | cons n post =>
      have hunits := h.units_nonneg (b := n) (by simp)
      by_cases hfree : n.kind = .free
      · rw [absorbNext_free hfree]
        unfold merged
        dsimp only
        omega
      · rw [absorbNext_taken hfree]
  exact hnext.trans (absorbPrev_units_le fun p hp => h.units_nonneg (by simp [hp]))

/-- What a call of `heapmgr_free` does to a live block: it returns if the block it makes has
    units that fit an `int`. -/
theorem Consistent.freeCall (hM : M.Correct) (h : Consistent M x T L) {e : Int × Int}
    (he : e ∈ x.live) :
    ∃ (rpre : List Blk) (c : Blk) (post : List Blk), T = rpre.reverse ++ [c] ++ post ∧
      c.addr + 16 = e.1 ∧
      ((freed rpre c post).units < 2 ^ 31 → Returns (M.free e.1) x.heap fun _ t =>
        Quiet (cellsOf T) x.heap t ∧ ∃ T' L',
          Consistent M ⟨t, x.live.filter fun d => d.1 ≠ e.1⟩ T' L') ∧
      (¬ (freed rpre c post).units < 2 ^ 31 → M.free e.1 x.heap = .error .intOverflow) := by
  obtain ⟨rpre, c, post, rfl, hk, haddr, hunits⟩ := h.split he
  obtain ⟨hinit, hinv⟩ := h.between.inv (b := c) (by simp)
  refine ⟨rpre, c, post, rfl, haddr, fun hfit => ?_, fun hbig => ?_⟩
  · rw [← haddr]
    refine (freeWith_spec hM.checks hinv hk (hunits.trans (units_le_freed hinv.tiles))
      hfit).mono fun _ t ⟨hq, L', ht⟩ => ?_
    exact ⟨hq, _, L', h.afterFree (hq.isInit.trans hinit) ht⟩
  · rw [← haddr]
    exact freeWith_overflow hM.checks hinv hk hbig

/-! ## A write of the client -/

omit [DecidableEq β] in
theorem Consistent.write (h : Consistent M x T L) {e : Int × Int} (he : e ∈ x.live) {a : Int}
    (ha : a ∈ payload e) (v : UInt8) :
    Consistent M { x with heap := { x.heap with mem := Function.update x.heap.mem a v } } T L := by
  obtain ⟨b, hb, hk, -⟩ := h.live e he
  obtain ⟨hinit, hinv⟩ := h.between.inv hb
  have hout := h.data_out hinv.tiles (fun c hc _ => hc) he ha
  have hagree : AgreeOff {a} x.heap.mem (Function.update x.heap.mem a v) :=
    fun w hw => Function.update_of_ne hw v x.heap.mem
  have hrec : ∀ c ∈ T, recAt (Function.update x.heap.mem a v) c = recAt x.heap.mem c := by
    intro c hc
    refine recAt_of_agreeOff hagree fun w hw hwa => hout ⟨c, hc, ?_⟩
    rwa [← show w = a from hwa]
  refine ⟨Or.inr ⟨hinit, ⟨⟨hinv.start, hinv.tiles, hinv.limit, hinv.sized, ?_, hinv.head,
    hinv.nodup, hinv.binned, ?_⟩, hinv.noRaw, hinv.filed, hinv.coalesced, hinv.brk⟩⟩, h.live,
    h.distinct⟩
  · exact fun c hc hraw => (hinv.formed c hc hraw).of_recAt (hrec c hc)
  · intro i c hc hci
    change (recAt (Function.update x.heap.mem a v) c).next = _ ∧ _
    rw [hrec c hc]
    exact hinv.linked i c hc hci

/-! ## Steps and runs -/

theorem exec_malloc {grant : Bool} {size p : Int} (h : M.malloc grant size x.heap = .ok (p, t)) :
    exec M x (.malloc grant size) =
      .ok ⟨t, if p = null then x.live else (p, size) :: x.live⟩ := by
  rw [exec, h]
  rfl

theorem exec_free {m : Int} (h : M.free m x.heap = .ok ((), t)) :
    exec M x (.free m) = .ok ⟨t, x.live.filter fun e => e.1 ≠ m⟩ := by
  rw [exec, h]
  rfl

theorem exec_free_null (h : Consistent M x T L) : exec M x (.free null) = .ok x := by
  have hlive : (x.live.filter fun e => e.1 ≠ null) = x.live := by
    refine List.filter_eq_self.mpr fun e he => decide_eq_true ?_
    exact ne_of_gt (h.live_pos he)
  rw [exec_free free_null, hlive]

/-- The bytes of the blocks that are live before and after are the same. -/
def Untouched (x y : Client β) : Prop :=
  ∀ e ∈ x.live, e ∈ y.live → ∀ a ∈ payload e, y.heap.mem a = x.heap.mem a

/-- One move of the client, on which the client and the heap stay consistent; a call of the
    manager leaves the live blocks untouched. -/
theorem Consistent.step (hM : M.Correct) (h : Consistent M x T L) {e : Move} (hallow : Allowed x e)
    (hsmall : Small e) (hstep : step M x e y) :
    (∃ T' L', Consistent M y T' L') ∧ ((∀ a v, e ≠ .write a v) → Untouched x y) := by
  unfold Heapmgr.step at hstep
  cases e with
  | malloc grant size =>
    obtain ⟨hpos, -⟩ := hallow
    obtain ⟨p, t, heq, hr⟩ := hM.malloc grant h.between hpos hsmall
    obtain ⟨-, hunits⟩ := unitsFor_bounds hpos
    rw [exec_malloc heq] at hstep
    obtain rfl := Except.ok.inj hstep
    exact ⟨h.malloc hr hpos hunits, fun _ e he _ a ha => h.malloc_frame hr he ha⟩
  | free m =>
    rcases hallow with rfl | ⟨e, he, rfl⟩
    · rw [exec_free_null h] at hstep
      obtain rfl := Except.ok.inj hstep
      exact ⟨⟨T, L, h⟩, fun _ _ _ _ _ _ => rfl⟩
    · obtain ⟨rpre, c, post, hT, haddr, hfits, hover⟩ := h.freeCall hM he
      by_cases hfit : (freed rpre c post).units < 2 ^ 31
      · obtain ⟨_, t, heq, hq, T', L', ht⟩ := hfits hfit
        rw [exec_free heq] at hstep
        obtain rfl := Except.ok.inj hstep
        refine ⟨⟨T', L', ht⟩, fun _ d hd _ a ha => ?_⟩
        obtain ⟨b, hb, -⟩ := h.live d hd
        exact hq.mem a (h.data_out (h.between.inv hb).2.tiles (fun c hc _ => hc) hd ha)
      · have herr : exec M x (.free e.1) = .error .intOverflow := by
          rw [exec, hover hfit]
          rfl
        rw [herr] at hstep
        exact absurd hstep (by simp)
  | write a v =>
    obtain ⟨e, he, ha⟩ := hallow
    obtain rfl := Except.ok.inj hstep
    exact ⟨⟨T, L, h.write he ha v⟩, fun hne => absurd rfl (hne a v)⟩

/-- In the runs whose requests fit an `int` of units, the client and the heap are consistent. -/
theorem consistent_run (hM : M.Correct) {x₀ : Client β} {es : List Move} (h0 : Start x₀)
    (hrun : Run (Guarded (fun x e => Allowed x e ∧ Small e) (step M)) x₀ es x) :
    ∃ T L, Consistent M x T L := by
  refine Run.preserves_of_steps (P := fun x => ∃ T L, Consistent M x T L) ?_ hrun
    ⟨[], fun _ => [], h0.consistent⟩
  rintro x e y ⟨T, L, h⟩ ⟨hallow, hsmall⟩ hstep
  exact (h.step hM hallow hsmall hstep).1

/-! ## Runs in a heap with room -/

/-- The heap has less than 2^31 - 1 units. -/
def InRoom (s : Heap β) : Prop := s.gHeapEnd - s.gHeapStart < 16 * (2 ^ 31 - 1)

omit [DecidableEq β] in
theorem Start.inRoom (h : Start x) : InRoom x.heap := by
  unfold InRoom
  rw [h.fresh.gHeapStart, h.fresh.gHeapEnd]
  decide

omit [DecidableEq β] in
theorem Roomy.small (hM : M.Correct) (h : Consistent M x T L) {e : Move} (hallow : Allowed x e)
    (hroom : Roomy M x e) : Small e := by
  cases e with
  | malloc grant size =>
    have hlt : unitsFor size < 2 ^ 31 := by
      rcases hroom with hserved | hroom
      · exact hM.served_lt h.between.ready hserved
      · have hle := h.between.ready.tiles.bounds.1
        have hw := (wantedUnits_ge (unitsFor size)).1
        omega
    obtain ⟨-, hunits⟩ := unitsFor_bounds hallow.1
    change size ≤ 16 * (2 ^ 31 - 1)
    omega
  | free m => trivial
  | write a v => trivial

omit [DecidableEq β] in
theorem InRoom.ready (h : InRoom s) : InRoom (ready s) := by
  unfold Heapmgr.ready
  split
  · exact h
  · unfold InRoom opened
    dsimp only
    omega

omit [DecidableEq β] in
theorem InRoom.malloc {grant : Bool} {size p : Int} (h : InRoom s)
    (hroom : M.served (Heapmgr.ready s) (unitsFor size) ∨
      ((Heapmgr.ready s).gHeapEnd - (Heapmgr.ready s).gHeapStart) / 16 +
        (wantedUnits (unitsFor size) + 2) < 2 ^ 31 - 1)
    (hr : MallocResult M.findBin 1 grant (Heapmgr.ready s) T (unitsFor size)
      (M.served (Heapmgr.ready s) (unitsFor size)) p t) : InRoom t := by
  have hready := h.ready
  unfold InRoom at hready ⊢
  cases hr with
  | found _ _ ht hend _ => rwa [hend, ht.gHeapStart]
  | grown hmiss _ _ ht hext =>
    have hlt := hroom.resolve_left hmiss
    rw [hext.gHeapEnd, ht.gHeapStart]
    omega
  | refused _ _ _ ht =>
    rw [ht]
    exact hready

/-- With room for what it may ask the kernel for, an allowed move does not fault: no assert
    fails, no addition overflows. -/
theorem Consistent.exec_ok (hM : M.Correct) (h : Consistent M x T L) (hroom : InRoom x.heap)
    {e : Move} (hallow : Allowed x e) (hroomy : Roomy M x e) :
    ∃ y, exec M x e = .ok y ∧ InRoom y.heap := by
  have hsmall := hroomy.small hM h hallow
  cases e with
  | malloc grant size =>
    obtain ⟨p, t, heq, hr⟩ := hM.malloc grant h.between hallow.1 hsmall
    exact ⟨_, exec_malloc heq, hroom.malloc hroomy hr⟩
  | free m =>
    rcases hallow with rfl | ⟨e, he, rfl⟩
    · exact ⟨x, exec_free_null h, hroom⟩
    · obtain ⟨rpre, c, post, hT, haddr, hfits, -⟩ := h.freeCall hM he
      have hfit : (freed rpre c post).units < 2 ^ 31 := by
        have hinv := (h.between.inv (b := c) (by rw [hT]; simp)).2
        rw [hT] at hinv
        have hle := freed_units_le hinv.tiles
        unfold InRoom at hroom
        omega
      obtain ⟨_, t, heq, hq, -⟩ := hfits hfit
      refine ⟨_, exec_free heq, ?_⟩
      unfold InRoom
      rw [hq.gHeapEnd, hq.gHeapStart]
      exact hroom
  | write a v => exact ⟨_, rfl, hroom⟩

theorem consistent_run_roomy (hM : M.Correct) {x₀ : Client β} {es : List Move} (h0 : Start x₀)
    (hrun : Run (Guarded (fun x e => Allowed x e ∧ Roomy M x e) (step M)) x₀ es x) :
    ∃ T L, Consistent M x T L ∧ InRoom x.heap := by
  refine Run.preserves_of_steps (P := fun x => ∃ T L, Consistent M x T L ∧ InRoom x.heap) ?_ hrun
    ⟨[], fun _ => [], h0.consistent, ?_⟩
  · rintro x e y ⟨T, L, h, hroom⟩ ⟨hallow, hroomy⟩ hstep
    obtain ⟨T', L', h'⟩ := (h.step hM hallow (hroomy.small hM h hallow) hstep).1
    obtain ⟨y', heq, hroom'⟩ := h.exec_ok hM hroom hallow hroomy
    obtain rfl := Except.ok.inj (heq.symm.trans hstep)
    exact ⟨T', L', h', hroom'⟩
  · exact h0.inRoom

end Lists

end SnuSysProg.Heapmgr
