import Mathlib.Data.List.Chain
import SnuSysProg.Heapmgr.Operations

/-
  The state between two calls, and `heapmgr_free`.

  `Inv` is what holds between two calls: no block is raw, every free block is in its list, no two
  neighbours are free, and the heap ends at the break. Freeing a block joins it with its free
  neighbours (`coalesce`). The files' own `check_heap_validity` enters through `Checks`: it
  accepts every state that represents a heap without raw blocks.
-/

namespace SnuSysProg.Heapmgr
open SnuSysProg.Lib

variable {β : Type} {findBin : Int → β} {lo : Int} {s t : Heap β} {T pre post : List Blk}
  {L : β → List Int} {b c : Blk} {i : β}

/-- Not both free. -/
def Apart (b c : Blk) : Prop := ¬ (b.kind = .free ∧ c.kind = .free)

structure Inv (findBin : Int → β) (lo : Int) (s : Heap β) (T : List Blk) (L : β → List Int) :
    Prop extends Rep findBin lo s T L where
  noRaw : ∀ b ∈ T, b.kind ≠ .raw
  filed : ∀ b ∈ T, b.kind = .free → b.addr ∈ L (findBin b.units)
  coalesced : T.IsChain Apart
  brk : s.brk = s.gHeapEnd

/-- `check` accepts the heaps in which every block is formed. -/
def Checks (findBin : Int → β) (lo : Int) (check : HeapM β Bool) : Prop :=
  ∀ s T L, Rep findBin lo s T L → (∀ b ∈ T, b.kind ≠ .raw) → check s = .ok (true, s)

/-! ## Walks along a free list -/

/-- A walk whose body only looks at the chunks finds the first one it finds something for. -/
theorem forFreeChunks_reads {α : Type} {body : Int → HeapM β (Option α)} {g : Int → Option α}
    {fuel : Nat} {w : Int} {l : List Int}
    (hl : Follows 0 (fun a => (cellAt s.mem a).link) w l) (hfuel : l.length ≤ fuel)
    (hbody : ∀ a ∈ l, body a s = .ok (g a, s)) :
    forFreeChunks fuel w body s = .ok (l.findSome? g, s) := by
  induction l generalizing fuel w with
  | nil =>
    have hw : w = null := hl
    cases fuel with
    | zero =>
      rw [forFreeChunks, if_pos hw]
      rfl
    | succ fuel =>
      rw [forFreeChunks, if_pos hw]
      rfl
  | cons a l ih =>
    obtain ⟨rfl, hne, hrest⟩ := hl
    cases fuel with
    | zero => exact absurd hfuel (by simp)
    | succ fuel =>
      have hfuel' : l.length ≤ fuel := by simpa using hfuel
      rw [forFreeChunks, if_neg hne, bind_of_ok (hbody w (List.mem_cons_self ..)),
        List.findSome?_cons]
      cases hg : g w with
      | some r => rfl
      | none =>
        dsimp only
        rw [bind_of_ok (chunkGetNextFreeChunk_ok hne)]
        exact ih hrest hfuel' fun a ha => hbody a (List.mem_cons_of_mem _ ha)

/-- A walk passes the chunks its body gives nothing for, and ends at the first of the others. -/
theorem forFreeChunks_first {α : Type} {body : Int → HeapM β (Option α)}
    {Q : Option α → Heap β → Prop} {fuel : Nat} {w a : Int} {l l' : List Int}
    (hl : Follows 0 (fun a => (cellAt s.mem a).link) w (l ++ a :: l'))
    (hfuel : (l ++ a :: l').length ≤ fuel) (hpass : ∀ b ∈ l, body b s = .ok (none, s))
    (hfound : Returns (body a) s fun r t => r.isSome ∧ Q r t) :
    Returns (forFreeChunks fuel w body) s Q := by
  induction l generalizing fuel w with
  | nil =>
    obtain ⟨rfl, hne, -⟩ := hl
    cases fuel with
    | zero => exact absurd hfuel (by simp)
    | succ fuel =>
      rw [forFreeChunks, if_neg hne]
      refine Returns.bind hfound fun r t ⟨hr, hQ⟩ => ?_
      obtain ⟨v, rfl⟩ := Option.isSome_iff_exists.mp hr
      exact Returns.pure hQ
  | cons b l ih =>
    obtain ⟨rfl, hne, hrest⟩ := hl
    cases fuel with
    | zero => exact absurd hfuel (by simp)
    | succ fuel =>
      have hfuel' : (l ++ a :: l').length ≤ fuel := by simpa using hfuel
      rw [forFreeChunks, if_neg hne]
      refine Returns.step (hpass w (List.mem_cons_self ..)) ?_
      refine Returns.step (chunkGetNextFreeChunk_ok hne) ?_
      exact ih hrest hfuel' fun b hb => hpass b (List.mem_cons_of_mem _ hb)

theorem Rep.list_le_fuel (h : Rep findBin lo s T L) (i : β) : (L i).length ≤ s.fuel :=
  (h.length_list_le i).trans h.blocks_lt_fuel.le

/-! ## Freeing a block -/

/-- The address of the first block of a row, `NULL` for the empty row. -/
def headAddr : List Blk → Int
  | [] => 0
  | b :: _ => b.addr

/-- `c` together with the block behind it, if that is free. -/
def absorbNext (c : Blk) : List Blk → Blk × List Blk
  | [] => (c, [])
  | n :: post => if n.kind = .free then (merged c n, post) else (c, n :: post)

/-- `c` together with the block before it, if that is free; `rpre` is the row before `c`, read
    backwards. -/
def absorbPrev (c : Blk) : List Blk → Blk × List Blk
  | [] => (c, [])
  | p :: rpre => if p.kind = .free then (merged p c, rpre) else (c, p :: rpre)

/-- The free block that freeing `c` makes. -/
def freed (rpre : List Blk) (c : Blk) (post : List Blk) : Blk :=
  { (absorbPrev (absorbNext c post).1 rpre).1 with kind := .free }

/-- The row of blocks after `c` was freed. -/
def coalesce (rpre : List Blk) (c : Blk) (post : List Blk) : List Blk :=
  (absorbPrev (absorbNext c post).1 rpre).2.reverse ++ [freed rpre c post] ++
    (absorbNext c post).2

theorem absorbNext_free {n : Blk} (h : n.kind = .free) :
    absorbNext c (n :: post) = (merged c n, post) := if_pos h

theorem absorbNext_taken {n : Blk} (h : n.kind ≠ .free) :
    absorbNext c (n :: post) = (c, n :: post) := if_neg h

theorem absorbPrev_free {p : Blk} (h : p.kind = .free) :
    absorbPrev c (p :: pre) = (merged p c, pre) := if_pos h

theorem absorbPrev_taken {p : Blk} (h : p.kind ≠ .free) :
    absorbPrev c (p :: pre) = (c, p :: pre) := if_neg h

theorem nextAdjacent_row (h : Covers s (pre ++ [c] ++ post))
    (hunits : (recAt s.mem c).units = c.units) :
    nextAdjacent c.addr s = .ok (headAddr post, s) := by
  cases post with
  | nil =>
    rw [List.append_nil] at h
    exact nextAdjacent_last h hunits
  | cons n post => exact nextAdjacent_mid h hunits

theorem prevAdjacent_row {rpre : List Blk} (h : Covers s (rpre.reverse ++ [c] ++ post))
    (hform : ∀ p ∈ rpre, Formed s.mem p) :
    prevAdjacent c.addr s = .ok (headAddr rpre, s) := by
  cases rpre with
  | nil => exact prevAdjacent_first h
  | cons p rpre =>
    rw [List.reverse_cons, List.append_assoc] at h
    exact prevAdjacent_mid h (hform p (List.mem_cons_self ..)).footerUnits

theorem status_eq_free_iff (h : Rep findBin lo s T L) (hb : b ∈ T) (hraw : b.kind ≠ .raw) :
    (cellAt s.mem b.addr).status = chunkFree ↔ b.kind = .free := by
  have hstatus : (cellAt s.mem b.addr).status = b.kind.status := (h.formed b hb hraw).status
  rw [hstatus]
  cases hk : b.kind <;> simp [Kind.status]

section Lists

variable [DecidableEq β]

/-- Other blocks stay in their lists when one leaves. -/
theorem mem_after_erase {a d : Int} (hne : a ≠ d) {j : β} (ha : a ∈ L j) :
    a ∈ Function.update L i ((L i).erase d) j := by
  by_cases hji : j = i
  · subst hji
    rw [Function.update_self]
    exact (List.mem_erase_of_ne hne).mpr ha
  · rwa [Function.update_of_ne hji]

/-- A block of the row has another address than the blocks around it. -/
theorem Tiles.addr_ne {a z : Int} (h : Tiles a (pre ++ [c] ++ post) z)
    (hb : b ∈ pre ∨ b ∈ post) : b.addr ≠ c.addr := by
  intro heq
  have hbu := h.units_nonneg (mem_middle.mpr (Or.inr hb))
  have hcu := h.units_nonneg (b := c) (by simp)
  have hspan : c.addr ∈ spanOf [c] :=
    ⟨c, List.mem_singleton_self c, le_refl _, by unfold Blk.stop; omega⟩
  refine h.around hb hspan ⟨by omega, ?_⟩
  unfold Blk.stop
  omega

/-- The cells of a merged row are cells of the row before. -/
theorem cellsOf_absorbNext {a z : Int} (h : Tiles a (pre ++ [c] ++ post) z) :
    cellsOf (pre ++ [(absorbNext c post).1] ++ (absorbNext c post).2) ⊆
      cellsOf (pre ++ [c] ++ post) := by
  cases post with
  | nil => exact subset_refl _
  | cons n post =>
    by_cases hfree : n.kind = .free
    · have hsplit : pre ++ [c] ++ n :: post = pre ++ [c, n] ++ post := by simp
      rw [absorbNext_free hfree]
      rw [hsplit] at h ⊢
      exact cellsOf_merge h
    · rw [absorbNext_taken hfree]

theorem cellsOf_absorbPrev {a z : Int} {rpre : List Blk}
    (h : Tiles a (rpre.reverse ++ [c] ++ post) z) :
    cellsOf ((absorbPrev c rpre).2.reverse ++ [(absorbPrev c rpre).1] ++ post) ⊆
      cellsOf (rpre.reverse ++ [c] ++ post) := by
  cases rpre with
  | nil => exact subset_refl _
  | cons p rpre =>
    by_cases hfree : p.kind = .free
    · have hsplit : (p :: rpre).reverse ++ [c] ++ post = rpre.reverse ++ [p, c] ++ post := by simp
      rw [absorbPrev_free hfree]
      rw [hsplit] at h ⊢
      exact cellsOf_merge h
    · rw [absorbPrev_taken hfree]

theorem mergeWithNext_spec (h : Rep findBin lo s (pre ++ [c] ++ post) L)
    (hk : c.kind = .inUse) (hraw : ∀ b ∈ post, b.kind ≠ .raw)
    (hfiled : ∀ b ∈ post, b.kind = .free → b.addr ∈ L (findBin b.units))
    (hfit : (absorbNext c post).1.units < 2 ^ 31) :
    Returns (mergeWithNext findBin c.addr (headAddr post)) s fun r t =>
      r = c.addr ∧ Quiet (cellsOf (pre ++ [c] ++ post)) s t ∧ ∃ L',
        Rep findBin lo t (pre ++ [(absorbNext c post).1] ++ (absorbNext c post).2) L' ∧
          ∀ b ∈ pre ++ (absorbNext c post).2, ∀ j, b.addr ∈ L j → b.addr ∈ L' j := by
  unfold mergeWithNext
  cases post with
  | nil =>
    rw [if_pos (show headAddr [] = null from rfl)]
    exact Returns.pure ⟨rfl, Quiet.refl _ s, L, h, fun b _ j hb => hb⟩
  | cons n post =>
    have haddr : headAddr (n :: post) = n.addr := rfl
    have hn : n ∈ pre ++ [c] ++ n :: post := by simp
    have hne := h.covers.addr_ne hn
    have hstatus := status_eq_free_iff h hn (hraw n (List.mem_cons_self ..))
    rw [haddr, if_neg hne]
    refine Returns.step (chunkGetStatus_ok hne) ?_
    by_cases hfree : n.kind = .free
    · have hni := hfiled n (List.mem_cons_self ..) hfree
      have hsplit : pre ++ [c] ++ n :: post = pre ++ [c] ++ [n] ++ post := by simp
      have hsplit' : pre ++ [c] ++ [{ n with kind := .inUse }] ++ post =
          pre ++ [c, { n with kind := .inUse }] ++ post := by simp
      rw [absorbNext_free hfree] at hfit ⊢
      rw [if_neg (not_not.mpr (hstatus.mpr hfree))]
      rw [hsplit] at h ⊢
      refine Returns.bind (removeChunkFromList_spec h hni) fun _ s1 ⟨h1, hq1⟩ => ?_
      rw [hsplit'] at h1
      refine (mergeChunk_spec h1 hk rfl hfit).mono fun r t ⟨hr, ht, hq⟩ => ?_
      have hsub : (merged c n).cells ⊆ cellsOf (pre ++ [c] ++ [n] ++ post) := by
        have hall := cellsOf_absorbNext (hsplit ▸ h.tiles)
        rw [absorbNext_free hfree, hsplit] at hall
        exact (cells_sub_cellsOf (by simp)).trans hall
      refine ⟨hr, hq1.trans (hq.mono hsub), _, ht, fun b hb j hbj => mem_after_erase ?_ hbj⟩
      refine h.tiles.addr_ne ?_
      rcases List.mem_append.mp hb with hb | hb
      · exact Or.inl (List.mem_append_left _ hb)
      · exact Or.inr hb
    · rw [absorbNext_taken hfree, if_pos (mt hstatus.mp hfree)]
      exact Returns.pure ⟨rfl, Quiet.refl _ s, L, h, fun b _ j hb => hb⟩

theorem mergeWithPrev_spec {rpre : List Blk} (h : Rep findBin lo s (rpre.reverse ++ [c] ++ post) L)
    (hk : c.kind = .inUse) (hraw : ∀ b ∈ rpre, b.kind ≠ .raw)
    (hfiled : ∀ b ∈ rpre, b.kind = .free → b.addr ∈ L (findBin b.units))
    (hfit : (absorbPrev c rpre).1.units < 2 ^ 31) :
    Returns (mergeWithPrev findBin c.addr (headAddr rpre)) s fun r t =>
      r = (absorbPrev c rpre).1.addr ∧ Quiet (cellsOf (rpre.reverse ++ [c] ++ post)) s t ∧ ∃ L',
        Rep findBin lo t ((absorbPrev c rpre).2.reverse ++ [(absorbPrev c rpre).1] ++ post) L' ∧
          ∀ b ∈ (absorbPrev c rpre).2 ++ post, ∀ j, b.addr ∈ L j → b.addr ∈ L' j := by
  unfold mergeWithPrev
  cases rpre with
  | nil =>
    rw [if_pos (show headAddr [] = null from rfl)]
    exact Returns.pure ⟨rfl, Quiet.refl _ s, L, h, fun b _ j hb => hb⟩
  | cons p rpre =>
    have haddr : headAddr (p :: rpre) = p.addr := rfl
    have hp : p ∈ (p :: rpre).reverse ++ [c] ++ post := by simp
    have hne := h.covers.addr_ne hp
    have hstatus := status_eq_free_iff h hp (hraw p (List.mem_cons_self ..))
    rw [haddr, if_neg hne]
    refine Returns.step (chunkGetStatus_ok hne) ?_
    by_cases hfree : p.kind = .free
    · have hpi := hfiled p (List.mem_cons_self ..) hfree
      have hsplit : (p :: rpre).reverse ++ [c] ++ post =
          rpre.reverse ++ [p] ++ (c :: post) := by simp
      have hsplit' : rpre.reverse ++ [{ p with kind := .inUse }] ++ (c :: post) =
          rpre.reverse ++ [{ p with kind := .inUse }, c] ++ post := by simp
      rw [absorbPrev_free hfree] at hfit ⊢
      rw [if_neg (not_not.mpr (hstatus.mpr hfree))]
      rw [hsplit] at h ⊢
      refine Returns.bind (removeChunkFromList_spec h hpi) fun _ s1 ⟨h1, hq1⟩ => ?_
      rw [hsplit'] at h1
      refine (mergeChunk_spec h1 rfl hk hfit).mono fun r t ⟨hr, ht, hq⟩ => ?_
      have hsub : (merged p c).cells ⊆ cellsOf (rpre.reverse ++ [p] ++ (c :: post)) := by
        have hall := cellsOf_absorbPrev (hsplit ▸ h.tiles)
        rw [absorbPrev_free hfree, hsplit] at hall
        exact (cells_sub_cellsOf (by simp)).trans hall
      refine ⟨hr, hq1.trans (hq.mono hsub), _, ht, fun b hb j hbj => mem_after_erase ?_ hbj⟩
      refine h.tiles.addr_ne ?_
      rcases List.mem_append.mp hb with hb | hb
      · exact Or.inl (List.mem_reverse.mpr hb)
      · exact Or.inr (List.mem_cons_of_mem _ hb)
    · rw [absorbPrev_taken hfree, if_pos (mt hstatus.mp hfree)]
      exact Returns.pure ⟨rfl, Quiet.refl _ s, L, h, fun b _ j hb => hb⟩

/-! ### The whole of freeChunk -/

omit [DecidableEq β] in
/-- A row has no free neighbours when its two sides have none and the block between fits them. -/
theorem chain_row_iff {rpre : List Blk} : (rpre.reverse ++ [c] ++ post).IsChain Apart ↔
    (rpre.IsChain Apart ∧ ∀ p ∈ rpre.head?, Apart p c) ∧
      (∀ n ∈ post.head?, Apart c n) ∧ post.IsChain Apart := by
  have hsym : (fun a b => Apart b a) = Apart := by
    funext a b
    unfold Apart
    rw [and_comm]
  rw [List.append_assoc, List.isChain_append, List.isChain_reverse, hsym, List.singleton_append,
    List.isChain_cons, List.getLast?_reverse]
  simp only [List.head?_cons, Option.mem_some_iff, forall_eq']
  tauto

omit [DecidableEq β] in
theorem absorbNext_facts (c : Blk) (post : List Blk) :
    (absorbNext c post).1.addr = c.addr ∧ (c.kind = .inUse → (absorbNext c post).1.kind = .inUse) ∧
      (∀ b ∈ (absorbNext c post).2, b ∈ post) ∧
      (∀ b ∈ post, b.kind ≠ .free → b ∈ (absorbNext c post).2) := by
  cases post with
  | nil => exact ⟨rfl, id, fun _ hb => hb, fun _ hb _ => hb⟩
  | cons n post =>
    by_cases hfree : n.kind = .free
    · rw [absorbNext_free hfree]
      refine ⟨rfl, fun _ => rfl, fun b hb => List.mem_cons_of_mem _ hb, fun b hb hk => ?_⟩
      rcases List.mem_cons.mp hb with rfl | hb
      · exact absurd hfree hk
      · exact hb
    · rw [absorbNext_taken hfree]
      exact ⟨rfl, id, fun _ hb => hb, fun _ hb _ => hb⟩

omit [DecidableEq β] in
theorem absorbPrev_facts (c : Blk) (rpre : List Blk) :
    (c.kind = .inUse → (absorbPrev c rpre).1.kind = .inUse) ∧
      (∀ b ∈ (absorbPrev c rpre).2, b ∈ rpre) ∧
      (∀ b ∈ rpre, b.kind ≠ .free → b ∈ (absorbPrev c rpre).2) := by
  cases rpre with
  | nil => exact ⟨id, fun _ hb => hb, fun _ hb _ => hb⟩
  | cons p rpre =>
    by_cases hfree : p.kind = .free
    · rw [absorbPrev_free hfree]
      refine ⟨fun _ => rfl, fun b hb => List.mem_cons_of_mem _ hb, fun b hb hk => ?_⟩
      rcases List.mem_cons.mp hb with rfl | hb
      · exact absurd hfree hk
      · exact hb
    · rw [absorbPrev_taken hfree]
      exact ⟨id, fun _ hb => hb, fun _ hb _ => hb⟩

omit [DecidableEq β] in
/-- Where the row had no free neighbours, `c` stands between blocks in use after it took in the
    free blocks beside it. -/
theorem chain_coalesce {rpre : List Blk} (h : (rpre.reverse ++ [c] ++ post).IsChain Apart) :
    (coalesce rpre c post).IsChain Apart := by
  obtain ⟨⟨hprev, hp⟩, hn, hpost⟩ := chain_row_iff.mp h
  have hfreed : (freed rpre c post).kind = .free := rfl
  have hnext : (∀ n ∈ (absorbNext c post).2.head?, n.kind ≠ .free) ∧
      (absorbNext c post).2.IsChain Apart := by
    cases post with
    | nil => exact ⟨fun n hn => by simp [absorbNext] at hn, hpost⟩
    | cons n post =>
      by_cases hfree : n.kind = .free
      · rw [absorbNext_free hfree]
        obtain ⟨hhead, htail⟩ := List.isChain_cons.mp hpost
        exact ⟨fun d hd hdf => hhead d hd ⟨hfree, hdf⟩, htail⟩
      · rw [absorbNext_taken hfree]
        refine ⟨fun d hd => ?_, hpost⟩
        obtain rfl : n = d := by simpa using hd
        exact hfree
  have hback : (∀ p ∈ (absorbPrev (absorbNext c post).1 rpre).2.head?, p.kind ≠ .free) ∧
      (absorbPrev (absorbNext c post).1 rpre).2.IsChain Apart := by
    cases rpre with
    | nil => exact ⟨fun p hp => by simp [absorbPrev] at hp, hprev⟩
    | cons p rpre =>
      by_cases hfree : p.kind = .free
      · rw [absorbPrev_free hfree]
        obtain ⟨hhead, htail⟩ := List.isChain_cons.mp hprev
        exact ⟨fun d hd hdf => hhead d hd ⟨hfree, hdf⟩, htail⟩
      · rw [absorbPrev_taken hfree]
        refine ⟨fun d hd => ?_, hprev⟩
        obtain rfl : p = d := by simpa using hd
        exact hfree
  unfold coalesce
  exact chain_row_iff.mpr ⟨⟨hback.2, fun p hp hh => hback.1 p hp hh.1⟩,
    fun n hn hh => hnext.1 n hn hh.2, hnext.2⟩

omit [DecidableEq β] in
theorem absorbPrev_units_le {rpre : List Blk} (hp : ∀ p ∈ rpre, 0 ≤ p.units) :
    c.units ≤ (absorbPrev c rpre).1.units := by
  cases rpre with
  | nil => exact le_refl _
  | cons p rpre =>
    by_cases hfree : p.kind = .free
    · have hpu := hp p (List.mem_cons_self ..)
      rw [absorbPrev_free hfree]
      unfold merged
      dsimp only
      omega
    · rw [absorbPrev_taken hfree]

omit [DecidableEq β] in
/-- What `freeChunk` looks at before it merges. -/
theorem freeChunk_checks {rpre : List Blk}
    (h : Inv findBin lo s (rpre.reverse ++ [c] ++ post) L) (hk : c.kind = .inUse) :
    (s.gHeapStart ≤ c.addr ∧ c.addr < s.gHeapEnd) ∧ c.addr ≠ 0 ∧
      (cellAt s.mem c.addr).status ≠ chunkFree ∧
      nextAdjacent c.addr s = .ok (headAddr post, s) ∧
      prevAdjacent c.addr s = .ok (headAddr rpre, s) := by
  have hc : c ∈ rpre.reverse ++ [c] ++ post := by simp
  have hraw : c.kind ≠ .raw := by rw [hk]; decide
  have hstop := h.tiles.stop_le hc
  have hu := h.tiles.units_nonneg hc
  refine ⟨⟨h.tiles.start_le hc, ?_⟩, h.covers.addr_ne hc, ?_, ?_, ?_⟩
  · unfold Blk.stop at hstop
    omega
  · rw [Ne, status_eq_free_iff h.toRep hc hraw, hk]
    decide
  · exact nextAdjacent_row h.covers (h.formed c hc hraw).units
  · refine prevAdjacent_row h.covers fun p hp => ?_
    have hpT : p ∈ rpre.reverse ++ [c] ++ post := by simp [hp]
    exact h.formed p hpT (h.noRaw p hpT)

theorem freeChunk_spec {rpre : List Blk}
    (h : Inv findBin lo s (rpre.reverse ++ [c] ++ post) L) (hk : c.kind = .inUse)
    (hunits : 1 ≤ (freed rpre c post).units) (hfit : (freed rpre c post).units < 2 ^ 31) :
    Returns (freeChunk findBin c.addr) s fun _ t =>
      Quiet (cellsOf (rpre.reverse ++ [c] ++ post)) s t ∧
        ∃ L', Inv findBin lo t (coalesce rpre c post) L' := by
  obtain ⟨hin, hne, hstatus, hnext, hprev⟩ := freeChunk_checks h hk
  have hpost : ∀ b ∈ post, b ∈ rpre.reverse ++ [c] ++ post := fun b hb => by simp [hb]
  have hpre : ∀ b ∈ rpre, b ∈ rpre.reverse ++ [c] ++ post := fun b hb => by simp [hb]
  obtain ⟨haddr, hmk, hpost', -⟩ := absorbNext_facts c post
  obtain ⟨hpk, hpre', -⟩ := absorbPrev_facts (absorbNext c post).1 rpre
  have hfit1 : (absorbNext c post).1.units < 2 ^ 31 :=
    lt_of_le_of_lt (absorbPrev_units_le fun p hp => h.tiles.units_nonneg (hpre p hp)) hfit
  unfold freeChunk
  refine Returns.step (get_apply s) ?_
  refine Returns.step (assert_ok hin) ?_
  refine Returns.step (chunkGetStatus_ok hne) ?_
  refine Returns.step (assert_ok hstatus) ?_
  refine Returns.step hnext ?_
  refine Returns.step hprev ?_
  refine Returns.bind (mergeWithNext_spec h.toRep hk (fun b hb => h.noRaw b (hpost b hb))
    (fun b hb hf => h.filed b (hpost b hb) hf) hfit1) fun r s1 ⟨hr, hq1, L1, h1, hL1⟩ => ?_
  have hcells1 := cellsOf_absorbNext h.tiles
  rw [hr, ← haddr]
  refine Returns.bind (mergeWithPrev_spec h1 (hmk hk) (fun b hb => h.noRaw b (hpre b hb))
    (fun b hb hf => hL1 b (by simp [hb]) _ (h.filed b (hpre b hb) hf)) hfit)
    fun r s2 ⟨hr, hq2, L2, h2, hL2⟩ => ?_
  have hcells2 := cellsOf_absorbPrev h1.tiles
  have hmk2 := hpk (hmk hk)
  have hmem2 : (absorbPrev (absorbNext c post).1 rpre).1 ∈
      (absorbPrev (absorbNext c post).1 rpre).2.reverse ++
        [(absorbPrev (absorbNext c post).1 rpre).1] ++ (absorbNext c post).2 := by simp
  have hunlisted := h2.unlisted hmem2 (by rw [hmk2]; decide)
  rw [hr]
  refine Returns.bind (chunkSetStatus_spec (k := .free) h2 hunlisted (by rw [hmk2]; decide))
    fun _ s3 ⟨h3, hq3, _⟩ => ?_
  have hmem3 : freed rpre c post ∈ coalesce rpre c post := by
    unfold coalesce
    simp
  refine (insertChunk_spec h3 hmem3 rfl hunits hunlisted).mono fun _ t ⟨ht, hqt⟩ => ?_
  have hq : Quiet (cellsOf (rpre.reverse ++ [c] ++ post)) s t := by
    have hq2' := hq2.mono hcells1
    have hq3' := hq3.mono ((cells_sub_cellsOf hmem2).trans (hcells2.trans hcells1))
    have hrow : cellsOf (coalesce rpre c post) ⊆ cellsOf (rpre.reverse ++ [c] ++ post) := by
      rintro x ⟨b, hb, hx⟩
      refine hcells1 (hcells2 ?_)
      rcases mem_middle.mp hb with hb | hb
      · obtain rfl := List.mem_singleton.mp hb
        exact ⟨_, hmem2, hx⟩
      · exact ⟨b, mem_middle.mpr (Or.inr hb), hx⟩
    have hqt' := hqt.mono hrow
    exact ((hq1.trans hq2').trans hq3').trans hqt'
  refine ⟨hq, _, ht, ?_, ?_, chain_coalesce h.coalesced, ?_⟩
  · intro b hb
    rcases mem_middle.mp hb with hb | hb | hb
    · obtain rfl := List.mem_singleton.mp hb
      exact (show Kind.free ≠ Kind.raw by decide)
    · exact h.noRaw b (hpre b (hpre' b (List.mem_reverse.mp hb)))
    · exact h.noRaw b (hpost b (hpost' b hb))
  · intro b hb hf
    have hkeep : ∀ L' : β → List Int, ∀ a, a ∈ L' (findBin b.units) →
        a ∈ Function.update L' (findBin (freed rpre c post).units)
          ((freed rpre c post).addr :: L' (findBin (freed rpre c post).units))
            (findBin b.units) := by
      intro L' a ha
      by_cases hj : findBin b.units = findBin (freed rpre c post).units
      · rw [hj, Function.update_self, ← hj]
        exact List.mem_cons_of_mem _ ha
      · rwa [Function.update_of_ne hj]
    rcases mem_middle.mp hb with hb | hb | hb
    · obtain rfl := List.mem_singleton.mp hb
      change (freed rpre c post).addr ∈ Function.update L2 (findBin (freed rpre c post).units)
        _ (findBin (freed rpre c post).units)
      rw [Function.update_self]
      exact List.mem_cons_self ..
    · have hb' := List.mem_reverse.mp hb
      have hb0 := hpre' b hb'
      have hbL1 := hL1 b (by simp [hb0]) _ (h.filed b (hpre b hb0) hf)
      exact hkeep L2 _ (hL2 b (by simp [hb']) _ hbL1)
    · have hb0 := hpost' b hb
      have hbL1 := hL1 b (by simp [hb]) _ (h.filed b (hpost b hb0) hf)
      exact hkeep L2 _ (hL2 b (by simp [hb]) _ hbL1)
  · rw [hq.brk, hq.gHeapEnd, h.brk]

/-! ### Units that do not fit an int -/

theorem mergeWithNext_overflow (h : Rep findBin lo s (pre ++ [c] ++ post) L)
    (hk : c.kind = .inUse) (hraw : ∀ b ∈ post, b.kind ≠ .raw)
    (hfiled : ∀ b ∈ post, b.kind = .free → b.addr ∈ L (findBin b.units))
    (hbig : ¬ (absorbNext c post).1.units < 2 ^ 31) :
    mergeWithNext findBin c.addr (headAddr post) s = .error .intOverflow := by
  have hcT : c ∈ pre ++ [c] ++ post := by simp
  unfold mergeWithNext
  cases post with
  | nil => exact absurd (h.sized c hcT).2 hbig
  | cons n post =>
    have haddr : headAddr (n :: post) = n.addr := rfl
    have hn : n ∈ pre ++ [c] ++ n :: post := by simp
    have hne := h.covers.addr_ne hn
    have hstatus := status_eq_free_iff h hn (hraw n (List.mem_cons_self ..))
    by_cases hfree : n.kind = .free
    · have hni := hfiled n (List.mem_cons_self ..) hfree
      have hsplit : pre ++ [c] ++ n :: post = pre ++ [c] ++ [n] ++ post := by simp
      have hsplit' : pre ++ [c] ++ [{ n with kind := .inUse }] ++ post =
          pre ++ [c, { n with kind := .inUse }] ++ post := by simp
      rw [absorbNext_free hfree] at hbig
      rw [hsplit] at h
      obtain ⟨_, s1, heq, h1, -⟩ := removeChunkFromList_spec h hni
      rw [hsplit'] at h1
      rw [haddr, if_neg hne, bind_of_ok (chunkGetStatus_ok hne),
        if_neg (not_not.mpr (hstatus.mpr hfree)), bind_of_ok heq]
      have hover := mergeChunk_overflow h1 hk rfl hbig
      exact hover
    · rw [absorbNext_taken hfree] at hbig
      exact absurd (h.sized c hcT).2 hbig

theorem mergeWithPrev_overflow {rpre : List Blk}
    (h : Rep findBin lo s (rpre.reverse ++ [c] ++ post) L) (hk : c.kind = .inUse)
    (hraw : ∀ b ∈ rpre, b.kind ≠ .raw)
    (hfiled : ∀ b ∈ rpre, b.kind = .free → b.addr ∈ L (findBin b.units))
    (hbig : ¬ (absorbPrev c rpre).1.units < 2 ^ 31) :
    mergeWithPrev findBin c.addr (headAddr rpre) s = .error .intOverflow := by
  have hcT : c ∈ rpre.reverse ++ [c] ++ post := by simp
  unfold mergeWithPrev
  cases rpre with
  | nil => exact absurd (h.sized c hcT).2 hbig
  | cons p rpre =>
    have haddr : headAddr (p :: rpre) = p.addr := rfl
    have hp : p ∈ (p :: rpre).reverse ++ [c] ++ post := by simp
    have hne := h.covers.addr_ne hp
    have hstatus := status_eq_free_iff h hp (hraw p (List.mem_cons_self ..))
    by_cases hfree : p.kind = .free
    · have hpi := hfiled p (List.mem_cons_self ..) hfree
      have hsplit : (p :: rpre).reverse ++ [c] ++ post = rpre.reverse ++ [p] ++ (c :: post) := by
        simp
      have hsplit' : rpre.reverse ++ [{ p with kind := .inUse }] ++ (c :: post) =
          rpre.reverse ++ [{ p with kind := .inUse }, c] ++ post := by simp
      rw [absorbPrev_free hfree] at hbig
      rw [hsplit] at h
      obtain ⟨_, s1, heq, h1, -⟩ := removeChunkFromList_spec h hpi
      rw [hsplit'] at h1
      rw [haddr, if_neg hne, bind_of_ok (chunkGetStatus_ok hne),
        if_neg (not_not.mpr (hstatus.mpr hfree)), bind_of_ok heq]
      have hover := mergeChunk_overflow h1 rfl hk hbig
      exact hover
    · rw [absorbPrev_taken hfree] at hbig
      exact absurd (h.sized c hcT).2 hbig

/-- When the freed block with its free neighbours has more units than an `int` holds, the call
    ends in the overflow. -/
theorem freeChunk_overflow {rpre : List Blk}
    (h : Inv findBin lo s (rpre.reverse ++ [c] ++ post) L) (hk : c.kind = .inUse)
    (hbig : ¬ (freed rpre c post).units < 2 ^ 31) :
    freeChunk findBin c.addr s = .error .intOverflow := by
  obtain ⟨hin, hne, hstatus, hnext, hprev⟩ := freeChunk_checks h hk
  have hpost : ∀ b ∈ post, b ∈ rpre.reverse ++ [c] ++ post := fun b hb => by simp [hb]
  have hpre : ∀ b ∈ rpre, b ∈ rpre.reverse ++ [c] ++ post := fun b hb => by simp [hb]
  obtain ⟨haddr, hmk, -, -⟩ := absorbNext_facts c post
  unfold freeChunk
  rw [bind_of_ok (get_apply s), bind_of_ok (assert_ok hin), bind_of_ok (chunkGetStatus_ok hne),
    bind_of_ok (assert_ok hstatus), bind_of_ok hnext, bind_of_ok hprev]
  by_cases hfit : (absorbNext c post).1.units < 2 ^ 31
  · obtain ⟨r, s1, heq, hr, -, L1, h1, hL1⟩ := mergeWithNext_spec h.toRep hk
      (fun b hb => h.noRaw b (hpost b hb)) (fun b hb hf => h.filed b (hpost b hb) hf) hfit
    rw [bind_of_ok heq, hr, ← haddr]
    refine bind_of_error (mergeWithPrev_overflow h1 (hmk hk) (fun b hb => h.noRaw b (hpre b hb))
      (fun b hb hf => hL1 b (by simp [hb]) _ (h.filed b (hpre b hb) hf)) hbig)
  · exact bind_of_error (mergeWithNext_overflow h.toRep hk (fun b hb => h.noRaw b (hpost b hb))
      (fun b hb hf => h.filed b (hpost b hb) hf) hfit)

theorem freeWith_spec {rpre : List Blk} {check : HeapM β Bool} (hcheck : Checks findBin lo check)
    (h : Inv findBin lo s (rpre.reverse ++ [c] ++ post) L) (hk : c.kind = .inUse)
    (hunits : 1 ≤ (freed rpre c post).units) (hfit : (freed rpre c post).units < 2 ^ 31) :
    Returns (freeWith findBin check (c.addr + 16)) s fun _ t =>
      Quiet (cellsOf (rpre.reverse ++ [c] ++ post)) s t ∧
        ∃ L', Inv findBin lo t (coalesce rpre c post) L' := by
  have hpos := h.addr_pos (b := c) (by simp)
  have hne : ¬ c.addr + 16 = null := by
    have : c.addr + 16 ≠ 0 := by omega
    exact this
  have hptr : getChunkFromDataPtr (c.addr + 16) = c.addr := Int.add_sub_cancel c.addr 16
  unfold freeWith
  rw [if_neg hne, hptr]
  refine Returns.step (hcheck s _ L h.toRep h.noRaw) ?_
  refine Returns.step (assert_ok rfl) ?_
  refine Returns.bind (freeChunk_spec h hk hunits hfit) fun _ t ⟨hq, L', ht⟩ => ?_
  refine Returns.step (hcheck t _ L' ht.toRep ht.noRaw) ?_
  exact Returns.intro (assert_ok rfl) ⟨hq, L', ht⟩

theorem freeWith_overflow {rpre : List Blk} {check : HeapM β Bool}
    (hcheck : Checks findBin lo check)
    (h : Inv findBin lo s (rpre.reverse ++ [c] ++ post) L) (hk : c.kind = .inUse)
    (hbig : ¬ (freed rpre c post).units < 2 ^ 31) :
    freeWith findBin check (c.addr + 16) s = .error .intOverflow := by
  have hpos := h.addr_pos (b := c) (by simp)
  have hne : ¬ c.addr + 16 = null := by
    have : c.addr + 16 ≠ 0 := by omega
    exact this
  have hptr : getChunkFromDataPtr (c.addr + 16) = c.addr := Int.add_sub_cancel c.addr 16
  unfold freeWith
  rw [if_neg hne, hptr, bind_of_ok (hcheck s _ L h.toRep h.noRaw), bind_of_ok (assert_ok rfl)]
  exact bind_of_error (freeChunk_overflow h hk hbig)

end Lists

end SnuSysProg.Heapmgr
