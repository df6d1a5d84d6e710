import SnuSysProg.Heapmgr.Allocating

/-
  What the heap looks like in memory between two calls.

  `Represents findBin s chunks bins` speaks of the bytes only: the walk from `g_heap_start` by
  the units of the headers, the two kinds of list pointers, the status words. Every state between
  two calls has it (`Between.represents`), with the addresses of the blocks for `chunks`.
-/

namespace SnuSysProg.Heapmgr
open SnuSysProg.Lib

variable {β : Type} {findBin : Int → β} {lo : Int} {s t : Heap β} {T pre post : List Blk}
  {L : β → List Int} {b c : Blk} {m : Mem}

/-- The chunks met on the way from one address to another, each `units + 2` cells long. -/
def Walk (m : Mem) : Int → List Int → Int → Prop
  | a, [], z => a = z
  | a, c :: chunks, z => c = a ∧ Walk m (a + ((cellAt m a).units + 2) * chunkUnit) chunks z

/-- The footer that the units in the header lead to. -/
def footerOf (m : Mem) (c : Int) : Int := c + ((cellAt m c).units + 1) * chunkUnit

structure Represents (findBin : Int → β) (s : Heap β) (chunks : List Int) (bins : β → List Int) :
    Prop where
  walk : Walk s.mem s.gHeapStart chunks s.gHeapEnd
  units : ∀ c ∈ chunks, 1 ≤ (cellAt s.mem c).units ∧
    (cellAt s.mem (footerOf s.mem c)).units = (cellAt s.mem c).units
  status : ∀ c ∈ chunks,
    (cellAt s.mem c).status = chunkFree ∨ (cellAt s.mem c).status = chunkInUse
  next : ∀ i, Follows null (fun c => (cellAt s.mem c).link) (s.freeHead i) (bins i)
  prev : ∀ i, Follows null (fun c => (cellAt s.mem (footerOf s.mem c)).link)
    ((bins i).reverse.headD null) (bins i).reverse
  nodup : ∀ i, (bins i).Nodup
  free : ∀ c, c ∈ chunks ∧ (cellAt s.mem c).status = chunkFree ↔ ∃ i, c ∈ bins i
  filed : ∀ i, ∀ c ∈ bins i, findBin (cellAt s.mem c).units = i
  apart : chunks.IsChain fun c d =>
    ¬ ((cellAt s.mem c).status = chunkFree ∧ (cellAt s.mem d).status = chunkFree)

theorem Tiles.walk {a z : Int} (h : Tiles a T z)
    (hunits : ∀ b ∈ T, (cellAt m b.addr).units = b.units) : Walk m a (T.map Blk.addr) z := by
  induction T generalizing a with
  | nil => exact h
  | cons b T ih =>
    obtain ⟨rfl, -, hT⟩ := h
    refine ⟨rfl, ?_⟩
    rw [hunits b (List.mem_cons_self ..)]
    exact ih hT fun c hc => hunits c (List.mem_cons_of_mem _ hc)

theorem footerOf_blk (h : Rep findBin lo s T L) (hb : b ∈ T) (hraw : b.kind ≠ .raw) :
    footerOf s.mem b.addr = b.footer := by
  unfold footerOf
  rw [(h.cell_units hb hraw).1]
  rfl

/-- What the walk reads in the header of a block. -/
theorem Inv.chunk (h : Inv findBin lo s T L) (hb : b ∈ T) :
    (cellAt s.mem b.addr).units = b.units ∧
      ((cellAt s.mem b.addr).status = chunkFree ↔ b.kind = .free) :=
  ⟨(h.toRep.cell_units hb (h.noRaw b hb)).1, status_eq_free_iff h.toRep hb (h.noRaw b hb)⟩

theorem Inv.represents (h : Inv findBin 1 s T L) :
    Represents findBin s (T.map Blk.addr) L := by
  have hcell : ∀ b ∈ T, (cellAt s.mem b.addr).units = b.units :=
    fun b hb => (h.chunk hb).1
  have hfooter : ∀ b ∈ T, footerOf s.mem b.addr = b.footer :=
    fun b hb => footerOf_blk h.toRep hb (h.noRaw b hb)
  have hfree : ∀ b ∈ T, (cellAt s.mem b.addr).status = chunkFree ↔ b.kind = .free :=
    fun b hb => (h.chunk hb).2
  refine ⟨h.tiles.walk hcell, ?_, ?_, h.follows, ?_, h.nodup, ?_, ?_, ?_⟩
  · intro a ha
    obtain ⟨b, hb, rfl⟩ := List.mem_map.mp ha
    rw [hfooter b hb, hcell b hb]
    exact ⟨(h.sized b hb).1, (h.formed b hb (h.noRaw b hb)).footerUnits⟩
  · intro a ha
    obtain ⟨b, hb, rfl⟩ := List.mem_map.mp ha
    have hstatus : (cellAt s.mem b.addr).status = b.kind.status :=
      (h.formed b hb (h.noRaw b hb)).status
    rw [hstatus]
    unfold Kind.status
    split
    · exact Or.inl rfl
    · exact Or.inr rfl
  · intro i
    refine follows_predOf (h.nodup i) (h.zero_notMem i) fun a ha => ?_
    obtain ⟨b, hb, rfl, -⟩ := h.listed ha
    rw [hfooter b hb]
    exact (h.linked i b hb ha).2
  · intro a
    constructor
    · rintro ⟨ha, hstatus⟩
      obtain ⟨b, hb, rfl⟩ := List.mem_map.mp ha
      exact ⟨findBin b.units, h.filed b hb ((hfree b hb).mp hstatus)⟩
    · rintro ⟨i, ha⟩
      obtain ⟨b, hb, rfl, hk, -⟩ := h.listed ha
      exact ⟨List.mem_map.mpr ⟨b, hb, rfl⟩, (hfree b hb).mpr hk⟩
  · intro i a ha
    obtain ⟨b, hb, rfl, -, -, hbin⟩ := h.listed ha
    rw [hcell b hb]
    exact hbin
  · rw [List.isChain_map]
    refine h.coalesced.imp_of_mem_imp fun b c hb hc hbc => ?_
    rw [hfree b hb, hfree c hc]
    exact hbc

/-- Before the first call there are no chunks and no lists. -/
theorem Fresh.represents (h : Fresh s) : Represents findBin s [] (fun _ => []) := by
  have hwalk : s.gHeapStart = s.gHeapEnd := h.gHeapStart.trans h.gHeapEnd.symm
  refine ⟨hwalk, ?_, ?_, h.freeHead, fun _ => rfl, fun _ => List.nodup_nil, ?_, ?_,
    List.IsChain.nil⟩
  all_goals intros; simp at *

theorem Between.represents (h : Between findBin 1 s T L) :
    Represents findBin s (T.map Blk.addr) L := by
  rcases h with ⟨hfresh, rfl, rfl⟩ | ⟨-, hinv⟩
  · exact hfresh.represents
  · exact hinv.represents

end SnuSysProg.Heapmgr
