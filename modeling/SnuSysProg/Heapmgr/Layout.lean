import SnuSysProg.Heapmgr.Manager
import SnuSysProg.Lib.Links

/-
  The heap as a row of blocks.

  `Tiles a T z`: the blocks `T` cover the addresses from `a` to `z` one after the other. Each
  block has a header and a footer cell, and `recAt m b` is what memory `m` holds in the two; a
  write to a cell of one block leaves the records of the others alone. `Rep` ties the state of an
  allocator to a row of blocks and to the contents of its free lists. A `raw` block is one whose
  cells are still to be written.
-/

namespace SnuSysProg.Heapmgr
open SnuSysProg.Lib

inductive Kind where
  | free
  | inUse
  | raw
  deriving DecidableEq

/-- The status a block of this kind has in its header. -/
def Kind.status : Kind → Int
  | .free => chunkFree
  | _ => chunkInUse

structure Blk where
  addr : Int
  units : Int
  kind : Kind
  deriving DecidableEq

def Blk.footer (b : Blk) : Int := b.addr + (b.units + 1) * 16

def Blk.stop (b : Blk) : Int := b.addr + (b.units + 2) * 16

theorem Blk.footer_stop (b : Blk) : b.stop = b.footer + 16 := by
  unfold Blk.stop Blk.footer
  omega

/-- The bytes of the header and of the footer. -/
def Blk.cells (b : Blk) : Set Int := cellBytes b.addr ∪ cellBytes b.footer

def cellsOf (T : List Blk) : Set Int := {x | ∃ b ∈ T, x ∈ b.cells}

/-- All bytes of the blocks. -/
def spanOf (T : List Blk) : Set Int := {x | ∃ b ∈ T, b.addr ≤ x ∧ x < b.stop}

theorem header_sub_cells (b : Blk) : cellBytes b.addr ⊆ b.cells := Set.subset_union_left

theorem footer_sub_cells (b : Blk) : cellBytes b.footer ⊆ b.cells := Set.subset_union_right

theorem cells_sub_cellsOf {T : List Blk} {b : Blk} (hb : b ∈ T) : b.cells ⊆ cellsOf T :=
  fun _ hx => ⟨b, hb, hx⟩

theorem cellsOf_mono {T U : List Blk} (h : ∀ b ∈ T, b ∈ U) : cellsOf T ⊆ cellsOf U :=
  fun _ ⟨b, hb, hx⟩ => ⟨b, h b hb, hx⟩

theorem mem_cells {b : Blk} {x : Int} : x ∈ b.cells ↔
    (b.addr ≤ x ∧ x < b.addr + 16) ∨ (b.footer ≤ x ∧ x < b.footer + 16) := Iff.rfl

/-! ## Rows of blocks -/

def Tiles : Int → List Blk → Int → Prop
  | a, [], z => a = z
  | a, b :: T, z => b.addr = a ∧ 0 ≤ b.units ∧ Tiles b.stop T z

variable {a z : Int} {T U : List Blk} {b c : Blk}

theorem Tiles.append_iff : Tiles a (T ++ U) z ↔ ∃ y, Tiles a T y ∧ Tiles y U z := by
  induction T generalizing a with
  | nil =>
    constructor
    · exact fun h => ⟨a, rfl, h⟩
    · rintro ⟨y, rfl, h⟩
      exact h
  | cons b T ih =>
    constructor
    · rintro ⟨h1, h2, h3⟩
      obtain ⟨y, hT, hU⟩ := ih.mp h3
      exact ⟨y, ⟨h1, h2, hT⟩, hU⟩
    · rintro ⟨y, ⟨h1, h2, hT⟩, hU⟩
      exact ⟨h1, h2, ih.mpr ⟨y, hT, hU⟩⟩

theorem Tiles.bounds (h : Tiles a T z) :
    a ≤ z ∧ ∀ b ∈ T, a ≤ b.addr ∧ b.stop ≤ z ∧ 0 ≤ b.units := by
  induction T generalizing a with
  | nil => exact ⟨le_of_eq h, fun b hb => absurd hb List.not_mem_nil⟩
  | cons c T ih =>
    obtain ⟨hc, hu, hT⟩ := h
    obtain ⟨hle, hmem⟩ := ih hT
    have hstop : c.stop = c.addr + (c.units + 2) * 16 := rfl
    refine ⟨by omega, fun b hb => ?_⟩
    rcases List.mem_cons.mp hb with rfl | hb
    · exact ⟨by omega, hle, hu⟩
    · obtain ⟨h1, h2, h3⟩ := hmem b hb
      exact ⟨by omega, h2, h3⟩

theorem Tiles.start_le (h : Tiles a T z) (hb : b ∈ T) : a ≤ b.addr := (h.bounds.2 b hb).1

theorem Tiles.stop_le (h : Tiles a T z) (hb : b ∈ T) : b.stop ≤ z := (h.bounds.2 b hb).2.1

theorem Tiles.units_nonneg (h : Tiles a T z) (hb : b ∈ T) : 0 ≤ b.units := (h.bounds.2 b hb).2.2

/-- Two blocks of a row are the same or lie apart. -/
theorem Tiles.apart (h : Tiles a T z) (hb : b ∈ T) (hc : c ∈ T) :
    b = c ∨ b.stop ≤ c.addr ∨ c.stop ≤ b.addr := by
  induction T generalizing a with
  | nil => exact absurd hb List.not_mem_nil
  | cons d T ih =>
    obtain ⟨hd, hu, hT⟩ := h
    rcases List.mem_cons.mp hb with rfl | hbT
    · rcases List.mem_cons.mp hc with rfl | hcT
      · exact Or.inl rfl
      · exact Or.inr (Or.inl (hT.start_le hcT))
    · rcases List.mem_cons.mp hc with rfl | hcT
      · exact Or.inr (Or.inr (hT.start_le hbT))
      · exact ih hT hbT hcT

theorem Tiles.eq_of_addr (h : Tiles a T z) (hb : b ∈ T) (hc : c ∈ T) (heq : b.addr = c.addr) :
    b = c := by
  have hbu := h.units_nonneg hb
  have hcu := h.units_nonneg hc
  rcases h.apart hb hc with heq' | hlt | hlt
  · exact heq'
  · unfold Blk.stop at hlt
    omega
  · unfold Blk.stop at hlt
    omega

/-- A block takes at least two units, so a row has fewer blocks than units. -/
theorem Tiles.length_le (h : Tiles a T z) : (T.length : Int) * 32 ≤ z - a := by
  induction T generalizing a with
  | nil =>
    have : a = z := h
    simp [this]
  | cons b T ih =>
    obtain ⟨hb, hu, hT⟩ := h
    have := ih hT
    unfold Blk.stop at this
    rw [List.length_cons]
    push_cast
    omega

/-- What stands before a block of the row, and behind it, is apart from it. -/
theorem Tiles.before (h : Tiles a (T ++ U) z) (hb : b ∈ T) (hc : c ∈ U) : b.stop ≤ c.addr := by
  obtain ⟨y, hT, hU⟩ := Tiles.append_iff.mp h
  exact (hT.stop_le hb).trans (hU.start_le hc)

/-! ## The record of a block -/

/-- What the two cells of a block hold. -/
structure Rec where
  next : Int
  prev : Int
  units : Int
  footerUnits : Int
  status : Int

def recAt (m : Mem) (b : Blk) : Rec where
  next := (cellAt m b.addr).link
  prev := (cellAt m b.footer).link
  units := (cellAt m b.addr).units
  footerUnits := (cellAt m b.footer).units
  status := (cellAt m b.addr).status

variable {m m' : Mem} {v : Int}

theorem recAt_of_agreeOff {W : Set Int} (h : AgreeOff W m m') (hout : ∀ x, x ∈ b.cells → x ∉ W) :
    recAt m' b = recAt m b := by
  unfold recAt
  rw [cellAt_of_agreeOff h fun x hx => hout x (header_sub_cells b hx),
    cellAt_of_agreeOff h fun x hx => hout x (footer_sub_cells b hx)]

/-- A header cell does not reach into the footer of a block of the row, nor into another block. -/
theorem Tiles.header_out (h : Tiles a T z) (hb : b ∈ T) (hc : c ∈ T) :
    (∀ x, x ∈ cellBytes b.footer → x ∉ cellBytes c.addr) ∧
      (b.addr ≠ c.addr → ∀ x, x ∈ b.cells → x ∉ cellBytes c.addr) := by
  have hbu := h.units_nonneg hb
  have hcu := h.units_nonneg hc
  constructor
  · intro x hx hx'
    rw [mem_cellBytes] at hx hx'
    rcases h.apart hb hc with rfl | hlt | hlt <;> simp only [Blk.stop, Blk.footer] at * <;> omega
  · intro hne x hx hx'
    rw [mem_cellBytes] at hx'
    rw [mem_cells] at hx
    rcases h.apart hb hc with rfl | hlt | hlt
    · exact hne rfl
    · simp only [Blk.stop, Blk.footer] at *
      omega
    · simp only [Blk.stop, Blk.footer] at *
      omega

theorem Tiles.footer_out (h : Tiles a T z) (hb : b ∈ T) (hc : c ∈ T) :
    (∀ x, x ∈ cellBytes b.addr → x ∉ cellBytes c.footer) ∧
      (b.addr ≠ c.addr → ∀ x, x ∈ b.cells → x ∉ cellBytes c.footer) := by
  have hbu := h.units_nonneg hb
  have hcu := h.units_nonneg hc
  constructor
  · intro x hx hx'
    exact (h.header_out hc hb).1 x hx' hx
  · intro hne x hx hx'
    rw [mem_cellBytes] at hx'
    rw [mem_cells] at hx
    rcases h.apart hb hc with rfl | hlt | hlt
    · exact hne rfl
    · simp only [Blk.stop, Blk.footer] at *
      omega
    · simp only [Blk.stop, Blk.footer] at *
      omega

theorem recAt_setNext (h : Tiles a T z) (hb : b ∈ T) (hc : c ∈ T) (hv : 0 ≤ v) (hv' : v < 2 ^ 64) :
    recAt (setLink m c.addr v) b =
      if b.addr = c.addr then { recAt m b with next := v } else recAt m b := by
  split
  · next heq =>
    obtain rfl := h.eq_of_addr hb hc heq
    unfold recAt
    rw [cellAt_setLink_self hv hv',
      cellAt_of_agreeOff (agreeOff_setLink m b.addr v) (h.header_out hb hb).1]
  · next hne => exact recAt_of_agreeOff (agreeOff_setLink m c.addr v) ((h.header_out hb hc).2 hne)

theorem recAt_setHeaderUnits (h : Tiles a T z) (hb : b ∈ T) (hc : c ∈ T) (hv : -2 ^ 31 ≤ v)
    (hv' : v < 2 ^ 31) : recAt (setUnits m c.addr v) b =
      if b.addr = c.addr then { recAt m b with units := v } else recAt m b := by
  split
  · next heq =>
    obtain rfl := h.eq_of_addr hb hc heq
    unfold recAt
    rw [cellAt_setUnits_self hv hv',
      cellAt_of_agreeOff (agreeOff_setUnits m b.addr v) (h.header_out hb hb).1]
  · next hne => exact recAt_of_agreeOff (agreeOff_setUnits m c.addr v) ((h.header_out hb hc).2 hne)

theorem recAt_setStatus (h : Tiles a T z) (hb : b ∈ T) (hc : c ∈ T) (hv : -2 ^ 31 ≤ v)
    (hv' : v < 2 ^ 31) : recAt (setStatus m c.addr v) b =
      if b.addr = c.addr then { recAt m b with status := v } else recAt m b := by
  split
  · next heq =>
    obtain rfl := h.eq_of_addr hb hc heq
    unfold recAt
    rw [cellAt_setStatus_self hv hv',
      cellAt_of_agreeOff (agreeOff_setStatus m b.addr v) (h.header_out hb hb).1]
  · next hne => exact recAt_of_agreeOff (agreeOff_setStatus m c.addr v) ((h.header_out hb hc).2 hne)

theorem recAt_setPrev (h : Tiles a T z) (hb : b ∈ T) (hc : c ∈ T) (hv : 0 ≤ v) (hv' : v < 2 ^ 64) :
    recAt (setLink m c.footer v) b =
      if b.addr = c.addr then { recAt m b with prev := v } else recAt m b := by
  split
  · next heq =>
    obtain rfl := h.eq_of_addr hb hc heq
    unfold recAt
    rw [cellAt_setLink_self hv hv',
      cellAt_of_agreeOff (agreeOff_setLink m b.footer v) (h.footer_out hb hb).1]
  · next hne => exact recAt_of_agreeOff (agreeOff_setLink m c.footer v) ((h.footer_out hb hc).2 hne)

theorem recAt_setFooterUnits (h : Tiles a T z) (hb : b ∈ T) (hc : c ∈ T) (hv : -2 ^ 31 ≤ v)
    (hv' : v < 2 ^ 31) : recAt (setUnits m c.footer v) b =
      if b.addr = c.addr then { recAt m b with footerUnits := v } else recAt m b := by
  split
  · next heq =>
    obtain rfl := h.eq_of_addr hb hc heq
    unfold recAt
    rw [cellAt_setUnits_self hv hv',
      cellAt_of_agreeOff (agreeOff_setUnits m b.footer v) (h.footer_out hb hb).1]
  · next hne =>
    exact recAt_of_agreeOff (agreeOff_setUnits m c.footer v) ((h.footer_out hb hc).2 hne)

end SnuSysProg.Heapmgr
