import Mathlib.Data.Finmap
import Mathlib.Data.Finset.Lattice.Fold
import Mathlib.Order.Lattice.Nat
import SnuSysProg.Lib.Returns

/-
  A heap of cells that are allocated, read, written and freed whole.

  A heap maps the addresses of the live cells to their contents; `nullAddr` is never one of them.
  What an allocation gives is up to the allocator: nothing, or any address that is not in use, be
  it one that was freed before. Following a pointer to no live cell, and freeing one, is a fault.
-/

namespace SnuSysProg.Lib

abbrev Addr := Nat

abbrev nullAddr : Addr := 0

/-- The live cells. -/
abbrev Cells (C : Type) := Finmap fun _ : Addr => C

inductive CellFault where
  /-- The pointer is `NULL`, or to a cell that was freed. -/
  | dangling
  /-- The cell holds something else than what is read. -/
  | wrongKind
  /-- A walk met more cells than there are. -/
  | circular
  deriving DecidableEq

/-- How one allocation turns out, in whatever heap it is made. -/
structure Allocator (C : Type) where
  choose : Cells C → Option Addr
  fresh : ∀ {h : Cells C} {a : Addr}, choose h = some a → a ≠ nullAddr ∧ a ∉ h

/-- The address after the last one in use. -/
def bump : Allocator C where
  choose h := some (h.keys.sup id + 1)
  fresh := by
    intro h a ha
    obtain rfl := Option.some.inj ha
    refine ⟨Nat.succ_ne_zero _, fun hmem => ?_⟩
    have hle : h.keys.sup id + 1 ≤ h.keys.sup id :=
      Finset.le_sup (f := id) (Finmap.mem_keys.mpr hmem)
    exact Nat.not_succ_le_self _ hle

abbrev CellM (C : Type) := StateT (Cells C) (Except CellFault)

variable {C : Type} {h : Cells C} {a b : Addr} {c d : C}

/-- `NULL` when the allocator gives nothing. -/
def allocCell (A : Allocator C) (c : C) : CellM C Addr := do
  let h ← get
  match A.choose h with
  | none => return nullAddr
  | some a =>
    set (h.insert a c)
    return a

def readCell (a : Addr) : CellM C C := do
  match (← get).lookup a with
  | none => throw .dangling
  | some c => return c

def writeCell (a : Addr) (c : C) : CellM C Unit := do
  let h ← get
  if a ∈ h then set (h.insert a c) else throw .dangling

/-- Freeing `NULL` does nothing. -/
def freeCell (a : Addr) : CellM C Unit := do
  let h ← get
  if a = nullAddr then return
  if a ∈ h then set (h.erase a) else throw .dangling

theorem allocCell_none {A : Allocator C} (hA : A.choose h = none) :
    allocCell A c h = .ok (nullAddr, h) := by
  unfold allocCell
  rw [bind_of_ok (get_apply h), hA]
  rfl

theorem allocCell_some {A : Allocator C} (hA : A.choose h = some a) :
    allocCell A c h = .ok (a, h.insert a c) := by
  unfold allocCell
  rw [bind_of_ok (get_apply h), hA]
  rfl

theorem readCell_ok (hc : h.lookup a = some c) : readCell a h = .ok (c, h) := by
  unfold readCell
  rw [bind_of_ok (get_apply h), hc]
  rfl

theorem writeCell_ok (ha : a ∈ h) : writeCell a c h = .ok ((), h.insert a c) := by
  unfold writeCell
  rw [bind_of_ok (get_apply h), if_pos ha]
  rfl

theorem freeCell_ok (hne : a ≠ nullAddr) (ha : a ∈ h) : freeCell a h = .ok ((), h.erase a) := by
  unfold freeCell
  rw [bind_of_ok (get_apply h), if_neg hne, if_pos ha]
  rfl

/-- Giving back what was just allocated restores the heap. -/
theorem erase_insert (ha : a ∉ h) : (h.insert a c).erase a = h := by
  refine Finmap.ext_lookup fun x => ?_
  by_cases hx : x = a
  · subst hx
    rw [Finmap.lookup_erase, Finmap.lookup_eq_none.mpr ha]
  · rw [Finmap.lookup_erase_ne hx, Finmap.lookup_insert_of_ne _ hx]

/-- The heaps have the same cells at these addresses. -/
def AgreeAt (s : List Addr) (h h' : Cells C) : Prop := ∀ a ∈ s, h'.lookup a = h.lookup a

theorem AgreeAt.insert {s : List Addr} (ha : a ∉ s) : AgreeAt s h (h.insert a c) :=
  fun x hx => Finmap.lookup_insert_of_ne _ fun hxa : x = a => ha (hxa ▸ hx)

theorem AgreeAt.erase {s : List Addr} (ha : a ∉ s) : AgreeAt s h (h.erase a) :=
  fun x hx => Finmap.lookup_erase_ne fun hxa : x = a => ha (hxa ▸ hx)

theorem AgreeAt.trans {s : List Addr} {h₁ h₂ h₃ : Cells C} (h12 : AgreeAt s h₁ h₂)
    (h23 : AgreeAt s h₂ h₃) : AgreeAt s h₁ h₃ :=
  fun x hx => (h23 x hx).trans (h12 x hx)

end SnuSysProg.Lib
