import Mathlib.Logic.Function.Basic
import SnuSysProg.Lib.ByteMem
import SnuSysProg.Lib.Returns

/-
  The chunks of `chunk.c`, as bytes of memory.

  A chunk is a header cell, `units` units of data and a footer cell, 16 bytes each. A cell is a
  pointer, an `int` of units and an `int` of status. Addresses are `Int`, `NULL` is 0; the
  functions take and give the values the C types hold, and `toInt`, `toSize`, `toIntptr` stand
  where the source converts one type to another. A failed `assert`, a dereference of `NULL` and a
  signed overflow end the program with a fault.
-/

namespace SnuSysProg.Heapmgr
open SnuSysProg.Lib

/-- `NULL`. -/
abbrev null : Int := 0

/-- `CHUNK_UNIT`, the size of `struct Chunk` and of `struct Chunk_Footer`. -/
abbrev chunkUnit : Int := 16

/-- `CHUNK_FREE`. -/
abbrev chunkFree : Int := 0

/-- `CHUNK_IN_USE`. -/
abbrev chunkInUse : Int := 1

/-! ## Conversions between the integer types -/

/-- The value of a number converted to `int`. -/
def toInt (n : Int) : Int := (n + 2 ^ 31) % 2 ^ 32 - 2 ^ 31

/-- The value of a number converted to `size_t`. -/
def toSize (n : Int) : Int := n % 2 ^ 64

/-- The value of a number converted to `intptr_t`. -/
def toIntptr (n : Int) : Int := (n + 2 ^ 63) % 2 ^ 64 - 2 ^ 63

theorem toInt_of_lt {n : Int} (h : -2 ^ 31 ≤ n) (h' : n < 2 ^ 31) : toInt n = n := by
  unfold toInt
  omega

theorem toSize_of_lt {n : Int} (h : 0 ≤ n) (h' : n < 2 ^ 64) : toSize n = n := by
  unfold toSize
  omega

theorem toIntptr_of_lt {n : Int} (h : -2 ^ 63 ≤ n) (h' : n < 2 ^ 63) : toIntptr n = n := by
  unfold toIntptr
  omega

/-- The numbers that occur where `n` units are cut off a chunk of `u` units. -/
theorem cut_units {n u : Int} (hn : 0 ≤ n) (hfit : n + 2 < u) (hu : u < 2 ^ 31) :
    toSize (n + 2) = n + 2 ∧ toInt (u - n - 2) = u - n - 2 ∧ toInt n = n :=
  ⟨toSize_of_lt (by omega) (by omega), toInt_of_lt (by omega) (by omega),
    toInt_of_lt (by omega) (by omega)⟩

/-! ## Cells in memory -/

/-- `struct Chunk` or `struct Chunk_Footer`: `link` is `next` in a header, `prev` in a footer. -/
structure Cell where
  link : Int
  units : Int
  status : Int

def cellAt (m : Mem) (a : Int) : Cell where
  link := load m a 8
  units := toInt (load m (a + 8) 4)
  status := toInt (load m (a + 12) 4)

def setLink (m : Mem) (a v : Int) : Mem := store m a 8 (v % 2 ^ 64).toNat

def setUnits (m : Mem) (a v : Int) : Mem := store m (a + 8) 4 (v % 2 ^ 32).toNat

def setStatus (m : Mem) (a v : Int) : Mem := store m (a + 12) 4 (v % 2 ^ 32).toNat

/-- The 16 bytes of the cell at `a`. -/
def cellBytes (a : Int) : Set Int := {x | a ≤ x ∧ x < a + 16}

theorem mem_cellBytes {a x : Int} : x ∈ cellBytes a ↔ a ≤ x ∧ x < a + 16 := Iff.rfl

section Cells

variable {m : Mem} {a b v : Int}

theorem cellAt_setLink_self (hv : 0 ≤ v) (hv' : v < 2 ^ 64) :
    cellAt (setLink m a v) a = { cellAt m a with link := v } := by
  have hself : ((load (setLink m a v) a 8 : Nat) : Int) = v := by
    rw [setLink, load_store_self]
    omega
  unfold cellAt
  rw [hself, setLink, load_store_apart (by omega), load_store_apart (by omega)]

theorem cellAt_setUnits_self (hv : -2 ^ 31 ≤ v) (hv' : v < 2 ^ 31) :
    cellAt (setUnits m a v) a = { cellAt m a with units := v } := by
  have hself : toInt (load (setUnits m a v) (a + 8) 4 : Nat) = v := by
    rw [setUnits, load_store_self]
    unfold toInt
    omega
  unfold cellAt
  rw [hself, setUnits, load_store_apart (by omega), load_store_apart (by omega)]

theorem cellAt_setStatus_self (hv : -2 ^ 31 ≤ v) (hv' : v < 2 ^ 31) :
    cellAt (setStatus m a v) a = { cellAt m a with status := v } := by
  have hself : toInt (load (setStatus m a v) (a + 12) 4 : Nat) = v := by
    rw [setStatus, load_store_self]
    unfold toInt
    omega
  unfold cellAt
  rw [hself, setStatus, load_store_apart (by omega), load_store_apart (by omega)]

/-- A cell reads the same in memories that agree on its bytes. -/
theorem cellAt_of_agreeOff {W : Set Int} {m' : Mem} (h : AgreeOff W m m')
    (hout : ∀ x, x ∈ cellBytes a → x ∉ W) : cellAt m' a = cellAt m a := by
  unfold cellAt
  rw [h.load_eq fun x h1 h2 => hout x (mem_cellBytes.mpr (by omega)),
    h.load_eq fun x h1 h2 => hout x (mem_cellBytes.mpr (by omega)),
    h.load_eq fun x h1 h2 => hout x (mem_cellBytes.mpr (by omega))]

theorem agreeOff_setLink (m : Mem) (a v : Int) : AgreeOff (cellBytes a) m (setLink m a v) :=
  AgreeOff.store (fun _ h1 h2 => mem_cellBytes.mpr (by omega)) (AgreeOff.refl _ m)

theorem agreeOff_setUnits (m : Mem) (a v : Int) : AgreeOff (cellBytes a) m (setUnits m a v) :=
  AgreeOff.store (fun _ h1 h2 => mem_cellBytes.mpr (by omega)) (AgreeOff.refl _ m)

theorem agreeOff_setStatus (m : Mem) (a v : Int) : AgreeOff (cellBytes a) m (setStatus m a v) :=
  AgreeOff.store (fun _ h1 h2 => mem_cellBytes.mpr (by omega)) (AgreeOff.refl _ m)

end Cells

/-! ## The state of an allocator -/

/-- How a call can end other than by returning. -/
inductive Fault where
  | assertion
  | nullDereference
  | intOverflow
  | exited
  | outOfFuel
  deriving DecidableEq

/-- The process memory and the statics of one of the two allocators, which keeps its free chunks
    in lists named by `β`. `asked` collects the increments `sbrk` was called with, less those that
    only ask where the break is. -/
structure Heap (β : Type) where
  mem : Mem
  brk : Int
  asked : List Int
  gHeapStart : Int
  gHeapEnd : Int
  freeHead : β → Int
  isInit : Bool

abbrev HeapM (β : Type) := StateT (Heap β) (Except Fault)

variable {β : Type}

def assert (p : Prop) [Decidable p] : HeapM β Unit :=
  if p then pure () else throw .assertion

/-- The check every access through `c` makes. -/
def deref (c : Int) : HeapM β Unit :=
  if c = null then throw .nullDereference else pure ()

/-- `a + b` on `int`s. -/
def addInt (a b : Int) : HeapM β Int :=
  if -2 ^ 31 ≤ a + b ∧ a + b < 2 ^ 31 then pure (a + b) else throw .intOverflow

/-! ## The functions of chunk.c -/

def chunkGetStatus (c : Int) : HeapM β Int := do
  deref c
  return (cellAt (← get).mem c).status

def chunkSetStatus (c : Int) (status : Int) : HeapM β Unit := do
  deref c
  modify fun s => { s with mem := setStatus s.mem c status }

def chunkGetUnits (c : Int) : HeapM β Int := do
  deref c
  return (cellAt (← get).mem c).units

def chunkSetUnits (c : Int) (units : Int) : HeapM β Unit := do
  deref c
  modify fun s => { s with mem := setUnits s.mem c units }

def chunkGetNextFreeChunk (c : Int) : HeapM β Int := do
  deref c
  return (cellAt (← get).mem c).link

def chunkSetNextFreeChunk (c next : Int) : HeapM β Unit := do
  deref c
  modify fun s => { s with mem := setLink s.mem c next }

def chunkFooterGetUnits (c : Int) : HeapM β Int := do
  deref c
  return (cellAt (← get).mem c).units

def chunkFooterSetUnits (c : Int) (units : Int) : HeapM β Unit := do
  deref c
  modify fun s => { s with mem := setUnits s.mem c units }

def chunkFooterGetPrevFreeChunk (c : Int) : HeapM β Int := do
  deref c
  return (cellAt (← get).mem c).link

def chunkFooterSetPrevFreeChunk (c prev : Int) : HeapM β Unit := do
  deref c
  modify fun s => { s with mem := setLink s.mem c prev }

def chunkGetNextAdjacent (c start stop : Int) : HeapM β Int := do
  assert (start ≤ c)
  let n := c + ((← chunkGetUnits c) + 2) * chunkUnit
  if n ≥ stop then return null
  return n

def chunkGetPrevAdjacent (c start stop : Int) : HeapM β Int := do
  assert (c ≤ stop)
  let prevFooter := c - chunkUnit
  if prevFooter < start then return null
  let n := prevFooter - ((← chunkFooterGetUnits prevFooter) + 1) * chunkUnit
  if n < start then return null
  return n

def chunkGetFooterFromHeader (c start stop : Int) : HeapM β Int := do
  assert (c ≤ stop)
  assert (start ≤ c)
  let n := c + ((← chunkGetUnits c) + 1) * chunkUnit
  if n ≥ stop then return null
  return n

def chunkIsValid (c start stop : Int) : HeapM β Bool := do
  assert (c ≠ null)
  assert (start ≠ null)
  assert (stop ≠ null)
  if c < start then return false
  if c ≥ stop then return false
  if (← chunkGetUnits c) = 0 then return false
  return true

/-! ## What the accesses return -/

section Steps

variable {s : Heap β} {c v : Int}

theorem assert_ok {p : Prop} [Decidable p] (h : p) : (assert p : HeapM β Unit) s = .ok ((), s) := by
  unfold assert
  rw [if_pos h]
  rfl

theorem assert_fails {p : Prop} [Decidable p] (h : ¬ p) :
    (assert p : HeapM β Unit) s = .error .assertion := by
  unfold assert
  rw [if_neg h]
  rfl

theorem deref_ok (h : c ≠ 0) : (deref c : HeapM β Unit) s = .ok ((), s) := by
  unfold deref
  rw [if_neg h]
  rfl

theorem addInt_ok {a b : Int} (h : -2 ^ 31 ≤ a + b) (h' : a + b < 2 ^ 31) :
    (addInt a b : HeapM β Int) s = .ok (a + b, s) := by
  unfold addInt
  rw [if_pos ⟨h, h'⟩]
  rfl

theorem addInt_fails {a b : Int} (h : ¬ a + b < 2 ^ 31) :
    (addInt a b : HeapM β Int) s = .error .intOverflow := by
  unfold addInt
  rw [if_neg fun hh => h hh.2]
  rfl

theorem chunkGetStatus_ok (h : c ≠ 0) :
    chunkGetStatus c s = .ok ((cellAt s.mem c).status, s) := by
  unfold chunkGetStatus
  rw [bind_of_ok (deref_ok h)]
  rfl

theorem chunkGetUnits_ok (h : c ≠ 0) :
    chunkGetUnits c s = .ok ((cellAt s.mem c).units, s) := by
  unfold chunkGetUnits
  rw [bind_of_ok (deref_ok h)]
  rfl

theorem chunkGetNextFreeChunk_ok (h : c ≠ 0) :
    chunkGetNextFreeChunk c s = .ok ((cellAt s.mem c).link, s) := by
  unfold chunkGetNextFreeChunk
  rw [bind_of_ok (deref_ok h)]
  rfl

theorem chunkFooterGetUnits_ok (h : c ≠ 0) :
    chunkFooterGetUnits c s = .ok ((cellAt s.mem c).units, s) := by
  unfold chunkFooterGetUnits
  rw [bind_of_ok (deref_ok h)]
  rfl

theorem chunkFooterGetPrevFreeChunk_ok (h : c ≠ 0) :
    chunkFooterGetPrevFreeChunk c s = .ok ((cellAt s.mem c).link, s) := by
  unfold chunkFooterGetPrevFreeChunk
  rw [bind_of_ok (deref_ok h)]
  rfl

theorem chunkSetStatus_ok (h : c ≠ 0) :
    chunkSetStatus c v s = .ok ((), { s with mem := setStatus s.mem c v }) := by
  unfold chunkSetStatus
  rw [bind_of_ok (deref_ok h)]
  rfl

theorem chunkSetUnits_ok (h : c ≠ 0) :
    chunkSetUnits c v s = .ok ((), { s with mem := setUnits s.mem c v }) := by
  unfold chunkSetUnits
  rw [bind_of_ok (deref_ok h)]
  rfl

theorem chunkSetNextFreeChunk_ok (h : c ≠ 0) :
    chunkSetNextFreeChunk c v s = .ok ((), { s with mem := setLink s.mem c v }) := by
  unfold chunkSetNextFreeChunk
  rw [bind_of_ok (deref_ok h)]
  rfl

theorem chunkFooterSetUnits_ok (h : c ≠ 0) :
    chunkFooterSetUnits c v s = .ok ((), { s with mem := setUnits s.mem c v }) := by
  unfold chunkFooterSetUnits
  rw [bind_of_ok (deref_ok h)]
  rfl

theorem chunkFooterSetPrevFreeChunk_ok (h : c ≠ 0) :
    chunkFooterSetPrevFreeChunk c v s = .ok ((), { s with mem := setLink s.mem c v }) := by
  unfold chunkFooterSetPrevFreeChunk
  rw [bind_of_ok (deref_ok h)]
  rfl

theorem chunkGetNextAdjacent_ok {start stop : Int} (hc : c ≠ 0) (hstart : start ≤ c) :
    chunkGetNextAdjacent c start stop s =
      .ok (if c + ((cellAt s.mem c).units + 2) * 16 ≥ stop then 0
        else c + ((cellAt s.mem c).units + 2) * 16, s) := by
  unfold chunkGetNextAdjacent
  rw [bind_of_ok (assert_ok hstart), bind_of_ok (chunkGetUnits_ok hc)]
  split <;> rfl

theorem chunkGetFooterFromHeader_ok {start stop : Int} (hc : c ≠ 0) (hstart : start ≤ c)
    (hstop : c ≤ stop) : chunkGetFooterFromHeader c start stop s =
      .ok (if c + ((cellAt s.mem c).units + 1) * 16 ≥ stop then 0
        else c + ((cellAt s.mem c).units + 1) * 16, s) := by
  unfold chunkGetFooterFromHeader
  rw [bind_of_ok (assert_ok hstop), bind_of_ok (assert_ok hstart),
    bind_of_ok (chunkGetUnits_ok hc)]
  split <;> rfl

theorem chunkIsValid_ok {start stop : Int} (hc : c ≠ 0) (h0 : start ≠ 0) (h1 : stop ≠ 0)
    (hstart : start ≤ c) (hstop : c < stop) (hunits : (cellAt s.mem c).units ≠ 0) :
    chunkIsValid c start stop s = .ok (true, s) := by
  unfold chunkIsValid
  rw [bind_of_ok (assert_ok hc), bind_of_ok (assert_ok h0), bind_of_ok (assert_ok h1),
    if_neg (Int.not_lt.mpr hstart), if_neg (Int.not_le.mpr hstop), bind_of_ok (chunkGetUnits_ok hc),
    if_neg hunits]
  rfl

end Steps

end SnuSysProg.Heapmgr
