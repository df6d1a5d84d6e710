import Mathlib.Data.List.FinRange
import SnuSysProg.Heapmgr.Manager

/-
  `heapmgr2.c`: segregated free lists, six for the sizes up to 32 units with doubling ranges, 2047
  for the sizes up to 65536 units with ranges of 32 units, and one for what is larger.
-/

namespace SnuSysProg.Heapmgr2
open SnuSysProg.Lib SnuSysProg.Heapmgr

abbrev minExponentialBlockUnits : Int := 1
abbrev maxExponentialBlockUnits : Int := 32
abbrev minFixedBlockUnits : Int := 33
abbrev fixedBlockInterval : Int := 32
abbrev maxFixedBlockUnits : Int := 65536
abbrev exponentialBins : Nat := 6
abbrev fixedBins : Nat := 2047

/-- The heads of the free lists: `exponential_bins[i]`, `fixed_bins[i]`,
    `large_chunk_free_head`. -/
inductive Bin where
  | exponential (i : Fin exponentialBins)
  | fixed (i : Fin fixedBins)
  | large
  deriving DecidableEq

abbrev State := Heap Bin

abbrev M := HeapM Bin

/-- `MIN_EXPONENTIAL_BLOCK_UNITS << i`. -/
def exponentialMax (i : Fin exponentialBins) : Int := minExponentialBlockUnits * 2 ^ i.val

/-- `MIN_FIXED_BLOCK_UNITS + i * FIXED_BLOCK_INTERVAL`. -/
def fixedMin (i : Fin fixedBins) : Int := minFixedBlockUnits + i.val * fixedBlockInterval

def findBin (units : Int) : Bin :=
  if units ≤ maxExponentialBlockUnits then
    match (List.finRange exponentialBins).find? fun i => units ≤ exponentialMax i with
    | some i => .exponential i
    | none => .large
  else if units ≤ maxFixedBlockUnits then
    match (List.finRange fixedBins).find? fun i =>
      units ≤ minFixedBlockUnits + (i.val + 1) * fixedBlockInterval - 1 with
    | some i => .fixed i
    | none => .large
  else
    .large

/-! ## check_heap_validity -/

/-- The units `check_heap_validity` accepts in a bin. -/
def inRange : Bin → Int → Bool
  | .exponential i, units =>
    (if i.val = 0 then 1 else minExponentialBlockUnits * 2 ^ (i.val - 1) + 1) ≤ units &&
      units ≤ exponentialMax i
  | .fixed i, units => fixedMin i ≤ units && units ≤ fixedMin i + fixedBlockInterval - 1
  | .large, units => maxFixedBlockUnits < units

/-- The body of the loops of `check_heap_validity`: something when the chunk is out of its bin's
    range or not as it should be. -/
def checkFreeChunk (i : Bin) (w : Int) : M (Option Unit) := do
  let s ← get
  if !inRange i (toSize (← chunkGetUnits w)) then return some ()
  if (← chunkGetStatus w) ≠ chunkFree then return some ()
  if !(← chunkIsValid w s.gHeapStart s.gHeapEnd) then return some ()
  return none

def checkBin (i : Bin) : M Bool := do
  let s ← get
  return (← forFreeChunks s.fuel (s.freeHead i) (checkFreeChunk i)).isNone

def checkHeapValidity : M Bool := do
  let s ← get
  if s.gHeapStart = null then return false
  if s.gHeapEnd = null then return false
  if !(← (List.finRange exponentialBins).allM fun i => checkBin (.exponential i)) then return false
  if !(← (List.finRange fixedBins).allM fun i => checkBin (.fixed i)) then return false
  checkBin .large

/-! ## The search -/

/-- The body of the search loops. -/
def offerChunk (units curr : Int) : M (Option Int) := do
  if toSize (← chunkGetUnits curr) ≥ units then return some curr
  return none

/-- The first chunk of the bin with at least `units` units. -/
def searchBin (i : Bin) (units : Int) : M (Option Int) := do
  let s ← get
  forFreeChunks s.fuel (s.freeHead i) (offerChunk units)

def searchExponentialBins (units : Int) : M (Option Int) :=
  if units ≤ maxExponentialBlockUnits then
    (List.finRange exponentialBins).findSomeM? fun i =>
      if units ≤ exponentialMax i then searchBin (.exponential i) units else pure none
  else
    pure none

/-- A fixed bin is looked at when the request is no larger than the bin's smallest chunk. -/
def searchFixedBins (units : Int) : M (Option Int) :=
  if units ≤ maxFixedBlockUnits then
    (List.finRange fixedBins).findSomeM? fun i =>
      if units ≤ fixedMin i then searchBin (.fixed i) units else pure none
  else
    pure none

def findBestFitChunk (units : Int) : M Int := do
  match ← searchExponentialBins units with
  | some c => return c
  | none =>
    match ← searchFixedBins units with
    | some c => return c
    | none => return (← searchBin .large units).getD null

/-! ## Allocation -/

/-- `init_my_heap`. -/
def initMyHeap : M Unit := do
  modify fun s => { s with freeHead := fun i => if i = .large then s.freeHead .large else null }
  initHeapBounds

def insertChunk (c : Int) : M Unit := Heapmgr.insertChunk findBin c

def removeChunkFromList (c : Int) : M Unit := Heapmgr.removeChunkFromList findBin c

def splitAndRelocateRemainingChunk (c : Int) (units : Int) : M Int := do
  let s ← get
  assert (s.gHeapStart ≤ c ∧ c ≤ s.gHeapEnd)
  assert ((← chunkGetStatus c) = chunkFree)
  assert (toSize (← chunkGetUnits c) > toSize (units + 2))
  removeChunkFromList c
  let allUnits := toSize (← chunkGetUnits c)
  let _ ← writeUnits c (toInt (allUnits - units - 2))
  chunkSetStatus c chunkFree
  insertChunk c
  let c2 ← nextAdjacent c
  let _ ← writeUnits c2 (toInt units)
  chunkSetStatus c2 chunkInUse
  return c2

/-- The chunk the search found, split when it is large enough. -/
def takeChunk (units : Int) (c : Int) : M Int := do
  if toSize (← chunkGetUnits c) > toSize (units + 2) then
    splitAndRelocateRemainingChunk c units
  else do
    removeChunkFromList c
    return c

/-- The first half of `heapmgr_malloc`. -/
def mallocFromChunk (units : Int) (c : Int) : M Int := do
  assert (toSize (← chunkGetUnits c) ≥ units)
  let c ← takeChunk units c
  assert ((← checkHeapValidity) = true)
  assert ((← chunkGetStatus c) = chunkInUse)
  return c + chunkUnit

def initOnce : M Unit := do
  if (← get).isInit then return
  initMyHeap
  modify fun s => { s with isInit := true }

/-- `heapmgr_malloc`, when `sbrk` would extend the heap if `grant`. -/
def heapmgrMalloc (grant : Bool) (size : Int) : M Int := do
  if size ≤ 0 then return null
  initOnce
  assert ((← checkHeapValidity) = true)
  let units := sizeToUnits size
  let c ← findBestFitChunk units
  if c ≠ null then mallocFromChunk units c
  else mallocFromSystem findBin checkHeapValidity grant units

def heapmgrFree (m : Int) : M Unit := freeWith findBin checkHeapValidity m

end SnuSysProg.Heapmgr2
