import SnuSysProg.Heapmgr.Manager

/-
  `heapmgr1.c`: one free list, first fit.
-/

namespace SnuSysProg.Heapmgr1
open SnuSysProg.Lib SnuSysProg.Heapmgr

/-- There is one list, and `g_free_head` is its head. -/
abbrev State := Heap Unit

abbrev M := HeapM Unit

def findBin (_ : Int) : Unit := ()

def gFreeHead : M Int := do return (← get).freeHead ()

/-- The first loop of `check_heap_validity`, over the chunks in the order of their addresses. -/
def checkChunks : Nat → Int → M Bool
  | 0, w => do
    if w ≠ null ∧ w < (← get).gHeapEnd then throw .outOfFuel
    return true
  | fuel + 1, w => do
    let s ← get
    if w ≠ null ∧ w < s.gHeapEnd then
      if !(← chunkIsValid w s.gHeapStart s.gHeapEnd) then return false
      checkChunks fuel (← nextAdjacent w)
    else
      return true

/-- The body of its second loop: something when the chunk is not as it should be. -/
def checkFreeChunk (w : Int) : M (Option Unit) := do
  let s ← get
  if (← chunkGetStatus w) ≠ chunkFree then return some ()
  if !(← chunkIsValid w s.gHeapStart s.gHeapEnd) then return some ()
  return none

def checkHeapValidity : M Bool := do
  let s ← get
  if s.gHeapStart = null then return false
  if s.gHeapEnd = null then return false
  if s.gHeapStart = s.gHeapEnd then return decide ((← gFreeHead) = null)
  if !(← checkChunks s.fuel s.gHeapStart) then return false
  return (← forFreeChunks s.fuel (← gFreeHead) checkFreeChunk).isNone

def initMyHeap : M Unit := initHeapBounds

def insertChunk (c : Int) : M Unit := Heapmgr.insertChunk findBin c

def removeChunkFromList (c : Int) : M Unit := Heapmgr.removeChunkFromList findBin c

/-- `split_chunk` leaves both halves in the free list. -/
def splitChunk (c : Int) (units : Int) : M Int := do
  let s ← get
  assert (s.gHeapStart ≤ c ∧ c ≤ s.gHeapEnd)
  assert ((← chunkGetStatus c) = chunkFree)
  assert (toSize (← chunkGetUnits c) > toSize (units + 2))
  let c3 ← chunkGetNextFreeChunk c
  let allUnits := toSize (← chunkGetUnits c)
  let cFooterOld ← footerFromHeader c
  assert (cFooterOld ≠ null)
  let cPrev ← chunkFooterGetPrevFreeChunk cFooterOld
  let cFooter ← writeUnits c (toInt (allUnits - units - 2))
  chunkFooterSetPrevFreeChunk cFooter cPrev
  let c2 ← nextAdjacent c
  chunkSetUnits c2 (toInt units)
  let c2Footer ← footerFromHeader c2
  assert (c2Footer ≠ null)
  chunkFooterSetPrevFreeChunk c2Footer c
  chunkFooterSetUnits c2Footer (toInt units)
  chunkSetStatus c2 chunkFree
  chunkSetNextFreeChunk c c2
  chunkSetNextFreeChunk c2 c3
  if c3 ≠ null then
    let c3Footer ← footerFromHeader c3
    assert (c3Footer ≠ null)
    chunkFooterSetPrevFreeChunk c3Footer c2
  return c2

/-- The search loop's test: "if splitable, split and change c as splitted second chunk". -/
def splitIfLarge (units : Int) (c : Int) : M Int := do
  if toSize (← chunkGetUnits c) > toSize (units + 2) then splitChunk c units else return c

/-- The body of the search loop of `heapmgr_malloc`, which returns out of the function. -/
def mallocFromChunk (units : Int) (c : Int) : M (Option Int) := do
  if toSize (← chunkGetUnits c) < units then return none
  let c ← splitIfLarge units c
  removeChunkFromList c
  assert ((← checkHeapValidity) = true)
  return some (c + chunkUnit)

def initOnce : M Unit := do
  if (← get).isInit then return
  initMyHeap
  modify fun s => { s with isInit := true }

/-- `heapmgr_malloc`, when `sbrk` would extend the heap if `grant`. -/
def heapmgrMalloc (grant : Bool) (size : Int) : M Int := do
  if size ≤ 0 then return null
  initOnce
  assert ((← checkHeapValidity) = true)
  let units := sizeToUnits size
  match ← forFreeChunks (← get).fuel (← gFreeHead) (mallocFromChunk units) with
  | some p => return p
  | none => mallocFromSystem findBin checkHeapValidity grant units

def heapmgrFree (m : Int) : M Unit := freeWith findBin checkHeapValidity m

end SnuSysProg.Heapmgr1
