import SnuSysProg.Heapmgr.Chunk

/-
  The functions that `heapmgr1.c` and `heapmgr2.c` have in common, word for word but for the list
  a chunk goes to: `findBin` names it (`&g_free_head` in the one, `find_bin` in the other).
  `checkHeapValidity` is the check each file has of its own.

  `sbrk` is the kernel's: `grant` says whether it extends the break when asked to. An increment
  of zero only tells where the break is and cannot fail.
-/

namespace SnuSysProg.Heapmgr
open SnuSysProg.Lib

/-- `MEMALLOC_MIN`. -/
abbrev memallocMin : Int := 1024

/-- `(void *)-1`, what `sbrk` returns when it fails. The break never gets there. -/
abbrev sbrkFailed : Int := 2 ^ 64 - 1

variable {β : Type}

/-- The kernel moves the break by `inc`; it stays inside the address space. -/
def Grants (grant : Bool) (s : Heap β) (inc : Int) : Prop :=
  grant = true ∧ 0 < s.brk + inc ∧ s.brk + inc < sbrkFailed

instance (grant : Bool) (s : Heap β) (inc : Int) : Decidable (Grants grant s inc) :=
  inferInstanceAs (Decidable (_ ∧ _ ∧ _))

/-- `sbrk(inc)` fails. -/
def Refuses (grant : Bool) (s : Heap β) (inc : Int) : Prop := inc ≠ 0 ∧ ¬ Grants grant s inc

def sbrk (grant : Bool) (inc : Int) : HeapM β Int := do
  let s ← get
  if inc = 0 then return s.brk
  if Grants grant s inc then
    set { s with brk := s.brk + inc, asked := inc :: s.asked }
    return s.brk
  set { s with asked := inc :: s.asked }
  return sbrkFailed

/-- `size_to_units`: the `size_t` addition wraps. -/
def sizeToUnits (size : Int) : Int := toSize (size + (chunkUnit - 1)) / chunkUnit

def getChunkFromDataPtr (m : Int) : Int := m - chunkUnit

/-- Both files pass `g_heap_start` and `g_heap_end` wherever they ask for a neighbour. -/
def nextAdjacent (c : Int) : HeapM β Int := do
  let s ← get
  chunkGetNextAdjacent c s.gHeapStart s.gHeapEnd

def prevAdjacent (c : Int) : HeapM β Int := do
  let s ← get
  chunkGetPrevAdjacent c s.gHeapStart s.gHeapEnd

def footerFromHeader (c : Int) : HeapM β Int := do
  let s ← get
  chunkGetFooterFromHeader c s.gHeapStart s.gHeapEnd

/-- `init_my_heap`, the part both files share. -/
def initHeapBounds : HeapM β Unit := do
  let top ← sbrk false 0
  modify fun s => { s with gHeapStart := top, gHeapEnd := top }
  if top = sbrkFailed then throw .exited

/-- The lines that recur wherever a chunk gets a new size: `units` goes to the header, and to the
    footer that the new size gives. -/
def writeUnits (c units : Int) : HeapM β Int := do
  chunkSetUnits c units
  let cFooter ← footerFromHeader c
  assert (cFooter ≠ null)
  chunkFooterSetUnits cFooter units
  return cFooter

def mergeChunk (c1 c2 : Int) : HeapM β Int := do
  assert (c1 < c2)
  assert ((← nextAdjacent c1) = c2)
  assert ((← chunkGetStatus c1) = chunkInUse)
  assert ((← chunkGetStatus c2) = chunkInUse)
  let mergedUnits ← addInt (← addInt (← chunkGetUnits c1) (← chunkGetUnits c2)) 2
  let c1Footer ← writeUnits c1 mergedUnits
  chunkFooterSetPrevFreeChunk c1Footer null
  return c1

/-- A walk along the `next` pointers from `w`, up to the first chunk for which `body` gives
    something. -/
def forFreeChunks {α : Type} : Nat → Int → (Int → HeapM β (Option α)) → HeapM β (Option α)
  | 0, w, _ => if w = null then pure none else throw .outOfFuel
  | fuel + 1, w, body => do
    if w = null then return none
    match ← body w with
    | some r => return some r
    | none => forFreeChunks fuel (← chunkGetNextFreeChunk w) body

/-- No list of chunks of the heap has more members than the heap has units. -/
def Heap.fuel (s : Heap β) : Nat := ((s.gHeapEnd - s.gHeapStart) / chunkUnit).toNat + 1

section Lists

variable [DecidableEq β]

def setFreeHead (i : β) (c : Int) : HeapM β Unit :=
  modify fun s => { s with freeHead := Function.update s.freeHead i c }

/-- `assert(free_head != NULL)` is left out: `find_bin` gives the address of a static. -/
def insertChunk (findBin : Int → β) (c : Int) : HeapM β Unit := do
  assert (c ≠ null)
  assert (1 ≤ (← chunkGetUnits c))
  assert ((← chunkGetStatus c) = chunkFree)
  let freeHead := findBin (toSize (← chunkGetUnits c))
  let cFooter ← footerFromHeader c
  assert (cFooter ≠ null)
  let head := (← get).freeHead freeHead
  if head = null then
    setFreeHead freeHead c
    chunkSetNextFreeChunk c null
    chunkFooterSetPrevFreeChunk cFooter null
  else
    chunkSetNextFreeChunk c head
    chunkFooterSetPrevFreeChunk cFooter null
    let headFooter ← footerFromHeader head
    assert (headFooter ≠ null)
    chunkFooterSetPrevFreeChunk headFooter c
    setFreeHead freeHead c

/-- The four cases of `remove_chunk_from_list`. -/
def unlinkChunk (freeHead : β) (prev next : Int) : HeapM β Unit := do
  if prev = null ∧ next = null then
    setFreeHead freeHead null
  else if prev = null then
    let nextFooter ← footerFromHeader next
    assert (nextFooter ≠ null)
    chunkFooterSetPrevFreeChunk nextFooter null
    setFreeHead freeHead next
  else if next = null then
    chunkSetNextFreeChunk prev null
  else
    let nextFooter ← footerFromHeader next
    assert (nextFooter ≠ null)
    chunkFooterSetPrevFreeChunk nextFooter prev
    chunkSetNextFreeChunk prev next

def removeChunkFromList (findBin : Int → β) (c : Int) : HeapM β Unit := do
  assert (c ≠ null)
  assert ((← chunkGetStatus c) = chunkFree)
  let freeHead := findBin (toSize (← chunkGetUnits c))
  let cFooter ← footerFromHeader c
  assert (cFooter ≠ null)
  let prev ← chunkFooterGetPrevFreeChunk cFooter
  let next ← chunkGetNextFreeChunk c
  unlinkChunk freeHead prev next
  chunkSetNextFreeChunk c null
  chunkFooterSetPrevFreeChunk cFooter null
  chunkSetStatus c chunkInUse

/-- "If units is smaller than MEMALLOC_MIN, use MEMALLOC_MIN." -/
def wantedUnits (units : Int) : Int := if units < memallocMin then memallocMin else units

/-- `(units + 2) * CHUNK_UNIT` is computed in `size_t` and handed to `sbrk` as an `intptr_t`. -/
def allocateMoreMemory (grant : Bool) (units : Int) : HeapM β Int := do
  let units := wantedUnits units
  let c ← sbrk grant (toIntptr ((units + 2) * chunkUnit))
  if c = sbrkFailed then return null
  let top ← sbrk grant 0
  modify fun s => { s with gHeapEnd := top }
  let cFooter ← writeUnits c (toInt units)
  chunkFooterSetPrevFreeChunk cFooter null
  chunkSetStatus c chunkFree
  return c

/-- The split of a chunk fresh from the system, when it is large enough: its first `units` units
    stay `c`, the rest goes to a free list. -/
def splitNewChunk (findBin : Int → β) (c : Int) (units : Int) : HeapM β Unit := do
  let cUnits := toSize (← chunkGetUnits c)
  if cUnits ≤ toSize (units + 2) then return
  let _ ← writeUnits c (toInt units)
  let c2 ← nextAdjacent c
  let _ ← writeUnits c2 (toInt (cUnits - units - 2))
  chunkSetStatus c2 chunkFree
  insertChunk findBin c2

/-- `heapmgr_malloc` from "no fit free chunk in list" on. -/
def mallocFromSystem (findBin : Int → β) (checkHeapValidity : HeapM β Bool) (grant : Bool)
    (units : Int) : HeapM β Int := do
  let c ← allocateMoreMemory grant units
  if c = null then
    assert ((← checkHeapValidity) = true)
    return null
  assert (toSize (← chunkGetUnits c) ≥ units)
  splitNewChunk findBin c units
  chunkSetStatus c chunkInUse
  assert ((← checkHeapValidity) = true)
  return c + chunkUnit

/-- "if next adjacent chunk is free, remove it from free list and merge with c" -/
def mergeWithNext (findBin : Int → β) (c next : Int) : HeapM β Int := do
  if next = null then return c
  if (← chunkGetStatus next) ≠ chunkFree then return c
  removeChunkFromList findBin next
  mergeChunk c next

/-- "if prev adjacent chunk is free, remove it from free list and merge with c" -/
def mergeWithPrev (findBin : Int → β) (c prev : Int) : HeapM β Int := do
  if prev = null then return c
  if (← chunkGetStatus prev) ≠ chunkFree then return c
  removeChunkFromList findBin prev
  mergeChunk prev c

/-- `heapmgr_free` between its two calls of `check_heap_validity`. -/
def freeChunk (findBin : Int → β) (c : Int) : HeapM β Unit := do
  let s ← get
  assert (s.gHeapStart ≤ c ∧ c < s.gHeapEnd)
  assert ((← chunkGetStatus c) ≠ chunkFree)
  let next ← nextAdjacent c
  let prev ← prevAdjacent c
  let c ← mergeWithNext findBin c next
  let c ← mergeWithPrev findBin c prev
  chunkSetStatus c chunkFree
  insertChunk findBin c

def freeWith (findBin : Int → β) (checkHeapValidity : HeapM β Bool) (m : Int) : HeapM β Unit := do
  if m = null then return
  assert ((← checkHeapValidity) = true)
  freeChunk findBin (getChunkFromDataPtr m)
  assert ((← checkHeapValidity) = true)

end Lists

end SnuSysProg.Heapmgr
