import SnuSysProg.Lib.Cells

/-
  The hash table of `hashtable.c`.

  A bucket is a chain of nodes on the heap; the key and the value of a node are strings of their
  own, copied by `strdup`. A C string is the list of its bytes before the NUL. The library calls of
  an operation may turn out in any way (`Calls`): the allocations fail or give any address that is
  not in use, the lock calls return any code.

  An operation loads the head of its bucket, takes the bucket's lock, works on the list and gives
  the lock back; the part under the lock has a name of its own (`insertSection` and so on).
  The counters are `Int`: they count live nodes, so the `size_t` additions do not wrap.
  `key_size` and `value_size` of a node are never used and left out.
-/

namespace SnuSysProg.Skvs
open SnuSysProg.Lib

abbrev Str := List UInt8

/-- `node_t`. -/
structure Node where
  key : Addr
  value : Addr
  next : Addr
  deriving DecidableEq

/-- What a cell of the heap holds. -/
inductive Cell where
  | node (n : Node)
  | str (s : Str)
  deriving DecidableEq

abbrev ListM := CellM Cell

/-- `hashtable_t`, without the locks, and the heap its nodes live in. -/
structure Table where
  heap : Cells Cell
  buckets : Nat → Addr
  bucketSizes : Nat → Int
  totalEntries : Int
  hashSize : Nat

abbrev TableM := StateT Table (Except CellFault)

/-- A list function, run on the heap of the table. -/
def onHeap {α : Type} (x : ListM α) : TableM α := fun t =>
  match x t.heap with
  | .ok (a, h) => .ok (a, { t with heap := h })
  | .error e => .error e

/-- How the library calls of one operation turn out. -/
structure Calls where
  lock : Int
  unlock : Int
  mallocNode : Allocator Cell
  strdupKey : Allocator Cell
  strdupValue : Allocator Cell

/-! ## hash -/

/-- `*key` as an `unsigned int`: `char` is signed. -/
def charToUnsigned (c : UInt8) : UInt32 := c.toInt8.toInt32.toUInt32

/-- The loop of `hash`. -/
def hashLoop (hash : UInt32) : Str → UInt32
  | [] => hash
  | c :: key => hashLoop ((hash <<< 5) + charToUnsigned c) key

/-- `hash`: the remainder is a `size_t`, the result an `int`. -/
def hash (key : Str) (hashSize : Nat) : Int :=
  Int.bmod ((hashLoop 0 key).toNat % hashSize : Nat) (2 ^ 32)

/-- `unsigned int index = hash(key, table->hash_size)`. -/
def index (key : Str) (hashSize : Nat) : Nat := (hash key hashSize % 2 ^ 32).toNat

/-- How the calls of `hash_init` turn out: whether `malloc` gives memory for the table and its
    three arrays, and what `rwlock_init` returns for each lock. -/
structure InitCalls where
  table : Bool
  buckets : Bool
  locks : Bool
  bucketSizes : Bool
  rwlockInit : Nat → Int

/-- `hash_init`, in a process that has the cells `heap`. -/
def hashInit (calls : InitCalls) (heap : Cells Cell) (hashSize : Nat) : Option Table :=
  if ¬ calls.table then none
  else if ¬ calls.buckets then none
  else if ¬ calls.locks then none
  else if ¬ calls.bucketSizes then none
  else if ∀ i < hashSize, calls.rwlockInit i = 0 then
    some
      { heap := heap
        buckets := fun _ => nullAddr
        bucketSizes := fun _ => 0
        totalEntries := 0
        hashSize := hashSize }
  else none

/-! ## The list functions -/

def loadNode (a : Addr) : ListM Node := do
  match ← readCell a with
  | .node n => return n
  | .str _ => throw .wrongKind

def loadStr (a : Addr) : ListM Str := do
  match ← readCell a with
  | .str s => return s
  | .node _ => throw .wrongKind

/-- A node as `malloc` gives it; its fields are written before they are read. -/
def mallocNode (A : Allocator Cell) : ListM Addr :=
  allocCell A (.node ⟨nullAddr, nullAddr, nullAddr⟩)

def strdup (A : Allocator Cell) (s : Str) : ListM Addr := allocCell A (.str s)

/-- No list is longer than there are cells. -/
def walkLimit : ListM Nat := return (← get).keys.card

/-- The loop of `list_search`. -/
def searchLoop (key : Str) : Nat → Addr → ListM Addr
  | 0, current => if current = nullAddr then pure nullAddr else throw .circular
  | limit + 1, current => do
    if current = nullAddr then return nullAddr
    let node ← loadNode current
    if (← loadStr node.key) = key then return current
    searchLoop key limit node.next

def listSearch (head : Addr) (key : Str) : ListM Addr := do
  searchLoop key (← walkLimit) head

/-- `list_insert`: the code it returns, and `*head`. -/
def listInsert (calls : Calls) (head : Addr) (key value : Str) : ListM (Int × Addr) := do
  if (← listSearch head key) ≠ nullAddr then return (0, head)
  let newNode ← mallocNode calls.mallocNode
  if newNode = nullAddr then return (-1, head)
  let newKey ← strdup calls.strdupKey key
  if newKey = nullAddr then
    freeCell newNode
    return (-1, head)
  let newValue ← strdup calls.strdupValue value
  if newValue = nullAddr then
    freeCell newKey
    freeCell newNode
    return (-1, head)
  writeCell newNode (.node ⟨newKey, newValue, head⟩)
  return (1, newNode)

def listUpdate (calls : Calls) (head : Addr) (key value : Str) : ListM Int := do
  let target ← listSearch head key
  if target = nullAddr then return 0
  let newValue ← strdup calls.strdupValue value
  if newValue = nullAddr then return -1
  let node ← loadNode target
  freeCell node.value
  writeCell target (.node { node with value := newValue })
  return 1

/-- The loop of `list_delete`: the code it returns, and `*head`. -/
def deleteLoop (head : Addr) (key : Str) : Nat → Addr → Addr → ListM (Int × Addr)
  | 0, _, current => if current = nullAddr then pure (0, head) else throw .circular
  | limit + 1, prev, current => do
    if current = nullAddr then return (0, head)
    let node ← loadNode current
    if (← loadStr node.key) = key then
      let head ← (do
        if prev ≠ nullAddr then
          let prevNode ← loadNode prev
          writeCell prev (.node { prevNode with next := node.next })
          return head
        else return node.next)
      freeCell node.key
      freeCell node.value
      freeCell current
      return (1, head)
    deleteLoop head key limit current node.next

def listDelete (head : Addr) (key : Str) : ListM (Int × Addr) := do
  deleteLoop head key (← walkLimit) nullAddr head

/-! ## The parts under the lock -/

/-- What an operation returns, and the value that `hash_search` found, with its address. -/
structure Outcome where
  code : Int
  found : Option Addr := none
  deriving DecidableEq

/-- The bucket's head and the counters after a successful insertion or deletion. -/
def relink (i : Nat) (head : Addr) (d : Int) : TableM Unit :=
  modify fun t => { t with
    buckets := Function.update t.buckets i head
    bucketSizes := Function.update t.bucketSizes i (t.bucketSizes i + d)
    totalEntries := t.totalEntries + d }

def insertSection (calls : Calls) (i : Nat) (head : Addr) (key value : Str) : TableM Outcome := do
  let (result, head) ← onHeap (listInsert calls head key value)
  if result = 1 then relink i head 1
  return { code := result }

/-- The caller gets a pointer to the value that is in the table. -/
def searchSection (head : Addr) (key : Str) : TableM Outcome := do
  let node ← onHeap (listSearch head key)
  if node = nullAddr then return { code := 0 }
  return { code := 1, found := some (← onHeap (loadNode node)).value }

def updateSection (calls : Calls) (head : Addr) (key value : Str) : TableM Outcome := do
  return { code := ← onHeap (listUpdate calls head key value) }

def deleteSection (i : Nat) (head : Addr) (key : Str) : TableM Outcome := do
  let (result, head) ← onHeap (listDelete head key)
  if result = 1 then relink i head (-1)
  return { code := result }

/-! ## The operations -/

inductive Op where
  | insert (key value : Str)
  | search (key : Str)
  | update (key value : Str)
  | delete (key : Str)
  deriving DecidableEq

def Op.key : Op → Str
  | .insert k _ => k
  | .search k => k
  | .update k _ => k
  | .delete k => k

/-- The part of an operation under the lock of bucket `i`, with the head it loaded before. -/
def Op.section (op : Op) (calls : Calls) (i : Nat) (head : Addr) : TableM Outcome :=
  match op with
  | .insert k v => insertSection calls i head k v
  | .search k => searchSection head k
  | .update k v => updateSection calls head k v
  | .delete k => deleteSection i head k

/-- Each operation is its part under the lock between the two lock calls. -/
def locked (calls : Calls) (op : Op) : TableM Outcome := do
  let t ← get
  let i := index op.key t.hashSize
  let head := t.buckets i
  if calls.lock = -1 then return { code := -1 }
  let result ← op.section calls i head
  if calls.unlock = -1 then return { code := -1 }
  return result

def hashInsert (calls : Calls) (key value : Str) : TableM Outcome :=
  locked calls (.insert key value)

def hashSearch (calls : Calls) (key : Str) : TableM Outcome := locked calls (.search key)

def hashUpdate (calls : Calls) (key value : Str) : TableM Outcome :=
  locked calls (.update key value)

def hashDelete (calls : Calls) (key : Str) : TableM Outcome := locked calls (.delete key)

/-- The function that carries the operation out. -/
def Op.call (calls : Calls) : Op → TableM Outcome
  | .insert key value => hashInsert calls key value
  | .search key => hashSearch calls key
  | .update key value => hashUpdate calls key value
  | .delete key => hashDelete calls key

end SnuSysProg.Skvs
