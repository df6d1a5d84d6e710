import Mathlib.Algebra.GroupWithZero.Nat
import SnuSysProg.Lib.Ownership
import SnuSysProg.Shell.Lines

/-
  The memory of a line: `dynarray.c`, `token.c`, and `shell_helper` on them.

  The blocks are those that `malloc`, `calloc` and `realloc` give: the array of tokens with the
  pointers in it, the tokens, and the values of the words (`Block`). As the program is compiled the
  assertions are not checked: an array that could not be allocated is a null pointer that is
  followed. `lex_line` is here what it adds to the array; when a token cannot be allocated it
  returns what `lexed` says (`lexLine_spec`). A line that `shell_helper` gives up leaves its array
  and its tokens behind, and no other line leaves anything (`shellHelpers_leave`).
-/

namespace SnuSysProg.Shell.Memory
open SnuSysProg.Lib

inductive TokenType where
  | pipe
  | redin
  | redout
  | word
  | bg
  deriving DecidableEq

inductive Block where
  /-- `struct DynArray`. -/
  | dynArray (iLength iPhysLength : Nat) (ppvArray : Addr)
  | pointers (elements : List Addr)
  /-- `struct Token`. -/
  | token (tokenType : TokenType) (tokenValue : Addr)
  | string (s : Str)
  deriving DecidableEq

abbrev MemM := CellM Block

def minPhysLength : Nat := 2

def growthFactor : Nat := 2

/-! ## `dynarray.c` -/

structure DynArray where
  iLength : Nat
  iPhysLength : Nat
  ppvArray : Addr

def readDynArray (oDynArray : Addr) : MemM DynArray := do
  match ← readCell oDynArray with
  | .dynArray iLength iPhysLength ppvArray => return ⟨iLength, iPhysLength, ppvArray⟩
  | _ => throw .wrongKind

def writeDynArray (oDynArray : Addr) (a : DynArray) : MemM Unit :=
  writeCell oDynArray (.dynArray a.iLength a.iPhysLength a.ppvArray)

def readPointers (ppvArray : Addr) : MemM (List Addr) := do
  match ← readCell ppvArray with
  | .pointers elements => return elements
  | _ => throw .wrongKind

def dynarrayNew (malloc calloc : Allocator Block) (iLength : Nat) : MemM Addr := do
  let oDynArray ← allocCell malloc (.dynArray 0 0 nullAddr)
  let iPhysLength := if minPhysLength < iLength then iLength else minPhysLength
  writeDynArray oDynArray ⟨iLength, iPhysLength, nullAddr⟩
  let ppvArray ← allocCell calloc (.pointers (List.replicate iPhysLength nullAddr))
  writeDynArray oDynArray ⟨iLength, iPhysLength, ppvArray⟩
  return oDynArray

def dynarrayFree (oDynArray : Addr) : MemM Unit := do
  if oDynArray = nullAddr then return
  let a ← readDynArray oDynArray
  freeCell a.ppvArray
  freeCell oDynArray

def dynarrayGetLength (oDynArray : Addr) : MemM Nat := do
  let a ← readDynArray oDynArray
  return a.iLength

/-- The element `iIndex`. Outside of the array there is no cell. -/
def dynarrayGet (oDynArray : Addr) (iIndex : Nat) : MemM Addr := do
  let a ← readDynArray oDynArray
  let elements ← readPointers a.ppvArray
  match elements[iIndex]? with
  | some element => return element
  | none => throw .dangling

/-- `dynarray_grow`. What is behind the old elements is not specified. -/
def dynarrayGrow (realloc : Allocator Block) (oDynArray : Addr) : MemM Unit := do
  let a ← readDynArray oDynArray
  let iPhysLength := a.iPhysLength * growthFactor
  let elements ← readPointers a.ppvArray
  let ppvArray ← reallocCell realloc a.ppvArray
    (.pointers (elements ++ List.replicate (iPhysLength - elements.length) nullAddr))
  writeDynArray oDynArray ⟨a.iLength, iPhysLength, ppvArray⟩

def dynarrayAdd (realloc : Allocator Block) (oDynArray element : Addr) : MemM Int := do
  let a ← readDynArray oDynArray
  if a.iLength = a.iPhysLength then dynarrayGrow realloc oDynArray
  let a ← readDynArray oDynArray
  let elements ← readPointers a.ppvArray
  if a.iLength < elements.length then
    writeCell a.ppvArray (.pointers (elements.set a.iLength element))
  else throw .dangling
  writeDynArray oDynArray { a with iLength := a.iLength + 1 }
  return 1

/-- The loop of `dynarray_map` from `i` on, with `left` elements to come. -/
def mapLoop (pfApply : Addr → MemM Unit) (oDynArray : Addr) : (left i : Nat) → MemM Unit
  | 0, _ => pure ()
  | left + 1, i => do
    pfApply (← dynarrayGet oDynArray i)
    mapLoop pfApply oDynArray left (i + 1)

/-- `dynarray_map`, for functions that leave the length as it is. -/
def dynarrayMap (pfApply : Addr → MemM Unit) (oDynArray : Addr) : MemM Unit := do
  mapLoop pfApply oDynArray (← dynarrayGetLength oDynArray) 0

/-! ## `token.c` -/

def tokenType : Token → TokenType
  | .pipe => .pipe
  | .redin => .redin
  | .redout => .redout
  | .word _ => .word
  | .bg => .bg

def tokenValue : Token → Option Str
  | .word s => some s
  | _ => none

/-- `make_one_token`, with the two calls of `malloc`. -/
def makeOneToken (malloc mallocValue : Allocator Block) (t : Token) : MemM Addr := do
  let newToken ← allocCell malloc (.token (tokenType t) nullAddr)
  if newToken = nullAddr then return nullAddr
  match tokenValue t with
  | some s =>
    let value ← allocCell mallocValue (.string s)
    if value = nullAddr then
      freeCell newToken
      return nullAddr
    writeCell newToken (.token (tokenType t) value)
  | none => writeCell newToken (.token (tokenType t) nullAddr)
  return newToken

def freeToken (psToken : Addr) : MemM Unit := do
  match ← readCell psToken with
  | .token _ value =>
    if value ≠ nullAddr then freeCell value
    freeCell psToken
  | _ => throw .wrongKind

/-! ## A line -/

/-- How the allocations for a line turn out, those for a token by the tokens before it. -/
structure Calls where
  malloc : Allocator Block
  calloc : Allocator Block
  realloc : Nat → Allocator Block
  token : Nat → Allocator Block
  value : Nat → Allocator Block

/-- `add_to_token_array`, behind `k` tokens. -/
def addToTokenArray (calls : Calls) (oTokens : Addr) (k : Nat) (t : Token) : MemM Bool := do
  let newToken ← makeOneToken (calls.token k) (calls.value k) t
  if newToken = nullAddr then return false
  return (← dynarrayAdd (calls.realloc k) oTokens newToken) ≠ 0

/-- The tokens that `lex_line` adds, one after the other, until one cannot be added. -/
def addTokens (calls : Calls) (oTokens : Addr) : Nat → List Token → MemM Bool
  | _, [] => pure true
  | k, t :: tokens => do
    if ← addToTokenArray calls oTokens k t then addTokens calls oTokens (k + 1) tokens
    else return false

/-- `lex_line`, where `cValue` is what its `c_value` holds at first. -/
def lexLine (calls : Calls) (cValue : Nat → UInt8) (inLine : Str) (oTokens : Addr) :
    MemM LexResult := do
  let result := lexed (fun _ => true) cValue inLine
  if ← addTokens calls oTokens 0 result.2 then return result.1 else return .nomem

/-- The line is one that `shell_helper` gives up: there is nothing on it, or too many background
    processes with it. -/
def givenUp (bgArrayIdx : Int) : LexResult × List Token → Bool
  | (.success, tokens) =>
    tokens.length = 0 ||
      syntaxMessage (syntaxCheck tokens) = none && checkBuiltin tokens.head? = .normal &&
        checkBg tokens && maxBgPro < bgArrayIdx + countPipe tokens + 1
  | _ => false

/-- The token at an address, as `syntax_check` and the others read it. -/
def readToken (psToken : Addr) : MemM Token := do
  match ← readCell psToken with
  | .token .pipe _ => return .pipe
  | .token .redin _ => return .redin
  | .token .redout _ => return .redout
  | .token .bg _ => return .bg
  | .token .word value =>
    match ← readCell value with
    | .string s => return .word s
    | _ => throw .wrongKind
  | _ => throw .wrongKind

def readFrom (oTokens : Addr) : (left i : Nat) → MemM (List Token)
  | 0, _ => pure []
  | left + 1, i => do
    let t ← readToken (← dynarrayGet oTokens i)
    return t :: (← readFrom oTokens left (i + 1))

/-- The tokens of an array. -/
def readTokens (oTokens : Addr) : MemM (List Token) := do
  readFrom oTokens (← dynarrayGetLength oTokens) 0

/-- What `shell_helper` does with the memory, with `bg_array_idx` as it is then; and what
    `lex_line` returned and added. The built-in `exit` gives the tokens back itself. -/
def shellHelper (calls : Calls) (cValue : Nat → UInt8) (bgArrayIdx : Int) (inLine : Str) :
    MemM (LexResult × List Token) := do
  let oTokens ← dynarrayNew calls.malloc calls.calloc 0
  let r ← lexLine calls cValue inLine oTokens
  let tokens ← readTokens oTokens
  if givenUp bgArrayIdx (r, tokens) then return (r, tokens)
  dynarrayMap freeToken oTokens
  dynarrayFree oTokens
  return (r, tokens)

variable {b b' b₀ : Cells Block} {s : List Addr} {o p element : Addr} {elements : List Addr}
  {l n : Nat} {A A' : Allocator Block}

/-- The allocation never fails. -/
def Gives (A : Allocator Block) : Prop := ∀ h, A.choose h ≠ none

/-! ## The array -/

/-- The array at `o` has these elements, and room for as many as its pointers are. -/
structure ArrayAt (b : Cells Block) (o p : Addr) (elements rest : List Addr) : Prop where
  struct : b.lookup o = some (.dynArray elements.length (elements.length + rest.length) p)
  array : b.lookup p = some (.pointers (elements ++ rest))
  room : minPhysLength ≤ elements.length + rest.length

theorem readDynArray_ok {a : DynArray}
    (h : b.lookup o = some (.dynArray a.iLength a.iPhysLength a.ppvArray)) :
    readDynArray o b = .ok (a, b) := by
  unfold readDynArray
  rw [bind_of_ok (readCell_ok h)]
  rfl

theorem readPointers_ok (h : b.lookup p = some (.pointers elements)) :
    readPointers p b = .ok (elements, b) := by
  unfold readPointers
  rw [bind_of_ok (readCell_ok h)]
  rfl

theorem ArrayAt.read {rest : List Addr} (h : ArrayAt b o p elements rest) :
    readDynArray o b = .ok (⟨elements.length, elements.length + rest.length, p⟩, b) :=
  readDynArray_ok h.struct

theorem dynarrayGetLength_ok {rest : List Addr} (h : ArrayAt b o p elements rest) :
    dynarrayGetLength o b = .ok (elements.length, b) := by
  unfold dynarrayGetLength
  rw [bind_of_ok h.read]
  rfl

theorem dynarrayGet_ok {rest : List Addr} {i : Nat} {e : Addr}
    (h : ArrayAt b o p elements rest) (hi : elements[i]? = some e) :
    dynarrayGet o i b = .ok (e, b) := by
  have hlt := (List.getElem?_eq_some_iff.mp hi).1
  unfold dynarrayGet
  rw [bind_of_ok h.read, bind_of_ok (readPointers_ok h.array),
    List.getElem?_append_left hlt, hi]
  rfl

/-- The struct of the array is written, and nothing else. -/
theorem writeDynArray_spec {t : List Addr} {a : DynArray} (howns : Owns b t b₀) (ho : o ∈ t) :
    Returns (writeDynArray o a) b fun _ b' => Owns b' t b₀ ∧
      b'.lookup o = some (.dynArray a.iLength a.iPhysLength a.ppvArray) ∧
      ∀ x, x ≠ o → b'.lookup x = b.lookup x := by
  obtain ⟨hrun, howns'⟩ := howns.write (c := .dynArray a.iLength a.iPhysLength a.ppvArray) ho
  exact Returns.intro hrun ⟨howns', Finmap.lookup_insert _, fun x hx =>
    Finmap.lookup_insert_of_ne _ hx⟩

theorem ArrayAt.agree {rest : List Addr} (h : ArrayAt b o p elements rest)
    (ho : b'.lookup o = b.lookup o) (hp : b'.lookup p = b.lookup p) :
    ArrayAt b' o p elements rest where
  struct := ho.trans h.struct
  array := hp.trans h.array
  room := h.room

theorem dynarrayNew_spec (hA : Gives A) (hA' : Gives A') (howns : Owns b s b₀) (iLength : Nat) :
    Returns (dynarrayNew A A' iLength) b fun o b' => ∃ p rest,
      ArrayAt b' o p (List.replicate iLength nullAddr) rest ∧ Owns b' (p :: o :: s) b₀ := by
  unfold dynarrayNew
  refine Returns.bind howns.allocate fun o b₁ ho => ?_
  rcases ho with ⟨-, -, hfails⟩ | ⟨-, howns₁, -, -⟩
  · exact absurd hfails (hA _)
  refine Returns.bind (writeDynArray_spec howns₁ List.mem_cons_self) fun _ b₂ ⟨howns₂, _, _⟩ => ?_
  refine Returns.bind howns₂.allocate fun p b₃ hp => ?_
  rcases hp with ⟨-, -, hfails⟩ | ⟨-, howns₃, harray, -⟩
  · exact absurd hfails (hA' _)
  have hpo : p ≠ o := fun hpo =>
    (List.nodup_cons.mp howns₃.nodup).1 (hpo ▸ List.mem_cons_self)
  refine Returns.bind (writeDynArray_spec howns₃ (List.mem_cons_of_mem p List.mem_cons_self))
    fun _ b₄ ⟨howns₄, hstruct, hother⟩ => Returns.pure ?_
  generalize hphys : (if minPhysLength < iLength then iLength else minPhysLength) = n
    at harray hstruct
  have hle : iLength ≤ n ∧ minPhysLength ≤ n := by
    by_cases hlt : minPhysLength < iLength
    · rw [if_pos hlt] at hphys
      omega
    · rw [if_neg hlt] at hphys
      omega
  refine ⟨p, List.replicate (n - iLength) nullAddr, ⟨?_, ?_, ?_⟩, howns₄⟩
  · rw [hstruct, List.length_replicate, List.length_replicate, Nat.add_sub_cancel' hle.1]
  · rw [hother p hpo, harray, List.replicate_append_replicate, Nat.add_sub_cancel' hle.1]
  · rw [List.length_replicate, List.length_replicate, Nat.add_sub_cancel' hle.1]
    exact hle.2

theorem dynarrayGrow_spec {a : DynArray} (hA : Gives A)
    (hstruct : b.lookup o = some (.dynArray a.iLength a.iPhysLength a.ppvArray))
    (harray : b.lookup a.ppvArray = some (.pointers elements))
    (howns : Owns b (a.ppvArray :: o :: s) b₀) :
    Returns (dynarrayGrow A o) b fun _ b' => ∃ p,
      b'.lookup o = some (.dynArray a.iLength (a.iPhysLength * growthFactor) p) ∧
      b'.lookup p = some (.pointers (elements ++
        List.replicate (a.iPhysLength * growthFactor - elements.length) nullAddr)) ∧
      Owns b' (p :: o :: s) b₀ ∧ AgreeAt s b b' := by
  unfold dynarrayGrow
  refine Returns.step (readDynArray_ok hstruct) ?_
  dsimp only
  refine Returns.step (readPointers_ok harray) (Returns.bind howns.realloc fun p b₁ hp => ?_)
  rcases hp with ⟨-, -, hfails⟩ | ⟨-, howns₁, harray₁, hagree₁⟩
  · exact absurd hfails (hA _)
  have hnodup := howns₁.nodup
  have hpo : p ≠ o := fun hpo => (List.nodup_cons.mp hnodup).1 (hpo ▸ List.mem_cons_self)
  have hos : o ∉ s := (List.nodup_cons.mp (List.nodup_cons.mp hnodup).2).1
  refine (writeDynArray_spec howns₁ (List.mem_cons_of_mem p List.mem_cons_self)).mono
    fun _ b' ⟨howns', hstruct', hother⟩ => ⟨p, hstruct', ?_, howns', fun x hx => ?_⟩
  · rw [hother p hpo, harray₁]
  · have hxo : x ≠ o := fun hxo => hos (hxo ▸ hx)
    rw [hother x hxo, hagree₁ x (List.mem_cons_of_mem o hx)]

/-- `dynarray_add` where there is room. -/
theorem dynarrayAdd_room {a : Addr} {rest : List Addr} (h : ArrayAt b o p elements (a :: rest))
    (howns : Owns b (p :: o :: s) b₀) (element : Addr) :
    Returns (do
      let a ← readDynArray o
      let elements ← readPointers a.ppvArray
      if a.iLength < elements.length then
        writeCell a.ppvArray (.pointers (elements.set a.iLength element))
      else throw .dangling
      writeDynArray o { a with iLength := a.iLength + 1 }
      return (1 : Int)) b fun r b' => r = 1 ∧ ArrayAt b' o p (elements ++ [element]) rest ∧
        Owns b' (p :: o :: s) b₀ ∧ AgreeAt s b b' := by
  have hset : (elements ++ a :: rest).set elements.length element =
      (elements ++ [element]) ++ rest := by
    rw [List.set_append_right _ _ (Nat.le_refl _), Nat.sub_self, List.set_cons_zero,
      List.append_assoc, List.singleton_append]
  have hlt : elements.length < (elements ++ a :: rest).length := by simp
  obtain ⟨hps, hnodup⟩ := List.nodup_cons.mp howns.nodup
  have hpo : p ≠ o := fun hpo => hps (hpo ▸ List.mem_cons_self)
  refine Returns.step h.read ?_
  dsimp only
  refine Returns.step (readPointers_ok h.array) ?_
  rw [if_pos hlt, hset]
  obtain ⟨hwrite, howns₁⟩ := howns.write
    (c := .pointers ((elements ++ [element]) ++ rest)) (List.mem_cons_self (a := p))
  refine Returns.step hwrite ?_
  refine Returns.bind (writeDynArray_spec howns₁ (List.mem_cons_of_mem p List.mem_cons_self))
    fun _ b₂ ⟨howns₂, hstruct, hother⟩ => Returns.pure ⟨rfl, ⟨?_, ?_, ?_⟩, howns₂, fun x hx => ?_⟩
  · rw [hstruct, List.length_append, List.length_singleton, List.length_cons, Nat.add_assoc,
      Nat.add_comm rest.length 1]
  · rw [hother p hpo, Finmap.lookup_insert]
  · have hroom := h.room
    rw [List.length_cons] at hroom
    rw [List.length_append, List.length_singleton]
    omega
  · have hxp : x ≠ p := fun hxp => hps (hxp ▸ List.mem_cons_of_mem o hx)
    have hxo : x ≠ o := fun hxo => (List.nodup_cons.mp hnodup).1 (hxo ▸ hx)
    rw [hother x hxo, Finmap.lookup_insert_of_ne _ hxp]

theorem dynarrayAdd_spec {rest : List Addr} (hA : Gives A) (h : ArrayAt b o p elements rest)
    (howns : Owns b (p :: o :: s) b₀) (element : Addr) :
    Returns (dynarrayAdd A o element) b fun r b' => r = 1 ∧ ∃ p' rest',
      ArrayAt b' o p' (elements ++ [element]) rest' ∧ Owns b' (p' :: o :: s) b₀ ∧
      AgreeAt s b b' := by
  unfold dynarrayAdd
  refine Returns.step h.read ?_
  cases rest with
  | cons a rest =>
    have hroom : elements.length ≠ elements.length + (a :: rest).length := by simp
    rw [if_neg hroom]
    refine (dynarrayAdd_room h howns element).mono fun r b' ⟨hr, h', howns', hagree⟩ => ?_
    exact ⟨hr, p, rest, h', howns', hagree⟩
  | nil =>
    have hfull : elements.length = elements.length + ([] : List Addr).length := rfl
    have harray : b.lookup p = some (.pointers elements) := by
      rw [h.array, List.append_nil]
    rw [if_pos hfull]
    refine Returns.bind (dynarrayGrow_spec (a := ⟨elements.length, elements.length, p⟩) hA
      h.struct harray howns) fun _ b₁ ⟨p', hstruct, harray', howns₁, hagree₁⟩ => ?_
    have hpos : 0 < elements.length := Nat.lt_of_lt_of_le (by decide) h.room
    obtain ⟨n, hn⟩ : ∃ n, elements.length * growthFactor - elements.length = n + 1 :=
      ⟨elements.length - 1, by unfold growthFactor; omega⟩
    have hphys : elements.length * growthFactor = elements.length + (n + 1) := by omega
    have hgrown : ArrayAt b₁ o p' elements (nullAddr :: List.replicate n nullAddr) := by
      refine ⟨?_, ?_, ?_⟩
      · rw [hstruct, hphys, List.length_cons, List.length_replicate]
      · rw [harray', hn, List.replicate_succ]
      · exact Nat.le_trans h.room (Nat.le_add_right _ _)
    refine (dynarrayAdd_room hgrown howns₁ element).mono fun r b' ⟨hr, h', howns', hagree⟩ => ?_
    exact ⟨hr, p', _, h', howns', hagree₁.trans hagree⟩

theorem dynarrayFree_spec {rest : List Addr} (h : ArrayAt b o p elements rest)
    (howns : Owns b (p :: o :: s) b₀) :
    Returns (dynarrayFree o) b fun _ b' => Owns b' s b₀ := by
  have hne : o ≠ nullAddr := fun h0 =>
    howns.nonnull (h0 ▸ List.mem_cons_of_mem p List.mem_cons_self)
  obtain ⟨hfree, howns₁⟩ := howns.free
  obtain ⟨hfree', howns₂⟩ := howns₁.free
  unfold dynarrayFree
  rw [if_neg hne]
  exact Returns.step h.read (Returns.step hfree (Returns.intro hfree' howns₂))

/-! ## The tokens -/

/-- A token in memory, with the string that it has. -/
structure Item where
  addr : Addr
  value : Addr
  token : Token

def Item.cells (item : Item) : List Addr :=
  match tokenValue item.token with
  | some _ => [item.value, item.addr]
  | none => [item.addr]

structure Item.At (b : Cells Block) (item : Item) : Prop where
  struct : b.lookup item.addr = some (.token (tokenType item.token) item.value)
  value : match tokenValue item.token with
    | some w => b.lookup item.value = some (.string w)
    | none => item.value = nullAddr

variable {item : Item} {items : List Item} {t : Token} {w : Str}

theorem Item.addr_mem : item.addr ∈ item.cells := by
  unfold Item.cells
  cases tokenValue item.token with
  | none => exact List.mem_cons_self
  | some w => exact List.mem_cons_of_mem _ List.mem_cons_self

theorem Item.At.agree (h : item.At b) (hagree : AgreeAt item.cells b b') : item.At b' := by
  refine ⟨(hagree _ Item.addr_mem).trans h.struct, ?_⟩
  have hvalue := h.value
  cases htoken : tokenValue item.token with
  | none =>
    rw [htoken] at hvalue
    exact hvalue
  | some w =>
    rw [htoken] at hvalue
    have hmem : item.value ∈ item.cells := by
      rw [Item.cells, htoken]
      exact List.mem_cons_self
    exact (hagree _ hmem).trans hvalue

/-- Nothing is left of a token that could not be allocated. -/
theorem makeOneToken_spec (howns : Owns b s b₀) (t : Token) :
    Returns (makeOneToken A A' t) b fun a b' =>
      (a = nullAddr ∧ Owns b' s b₀ ∧ AgreeAt s b b') ∨
        (a ≠ nullAddr ∧ ∃ value, Item.At b' ⟨a, value, t⟩ ∧
          Owns b' (Item.cells ⟨a, value, t⟩ ++ s) b₀ ∧ AgreeAt s b b') := by
  unfold makeOneToken
  refine Returns.bind howns.allocate fun a b₁ ha => ?_
  rcases ha with ⟨rfl, rfl, -⟩ | ⟨hne, howns₁, -, hagree₁⟩
  · rw [if_pos rfl]
    exact Returns.pure (Or.inl ⟨rfl, howns, fun _ _ => rfl⟩)
  rw [if_neg hne]
  have has : a ∉ s := (List.nodup_cons.mp howns₁.nodup).1
  cases htoken : tokenValue t with
  | none =>
    obtain ⟨hwrite, howns₂⟩ := howns₁.write
      (c := .token (tokenType t) nullAddr) List.mem_cons_self
    refine Returns.step hwrite (Returns.pure (Or.inr ⟨hne, nullAddr, ⟨?_, ?_⟩, ?_, ?_⟩))
    · exact Finmap.lookup_insert _
    · rw [htoken]
    · rw [Item.cells, htoken]
      exact howns₂
    · exact hagree₁.trans (AgreeAt.insert has)
  | some w =>
    refine Returns.bind howns₁.allocate fun value b₂ hvalue => ?_
    rcases hvalue with ⟨rfl, rfl, -⟩ | ⟨hvne, howns₂, hstring, hagree₂⟩
    · rw [if_pos rfl]
      obtain ⟨hfree, howns₂⟩ := howns₁.free
      exact Returns.step hfree (Returns.pure (Or.inl ⟨rfl, howns₂,
        hagree₁.trans (AgreeAt.erase has)⟩))
    · rw [if_neg hvne]
      have hva : value ≠ a := fun hva =>
        (List.nodup_cons.mp howns₂.nodup).1 (hva ▸ List.mem_cons_self)
      obtain ⟨hwrite, howns₃⟩ := howns₂.write (c := .token (tokenType t) value)
        (List.mem_cons_of_mem value (List.mem_cons_self (a := a)))
      refine Returns.step hwrite (Returns.pure (Or.inr ⟨hne, value, ⟨?_, ?_⟩, ?_, ?_⟩))
      · exact Finmap.lookup_insert _
      · rw [htoken]
        exact (Finmap.lookup_insert_of_ne _ hva).trans hstring
      · rw [Item.cells, htoken]
        exact howns₃
      · have hagree₂' : AgreeAt s b₁ b₂ := fun x hx => hagree₂ x (List.mem_cons_of_mem a hx)
        exact hagree₁.trans (hagree₂'.trans (AgreeAt.insert has))

theorem freeToken_spec (h : item.At b) (howns : Owns b (item.cells ++ s) b₀) :
    Returns (freeToken item.addr) b fun _ b' => Owns b' s b₀ ∧ AgreeAt s b b' := by
  have hvalue := h.value
  unfold Item.cells at howns
  unfold freeToken
  refine Returns.step (readCell_ok h.struct) ?_
  dsimp only
  cases htoken : tokenValue item.token with
  | none =>
    rw [htoken] at howns hvalue
    have hnull : item.value = nullAddr := hvalue
    obtain ⟨hfree, howns'⟩ := howns.free
    rw [if_neg (not_not.mpr hnull)]
    exact Returns.intro hfree ⟨howns', AgreeAt.erase (List.nodup_cons.mp howns.nodup).1⟩
  | some w =>
    rw [htoken] at howns hvalue
    have hne : item.value ≠ nullAddr := fun h0 => howns.nonnull (h0 ▸ List.mem_cons_self)
    obtain ⟨hfree, howns₁⟩ := howns.free
    obtain ⟨hfree', howns₂⟩ := howns₁.free
    obtain ⟨hvs, hnodup⟩ := List.nodup_cons.mp howns.nodup
    have hvalue' : item.value ∉ s := fun hs => hvs (List.mem_cons_of_mem item.addr hs)
    rw [if_pos hne]
    refine Returns.step hfree (Returns.intro hfree' ⟨howns₂, ?_⟩)
    exact (AgreeAt.erase hvalue').trans (AgreeAt.erase (List.nodup_cons.mp hnodup).1)

theorem readToken_ok (h : item.At b) : readToken item.addr b = .ok (item.token, b) := by
  have hstruct := h.struct
  have hvalue := h.value
  unfold readToken
  rw [bind_of_ok (readCell_ok hstruct)]
  cases htoken : item.token with
  | word w =>
    rw [htoken] at hvalue
    exact bind_of_ok (readCell_ok hvalue)
  | _ => rfl

/-! ## The tokens of a line -/

/-- The array at `o` has these tokens, and with them it is all that there is beyond `b₀`. -/
structure Holds (b b₀ : Cells Block) (o : Addr) (items : List Item) : Prop where
  array : ∃ p rest, ArrayAt b o p (items.map Item.addr) rest ∧
    Owns b (p :: o :: items.flatMap Item.cells) b₀
  tokens : ∀ item ∈ items, item.At b

variable {calls : Calls} {k : Nat}

theorem Item.cells_subset (h : item ∈ items) : ∀ x ∈ item.cells, x ∈ items.flatMap Item.cells :=
  fun _ hx => List.mem_flatMap.mpr ⟨item, h, hx⟩

/-- A token is added, or could not be allocated. -/
theorem addToTokenArray_spec (hrealloc : Gives (calls.realloc k)) (h : Holds b b₀ o items)
    (t : Token) : Returns (addToTokenArray calls o k t) b fun r b' =>
      (r = false ∧ Holds b' b₀ o items) ∨
        (r = true ∧ ∃ item, item.token = t ∧ Holds b' b₀ o (items ++ [item])) := by
  obtain ⟨p, rest, harray, howns⟩ := h.array
  have hp : p ∈ p :: o :: items.flatMap Item.cells := List.mem_cons_self
  have ho : o ∈ p :: o :: items.flatMap Item.cells := List.mem_cons_of_mem p List.mem_cons_self
  have hcells : ∀ item ∈ items, ∀ x ∈ item.cells, x ∈ p :: o :: items.flatMap Item.cells :=
    fun item hitem x hx =>
      List.mem_cons_of_mem p (List.mem_cons_of_mem o (Item.cells_subset hitem x hx))
  unfold addToTokenArray
  refine Returns.bind (makeOneToken_spec howns t) fun a b₁ ha => ?_
  rcases ha with ⟨rfl, howns₁, hagree₁⟩ | ⟨hne, value, hat, howns₁, hagree₁⟩
  · rw [if_pos rfl]
    refine Returns.pure (Or.inl ⟨rfl, ⟨p, rest, harray.agree (hagree₁ o ho) (hagree₁ p hp),
      howns₁⟩, fun item hitem => ?_⟩)
    exact (h.tokens item hitem).agree fun x hx => hagree₁ x (hcells item hitem x hx)
  · rw [if_neg hne]
    have hperm : (Item.cells ⟨a, value, t⟩ ++ p :: o :: items.flatMap Item.cells).Perm
        (p :: o :: (items ++ [(⟨a, value, t⟩ : Item)]).flatMap Item.cells) := by
      rw [List.flatMap_append, List.flatMap_singleton]
      exact List.perm_append_comm
    refine Returns.bind (dynarrayAdd_spec hrealloc
      (harray.agree (hagree₁ o ho) (hagree₁ p hp)) (howns₁.perm hperm) a)
      fun r b₂ ⟨hr, p', rest', harray', howns₂, hagree₂⟩ => Returns.pure (Or.inr ⟨?_, ?_⟩)
    · rw [hr]
      rfl
    · refine ⟨⟨a, value, t⟩, rfl, ⟨p', rest', ?_, howns₂⟩, fun item hitem => ?_⟩
      · rw [List.map_append, List.map_singleton]
        exact harray'
      · have hnow : item.At b₁ := by
          rcases List.mem_append.mp hitem with hitem | hitem
          · exact (h.tokens item hitem).agree fun x hx => hagree₁ x (hcells item hitem x hx)
          · rw [List.mem_singleton.mp hitem]
            exact hat
        exact hnow.agree fun x hx => hagree₂ x (Item.cells_subset hitem x hx)

/-- The tokens are added up to one that could not be allocated. -/
theorem addTokens_spec (hrealloc : ∀ k, Gives (calls.realloc k)) (tokens : List Token)
    (h : Holds b b₀ o items) : Returns (addTokens calls o k tokens) b fun r b' =>
      ∃ more, Holds b' b₀ o (items ++ more) ∧
        ((r = true ∧ more.map Item.token = tokens) ∨
          (r = false ∧ more.length < tokens.length ∧
            more.map Item.token = tokens.take more.length)) := by
  induction tokens generalizing b items k with
  | nil =>
    refine Returns.pure ⟨[], ?_, Or.inl ⟨rfl, rfl⟩⟩
    rwa [List.append_nil]
  | cons t tokens ih =>
    rw [addTokens]
    refine Returns.bind (addToTokenArray_spec (hrealloc k) h t) fun r b₁ hadd => ?_
    rcases hadd with ⟨rfl, h₁⟩ | ⟨rfl, item, rfl, h₁⟩
    · refine Returns.pure ⟨[], ?_, Or.inr ⟨rfl, Nat.succ_pos _, rfl⟩⟩
      rwa [List.append_nil]
    · refine (ih h₁).mono fun r b₂ ⟨more, h₂, hmore⟩ => ⟨item :: more, ?_, ?_⟩
      · rwa [List.append_assoc, List.singleton_append] at h₂
      · rcases hmore with ⟨hr, hmap⟩ | ⟨hr, hlt, hmap⟩
        · exact Or.inl ⟨hr, congrArg (item.token :: ·) hmap⟩
        · exact Or.inr ⟨hr, Nat.succ_lt_succ hlt, congrArg (item.token :: ·) hmap⟩

theorem outcome_all {r : LexResult} {tokens : List Token} (h : tokens.length ≤ n) :
    outcome (fun k => decide (k < n)) r tokens = (r, tokens) := by
  have hnone : firstFailure (fun k => decide (k < n)) 0 tokens.length = none :=
    firstFailure_none fun k hk => decide_eq_true (Nat.lt_of_lt_of_le hk h)
  rw [outcome, hnone]

theorem outcome_cut {r : LexResult} {tokens : List Token} (h : n < tokens.length) :
    outcome (fun k => decide (k < n)) r tokens = (.nomem, tokens.take n) := by
  have hbefore : firstFailure (fun k => decide (k < n)) 0 n = none :=
    firstFailure_none fun k hk => decide_eq_true hk
  have hfirst : firstFailure (fun k => decide (k < n)) 0 tokens.length = some n := by
    rw [firstFailure_trans (Nat.zero_le n) (Nat.le_of_lt h), hbefore, Option.none_or,
      firstFailure_trans (Nat.le_succ n) h, firstFailure_succ, if_neg (by simp), Option.some_or]
  rw [outcome, hfirst]

/-- `lex_line` on the memory returns what `lexed` says, when `n` tokens can be allocated. -/
theorem lexLine_spec (hrealloc : ∀ k, Gives (calls.realloc k)) (cValue : Nat → UInt8)
    (inLine : Str) (h : Holds b b₀ o []) :
    Returns (lexLine calls cValue inLine o) b fun r b' => ∃ items n, Holds b' b₀ o items ∧
      (r, items.map Item.token) = lexed (fun k => decide (k < n)) cValue inLine := by
  unfold lexLine
  refine Returns.bind (addTokens_spec hrealloc _ h) fun r b₁ ⟨items, h₁, hitems⟩ => ?_
  rw [List.nil_append] at h₁
  rcases hitems with ⟨rfl, hmap⟩ | ⟨rfl, hlt, hmap⟩
  · refine Returns.pure ⟨items, items.length, h₁, ?_⟩
    have hlen := congrArg List.length hmap
    rw [List.length_map] at hlen
    rw [lexed_outcome fun k => decide (k < items.length), outcome_all (Nat.le_of_eq hlen.symm),
      hmap]
  · refine Returns.pure ⟨items, items.length, h₁, ?_⟩
    rw [lexed_outcome fun k => decide (k < items.length), outcome_cut hlt, hmap]

theorem readFrom_ok {rest : List Addr} (harray : ArrayAt b o p elements rest) {more : List Item}
    {i : Nat} (hdrop : elements.drop i = more.map Item.addr) (hmore : ∀ item ∈ more, item.At b) :
    readFrom o more.length i b = .ok (more.map Item.token, b) := by
  induction more generalizing i with
  | nil => rfl
  | cons item more ih =>
    have hget : elements[i]? = some item.addr := by
      rw [← List.head?_drop, hdrop, List.map_cons, List.head?_cons]
    have hnext : elements.drop (i + 1) = more.map Item.addr := by
      rw [← List.tail_drop, hdrop, List.map_cons, List.tail_cons]
    rw [List.length_cons, readFrom, bind_of_ok (dynarrayGet_ok harray hget),
      bind_of_ok (readToken_ok (hmore item List.mem_cons_self)),
      bind_of_ok (ih hnext fun x hx => hmore x (List.mem_cons_of_mem _ hx))]
    rfl

theorem readTokens_ok (h : Holds b b₀ o items) :
    readTokens o b = .ok (items.map Item.token, b) := by
  obtain ⟨p, rest, harray, -⟩ := h.array
  unfold readTokens
  rw [bind_of_ok (dynarrayGetLength_ok harray), List.length_map]
  exact readFrom_ok harray rfl h.tokens

/-! ## What a line leaves behind -/

/-- The tokens from `i` on are given back; the array still points to them. -/
theorem mapLoop_free {rest : List Addr} {more : List Item} {i : Nat}
    (harray : ArrayAt b o p elements rest) (hdrop : elements.drop i = more.map Item.addr)
    (howns : Owns b (more.flatMap Item.cells ++ [p, o]) b₀) (hmore : ∀ item ∈ more, item.At b) :
    Returns (mapLoop freeToken o more.length i) b fun _ b' =>
      ArrayAt b' o p elements rest ∧ Owns b' [p, o] b₀ := by
  induction more generalizing b i with
  | nil => exact Returns.pure ⟨harray, howns⟩
  | cons item more ih =>
    have hget : elements[i]? = some item.addr := by
      rw [← List.head?_drop, hdrop, List.map_cons, List.head?_cons]
    have hnext : elements.drop (i + 1) = more.map Item.addr := by
      rw [← List.tail_drop, hdrop, List.map_cons, List.tail_cons]
    rw [List.flatMap_cons, List.append_assoc] at howns
    rw [List.length_cons, mapLoop]
    refine Returns.step (dynarrayGet_ok harray hget) ?_
    refine Returns.bind (freeToken_spec (hmore item List.mem_cons_self) howns)
      fun _ b₁ ⟨howns₁, hagree⟩ => ?_
    have hkeep : ∀ x ∈ [p, o], b₁.lookup x = b.lookup x :=
      fun x hx => hagree x (List.mem_append_right _ hx)
    refine ih (harray.agree (hkeep o (by simp)) (hkeep p (by simp))) hnext howns₁ fun x hx => ?_
    exact (hmore x (List.mem_cons_of_mem _ hx)).agree fun y hy =>
      hagree y (List.mem_append_left _ (Item.cells_subset hx y hy))

theorem Holds.give_back (h : Holds b b₀ o items) :
    Returns (do
      dynarrayMap freeToken o
      dynarrayFree o) b fun _ b' => b' = b₀ := by
  obtain ⟨p, rest, harray, howns⟩ := h.array
  have hperm : (p :: o :: items.flatMap Item.cells).Perm (items.flatMap Item.cells ++ [p, o]) :=
    @List.perm_append_comm _ [p, o] _
  have hloop := mapLoop_free (i := 0) harray rfl (howns.perm hperm) h.tokens
  refine Returns.bind (Q := fun _ b' => ArrayAt b' o p (items.map Item.addr) rest ∧
    Owns b' [p, o] b₀) ?_ fun _ b₁ ⟨harray₁, howns₁⟩ => ?_
  · unfold dynarrayMap
    refine Returns.step (dynarrayGetLength_ok harray) ?_
    rwa [List.length_map]
  · exact (dynarrayFree_spec harray₁ howns₁).mono fun _ b' howns' => howns'.eq

/-- How many blocks a token is. -/
def tokenBlocks (t : Token) : Nat :=
  match tokenValue t with
  | some _ => 2
  | none => 1

theorem length_cells (items : List Item) :
    (items.flatMap Item.cells).length = ((items.map Item.token).map tokenBlocks).sum := by
  induction items with
  | nil => rfl
  | cons item items ih =>
    have hitem : item.cells.length = tokenBlocks item.token := by
      unfold Item.cells tokenBlocks
      cases tokenValue item.token <;> rfl
    rw [List.flatMap_cons, List.length_append, ih, hitem, List.map_cons, List.map_cons,
      List.sum_cons]

/-- How many blocks the line leaves behind: the array and its tokens, if it is given up. -/
def leftBehind (bgArrayIdx : Int) (result : LexResult × List Token) : Nat :=
  if givenUp bgArrayIdx result then 2 + (result.2.map tokenBlocks).sum else 0

/-- At these addresses are an array of tokens, and the tokens. -/
def TokensAt (b : Cells Block) (tokens : List Token) (s : List Addr) : Prop :=
  ∃ (o p : Addr) (rest : List Addr) (items : List Item),
    s = p :: o :: items.flatMap Item.cells ∧
    ArrayAt b o p (items.map Item.addr) rest ∧ (∀ item ∈ items, item.At b) ∧
    items.map Item.token = tokens

theorem TokensAt.agree {tokens : List Token} (h : TokensAt b tokens s) (hagree : AgreeAt s b b') :
    TokensAt b' tokens s := by
  obtain ⟨o, p, rest, items, rfl, harray, hitems, htokens⟩ := h
  refine ⟨o, p, rest, items, rfl, harray.agree (hagree o (by simp)) (hagree p (by simp)),
    fun item hitem => (hitems item hitem).agree fun x hx => hagree x ?_, htokens⟩
  exact List.mem_cons_of_mem p (List.mem_cons_of_mem o (Item.cells_subset hitem x hx))

/-- The blocks that the line leaves behind: the array and its tokens, if it is given up. -/
def Leaves (b : Cells Block) (bgArrayIdx : Int) (result : LexResult × List Token)
    (s : List Addr) : Prop :=
  if givenUp bgArrayIdx result then TokensAt b result.2 s else s = []

variable {bgArrayIdx : Int} {result : LexResult × List Token}

theorem Leaves.agree (h : Leaves b bgArrayIdx result s) (hagree : AgreeAt s b b') :
    Leaves b' bgArrayIdx result s := by
  unfold Leaves at h ⊢
  split
  · rename_i hup
    rw [if_pos hup] at h
    exact h.agree hagree
  · rename_i hkept
    rwa [if_neg hkept] at h

theorem Leaves.length (h : Leaves b bgArrayIdx result s) :
    s.length = leftBehind bgArrayIdx result := by
  unfold Leaves at h
  unfold leftBehind
  split at h
  · rename_i hup
    obtain ⟨o, p, rest, items, rfl, -, -, htokens⟩ := h
    rw [if_pos hup, List.length_cons, List.length_cons, length_cells, htokens, Nat.add_comm 2]
  · rename_i hkept
    rw [if_neg hkept, h]
    rfl

/-- The allocations for the array of tokens never fail; those for the tokens may. -/
structure Calls.ArrayGiven (calls : Calls) : Prop where
  malloc : Gives calls.malloc
  calloc : Gives calls.calloc
  realloc : ∀ k, Gives (calls.realloc k)

theorem shellHelper_spec (hcalls : calls.ArrayGiven) (cValue : Nat → UInt8) (bgArrayIdx : Int)
    (inLine : Str) (h : Cells Block) :
    Returns (shellHelper calls cValue bgArrayIdx inLine) h fun result h' => ∃ n leaked,
      result = lexed (fun k => decide (k < n)) cValue inLine ∧ Owns h' leaked h ∧
      Leaves h' bgArrayIdx result leaked := by
  unfold shellHelper
  refine Returns.bind (dynarrayNew_spec hcalls.malloc hcalls.calloc (Owns.refl h) 0)
    fun o b₁ ⟨p, rest, harray, howns⟩ => ?_
  have hempty : Holds b₁ h o [] :=
    ⟨⟨p, rest, harray, howns⟩, fun _ hitem => absurd hitem List.not_mem_nil⟩
  refine Returns.bind (lexLine_spec hcalls.realloc cValue inLine hempty)
    fun r b₂ ⟨items, n, hholds, hlexed⟩ => ?_
  refine Returns.step (readTokens_ok hholds) ?_
  by_cases hup : givenUp bgArrayIdx (r, items.map Item.token) = true
  · rw [if_pos hup]
    obtain ⟨p', rest', harray', howns'⟩ := hholds.array
    refine Returns.pure ⟨n, _, hlexed, howns', ?_⟩
    rw [Leaves, if_pos hup]
    exact ⟨o, p', rest', items, rfl, harray', hholds.tokens, rfl⟩
  · rw [if_neg hup]
    refine Returns.group (Returns.bind hholds.give_back fun _ b₃ hback => Returns.pure ?_)
    refine ⟨n, [], hlexed, hback ▸ Owns.refl h, ?_⟩
    rw [Leaves, if_neg hup]

/-! ## One line after the other -/

/-- A line of `main`: how the allocations for it turn out, what `c_value` holds at first, and
    `bg_array_idx` when it is read. -/
structure Line where
  calls : Calls
  cValue : Nat → UInt8
  bgArrayIdx : Int
  inLine : Str

def shellHelpers : List Line → MemM (List (LexResult × List Token))
  | [] => pure []
  | line :: lines => do
    let result ← shellHelper line.calls line.cValue line.bgArrayIdx line.inLine
    return result :: (← shellHelpers lines)

/-- The result is that of the lexer, if the first so many tokens can be allocated. -/
def Line.Reads (line : Line) (result : LexResult × List Token) : Prop :=
  ∃ n, result = lexed (fun k => decide (k < n)) line.cValue line.inLine

/-- How many blocks the lines leave behind. -/
def leftBehindAll (lines : List Line) (results : List (LexResult × List Token)) : Nat :=
  (List.zipWith (fun line => leftBehind line.bgArrayIdx) lines results).sum

/-- The blocks that each of the lines leaves behind. -/
def LeaveAll (b : Cells Block) (lines : List Line) (results : List (LexResult × List Token))
    (leaked : List (List Addr)) : Prop :=
  List.Forall₂ (fun x s => Leaves b x.1.bgArrayIdx x.2 s) (lines.zip results) leaked

theorem LeaveAll.length {lines : List Line} {results : List (LexResult × List Token)}
    {leaked : List (List Addr)} (h : LeaveAll b lines results leaked) :
    leaked.flatten.length = leftBehindAll lines results := by
  have hzip : leftBehindAll lines results =
      ((lines.zip results).map fun x => leftBehind x.1.bgArrayIdx x.2).sum := by
    unfold leftBehindAll
    rw [List.zip, List.map_zipWith]
  rw [hzip]
  unfold LeaveAll at h
  generalize lines.zip results = xs at h ⊢
  induction h with
  | nil => rfl
  | cons hfirst _ ih =>
    rw [List.flatten_cons, List.length_append, hfirst.length, ih, List.map_cons, List.sum_cons]

theorem shellHelpers_spec {lines : List Line} (hcalls : ∀ line ∈ lines, line.calls.ArrayGiven)
    (h : Cells Block) :
    Returns (shellHelpers lines) h fun results h' => List.Forall₂ Line.Reads lines results ∧
      ∃ leaked, Owns h' leaked.flatten h ∧ LeaveAll h' lines results leaked := by
  induction lines generalizing h with
  | nil => exact Returns.pure ⟨.nil, [], Owns.refl h, .nil⟩
  | cons line lines ih =>
    rw [shellHelpers]
    refine Returns.bind (shellHelper_spec (hcalls line List.mem_cons_self) line.cValue
      line.bgArrayIdx line.inLine h) fun result h₁ ⟨n, leaked₁, hresult, howns₁, hleaves₁⟩ => ?_
    refine Returns.bind (ih (fun x hx => hcalls x (List.mem_cons_of_mem _ hx)) h₁)
      fun results h₂ ⟨hreads, leaked₂, howns₂, hleaves₂⟩ => Returns.pure ?_
    -- the lines after this one do not touch what it has left
    have hkept : AgreeAt leaked₁ h₁ h₂ := fun x hx =>
      howns₂.rest x fun hmem => howns₂.new x hmem (howns₁.live x hx)
    exact ⟨.cons ⟨n, hresult⟩ hreads, leaked₁ :: leaked₂,
      (howns₂.trans howns₁).perm List.perm_append_comm, .cons (hleaves₁.agree hkept) hleaves₂⟩

theorem leftBehind_eq_zero {bgArrayIdx : Int} {result : LexResult × List Token} :
    leftBehind bgArrayIdx result = 0 ↔ givenUp bgArrayIdx result = false := by
  unfold leftBehind
  cases givenUp bgArrayIdx result with
  | false => exact iff_of_true (if_neg Bool.false_ne_true) rfl
  | true =>
    rw [if_pos rfl]
    exact iff_of_false (by omega) (by simp)

theorem leftBehindAll_eq_zero {lines : List Line} {results : List (LexResult × List Token)} :
    leftBehindAll lines results = 0 ↔
      ∀ x ∈ lines.zip results, givenUp x.1.bgArrayIdx x.2 = false := by
  induction lines generalizing results with
  | nil => simp [leftBehindAll]
  | cons line lines ih =>
    cases results with
    | nil => simp [leftBehindAll]
    | cons result results =>
      rw [leftBehindAll, List.zipWith_cons_cons, List.sum_cons, Nat.add_eq_zero_iff,
        leftBehind_eq_zero, ← leftBehindAll, ih, List.zip_cons_cons, List.forall_mem_cons]

/-- **The memory of the lines.** `shell_helper` follows no pointer to a block that is not there and
    frees none twice, whatever tokens could be allocated; what is left behind after the lines is
    the array and the tokens of those that were given up, and the heap is what it was if there was
    none. -/
theorem shellHelpers_leave {lines : List Line} (hcalls : ∀ line ∈ lines, line.calls.ArrayGiven)
    (h : Cells Block) :
    ∃ results leaked h', shellHelpers lines h = .ok (results, h') ∧
      List.Forall₂ Line.Reads lines results ∧ Owns h' leaked.flatten h ∧
      LeaveAll h' lines results leaked ∧ leaked.flatten.length = leftBehindAll lines results ∧
      (h' = h ↔ ∀ x ∈ lines.zip results, givenUp x.1.bgArrayIdx x.2 = false) := by
  obtain ⟨results, h', hrun, hreads, leaked, howns, hleaves⟩ := shellHelpers_spec hcalls h
  refine ⟨results, leaked, h', hrun, hreads, howns, hleaves, hleaves.length, ?_⟩
  rw [← leftBehindAll_eq_zero, ← hleaves.length, List.length_eq_zero_iff]
  refine ⟨fun heq => List.eq_nil_iff_forall_not_mem.mpr fun a ha => ?_, ?_⟩
  · exact howns.new a ha (heq ▸ howns.live a ha)
  · intro hnone
    rw [hnone] at howns
    exact howns.eq

/-- The calls with an allocator that never fails. -/
def givingCalls : Calls := ⟨bump, bump, fun _ => bump, fun _ => bump, fun _ => bump⟩

/-- An empty line, and a quote that is not closed: the first leaves its array behind. -/
theorem shellHelpers_leave_blank : ∃ results a a' h', shellHelpers
    [⟨givingCalls, fun _ => 0, 0, [newlineChar]⟩,
      ⟨givingCalls, fun _ => 0, 0, [97, pipeChar, dquoteChar, newlineChar]⟩] ∅ =
      .ok (results, h') ∧ Owns h' [a, a'] ∅ := by
  have hbump : Gives bump := fun _ hnone => Option.some_ne_none _ hnone
  have hgiven : givingCalls.ArrayGiven := ⟨hbump, hbump, fun _ => hbump⟩
  have hblank : lexed (fun _ => true) (fun _ => 0) [newlineChar] = (.success, []) := by decide
  have hquote : lexed (fun _ => true) (fun _ => 0) [97, pipeChar, dquoteChar, newlineChar] =
      (.qerror, [.word [97], .pipe]) := by decide
  have hall : ∀ line ∈ [(⟨givingCalls, fun _ => 0, 0, [newlineChar]⟩ : Line),
      ⟨givingCalls, fun _ => 0, 0, [97, pipeChar, dquoteChar, newlineChar]⟩],
      line.calls.ArrayGiven :=
    List.forall_mem_cons.mpr ⟨hgiven, List.forall_mem_singleton.mpr hgiven⟩
  obtain ⟨results, leaked, h', hrun, hreads, howns, -, hlen, -⟩ := shellHelpers_leave hall ∅
  cases hreads with
  | @cons _ result _ results hfirst hrest =>
    cases hrest with
    | @cons _ result' _ _ hsecond hnil =>
      cases hnil with
      | nil =>
        obtain ⟨n, hfirst⟩ := hfirst
        obtain ⟨n', hsecond⟩ := hsecond
        rw [lexed_outcome, hblank] at hfirst
        rw [lexed_outcome, hquote] at hsecond
        have hleft : leftBehind 0 result = 2 := by rw [hfirst]; rfl
        have hleft' : leftBehind 0 result' = 0 := by
          rw [hsecond, outcome]
          cases firstFailure _ 0 _ <;> rfl
        have htwo : leaked.flatten.length = 2 := by
          rw [hlen]
          change leftBehind 0 result + (leftBehind 0 result' + 0) = 2
          rw [hleft, hleft']
        obtain ⟨a, a', hleaked⟩ := List.length_eq_two.mp htwo
        exact ⟨_, a, a', h', hrun, hleaked ▸ howns⟩

end SnuSysProg.Shell.Memory
