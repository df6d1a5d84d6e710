import SnuSysProg.Lib.Ownership
import SnuSysProg.Skvs.Heads

/-
  The memory of the hash table, from `hash_init` to `hash_destroy`.

  `hash_init` allocates the table, its three arrays and the ring of each lock (`Block`); the nodes
  and their strings are the cells of `Hashtable`. Between the two calls the table owns the cells of
  its chains and no others (`Owned`), whatever the allocations of the operations give.

  `hash_destroy_gives_back`: after any operations `hash_destroy` leaves the memory as it was before
  `hash_init`, or stops at the first lock that it cannot destroy, with the buckets behind it and the
  arrays still there. `hash_init_gives_back`: a `hash_init` that fails gives everything back too,
  but for the ring of the lock whose pthread initialiser failed. `hashInit_agrees`: it fails when
  the `hash_init` of `Hashtable` does.
-/

namespace SnuSysProg.Skvs.Lifetime
open SnuSysProg.Lib

/-! ## The blocks -/

/-- What `hash_init` and `rwlock_init` allocate. -/
inductive Block where
  | table
  | buckets
  | locks
  | bucketSizes
  | writerRing
  deriving DecidableEq

abbrev BlockM := CellM Block

/-- What the calls for the mutex and the two condition variables of a lock return, be it the three
    `_init` or the three `_destroy`. -/
structure PthreadCalls where
  mutex : Int
  readers : Int
  writers : Int

def PthreadCalls.Succeed (calls : PthreadCalls) : Prop :=
  calls.mutex = 0 ∧ calls.readers = 0 ∧ calls.writers = 0

/-- `rwlock_init` with `writer_ring` as it is before: the code it returns, and `writer_ring`. -/
def rwlockInit (calloc : Allocator Block) (init : PthreadCalls) (writerRing : Addr) :
    BlockM (Int × Addr) := do
  if writerRing ≠ nullAddr then freeCell writerRing
  let writerRing ← allocCell calloc .writerRing
  if writerRing = nullAddr then return (-1, writerRing)
  if init.mutex ≠ 0 then return (-1, writerRing)
  if init.readers ≠ 0 then return (-1, writerRing)
  if init.writers ≠ 0 then return (-1, writerRing)
  return (0, writerRing)

def rwlockDestroy (destroy : PthreadCalls) (writerRing : Addr) : BlockM Int := do
  if destroy.mutex ≠ 0 then return -1
  if destroy.readers ≠ 0 then return -1
  if destroy.writers ≠ 0 then return -1
  if writerRing ≠ nullAddr then freeCell writerRing
  return 0

/-- How the calls of `hash_init` turn out, and what `writer_ring` is in the array of locks as
    `malloc` gives it. -/
structure InitCalls where
  table : Allocator Block
  buckets : Allocator Block
  locks : Allocator Block
  bucketSizes : Allocator Block
  calloc : Nat → Allocator Block
  init : Nat → PthreadCalls
  destroy : Nat → PthreadCalls
  garbage : Nat → Addr

/-- The blocks of a table. -/
structure Blocks where
  table : Addr
  buckets : Addr
  locks : Addr
  bucketSizes : Addr
  writerRing : Nat → Addr

/-- The loop over `j` in `hash_init`, from `j` on. -/
def destroyLocks (calls : InitCalls) (writerRing : Nat → Addr) : (left j : Nat) → BlockM Unit
  | 0, _ => return
  | left + 1, j => do
    let _ ← rwlockDestroy (calls.destroy j) (writerRing j)
    destroyLocks calls writerRing left (j + 1)

/-- The loop over `i` in `hash_init`, from `i` on: the rings, or nothing when a lock failed. -/
def initLocks (calls : InitCalls) (writerRing : Nat → Addr) :
    (left i : Nat) → BlockM (Option (Nat → Addr))
  | 0, _ => return some writerRing
  | left + 1, i => do
    let (ret, ring) ← rwlockInit (calls.calloc i) (calls.init i) (writerRing i)
    if ret ≠ 0 then
      destroyLocks calls writerRing i 0
      return none
    initLocks calls (Function.update writerRing i ring) left (i + 1)

/-- `hash_init`, as far as its blocks go. -/
def hashInit (calls : InitCalls) (hashSize : Nat) : BlockM (Option Blocks) := do
  let table ← allocCell calls.table .table
  if table = nullAddr then return none
  let buckets ← allocCell calls.buckets .buckets
  if buckets = nullAddr then
    freeCell table
    return none
  let locks ← allocCell calls.locks .locks
  if locks = nullAddr then
    freeCell buckets
    freeCell table
    return none
  let bucketSizes ← allocCell calls.bucketSizes .bucketSizes
  if bucketSizes = nullAddr then
    freeCell buckets
    freeCell locks
    freeCell table
    return none
  match ← initLocks calls calls.garbage hashSize 0 with
  | none => do
    freeCell buckets
    freeCell locks
    freeCell bucketSizes
    freeCell table
    return none
  | some writerRing => return some ⟨table, buckets, locks, bucketSizes, writerRing⟩

/-! ## hash_destroy -/

/-- The nodes and strings, and the blocks. -/
structure Store where
  cells : Cells Cell
  blocks : Cells Block

abbrev StoreM := StateT Store (Except CellFault)

def onCells {α : Type} (x : ListM α) : StoreM α := fun s =>
  match x s.cells with
  | .ok (a, h) => .ok (a, { s with cells := h })
  | .error e => .error e

def onBlocks {α : Type} (x : BlockM α) : StoreM α := fun s =>
  match x s.blocks with
  | .ok (a, b) => .ok (a, { s with blocks := b })
  | .error e => .error e

/-- The loop over the nodes of a bucket. -/
def destroyNodes : Nat → Addr → ListM Unit
  | 0, node => if node = nullAddr then pure () else throw .circular
  | limit + 1, node => do
    if node = nullAddr then return
    let tmp ← loadNode node
    freeCell tmp.key
    freeCell tmp.value
    freeCell node
    destroyNodes limit tmp.next

/-- The loop over the buckets, from bucket `i` on. -/
def destroyBuckets (destroy : Nat → PthreadCalls) (buckets writerRing : Nat → Addr) :
    (left i : Nat) → StoreM Int
  | 0, _ => return 0
  | left + 1, i => do
    onCells (do destroyNodes (← walkLimit) (buckets i))
    if (← onBlocks (rwlockDestroy (destroy i) (writerRing i))) ≠ 0 then return -1
    destroyBuckets destroy buckets writerRing left (i + 1)

def hashDestroy (destroy : Nat → PthreadCalls) (t : Table) (b : Blocks) : StoreM Int := do
  if (← destroyBuckets destroy t.buckets b.writerRing t.hashSize 0) = -1 then return -1
  onBlocks (do
    freeCell b.buckets
    freeCell b.locks
    freeCell b.bucketSizes
    freeCell b.table
    return 0)

/-! ## hash_init -/

section Init

variable {calls : InitCalls} {b b₀ : Cells Block} {s : List Addr} {calloc : Allocator Block}
  {pthread : PthreadCalls} {ring : Addr} {writerRing : Nat → Addr} {left i j n : Nat}

theorem rwlockInit_spec (h : Owns b s b₀) :
    Returns (rwlockInit calloc pthread nullAddr) b fun r b' =>
      (r.1 = -1 ∧ Owns b' s b₀) ∨ (r.1 = -1 ∧ ¬ pthread.Succeed ∧ Owns b' (r.2 :: s) b₀) ∨
        (r.1 = 0 ∧ Owns b' (r.2 :: s) b₀) := by
  unfold rwlockInit
  rw [if_neg (not_not.mpr rfl)]
  refine Returns.bind h.alloc fun ring b' halloc => ?_
  rcases halloc with ⟨rfl, rfl⟩ | ⟨hne, howns⟩
  · rw [if_pos rfl]
    exact Returns.pure (Or.inl ⟨rfl, h⟩)
  · rw [if_neg hne]
    by_cases hmutex : pthread.mutex = 0
    · rw [if_neg (not_not.mpr hmutex)]
      by_cases hreaders : pthread.readers = 0
      · rw [if_neg (not_not.mpr hreaders)]
        by_cases hwriters : pthread.writers = 0
        · rw [if_neg (not_not.mpr hwriters)]
          exact Returns.pure (Or.inr (Or.inr ⟨rfl, howns⟩))
        · rw [if_pos hwriters]
          exact Returns.pure (Or.inr (Or.inl ⟨rfl, fun hall => hwriters hall.2.2, howns⟩))
      · rw [if_pos hreaders]
        exact Returns.pure (Or.inr (Or.inl ⟨rfl, fun hall => hreaders hall.2.1, howns⟩))
    · rw [if_pos hmutex]
      exact Returns.pure (Or.inr (Or.inl ⟨rfl, fun hall => hmutex hall.1, howns⟩))

/-- A lock whose destruction succeeds gives its ring back. -/
theorem rwlockDestroy_ok (hall : pthread.Succeed) (h : Owns b (ring :: s) b₀) :
    Returns (rwlockDestroy pthread ring) b fun r b' => r = 0 ∧ Owns b' s b₀ := by
  have hne : ring ≠ nullAddr := fun h0 => h.nonnull (h0 ▸ List.mem_cons_self ..)
  obtain ⟨hfree, howns⟩ := h.free
  unfold rwlockDestroy
  rw [if_neg (not_not.mpr hall.1), if_neg (not_not.mpr hall.2.1), if_neg (not_not.mpr hall.2.2),
    if_pos hne]
  exact Returns.step hfree (Returns.pure ⟨rfl, howns⟩)

/-- One whose destruction fails keeps it. -/
theorem rwlockDestroy_fails (hfail : ¬ pthread.Succeed) :
    rwlockDestroy pthread ring b = .ok (-1, b) := by
  unfold rwlockDestroy
  by_cases hmutex : pthread.mutex = 0
  · rw [if_neg (not_not.mpr hmutex)]
    by_cases hreaders : pthread.readers = 0
    · rw [if_neg (not_not.mpr hreaders)]
      by_cases hwriters : pthread.writers = 0
      · exact absurd ⟨hmutex, hreaders, hwriters⟩ hfail
      · rw [if_pos hwriters]
        rfl
    · rw [if_pos hreaders]
      rfl
  · rw [if_pos hmutex]
    rfl

/-- The rings of the locks `i`, .., `i + n - 1`. -/
def rings (writerRing : Nat → Addr) (i n : Nat) : List Addr := (List.range' i n).map writerRing

theorem rings_cons : rings writerRing i (n + 1) = writerRing i :: rings writerRing (i + 1) n := by
  unfold rings
  rw [List.range'_succ, List.map_cons]

theorem rings_snoc : rings writerRing 0 (n + 1) = rings writerRing 0 n ++ [writerRing n] := by
  unfold rings
  rw [List.range'_1_concat, List.map_append, Nat.zero_add]
  rfl

theorem rings_update : rings (Function.update writerRing n ring) 0 n = rings writerRing 0 n := by
  unfold rings
  refine List.map_congr_left fun k hk => Function.update_of_ne ?_ _ _
  have hlt : k < n := by simpa using List.mem_range'.mp hk
  exact Nat.ne_of_lt hlt

theorem destroyLocks_spec (hall : ∀ j, (calls.destroy j).Succeed)
    (h : Owns b (rings writerRing j left ++ s) b₀) :
    Returns (destroyLocks calls writerRing left j) b fun _ b' => Owns b' s b₀ := by
  induction left generalizing j b with
  | zero => exact Returns.pure h
  | succ left ih =>
    rw [rings_cons, List.cons_append] at h
    exact Returns.bind (rwlockDestroy_ok (hall j) h) fun _ _ hafter => ih hafter.2

/-- What the loop over the locks leaves, when the array of locks was given with empty fields. -/
def LocksMade (calls : InitCalls) (s : List Addr) (b₀ : Cells Block) (n : Nat) :
    Option (Nat → Addr) → Cells Block → Prop
  | some writerRing, b' => Owns b' (rings writerRing 0 n ++ s) b₀
  | none, b' => Owns b' s b₀ ∨
    ∃ i < n, ∃ ring, ¬ (calls.init i).Succeed ∧ Owns b' (ring :: s) b₀

theorem initLocks_spec (hall : ∀ j, (calls.destroy j).Succeed)
    (hempty : ∀ j, i ≤ j → writerRing j = nullAddr)
    (h : Owns b (rings writerRing 0 i ++ s) b₀) :
    Returns (initLocks calls writerRing left i) b (LocksMade calls s b₀ (i + left)) := by
  induction left generalizing i writerRing b with
  | zero => exact Returns.pure h
  | succ left ih =>
    unfold initLocks
    rw [hempty i le_rfl]
    refine Returns.bind (rwlockInit_spec h) fun r b' hinit => ?_
    obtain ⟨ret, ring⟩ := r
    have hlt : i < i + (left + 1) := by omega
    dsimp only at hinit ⊢
    rcases hinit with ⟨rfl, howns⟩ | ⟨rfl, hfail, howns⟩ | ⟨rfl, howns⟩
    · rw [if_pos (by decide)]
      refine Returns.bind (destroyLocks_spec hall howns) fun _ b'' hback => ?_
      exact Returns.pure (Or.inl hback)
    · -- the ring of this lock is nobody's any more
      rw [if_pos (by decide)]
      have hmoved := howns.perm List.perm_middle.symm
      refine Returns.bind (destroyLocks_spec hall hmoved) fun _ b'' hback => ?_
      exact Returns.pure (Or.inr ⟨i, hlt, ring, hfail, hback⟩)
    · rw [if_neg (by decide)]
      have hnext : Owns b' (rings (Function.update writerRing i ring) 0 (i + 1) ++ s) b₀ := by
        rw [rings_snoc, rings_update, Function.update_self, List.append_assoc]
        exact howns.perm List.perm_middle.symm
      rw [show i + (left + 1) = i + 1 + left by omega]
      refine ih (fun j hj => ?_) hnext
      rw [Function.update_of_ne (by omega)]
      exact hempty j (by omega)

/-- The blocks of a table of `n` buckets. -/
def Blocks.addrs (b : Blocks) (n : Nat) : List Addr :=
  rings b.writerRing 0 n ++ [b.bucketSizes, b.locks, b.buckets, b.table]

/-- What `hash_init` leaves. -/
def Made (calls : InitCalls) (b₀ : Cells Block) (n : Nat) : Option Blocks → Cells Block → Prop
  | some blocks, b' => Owns b' (blocks.addrs n) b₀
  | none, b' => b' = b₀ ∨ ∃ i < n, ∃ ring, ¬ (calls.init i).Succeed ∧ Owns b' [ring] b₀

/-- The four calls of `free` for the arrays and the table. -/
theorem freeFour {α : Type} {r : α} {table buckets locks bucketSizes : Addr}
    (h : Owns b (bucketSizes :: locks :: buckets :: table :: s) b₀) :
    Returns (do
      freeCell buckets
      freeCell locks
      freeCell bucketSizes
      freeCell table
      return r : BlockM α) b fun a b' => a = r ∧ Owns b' s b₀ := by
  have hperm : (bucketSizes :: locks :: buckets :: table :: s).Perm
      (buckets :: locks :: bucketSizes :: table :: s) :=
    (List.Perm.swap ..).trans (((List.Perm.swap ..).cons locks).trans
      ((List.Perm.swap ..).trans ((List.Perm.refl _).cons buckets)))
  obtain ⟨hbuckets, h₂⟩ := (h.perm hperm).free
  obtain ⟨hlocks, h₃⟩ := h₂.free
  obtain ⟨hsizes, h₄⟩ := h₃.free
  obtain ⟨htable, h₅⟩ := h₄.free
  exact Returns.step hbuckets (Returns.step hlocks (Returns.step hsizes
    (Returns.step htable (Returns.pure ⟨rfl, h₅⟩))))

theorem hashInit_made (hall : ∀ j, (calls.destroy j).Succeed)
    (hempty : ∀ j, calls.garbage j = nullAddr) :
    Returns (hashInit calls n) b₀ (Made calls b₀ n) := by
  unfold hashInit
  refine Returns.bind (Owns.refl b₀).alloc fun table b₁ h₁ => ?_
  rcases h₁ with ⟨rfl, rfl⟩ | ⟨htable, h₁⟩
  · rw [if_pos rfl]
    exact Returns.pure (Or.inl rfl)
  rw [if_neg htable]
  refine Returns.bind h₁.alloc fun buckets b₂ h₂ => ?_
  rcases h₂ with ⟨rfl, rfl⟩ | ⟨hbuckets, h₂⟩
  · obtain ⟨hfree, hback⟩ := h₁.free
    rw [if_pos rfl]
    exact Returns.step hfree (Returns.pure (Or.inl hback.eq))
  rw [if_neg hbuckets]
  refine Returns.bind h₂.alloc fun locks b₃ h₃ => ?_
  rcases h₃ with ⟨rfl, rfl⟩ | ⟨hlocks, h₃⟩
  · obtain ⟨hfree, h₂⟩ := h₂.free
    obtain ⟨hfree', hback⟩ := h₂.free
    rw [if_pos rfl]
    exact Returns.step hfree (Returns.step hfree' (Returns.pure (Or.inl hback.eq)))
  rw [if_neg hlocks]
  refine Returns.bind h₃.alloc fun bucketSizes b₄ h₄ => ?_
  rcases h₄ with ⟨rfl, rfl⟩ | ⟨hsizes, h₄⟩
  · obtain ⟨hfree, h₃⟩ := (h₃.perm (List.Perm.swap ..)).free
    obtain ⟨hfree', h₃⟩ := h₃.free
    obtain ⟨hfree'', hback⟩ := h₃.free
    rw [if_pos rfl]
    exact Returns.step hfree (Returns.step hfree' (Returns.step hfree''
      (Returns.pure (Or.inl hback.eq))))
  rw [if_neg hsizes]
  refine Returns.bind (initLocks_spec hall (fun j _ => hempty j) h₄) fun r b₅ hmade => ?_
  rw [Nat.zero_add] at hmade
  cases r with
  | some writerRing => exact Returns.pure hmade
  | none =>
    rcases hmade with howns | ⟨i, hi, ring, hfail, howns⟩
    · refine (freeFour howns).mono fun r b' hfreed => ?_
      rw [hfreed.1]
      exact Or.inl hfreed.2.eq
    · have hmoved := howns.perm (List.perm_append_singleton ring _).symm
      refine (freeFour hmoved).mono fun r b' hfreed => ?_
      rw [hfreed.1]
      exact Or.inr ⟨i, hi, ring, hfail, hfreed.2⟩

/-! ## The table and its blocks

  `Skvs.hashInit` is given how the calls turn out, and `hashInit` the memory that decides it.
-/

variable {A : Allocator Block} {c : Block} {b' : Cells Block} {heap : Cells Cell}

instance (calls : PthreadCalls) : Decidable calls.Succeed := inferInstanceAs (Decidable (_ ∧ _))

/-- The blocks after an allocation. -/
def given (A : Allocator Block) (c : Block) (b : Cells Block) : Cells Block :=
  (A.choose b).elim b fun a => b.insert a c

theorem allocCell_given : allocCell A c b = .ok ((A.choose b).getD nullAddr, given A c b) := by
  unfold given
  cases hA : A.choose b with
  | none => exact allocCell_none hA
  | some a => exact allocCell_some hA

theorem getD_choose : (A.choose b).getD nullAddr = nullAddr ↔ (A.choose b).isSome = false := by
  cases hA : A.choose b with
  | none => simp
  | some a => simpa using (A.fresh hA).1

theorem choose_ne (h : (A.choose b).isSome = true) : (A.choose b).getD nullAddr ≠ nullAddr := by
  rw [Ne, getD_choose, h]
  simp

/-- The blocks before the lock `i` is initialised, when `b` are those before the loop. -/
def beforeLock (calls : InitCalls) (b : Cells Block) : Nat → Cells Block
  | 0 => b
  | i + 1 => given (calls.calloc i) .writerRing (beforeLock calls b i)

/-- What `rwlock_init` returns for an empty lock. -/
def initCode (calloc : Allocator Block) (init : PthreadCalls) (b : Cells Block) : Int :=
  if (calloc.choose b).isSome ∧ init.Succeed then 0 else -1

/-- How the calls turn out, from these blocks on. -/
def InitCalls.outcomes (calls : InitCalls) (b₀ : Cells Block) : Skvs.InitCalls :=
  let b₁ := given calls.table .table b₀
  let b₂ := given calls.buckets .buckets b₁
  let b₃ := given calls.locks .locks b₂
  let b₄ := given calls.bucketSizes .bucketSizes b₃
  { table := (calls.table.choose b₀).isSome
    buckets := (calls.buckets.choose b₁).isSome
    locks := (calls.locks.choose b₂).isSome
    bucketSizes := (calls.bucketSizes.choose b₃).isSome
    rwlockInit := fun i => initCode (calls.calloc i) (calls.init i) (beforeLock calls b₄ i) }

theorem rwlockInit_null (calloc : Allocator Block) (pthread : PthreadCalls) (b : Cells Block) :
    ∃ ring, rwlockInit calloc pthread nullAddr b =
    .ok ((initCode calloc pthread b, ring), given calloc .writerRing b) := by
  refine ⟨(calloc.choose b).getD nullAddr, ?_⟩
  unfold rwlockInit initCode
  rw [if_neg (not_not.mpr rfl)]
  refine (bind_of_ok allocCell_given).trans ?_
  cases hsome : (calloc.choose b).isSome with
  | false =>
    rw [if_pos (getD_choose.mpr hsome), if_neg (by simp)]
    rfl
  | true =>
    rw [if_neg (choose_ne hsome)]
    by_cases hmutex : pthread.mutex = 0
    · by_cases hreaders : pthread.readers = 0
      · by_cases hwriters : pthread.writers = 0
        · simp [PthreadCalls.Succeed, hmutex, hreaders, hwriters, pure_apply]
        · simp [PthreadCalls.Succeed, hmutex, hreaders, hwriters, pure_apply]
      · simp [PthreadCalls.Succeed, hmutex, hreaders, pure_apply]
    · simp [PthreadCalls.Succeed, hmutex, pure_apply]

theorem initLocks_agrees {r : Option (Nat → Addr)} (hempty : ∀ j, i ≤ j → writerRing j = nullAddr)
    (hrun : initLocks calls writerRing left i (beforeLock calls b i) = .ok (r, b')) :
    r.isSome ↔ ∀ j, i ≤ j → j < i + left →
      initCode (calls.calloc j) (calls.init j) (beforeLock calls b j) = 0 := by
  induction left generalizing i writerRing with
  | zero =>
    obtain ⟨rfl, -⟩ := Prod.mk.inj (Except.ok.inj hrun)
    exact ⟨fun _ j hle hlt => absurd hlt (by omega), fun _ => rfl⟩
  | succ left ih =>
    unfold initLocks at hrun
    obtain ⟨ring, hinit⟩ := rwlockInit_null (calls.calloc i) (calls.init i) (beforeLock calls b i)
    rw [hempty i le_rfl, bind_of_ok hinit] at hrun
    dsimp only at hrun
    by_cases hcode : initCode (calls.calloc i) (calls.init i) (beforeLock calls b i) = 0
    · rw [if_neg (not_not.mpr hcode)] at hrun
      have hnext : ∀ j, i + 1 ≤ j → Function.update writerRing i ring j = nullAddr := by
        intro j hle
        rw [Function.update_of_ne (by omega)]
        exact hempty j (by omega)
      rw [ih hnext hrun]
      refine ⟨fun hall j hle hlt => ?_, fun hall j hle hlt => hall j (by omega) (by omega)⟩
      rcases Nat.eq_or_lt_of_le hle with rfl | hlater
      · exact hcode
      · exact hall j hlater (by omega)
    · rw [if_pos hcode] at hrun
      obtain ⟨_, _, -, hend⟩ := ok_of_bind hrun
      obtain ⟨rfl, -⟩ := Prod.mk.inj (Except.ok.inj hend)
      exact ⟨fun hnone => absurd hnone (by simp),
        fun hall => absurd (hall i le_rfl (by omega)) hcode⟩

theorem hashInit_isSome {init : Skvs.InitCalls} :
    (Skvs.hashInit init heap n).isSome ↔ init.table ∧ init.buckets ∧ init.locks ∧
      init.bucketSizes ∧ ∀ i < n, init.rwlockInit i = 0 := by
  unfold Skvs.hashInit
  split_ifs <;> simp_all

/-- A way out of `hash_init`. -/
def GivesUp {α : Type} (x : BlockM (Option α)) : Prop :=
  ∀ b r b', x b = .ok (r, b') → r = none

theorem GivesUp.null {α : Type} : GivesUp (pure none : BlockM (Option α)) := fun _ _ _ hrun =>
  (Prod.mk.inj (Except.ok.inj hrun)).1.symm

theorem GivesUp.free {α : Type} {x : BlockM (Option α)} (h : GivesUp x) (a : Addr) :
    GivesUp (freeCell a >>= fun _ => x) := fun _ _ _ hrun => by
  obtain ⟨_, _, -, hrest⟩ := ok_of_bind hrun
  exact h _ _ _ hrest

/-- An allocation of `hash_init`, and what becomes of the rest. -/
theorem alloc_agrees {α : Type} {r : Option α} {x : BlockM (Option α)}
    {f : Addr → BlockM (Option α)} {P : Prop} (hx : GivesUp x)
    (hf : ∀ a, f a (given A c b) = .ok (r, b') → (r.isSome ↔ P))
    (hrun : (allocCell A c >>= fun a => if a = nullAddr then x else f a) b = .ok (r, b')) :
    r.isSome ↔ (A.choose b).isSome ∧ P := by
  rw [bind_of_ok allocCell_given] at hrun
  cases hsome : (A.choose b).isSome with
  | false =>
    rw [if_pos (getD_choose.mpr hsome)] at hrun
    rw [hx _ _ _ hrun]
    simp
  | true =>
    rw [if_neg (choose_ne hsome)] at hrun
    simpa using hf _ hrun

/-- **The two models of `hash_init` agree.** In an array of locks with empty fields, the blocks are
    got if and only if the table is. -/
theorem hashInit_agrees (hall : ∀ j, (calls.destroy j).Succeed)
    (hempty : ∀ j, calls.garbage j = nullAddr) (heap : Cells Cell) :
    Returns (hashInit calls n) b₀ fun r _ =>
      (r.isSome ↔ (Skvs.hashInit (calls.outcomes b₀) heap n).isSome) := by
  obtain ⟨r, b', hrun, -⟩ : Returns (hashInit calls n) b₀ (Made calls b₀ n) :=
    hashInit_made hall hempty
  refine ⟨r, b', hrun, Iff.trans ?_ hashInit_isSome.symm⟩
  refine alloc_agrees .null (fun table hrun => ?_) hrun
  refine alloc_agrees (GivesUp.null.free _) (fun buckets hrun => ?_) hrun
  refine alloc_agrees ((GivesUp.null.free _).free _) (fun locks hrun => ?_) hrun
  refine alloc_agrees (((GivesUp.null.free _).free _).free _) (fun bucketSizes hrun => ?_) hrun
  obtain ⟨made, b₅, hmade, hrun⟩ := ok_of_bind hrun
  have hagree := initLocks_agrees (i := 0) (fun j _ => hempty j) hmade
  have hlocks : made.isSome ↔
      ∀ i < n, (calls.outcomes b₀).rwlockInit i = 0 :=
    hagree.trans ⟨fun h j hlt => h j (Nat.zero_le j) (by omega), fun h j _ hlt => h j (by omega)⟩
  refine Iff.trans ?_ hlocks
  cases made with
  | none =>
    rw [((((GivesUp.null.free _).free _).free _).free _) _ _ _ hrun]
    simp
  | some writerRing =>
    obtain ⟨rfl, -⟩ := Prod.mk.inj (Except.ok.inj hrun)
    simp

/-! ## What a failure leaves -/

/-- **A `hash_init` that fails gives everything back**, but for the ring of a lock whose pthread
    initialiser failed. It needs an array of locks with empty fields, and locks that can be
    destroyed. -/
theorem hash_init_gives_back (hall : ∀ j, (calls.destroy j).Succeed)
    (hempty : ∀ j, calls.garbage j = nullAddr) :
    Returns (hashInit calls n) b₀ (Made calls b₀ n) :=
  hashInit_made hall hempty

/-- Memory is given to everything, and every lock returns these codes from `rwlock_init`. -/
def plenty (init : PthreadCalls) : InitCalls :=
  ⟨bump, bump, bump, bump, fun _ => bump, fun _ => init, fun _ => ⟨0, 0, 0⟩, fun _ => nullAddr⟩

theorem plenty_destroys (init : PthreadCalls) (j : Nat) : ((plenty init).destroy j).Succeed :=
  ⟨rfl, rfl, rfl⟩

/-- The mutex of the first of two locks cannot be initialised. -/
theorem hash_init_gives_back_failed :
    Returns (hashInit (plenty ⟨1, 0, 0⟩) 2) ∅ (Made (plenty ⟨1, 0, 0⟩) ∅ 2) :=
  hash_init_gives_back (plenty_destroys _) fun _ => rfl

end Init

/-! ## The cells of the table -/

section Operations

variable {h h' : Cells Cell} {a a' : Addr} {l : List Entry} {key value : Str} {calls : Calls}
  {t t' : Table} {B B' : Nat → List Entry} {i j : Nat} {op : Op} {h₀ : Cells Cell}

theorem card_listInsert (hl : Chain h a l) (hapart : Apart l)
    (hrun : listInsert calls a key value h = .ok ((1, a'), h')) :
    h'.keys.card = h.keys.card + 3 := by
  unfold listInsert at hrun
  rw [bind_of_ok (listSearch_ok hl hapart)] at hrun
  split at hrun
  · exact absurd (Except.ok.inj hrun) (by simp)
  · obtain ⟨node, h₁, hnode, hrun⟩ := ok_of_bind hrun
    split at hrun
    · exact absurd (Except.ok.inj hrun) (by simp)
    · rename_i hnode0
      obtain ⟨keyAt, h₂, hkey, hrun⟩ := ok_of_bind hrun
      split at hrun
      · obtain ⟨_, h₃, _, hrun⟩ := ok_of_bind hrun
        exact absurd (Except.ok.inj hrun) (by simp)
      · rename_i hkey0
        obtain ⟨valueAt, h₃, hvalue, hrun⟩ := ok_of_bind hrun
        split at hrun
        · obtain ⟨_, h₄, _, hrun⟩ := ok_of_bind hrun
          obtain ⟨_, h₅, _, hrun⟩ := ok_of_bind hrun
          exact absurd (Except.ok.inj hrun) (by simp)
        · rename_i hvalue0
          obtain ⟨_, h₄, hwrite, hrun⟩ := ok_of_bind hrun
          obtain ⟨-, rfl⟩ := Prod.mk.inj (Except.ok.inj hrun)
          rw [card_writeCell hwrite, card_allocCell hvalue0 hvalue, card_allocCell hkey0 hkey,
            card_allocCell hnode0 hnode]

/-- The update of a key that is there frees one string and makes one. -/
theorem card_listUpdate (hl : Chain h a l) (hapart : Apart l) {r : Int}
    (hrun : listUpdate calls a key value h = .ok (r, h')) : h'.keys.card = h.keys.card := by
  cases hfind : findKey l key with
  | none =>
    rw [listUpdate_absent hl hapart hfind] at hrun
    obtain ⟨-, rfl⟩ := Prod.mk.inj (Except.ok.inj hrun)
    rfl
  | some e =>
    obtain ⟨next, he⟩ := hl.stands (findKey_some hfind).1
    cases hv : calls.strdupValue.choose h with
    | none =>
      rw [listUpdate_failed hl hapart hfind hv] at hrun
      obtain ⟨-, rfl⟩ := Prod.mk.inj (Except.ok.inj hrun)
      rfl
    | some v =>
      rw [listUpdate_found hl hapart hfind he hv] at hrun
      obtain ⟨-, rfl⟩ := Prod.mk.inj (Except.ok.inj hrun)
      obtain ⟨pre, post, rfl, -, -⟩ := findKey_split hfind
      have hnv : e.node ≠ e.valueAt := fun heq => by
        have hnodup := hapart.middle.1
        simp [Entry.cells, heq] at hnodup
      have hvalue : e.valueAt ∈ h.insert v (.str value) :=
        Finmap.mem_insert.mpr (Or.inr (he.live (by simp [Entry.cells])))
      have hnode : e.node ∈ (h.insert v (.str value)).erase e.valueAt :=
        Finmap.mem_erase.mpr ⟨hnv, Finmap.mem_insert.mpr (Or.inr (he.live (by simp [Entry.cells])))⟩
      have hcount := card_erase hvalue
      rw [card_insert_new (calls.strdupValue.fresh hv).2] at hcount
      rw [card_insert_live hnode]
      omega

/-- The three calls of `free` for a node, whatever came before them. -/
theorem card_freeEntry {α : Type} {r r' : α} {k v n : Addr} (hk : k ≠ nullAddr) (hv : v ≠ nullAddr)
    (hn : n ≠ nullAddr)
    (hrun : (do freeCell k; freeCell v; freeCell n; return r : ListM α) h = .ok (r', h')) :
    h'.keys.card + 3 = h.keys.card := by
  obtain ⟨_, h₁, hkey, hrun⟩ := ok_of_bind hrun
  obtain ⟨_, h₂, hvalue, hrun⟩ := ok_of_bind hrun
  obtain ⟨_, h₃, hnode, hrun⟩ := ok_of_bind hrun
  obtain ⟨-, rfl⟩ := Prod.mk.inj (Except.ok.inj hrun)
  have h1 := card_freeCell hk hkey
  have h2 := card_freeCell hv hvalue
  have h3 := card_freeCell hn hnode
  omega

theorem loadNode_keeps {n : Node} (hrun : loadNode a h = .ok (n, h')) : h' = h := by
  cases hc : h.lookup a with
  | none =>
    have hfault : readCell a h = .error .dangling := by
      unfold readCell
      rw [bind_of_ok (get_apply h), hc]
      rfl
    unfold loadNode at hrun
    rw [bind_of_error hfault] at hrun
    exact absurd hrun (by simp)
  | some c =>
    unfold loadNode at hrun
    rw [bind_of_ok (readCell_ok hc)] at hrun
    cases c with
    | node n =>
      obtain ⟨-, rfl⟩ := Prod.mk.inj (Except.ok.inj hrun)
      rfl
    | str s => exact absurd hrun (by simp [throw, throwThe, MonadExceptOf.throw, StateT.lift])

theorem card_deleteLoop {head prev b : Addr} {limit : Nat} (hl : Chain h b l)
    (hrun : deleteLoop head key limit prev b h = .ok ((1, a'), h')) :
    h'.keys.card + 3 = h.keys.card := by
  induction l generalizing prev b limit with
  | nil =>
    obtain rfl : b = nullAddr := hl
    cases limit <;> exact absurd (Except.ok.inj hrun) (by simp)
  | cons e l ih =>
    obtain ⟨rfl, next, he, hl⟩ := hl
    have hne : ∀ x ∈ e.cells, x ≠ nullAddr := fun x hx => he.ne_null hx
    cases limit with
    | zero =>
      rw [deleteLoop, if_neg he.node_ne] at hrun
      exact absurd hrun (by simp [throw, throwThe, MonadExceptOf.throw, StateT.lift])
    | succ limit =>
      rw [deleteLoop, if_neg he.node_ne, bind_of_ok (loadNode_ok he.node),
        bind_of_ok (loadStr_ok he.key)] at hrun
      by_cases hkey : e.key = key
      · rw [if_pos hkey] at hrun
        obtain ⟨newHead, h₁, hlink, hrun⟩ := ok_of_bind hrun
        have hsame : h₁.keys.card = h.keys.card := by
          split at hlink
          · obtain ⟨prevNode, h₂, hload, hlink⟩ := ok_of_bind hlink
            obtain ⟨_, h₃, hwrite, hlink⟩ := ok_of_bind hlink
            obtain ⟨-, rfl⟩ := Prod.mk.inj (Except.ok.inj hlink)
            rw [card_writeCell hwrite, loadNode_keeps hload]
          · obtain ⟨-, rfl⟩ := Prod.mk.inj (Except.ok.inj hlink)
            rfl
        rw [← hsame]
        exact card_freeEntry (hne _ (by simp [Entry.cells])) (hne _ (by simp [Entry.cells]))
          (hne _ (by simp [Entry.cells])) hrun
      · rw [if_neg hkey] at hrun
        exact ih hl hrun

/-- What the part of an operation under the lock does to the cells: it works on the chain of its
    bucket, and keeps three cells for each entry that the table counts. -/
structure Moved (t : Table) (B : Nat → List Entry) (i : Nat) (t' : Table) : Prop where
  size : t'.hashSize = t.hashSize
  heads : ∀ j, j ≠ i → t'.buckets j = t.buckets j
  move : ∃ l, ListMove t.heap t'.heap (B i) l (t'.buckets i)
  card : (t'.heap.keys.card : Int) = t.heap.keys.card + 3 * (t'.totalEntries - t.totalEntries)

theorem Moved.stay (hr : Represents t B) (hi : i < t.hashSize) : Moved t B i t where
  size := rfl
  heads := fun _ _ => rfl
  move := ⟨B i, ListMove.refl (hr.chain i hi) (hr.apart i hi)⟩
  card := by omega

theorem Moved.of_move {c : Int} (hmove : ListMove t.heap h' (B i) l a')
    (hcard : (h'.keys.card : Int) = t.heap.keys.card + 3 * c) :
    Moved t B i (t.changed h' i a' c) := by
  refine ⟨rfl, fun j hj => Function.update_of_ne hj _ _, ⟨l, ?_⟩, ?_⟩
  · change ListMove t.heap h' (B i) l (Function.update t.buckets i a' i)
    rwa [Function.update_self]
  · change (h'.keys.card : Int) = t.heap.keys.card + 3 * (t.totalEntries + c - t.totalEntries)
    rw [hcard]
    omega

theorem onHeap_run {α : Type} {x : ListM α} {r : α} (hrun : x t.heap = .ok (r, h')) :
    onHeap x t = .ok (r, { t with heap := h' }) := by
  unfold onHeap
  rw [hrun]

theorem section_moved (hr : Represents t B) (hi : i < t.hashSize) :
    Returns (op.section calls i (t.buckets i)) t fun _ t' => Moved t B i t' := by
  have hchain := hr.chain i hi
  have hapart := hr.apart i hi
  cases op with
  | insert key value =>
    obtain ⟨r, h', hrun, hins⟩ : Returns (listInsert calls (t.buckets i) key value) t.heap _ :=
      listInsert_spec hchain hapart
    refine Returns.step (onHeap_run hrun) ?_
    cases hins with
    | present => exact Returns.step (pure_apply _ _) (Returns.pure (.stay hr hi))
    | failed => exact Returns.step (pure_apply _ _) (Returns.pure (.stay hr hi))
    | added _ _ _ hmove =>
      refine Returns.step (relink_changed 1) (Returns.pure (.of_move hmove ?_))
      rw [card_listInsert hchain hapart hrun]
      push_cast
      omega
  | search key =>
    cases hfind : findKey (B i) key with
    | none =>
      unfold Op.section searchSection
      refine Returns.step (onHeap_ok (listSearch_ok hchain hapart)) ?_
      rw [hfind]
      exact Returns.pure (.stay hr hi)
    | some e => exact Returns.intro (searchSection_found hchain hapart hfind) (.stay hr hi)
  | update key value =>
    obtain ⟨r, h', hrun, hupd⟩ : Returns (listUpdate calls (t.buckets i) key value) t.heap _ :=
      listUpdate_spec hchain hapart
    refine Returns.step (onHeap_run hrun) (Returns.pure ?_)
    have hcard : (h'.keys.card : Int) = t.heap.keys.card + 3 * 0 := by
      rw [card_listUpdate hchain hapart hrun]
      omega
    cases hupd with
    | absent => exact .stay hr hi
    | failed => exact .stay hr hi
    | replaced _ _ _ _ hmove =>
      rw [← changed_self]
      exact .of_move hmove hcard
  | delete key =>
    obtain ⟨r, h', hrun, hdel⟩ : Returns (listDelete (t.buckets i) key) t.heap _ :=
      listDelete_spec hchain hapart
    refine Returns.step (onHeap_run hrun) ?_
    cases hdel with
    | absent => exact Returns.step (pure_apply _ _) (Returns.pure (.stay hr hi))
    | removed _ _ _ _ hmove =>
      refine Returns.step (relink_changed (-1)) (Returns.pure (.of_move hmove ?_))
      unfold listDelete at hrun
      rw [bind_of_ok walkLimit_ok] at hrun
      have hcard := card_deleteLoop hchain hrun
      omega

/-- The cells of the buckets `i`, .., `i + n - 1`. -/
def cellsFrom (B : Nat → List Entry) (i n : Nat) : List Addr :=
  (List.range' i n).flatMap fun j => cellsOf (B j)

/-- The heap is the one `hash_init` found and the cells of the chains: none is lost, none is left
    over. -/
abbrev Owned (t : Table) (B : Nat → List Entry) (h₀ : Cells Cell) : Prop :=
  Owns t.heap (cellsFrom B 0 t.hashSize) h₀

/-- What an operation keeps of it. -/
structure Grown (t : Table) (B : Nat → List Entry) (h₀ : Cells Cell) : Prop where
  new : ∀ i < t.hashSize, ∀ x ∈ cellsOf (B i), x ∉ h₀
  keep : ∀ x ∈ h₀, t.heap.lookup x = h₀.lookup x
  card : (t.heap.keys.card : Int) = h₀.keys.card + 3 * t.totalEntries

theorem Grown.live (h : Grown t B h₀) {x : Addr} (hx : x ∈ h₀) : x ∈ t.heap := by
  rw [← Finmap.lookup_isSome, h.keep x hx, Finmap.lookup_isSome]
  exact hx

theorem Grown.moved (h : Grown t B h₀) (hr : Represents t B) (hr' : Represents t' B')
    (hi : i < t.hashSize) (hmoved : Moved t B i t') : Grown t' B' h₀ := by
  obtain ⟨hsize, hheads, ⟨l, hmove⟩, hcard⟩ := hmoved
  refine ⟨fun j hj x hx => ?_, fun x hx => ?_, ?_⟩
  · rw [hsize] at hj
    have hchain' := hr'.chain j (hsize ▸ hj)
    by_cases hji : j = i
    · subst hji
      rw [hchain'.unique hmove.chain] at hx
      rcases hmove.fresh x hx with hold | hdead
      · exact h.new j hj x hold
      · exact fun hx0 => hdead (h.live hx0)
    · rw [hheads j hji] at hchain'
      have hsame : Chain t'.heap (t.buckets j) (B j) := (hr.chain j hj).congr fun y hy =>
        hmove.frame y ((hr.chain j hj).live hy) (hr.disjoint j hj i hi hji y hy)
      rw [hchain'.unique hsame] at hx
      exact h.new j hj x hx
  · rw [hmove.frame x (h.live hx) fun hcell => h.new i hi x hcell hx]
    exact h.keep x hx
  · rw [hcard, h.card]
    omega

theorem length_cellsOf (l : List Entry) : (cellsOf l).length = 3 * l.length := by
  induction l with
  | nil => rfl
  | cons e l ih =>
    rw [cellsOf_cons, List.length_append, ih, List.length_cons]
    simp only [Entry.cells, List.length_cons, List.length_nil]
    omega

theorem length_cellsFrom (n : Nat) : ((cellsFrom B 0 n).length : Int) =
    3 * ∑ j ∈ Finset.range n, ((B j).length : Int) := by
  induction n with
  | zero => rfl
  | succ n ih =>
    have hsnoc : cellsFrom B 0 (n + 1) = cellsFrom B 0 n ++ cellsOf (B n) := by
      unfold cellsFrom
      rw [List.range'_1_concat, List.flatMap_append, Nat.zero_add]
      simp
    rw [hsnoc, List.length_append, Finset.sum_range_succ, length_cellsOf]
    push_cast
    rw [ih]
    omega

theorem mem_cellsFrom {x : Addr} {n : Nat} :
    x ∈ cellsFrom B i n ↔ ∃ j, i ≤ j ∧ j < i + n ∧ x ∈ cellsOf (B j) := by
  unfold cellsFrom
  rw [List.mem_flatMap]
  simp only [List.mem_range'_1]
  exact exists_congr fun j => and_assoc

theorem cellsFrom_nodup (hr : Represents t B) : (cellsFrom B 0 t.hashSize).Nodup := by
  unfold cellsFrom
  rw [List.nodup_flatMap]
  refine ⟨fun j hj => hr.apart j (by simpa using hj), ?_⟩
  refine (List.nodup_range').imp_of_mem fun {i j} hi hj hne x hx hx' => ?_
  exact hr.disjoint i (by simpa using hi) j (by simpa using hj) hne x hx hx'

theorem Grown.owned (h : Grown t B h₀) (hr : Represents t B) : Owned t B h₀ := by
  have hmem : ∀ x ∈ cellsFrom B 0 t.hashSize, ∃ j < t.hashSize, x ∈ cellsOf (B j) := fun x hx => by
    obtain ⟨j, -, hj, hx⟩ := mem_cellsFrom.mp hx
    exact ⟨j, by omega, hx⟩
  refine Owns.of_card (cellsFrom_nodup hr) (fun hnull => ?_) (fun x hx => ?_) (fun x hx => ?_)
    h.keep ?_
  · obtain ⟨j, hj, hx⟩ := hmem _ hnull
    obtain ⟨e, he, hx⟩ := mem_cellsOf.mp hx
    obtain ⟨next, hstands⟩ := (hr.chain j hj).stands he
    exact hstands.nonnull hx
  · obtain ⟨j, hj, hx⟩ := hmem x hx
    exact (hr.chain j hj).live hx
  · obtain ⟨j, hj, hx⟩ := hmem x hx
    exact h.new j hj x hx
  · have hlength : ((cellsFrom B 0 t.hashSize).length : Int) = 3 * t.totalEntries := by
      rw [length_cellsFrom, hr.total]
    have hcard := h.card
    omega

theorem section_of_call {r : Outcome} (hlocks : calls.Locks)
    (hrun : op.call calls t = .ok (r, t')) :
    op.section calls (index op.key t.hashSize) (t.buckets (index op.key t.hashSize)) t =
      .ok (r, t') := by
  rw [call_eq_locked] at hrun
  unfold locked at hrun
  rw [bind_of_ok (get_apply t), if_neg (by rw [hlocks.1]; decide)] at hrun
  obtain ⟨r₁, t₁, hsection, hrun⟩ := ok_of_bind hrun
  rw [if_neg (by rw [hlocks.2]; decide)] at hrun
  obtain ⟨rfl, rfl⟩ := Prod.mk.inj (Except.ok.inj hrun)
  exact hsection

/-- **No cell is lost.** Over any operations from `hash_init`, whatever their allocations give, the
    table holds the map of the operations, and its heap is the one before `hash_init` and the cells
    of its chains. -/
theorem owned_run {es : List Event} {n : Nat} (hn : 0 < n) (hn' : n ≤ 2 ^ 31 - 1)
    (hrun : Run (Guarded (fun _ e => e.calls.Locks) step) ⟨h₀, fun _ => nullAddr, fun _ => 0, 0, n⟩
      es t) : t.hashSize = n ∧ ∃ m B, Run mapStep ∅ es m ∧ Represents t B ∧ Holds t B m ∧
        Grown t B h₀ := by
  induction hrun with
  | nil =>
    have hinit : Skvs.hashInit ⟨true, true, true, true, fun _ => 0⟩ h₀ n =
        some ⟨h₀, fun _ => nullAddr, fun _ => 0, 0, n⟩ := by simp [Skvs.hashInit]
    refine ⟨rfl, ∅, _, Run.nil _, represents_init hn hn' hinit, holds_empty, ?_, fun _ _ => rfl, ?_⟩
    · exact fun _ _ _ hx => absurd hx List.not_mem_nil
    · simp
  | @snoc t t' es e _ hlast ih =>
    obtain ⟨hsize, m, B, hmap, hr, hm, hgrown⟩ := ih
    obtain ⟨B', m', hr', hm', hstep⟩ := refines_step hr hm hlast.1 hlast.2
    obtain ⟨r, hcall, -, -⟩ := hlast.2
    have hmoved := Returns.of_eq (section_of_call hlast.1 hcall) (section_moved hr hr.index_lt)
    exact ⟨hmoved.size.trans hsize, m', B', hmap.snoc hstep, hr', hm',
      hgrown.moved hr hr' hr.index_lt hmoved⟩

end Operations

/-! ## hash_destroy -/

section Destroy

variable {h h₀ : Cells Cell} {a : Addr} {l : List Entry} {s : List Addr} {limit i n left : Nat}
  {t : Table} {B : Nat → List Entry} {destroy : Nat → PthreadCalls}
  {writerRing buckets : Nat → Addr} {b₀ : Cells Block} {st : Store}

theorem destroyNodes_spec (hl : Chain h a l) (howns : Owns h (cellsOf l ++ s) h₀)
    (hlimit : l.length ≤ limit) :
    Returns (destroyNodes limit a) h fun _ h' => Owns h' s h₀ ∧ AgreeAt s h h' := by
  induction l generalizing a limit h with
  | nil =>
    obtain rfl : a = nullAddr := hl
    cases limit <;> exact Returns.pure ⟨howns, fun _ _ => rfl⟩
  | cons e l ih =>
    obtain ⟨rfl, next, he, hl⟩ := hl
    cases limit with
    | zero => exact absurd hlimit (by simp)
    | succ limit =>
      unfold destroyNodes
      rw [if_neg he.node_ne]
      refine Returns.step (loadNode_ok he.node) ?_
      have hperm : (cellsOf (e :: l) ++ s).Perm
          (e.keyAt :: e.valueAt :: e.node :: (cellsOf l ++ s)) := by
        rw [cellsOf_cons]
        exact (List.Perm.swap ..).trans ((List.Perm.swap ..).cons e.keyAt)
      obtain ⟨hkey, h₁⟩ := (howns.perm hperm).free
      obtain ⟨hvalue, h₂⟩ := h₁.free
      obtain ⟨hnode, h₃⟩ := h₂.free
      have hapart := (howns.perm hperm).nodup
      have hagree : AgreeAt (cellsOf l ++ s) h
          (((h.erase e.keyAt).erase e.valueAt).erase e.node) := by
        obtain ⟨hk, hapart⟩ := List.nodup_cons.mp hapart
        obtain ⟨hv, hapart⟩ := List.nodup_cons.mp hapart
        obtain ⟨hn, -⟩ := List.nodup_cons.mp hapart
        refine (AgreeAt.erase fun hx => ?_).trans ((AgreeAt.erase fun hx => ?_).trans
          (AgreeAt.erase hn))
        · exact hk (List.mem_cons_of_mem _ (List.mem_cons_of_mem _ hx))
        · exact hv (List.mem_cons_of_mem _ hx)
      refine Returns.step hkey (Returns.step hvalue (Returns.step hnode ?_))
      have hchain := hl.congr fun x hx => hagree x (List.mem_append_left _ hx)
      refine (ih hchain h₃ (Nat.le_of_succ_le_succ hlimit)).mono fun _ h' hdone => ?_
      exact ⟨hdone.1, AgreeAt.trans (fun x hx => hagree x (List.mem_append_right _ hx)) hdone.2⟩

/-- What is left of a table that was built on `h₀` and `b₀`: of the blocks beside the rings,
    `arrays` before the end and `done` after it. -/
inductive Left (destroy : Nat → PthreadCalls) (B : Nat → List Entry) (writerRing : Nat → Addr)
    (arrays done : List Addr) (n : Nat) (h₀ : Cells Cell) (b₀ : Cells Block) : Int → Store → Prop
  /-- The locks are all destroyed. -/
  | nothing {st : Store} (hall : ∀ j < n, (destroy j).Succeed) (hcells : st.cells = h₀)
      (hblocks : Owns st.blocks done b₀) : Left destroy B writerRing arrays done n h₀ b₀ 0 st
  /-- Lock `k` cannot be destroyed: the buckets up to it are gone, with the rings before it. -/
  | rest {k : Nat} {st : Store} (hk : k < n) (hfail : ¬ (destroy k).Succeed)
      (hbefore : ∀ j < k, (destroy j).Succeed)
      (hcells : Owns st.cells (cellsFrom B (k + 1) (n - (k + 1))) h₀)
      (hblocks : Owns st.blocks (rings writerRing k (n - k) ++ arrays) b₀) :
      Left destroy B writerRing arrays done n h₀ b₀ (-1) st

theorem onCells_returns {α : Type} {x : ListM α} {Q : α → Cells Cell → Prop}
    (hx : Returns x st.cells Q) :
    Returns (onCells x) st fun r st' => Q r st'.cells ∧ st'.blocks = st.blocks := by
  obtain ⟨r, h', heq, hQ⟩ := hx
  refine ⟨r, { st with cells := h' }, ?_, hQ, rfl⟩
  unfold onCells
  rw [heq]

theorem onBlocks_returns {α : Type} {x : BlockM α} {Q : α → Cells Block → Prop}
    (hx : Returns x st.blocks Q) :
    Returns (onBlocks x) st fun r st' => Q r st'.blocks ∧ st'.cells = st.cells := by
  obtain ⟨r, b', heq, hQ⟩ := hx
  refine ⟨r, { st with blocks := b' }, ?_, hQ, rfl⟩
  unfold onBlocks
  rw [heq]

theorem cellsFrom_cons : cellsFrom B i (n + 1) = cellsOf (B i) ++ cellsFrom B (i + 1) n := by
  unfold cellsFrom
  rw [List.range'_succ, List.flatMap_cons]

theorem destroyBuckets_spec {arrays : List Addr} (hin : i + left = n)
    (hchain : ∀ j, i ≤ j → j < n → Chain st.cells (buckets j) (B j))
    (hcells : Owns st.cells (cellsFrom B i left) h₀)
    (hblocks : Owns st.blocks (rings writerRing i left ++ arrays) b₀)
    (hbefore : ∀ j < i, (destroy j).Succeed) :
    Returns (destroyBuckets destroy buckets writerRing left i) st
      (Left destroy B writerRing arrays arrays n h₀ b₀) := by
  induction left generalizing i st with
  | zero =>
    obtain rfl : i = n := hin
    exact Returns.pure (.nothing hbefore hcells.eq hblocks)
  | succ left ih =>
    rw [cellsFrom_cons] at hcells
    have hlength : (B i).length ≤ st.cells.keys.card :=
      (hchain i le_rfl (by omega)).length_le (List.nodup_append.mp hcells.nodup).1
    have hnodes : Returns (do destroyNodes (← walkLimit) (buckets i) : ListM Unit) st.cells _ :=
      Returns.step walkLimit_ok (destroyNodes_spec (hchain i le_rfl (by omega)) hcells hlength)
    unfold destroyBuckets
    refine Returns.bind (onCells_returns hnodes) fun _ st₁ ⟨⟨hrest, hagree⟩, hsame⟩ => ?_
    rw [← hsame] at hblocks
    by_cases hsucc : (destroy i).Succeed
    · rw [rings_cons, List.cons_append] at hblocks
      refine Returns.bind (onBlocks_returns (rwlockDestroy_ok hsucc hblocks))
        fun r st₂ ⟨⟨hr, hblocks₂⟩, hcells₂⟩ => ?_
      rw [if_neg (not_not.mpr hr)]
      refine ih (by omega) (fun j hij hjn => ?_) (hcells₂ ▸ hrest) hblocks₂ fun j hj => ?_
      · rw [hcells₂]
        refine (hchain j (by omega) hjn).congr fun x hx => hagree x ?_
        exact mem_cellsFrom.mpr ⟨j, hij, by omega, hx⟩
      · by_cases hji : j = i
        · exact hji ▸ hsucc
        · exact hbefore j (by omega)
    · have hfails : onBlocks (rwlockDestroy (destroy i) (writerRing i)) st₁ = .ok (-1, st₁) := by
        unfold onBlocks
        rw [rwlockDestroy_fails hsucc]
      refine Returns.step hfails ?_
      rw [if_pos (by decide)]
      refine Returns.pure (.rest (by omega) hsucc hbefore ?_ ?_)
      · rwa [show n - (i + 1) = left by omega]
      · rwa [show n - i = left + 1 by omega]

/-- **`hash_destroy` gives everything back.** After any operations on a table from `hash_init` the
    heap is the one before it and the cells of the chains, and `hash_destroy` runs without a fault:
    it leaves the memory as it was before `hash_init`, or returns -1 at the first lock that it
    cannot destroy, with the buckets behind it and the arrays still there. -/
theorem hash_destroy_gives_back {calls : InitCalls} {blocks : Blocks} {b₁ : Cells Block}
    {es : List Event} (hn : 0 < n) (hn' : n ≤ 2 ^ 31 - 1) (hempty : ∀ j, calls.garbage j = nullAddr)
    (hall : ∀ j, (calls.destroy j).Succeed) (hinit : hashInit calls n b₀ = .ok (some blocks, b₁))
    (hrun : Run (Guarded (fun _ e => e.calls.Locks) step) ⟨h₀, fun _ => nullAddr, fun _ => 0, 0, n⟩
      es t) :
    ∃ m B, Run mapStep ∅ es m ∧ Represents t B ∧ Holds t B m ∧ Owned t B h₀ ∧
      ∀ destroy, Returns (hashDestroy destroy t blocks) ⟨t.heap, b₁⟩
        (Left destroy B blocks.writerRing
          [blocks.bucketSizes, blocks.locks, blocks.buckets, blocks.table] [] n h₀ b₀) := by
  obtain ⟨rfl, m, B, hmap, hr, hm, hgrown⟩ := owned_run hn hn' hrun
  have howned := hgrown.owned hr
  have hmade : Made calls b₀ t.hashSize (some blocks) b₁ :=
    Returns.of_eq hinit (hashInit_made hall hempty)
  refine ⟨m, B, hmap, hr, hm, howned, fun destroy => ?_⟩
  have hbuckets : Returns (destroyBuckets destroy t.buckets blocks.writerRing t.hashSize 0)
      ⟨t.heap, b₁⟩ _ :=
    destroyBuckets_spec (Nat.zero_add _) (fun j _ hj => hr.chain j hj) howned hmade
      fun j hj => absurd hj (Nat.not_lt_zero j)
  refine Returns.bind hbuckets fun r st hleft => ?_
  cases hleft with
  | nothing hsucc hcells hblocks =>
    rw [if_neg (by decide)]
    refine (onBlocks_returns (freeFour hblocks)).mono fun r st' ⟨⟨hr0, hfreed⟩, hsame⟩ => ?_
    rw [hr0]
    exact .nothing hsucc (hsame.trans hcells) hfreed
  | rest hk hfail hbefore hcells hblocks =>
    rw [if_pos rfl]
    exact Returns.pure (.rest hk hfail hbefore hcells hblocks)

/-- A table of one bucket, with one pair. -/
theorem hash_destroy_gives_back_insert :
    ∃ (blocks : Blocks) (b₁ : Cells Block) (e : Event) (t : Table), e.op = .insert [97] [49] ∧
      step ⟨∅, fun _ => nullAddr, fun _ => 0, 0, 1⟩ e t ∧
      ∃ m B, Run mapStep ∅ [e] m ∧ Represents t B ∧ Holds t B m ∧ Owned t B ∅ ∧
        ∀ destroy, Returns (hashDestroy destroy t blocks) ⟨t.heap, b₁⟩
          (Left destroy B blocks.writerRing
            [blocks.bucketSizes, blocks.locks, blocks.buckets, blocks.table] [] 1 ∅ ∅) := by
  have hlocks : allSucceed.Locks := ⟨rfl, rfl⟩
  obtain ⟨r, t, hcall, -⟩ : Returns (Op.call allSucceed (.insert [97] [49])) _ _ :=
    call_spec (represents_init (by decide) (by decide) hashInit_one) holds_empty hlocks
  have hstep : step _ ⟨.insert [97] [49], allSucceed, r.code, r.text t⟩ t := ⟨r, hcall, rfl, rfl⟩
  exact ⟨_, _, _, t, rfl, hstep, hash_destroy_gives_back (by decide) (by decide) (fun _ => rfl)
    (plenty_destroys ⟨0, 0, 0⟩) rfl (Run.single ⟨hlocks, hstep⟩)⟩

end Destroy

end SnuSysProg.Skvs.Lifetime
