import Mathlib.Data.Finset.Basic
import Mathlib.Logic.Function.Basic
import SnuSysProg.Lib.Run

/-
  The reader-writer lock of `rwlock.c`.

  Each function is cut at the points where `rw->lock` is released: a region runs from taking the
  mutex (or waking inside `pthread_cond_wait`) to releasing it (or waiting again), and is one
  atomic step. A region returns the lock, the wake-ups it sends, and whether the call returns or
  waits. The mutex itself is not a field: between two regions it is free.

  The pthread calls succeed here. The counters are `Int`; they are bounded by the number of
  threads. `delay` only makes the unlock functions sleep and is left out.
-/

namespace SnuSysProg.Rwlock

/-- `NUM_THREADS` of `common.h`. -/
def numThreads : Nat := 10

/-- `WRITER_RING_SIZE`. -/
def writerRingSize : Nat := numThreads

/-- `rwlock_t`. A slot of the ring that `calloc` left at zero holds no thread. -/
structure RwLock (T : Type*) where
  readCount : Int
  writeCount : Int
  writerRing : Nat → Option T
  writerRingHead : Nat
  writerRingTail : Nat

/-- Which condition variable a region signals before it gives up the mutex. -/
inductive Wake where
  | silent
  | signalWriters
  | broadcastReaders
  deriving DecidableEq

/-- How a region ends: the call returns a code, or it waits on its condition variable. -/
inductive Next where
  | ret (code : Int)
  | wait
  deriving DecidableEq

structure Region (T : Type*) where
  rw : RwLock T
  wake : Wake
  next : Next

variable {T : Type*} [DecidableEq T]

/-! ## The functions of rwlock.c -/

/-- `rwlock_init`, when the allocation and the pthread initialisers succeed. -/
def rwlockInit : RwLock T where
  readCount := 0
  writeCount := 0
  writerRing := fun _ => none
  writerRingHead := 0
  writerRingTail := 0

/-- The `while` test of `rwlock_read_lock`, entered with the mutex held. -/
def readLockTest (rw : RwLock T) : Region T :=
  if rw.writeCount > 0 then ⟨rw, .silent, .wait⟩ else ⟨rw, .silent, .ret 0⟩

/-- `rwlock_read_lock` up to its first wait or its return. -/
def rwlockReadLock (rw : RwLock T) : Region T :=
  readLockTest { rw with readCount := rw.readCount + 1 }

def rwlockReadUnlock (rw : RwLock T) : Region T :=
  let rw := { rw with readCount := rw.readCount - 1 }
  if rw.readCount = 0 then ⟨rw, .signalWriters, .ret 0⟩ else ⟨rw, .silent, .ret 0⟩

/-- The `while` test of `rwlock_write_lock` and, when it fails, the code after the loop. -/
def writeLockTest (self : T) (rw : RwLock T) : Region T :=
  if rw.writeCount > 0 ∨ rw.readCount > 0 ∨ rw.writerRing rw.writerRingHead ≠ some self then
    ⟨rw, if rw.writeCount = 0 ∧ rw.readCount = 0 then .signalWriters else .silent, .wait⟩
  else
    ⟨{ rw with
        writeCount := rw.writeCount + 1
        writerRingHead := (rw.writerRingHead + 1) % writerRingSize }, .silent, .ret 0⟩

/-- `rwlock_write_lock` up to its first wait or its return. A full ring refuses the writer. -/
def rwlockWriteLock (self : T) (rw : RwLock T) : Region T :=
  if (rw.writerRingTail + 1) % writerRingSize = rw.writerRingHead then ⟨rw, .silent, .ret (-1)⟩
  else
    writeLockTest self { rw with
      writerRing := Function.update rw.writerRing rw.writerRingTail (some self)
      writerRingTail := (rw.writerRingTail + 1) % writerRingSize }

def rwlockWriteUnlock (rw : RwLock T) : Region T :=
  let rw := { rw with writeCount := rw.writeCount - 1 }
  if rw.writeCount = 0 then
    ⟨rw, if rw.readCount = 0 then .signalWriters else .broadcastReaders, .ret 0⟩
  else ⟨rw, .silent, .ret 0⟩

/-! ## Threads -/

/-- Where a thread is. A waiting thread is blocked in `pthread_cond_wait`, or has been woken and
    still has to take the mutex. -/
inductive Phase where
  | idle
  | readWait (woken : Bool)
  | reading
  | writeWait (woken : Bool)
  | writing
  deriving DecidableEq

/-- The phase after a wake-up. -/
def Phase.wakeUp : Phase → Phase
  | .readWait _ => .readWait true
  | .writeWait _ => .writeWait true
  | p => p

structure State (T : Type*) where
  rw : RwLock T
  phase : T → Phase

/-- No thread has called the lock yet. -/
def init : State T := ⟨rwlockInit, fun _ => .idle⟩

/-- A thread runs one region. `woken` are the threads its signal or broadcast wakes. -/
inductive Event (T : Type*) where
  | readLock (t : T)
  | readRecheck (t : T)
  | readUnlock (t : T) (woken : Finset T)
  | writeLock (t : T) (woken : Finset T)
  | writeRecheck (t : T) (woken : Finset T)
  | writeUnlock (t : T) (woken : Finset T)
  | spuriousWakeup (t : T)

/-- The sets a signal may wake: `pthread_cond_signal` wakes at least one blocked waiter if there
    is one, `pthread_cond_broadcast` wakes all of them. -/
def Wake.Allows (phase : T → Phase) : Wake → Finset T → Prop
  | .silent, woken => woken = ∅
  | .signalWriters, woken =>
    (∀ t ∈ woken, phase t = .writeWait false) ∧
      ((∃ t, phase t = .writeWait false) → woken.Nonempty)
  | .broadcastReaders, woken => ∀ t, t ∈ woken ↔ phase t = .readWait false

/-- The phases after the threads in `woken` were woken. -/
def wakeAll (woken : Finset T) (phase : T → Phase) : T → Phase :=
  fun t => if t ∈ woken then (phase t).wakeUp else phase t

/-- The state after thread `t` ran the region `r`: it holds what it asked for when the call
    returned 0, is back outside when it was refused, and waits otherwise. -/
def State.after (s : State T) (t : T) (r : Region T) (woken : Finset T) (held waiting : Phase) :
    State T where
  rw := r.rw
  phase := Function.update (wakeAll woken s.phase) t
    (match r.next with
      | .ret code => if code = 0 then held else .idle
      | .wait => waiting)

/-- One step of one thread. A thread unlocks only what it holds, and calls one function at a
    time. -/
def step (s : State T) (e : Event T) (s' : State T) : Prop :=
  match e with
  | .readLock t =>
    s.phase t = .idle ∧ s' = s.after t (rwlockReadLock s.rw) ∅ .reading (.readWait false)
  | .readRecheck t =>
    s.phase t = .readWait true ∧ s' = s.after t (readLockTest s.rw) ∅ .reading (.readWait false)
  | .readUnlock t woken =>
    s.phase t = .reading ∧ (rwlockReadUnlock s.rw).wake.Allows s.phase woken ∧
      s' = s.after t (rwlockReadUnlock s.rw) woken .idle .idle
  | .writeLock t woken =>
    s.phase t = .idle ∧ (rwlockWriteLock t s.rw).wake.Allows s.phase woken ∧
      s' = s.after t (rwlockWriteLock t s.rw) woken .writing (.writeWait false)
  | .writeRecheck t woken =>
    s.phase t = .writeWait true ∧ (writeLockTest t s.rw).wake.Allows s.phase woken ∧
      s' = s.after t (writeLockTest t s.rw) woken .writing (.writeWait false)
  | .writeUnlock t woken =>
    s.phase t = .writing ∧ (rwlockWriteUnlock s.rw).wake.Allows s.phase woken ∧
      s' = s.after t (rwlockWriteUnlock s.rw) woken .idle .idle
  | .spuriousWakeup t =>
    (s.phase t = .readWait false ∨ s.phase t = .writeWait false) ∧
      s' = { s with phase := Function.update s.phase t (s.phase t).wakeUp }

end SnuSysProg.Rwlock
