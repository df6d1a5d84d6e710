import SnuSysProg.Rwlock.Basic

/-
  Reader-writer exclusion of `rwlock.c`, for any number of threads and any interleaving.

  `step_move` says once what a step does: one thread changes its phase and the two counters move
  with it (`Move`); other threads are at most woken. The invariant `Counts` ties the counters to
  the phases, one step keeps it (`step_balanced`, `counts_step`), and `rwlock_exclusion` reads the
  exclusion clauses off it.
-/

namespace SnuSysProg.Rwlock

open SnuSysProg.Lib

def Phase.isWriting (p : Phase) : Bool := decide (p = .writing)

def Phase.isReading (p : Phase) : Bool := decide (p = .reading)

/-- Inside `rwlock_read_lock`, after `read_count++` and before the return. -/
def Phase.isReadWaiting : Phase → Bool
  | .readWait _ => true
  | _ => false

/-- `read_count` counts a thread in this phase. -/
def Phase.isCounted : Phase → Bool
  | .readWait _ => true
  | .reading => true
  | _ => false

/-- What a step does to the phase of the thread that takes it and to the counters. -/
inductive Move : Phase → Phase → Int × Int → Int × Int → Prop
  | refused (c : Int × Int) : Move .idle .idle c c
  | rewait {w w' : Bool} (c : Int × Int) : Move (.readWait w) (.readWait w') c c
  | writeRewait {w w' : Bool} (c : Int × Int) : Move (.writeWait w) (.writeWait w') c c
  | readEnter {r w : Int} (h : w ≤ 0) : Move .idle .reading (r, w) (r + 1, w)
  | readQueue {r w : Int} : Move .idle (.readWait false) (r, w) (r + 1, w)
  | readAdmit {r w : Int} {b : Bool} (h : w ≤ 0) : Move (.readWait b) .reading (r, w) (r, w)
  | readLeave {r w : Int} : Move .reading .idle (r, w) (r - 1, w)
  | writeEnter {r w : Int} (hr : r ≤ 0) (hw : w ≤ 0) : Move .idle .writing (r, w) (r, w + 1)
  | writeQueue (c : Int × Int) : Move .idle (.writeWait false) c c
  | writeAdmit {r w : Int} {b : Bool} (hr : r ≤ 0) (hw : w ≤ 0) :
      Move (.writeWait b) .writing (r, w) (r, w + 1)
  | writeLeave {r w : Int} : Move .writing .idle (r, w) (r, w - 1)

/-- `read_count` and `write_count`. -/
def RwLock.counts {T : Type*} (rw : RwLock T) : Int × Int := (rw.readCount, rw.writeCount)

/-! ## What each region does -/

section Regions

variable {T : Type*}

theorem readLockTest_cases (rw : RwLock T) :
    (rw.writeCount ≤ 0 ∧ readLockTest rw = ⟨rw, .silent, .ret 0⟩) ∨
      readLockTest rw = ⟨rw, .silent, .wait⟩ := by
  unfold readLockTest
  by_cases h : rw.writeCount > 0
  · exact Or.inr (if_pos h)
  · exact Or.inl ⟨by omega, if_neg h⟩

theorem rwlockReadUnlock_counts (rw : RwLock T) :
    (rwlockReadUnlock rw).next = .ret 0 ∧
      (rwlockReadUnlock rw).rw.counts = (rw.readCount - 1, rw.writeCount) := by
  unfold rwlockReadUnlock
  dsimp only
  split <;> exact ⟨rfl, rfl⟩

theorem rwlockWriteUnlock_counts (rw : RwLock T) :
    (rwlockWriteUnlock rw).next = .ret 0 ∧
      (rwlockWriteUnlock rw).rw.counts = (rw.readCount, rw.writeCount - 1) := by
  unfold rwlockWriteUnlock
  dsimp only
  split <;> exact ⟨rfl, rfl⟩

variable [DecidableEq T]

theorem writeLockTest_cases (self : T) (rw : RwLock T) :
    (rw.readCount ≤ 0 ∧ rw.writeCount ≤ 0 ∧ (writeLockTest self rw).next = .ret 0 ∧
        (writeLockTest self rw).rw.counts = (rw.readCount, rw.writeCount + 1)) ∨
      ((writeLockTest self rw).next = .wait ∧ (writeLockTest self rw).rw.counts = rw.counts) := by
  unfold writeLockTest
  by_cases h : rw.writeCount > 0 ∨ rw.readCount > 0 ∨ rw.writerRing rw.writerRingHead ≠ some self
  · rw [if_pos h]
    exact Or.inr ⟨rfl, rfl⟩
  · rw [if_neg h]
    exact Or.inl ⟨by omega, by omega, rfl, rfl⟩

theorem rwlockWriteLock_cases (self : T) (rw : RwLock T) :
    ((rwlockWriteLock self rw).next = .ret (-1) ∧
        (rwlockWriteLock self rw).rw = rw) ∨
      (rw.readCount ≤ 0 ∧ rw.writeCount ≤ 0 ∧ (rwlockWriteLock self rw).next = .ret 0 ∧
        (rwlockWriteLock self rw).rw.counts = (rw.readCount, rw.writeCount + 1)) ∨
      ((rwlockWriteLock self rw).next = .wait ∧
        (rwlockWriteLock self rw).rw.counts = rw.counts) := by
  unfold rwlockWriteLock
  by_cases h : (rw.writerRingTail + 1) % writerRingSize = rw.writerRingHead
  · rw [if_pos h]
    exact Or.inl ⟨rfl, rfl⟩
  · rw [if_neg h]
    exact Or.inr (writeLockTest_cases self { rw with
      writerRing := Function.update rw.writerRing rw.writerRingTail (some self)
      writerRingTail := (rw.writerRingTail + 1) % writerRingSize })

end Regions

/-! ## What a step does -/

section Steps

variable {T : Type*} [DecidableEq T]

/-- The phase a thread ends up in after a region. -/
def Next.phase (held waiting : Phase) : Next → Phase
  | .ret code => if code = 0 then held else .idle
  | .wait => waiting

/-- What holds of all phases in which a region may leave its thread. -/
theorem Next.phase_cases {P : Phase → Prop} {held waiting : Phase} (hheld : P held)
    (hwaiting : P waiting) (hidle : P .idle) (n : Next) : P (n.phase held waiting) := by
  cases n with
  | wait => exact hwaiting
  | ret code =>
    rw [Next.phase]
    split
    · exact hheld
    · exact hidle

theorem after_phase (s : State T) (t : T) (r : Region T) (woken : Finset T)
    (held waiting : Phase) :
    (s.after t r woken held waiting).phase =
      Function.update (wakeAll woken s.phase) t (r.next.phase held waiting) := by
  unfold State.after Next.phase
  rfl

@[simp] theorem wakeAll_empty (phase : T → Phase) : wakeAll ∅ phase = phase := by
  funext t
  simp [wakeAll]

/-- The thread that takes the step. -/
def Event.thread : Event T → T
  | .readLock t => t
  | .readRecheck t => t
  | .readUnlock t _ => t
  | .writeLock t _ => t
  | .writeRecheck t _ => t
  | .writeUnlock t _ => t
  | .spuriousWakeup t => t

/-- A step is a move of its thread. The other threads are at most woken. -/
theorem step_move {s s' : State T} {e : Event T} (h : step s e s') :
    ∃ x woken, s'.phase = Function.update (wakeAll woken s.phase) e.thread x ∧
      Move (s.phase e.thread) x s.rw.counts s'.rw.counts := by
  cases e with
  | readLock t =>
    obtain ⟨hp, rfl⟩ := h
    refine ⟨_, ∅, after_phase s t _ ∅ _ _, ?_⟩
    rw [Event.thread, hp]
    rcases readLockTest_cases { s.rw with readCount := s.rw.readCount + 1 } with ⟨hw, hr⟩ | hr
    · simp only [State.after, rwlockReadLock, hr]
      exact Move.readEnter hw
    · simp only [State.after, rwlockReadLock, hr]
      exact Move.readQueue
  | readRecheck t =>
    obtain ⟨hp, rfl⟩ := h
    refine ⟨_, ∅, after_phase s t _ ∅ _ _, ?_⟩
    rw [Event.thread, hp]
    rcases readLockTest_cases s.rw with ⟨hw, hr⟩ | hr
    · simp only [State.after, hr]
      exact Move.readAdmit hw
    · simp only [State.after, hr]
      exact Move.rewait _
  | readUnlock t woken =>
    obtain ⟨hp, -, rfl⟩ := h
    refine ⟨_, woken, after_phase s t _ woken _ _, ?_⟩
    obtain ⟨hn, hc⟩ := rwlockReadUnlock_counts s.rw
    rw [Event.thread, hp, hn]
    simp only [State.after, hc]
    exact Move.readLeave
  | writeLock t woken =>
    obtain ⟨hp, -, rfl⟩ := h
    refine ⟨_, woken, after_phase s t _ woken _ _, ?_⟩
    rw [Event.thread, hp]
    rcases rwlockWriteLock_cases t s.rw with ⟨hn, hc⟩ | ⟨hr, hw, hn, hc⟩ | ⟨hn, hc⟩
    · simp only [State.after, hn, hc]
      exact Move.refused _
    · simp only [State.after, hn, hc]
      exact Move.writeEnter hr hw
    · simp only [State.after, hn, hc]
      exact Move.writeQueue _
  | writeRecheck t woken =>
    obtain ⟨hp, -, rfl⟩ := h
    refine ⟨_, woken, after_phase s t _ woken _ _, ?_⟩
    rw [Event.thread, hp]
    rcases writeLockTest_cases t s.rw with ⟨hr, hw, hn, hc⟩ | ⟨hn, hc⟩
    · simp only [State.after, hn, hc]
      exact Move.writeAdmit hr hw
    · simp only [State.after, hn, hc]
      exact Move.writeRewait _
  | writeUnlock t woken =>
    obtain ⟨hp, -, rfl⟩ := h
    refine ⟨_, woken, after_phase s t _ woken _ _, ?_⟩
    obtain ⟨hn, hc⟩ := rwlockWriteUnlock_counts s.rw
    rw [Event.thread, hp, hn]
    simp only [State.after, hc]
    exact Move.writeLeave
  | spuriousWakeup t =>
    obtain ⟨hp, rfl⟩ := h
    refine ⟨(s.phase t).wakeUp, ∅, ?_, ?_⟩
    · rw [Event.thread, wakeAll_empty]
    · rcases hp with hp | hp
      · rw [Event.thread, hp]
        exact Move.rewait _
      · rw [Event.thread, hp]
        exact Move.writeRewait _

end Steps

/-! ## The invariant -/

section Invariant

variable {T : Type*} [Fintype T] [DecidableEq T]

/-- Waking threads changes no count of a phase property that ignores wake-ups. -/
theorem count_wakeAll {p : Phase → Bool} (hp : ∀ x : Phase, p x.wakeUp = p x) (woken : Finset T)
    (phase : T → Phase) : count p (wakeAll woken phase) = count p phase := by
  refine count_congr fun t => ?_
  unfold wakeAll
  split
  · exact hp _
  · rfl

/-- The count of `p` after a thread's move. -/
theorem count_move {p : Phase → Bool} (hp : ∀ x : Phase, p x.wakeUp = p x) {woken : Finset T}
    {phase phase' : T → Phase} {t : T} {x : Phase}
    (h : phase' = Function.update (wakeAll woken phase) t x) :
    count p phase' + (if p (phase t) then 1 else 0) =
      count p phase + (if p x then 1 else 0) := by
  have hu := count_update p (wakeAll woken phase) t x
  have ht : p (wakeAll woken phase t) = p (phase t) := by
    unfold wakeAll
    split
    · exact hp _
    · rfl
  rw [ht, count_wakeAll hp] at hu
  rw [h]
  exact hu

/-- The numbers of threads that the counters count, after a thread's move. -/
theorem count_moves {woken : Finset T} {phase phase' : T → Phase} {t : T} {x : Phase}
    (h : phase' = Function.update (wakeAll woken phase) t x) :
    count Phase.isWriting phase' + (if (phase t).isWriting then 1 else 0) =
        count Phase.isWriting phase + (if x.isWriting then 1 else 0) ∧
      count Phase.isReading phase' + (if (phase t).isReading then 1 else 0) =
        count Phase.isReading phase + (if x.isReading then 1 else 0) ∧
      count Phase.isReadWaiting phase' + (if (phase t).isReadWaiting then 1 else 0) =
        count Phase.isReadWaiting phase + (if x.isReadWaiting then 1 else 0) :=
  ⟨count_move (by intro x; cases x <;> rfl) h, count_move (by intro x; cases x <;> rfl) h,
    count_move (by intro x; cases x <;> rfl) h⟩

/-- The counters count the threads, and a writer is alone. -/
structure Counts (s : State T) : Prop where
  write : s.rw.writeCount = count Phase.isWriting s.phase
  read : s.rw.readCount = count Phase.isReading s.phase + count Phase.isReadWaiting s.phase
  one : count Phase.isWriting s.phase ≤ 1
  apart : count Phase.isWriting s.phase = 0 ∨ count Phase.isReading s.phase = 0

omit [DecidableEq T] in
/-- While `read_count` counts a thread it is positive. -/
theorem Counts.read_of_counted {s : State T} {t : T} (h : Counts s)
    (hc : (s.phase t).isCounted = true) :
    0 < s.rw.readCount := by
  have hr := h.read
  cases hp : s.phase t with
  | readWait b =>
    have hpos : 0 < count Phase.isReadWaiting s.phase := count_pos_of (t := t) (by rw [hp]; rfl)
    omega
  | reading =>
    have hpos : 0 < count Phase.isReading s.phase := count_pos_of (t := t) (by rw [hp]; rfl)
    omega
  | _ => exact absurd hc (by rw [hp]; exact Bool.false_ne_true)

omit [DecidableEq T] in
theorem counts_init : Counts (init : State T) := by
  have hw : count Phase.isWriting (fun _ : T => Phase.idle) = 0 := count_eq_zero.mpr fun _ => rfl
  have hr : count Phase.isReading (fun _ : T => Phase.idle) = 0 := count_eq_zero.mpr fun _ => rfl
  have hq : count Phase.isReadWaiting (fun _ : T => Phase.idle) = 0 :=
    count_eq_zero.mpr fun _ => rfl
  constructor <;> simp [init, rwlockInit, hw, hr, hq]

/-- A step changes the counters as it changes the numbers of threads they count, and lets a thread
    in only where the counters admit it. -/
structure Balanced (s s' : State T) : Prop where
  write : s'.rw.writeCount - count Phase.isWriting s'.phase =
    s.rw.writeCount - count Phase.isWriting s.phase
  read : s'.rw.readCount - (count Phase.isReading s'.phase + count Phase.isReadWaiting s'.phase) =
    s.rw.readCount - (count Phase.isReading s.phase + count Phase.isReadWaiting s.phase)
  writer_enters : count Phase.isWriting s'.phase ≤ count Phase.isWriting s.phase ∨
    (s.rw.readCount ≤ 0 ∧ s.rw.writeCount ≤ 0 ∧
      count Phase.isWriting s'.phase = count Phase.isWriting s.phase + 1)
  reader_enters : count Phase.isReading s'.phase ≤ count Phase.isReading s.phase ∨
    (s.rw.writeCount ≤ 0 ∧ count Phase.isWriting s'.phase = count Phase.isWriting s.phase)

theorem step_balanced {s s' : State T} {e : Event T} (h : step s e s') : Balanced s s' := by
  obtain ⟨x, woken, hphase, hmove⟩ := step_move h
  generalize e.thread = t at hphase hmove
  obtain ⟨hw, hr, hq⟩ := count_moves hphase
  generalize hc : s.rw.counts = c at hmove
  generalize hc' : s'.rw.counts = c' at hmove
  generalize hx : s.phase t = y at hmove hw hr hq
  cases hmove <;>
    simp only [RwLock.counts, Prod.mk.injEq] at hc hc' <;>
    simp only [Phase.isWriting, Phase.isReading, Phase.isReadWaiting, reduceCtorEq, decide_true,
      decide_false, if_true, Bool.false_eq_true, if_false, Nat.add_zero] at hw hr hq <;>
    exact ⟨by grind, by grind, by grind, by grind⟩

/-- One step keeps the invariant. -/
theorem counts_step {s s' : State T} {e : Event T} (hi : Counts s) (h : step s e s') :
    Counts s' := by
  obtain ⟨iw, ir, i1, ia⟩ := hi
  obtain ⟨hw, hr, hwriter, hreader⟩ := step_balanced h
  exact ⟨by omega, by omega, by omega, by omega⟩

theorem counts_run {s : State T} {es : List (Event T)} (h : Run step init es s) : Counts s :=
  Run.preserves (P := Counts) (fun _ _ _ hi hs => counts_step hi hs) h counts_init

/-- **What the lock promises.** -/
structure Exclusion (s : State T) : Prop where
  /-- At most one thread holds the write lock. -/
  one_writer : ∀ t u, s.phase t = .writing → s.phase u = .writing → t = u
  /-- No thread holds a read lock while another holds the write lock. -/
  no_reader : ∀ t u, s.phase t = .reading → s.phase u ≠ .writing
  /-- `write_count` is 0 or 1 and counts the writers that hold the lock. -/
  write_bound : s.rw.writeCount = 0 ∨ s.rw.writeCount = 1
  write_count : s.rw.writeCount = count Phase.isWriting s.phase
  /-- `read_count` counts the readers that hold the lock and those still waiting for it. -/
  read_count :
    s.rw.readCount = count Phase.isReading s.phase + count Phase.isReadWaiting s.phase

/-- **Reader-writer exclusion.** It holds in every state that any interleaving of any number of
    threads reaches from `rwlock_init`. -/
theorem rwlock_exclusion {s : State T} {es : List (Event T)} (h : Run step init es s) :
    Exclusion s := by
  obtain ⟨hw, hr, h1, ha⟩ := counts_run h
  refine ⟨?_, ?_, by omega, hw, hr⟩
  · intro t u ht hu
    exact eq_of_count_le_one h1 (decide_eq_true ht) (decide_eq_true hu)
  · intro t u ht hu
    have hread : 0 < count Phase.isReading s.phase := count_pos_of (decide_eq_true ht)
    have hwrite : 0 < count Phase.isWriting s.phase := count_pos_of (decide_eq_true hu)
    omega

end Invariant

/-- Reader 0 enters, writer 1 queues and waits, the reader leaves and wakes it, it acquires. -/
theorem rwlock_exclusion_handover :
    ∃ s : State (Fin 2), s.phase 1 = .writing ∧ Exclusion s := by
  have start : Run step init [] (init : State (Fin 2)) := Run.nil _
  have entered := start.snoc (show step _ (.readLock 0) _ from ⟨rfl, rfl⟩)
  have queued := entered.snoc (show step _ (.writeLock 1 ∅) _ from ⟨rfl, rfl, rfl⟩)
  have left := queued.snoc (show step _ (.readUnlock 0 {1}) _ from
    ⟨rfl, ⟨by decide, fun _ => ⟨1, by decide⟩⟩, rfl⟩)
  have admitted := left.snoc (show step _ (.writeRecheck 1 ∅) _ from ⟨rfl, rfl, rfl⟩)
  exact ⟨_, rfl, rwlock_exclusion admitted⟩

end SnuSysProg.Rwlock
