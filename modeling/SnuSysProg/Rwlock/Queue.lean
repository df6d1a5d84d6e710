import Mathlib.Data.Fintype.Card
import SnuSysProg.Lib.Ring
import SnuSysProg.Rwlock.Exclusion

/-
  The writers queued in `writer_ring`.

  In every reachable state the ring holds exactly the threads that wait in `rwlock_write_lock`,
  each once, in the order they came (`queued_run`). `queued_step` says once what a step does to
  the queue (`QueueMove`): a writer is added at the tail, or the oldest one leaves with the lock.
  A call of `rwlock_write_lock` is refused exactly when nine others wait, and ten threads can bring
  that about (`rwlockWriteLock_accepts_iff`).
-/

namespace SnuSysProg.Rwlock

open SnuSysProg.Lib

/-- Inside `rwlock_write_lock`, after the thread was put in the ring and before the return. -/
def Phase.isWriteWaiting : Phase → Bool
  | .writeWait _ => true
  | _ => false

theorem isWriteWaiting_iff {p : Phase} : p.isWriteWaiting = true ↔ ∃ b, p = .writeWait b := by
  cases p <;> simp [Phase.isWriteWaiting]

@[simp] theorem isWriteWaiting_wakeUp (p : Phase) : p.wakeUp.isWriteWaiting = p.isWriteWaiting := by
  cases p <;> rfl

section Regions

variable {T : Type*}

/-- The ring of the lock holds the queue `q`. -/
def RwLock.Holds (rw : RwLock T) (q : List T) : Prop :=
  Ring writerRingSize rw.writerRing rw.writerRingHead rw.writerRingTail q

theorem holds_init : (rwlockInit : RwLock T).Holds [] := Ring.empty (Nat.succ_pos _)

/-! ## What each region does to the ring -/

theorem rwlockReadLock_holds {rw : RwLock T} {q : List T} (h : rw.Holds q) :
    (rwlockReadLock rw).rw.Holds q := by
  unfold rwlockReadLock readLockTest
  split <;> exact h

theorem readLockTest_holds {rw : RwLock T} {q : List T} (h : rw.Holds q) :
    (readLockTest rw).rw.Holds q := by
  unfold readLockTest
  split <;> exact h

theorem rwlockReadUnlock_holds {rw : RwLock T} {q : List T} (h : rw.Holds q) :
    (rwlockReadUnlock rw).rw.Holds q := by
  unfold rwlockReadUnlock
  dsimp only
  split <;> exact h

theorem rwlockWriteUnlock_holds {rw : RwLock T} {q : List T} (h : rw.Holds q) :
    (rwlockWriteUnlock rw).rw.Holds q := by
  unfold rwlockWriteUnlock
  dsimp only
  split <;> exact h

variable [DecidableEq T]

/-- A writer in the ring gets the lock when it is free and the writer is the oldest; otherwise it
    waits, and passes the wake-up on if the lock is free. -/
inductive WriteTest (self : T) (rw : RwLock T) (q : List T) : Region T → Prop
  | enter {q' : List T} (hr : rw.readCount ≤ 0) (hw : rw.writeCount ≤ 0) (hq : q = self :: q') :
      WriteTest self rw q ⟨{ rw with
        writeCount := rw.writeCount + 1
        writerRingHead := (rw.writerRingHead + 1) % writerRingSize }, .silent, .ret 0⟩
  | busy (h : rw.writeCount > 0 ∨ rw.readCount > 0) (wake : Wake) :
      WriteTest self rw q ⟨rw, wake, .wait⟩
  | pass {a : T} {q' : List T} (hq : q = a :: q') (ha : a ≠ self) {wake : Wake}
      (hwake : rw.writeCount = 0 → rw.readCount = 0 → wake = .signalWriters) :
      WriteTest self rw q ⟨rw, wake, .wait⟩

theorem writeLockTest_spec {self : T} {rw : RwLock T} {q : List T} (h : rw.Holds q)
    (hself : self ∈ q) : WriteTest self rw q (writeLockTest self rw) := by
  unfold writeLockTest
  cases q with
  | nil => exact absurd hself List.not_mem_nil
  | cons a q' =>
    have hfront : rw.writerRing rw.writerRingHead = some a := Ring.front h
    by_cases hbusy : rw.writeCount > 0 ∨ rw.readCount > 0
    · rw [if_pos (or_assoc.mp (Or.inl hbusy))]
      exact .busy hbusy _
    · obtain ⟨hw, hr⟩ := not_or.mp hbusy
      by_cases ha : a = self
      · subst ha
        rw [if_neg (by simp [hw, hr, hfront])]
        exact .enter (by omega) (by omega) rfl
      · rw [if_pos (Or.inr (Or.inr (by simp [hfront, ha])))]
        exact .pass rfl ha fun hw0 hr0 => if_pos ⟨hw0, hr0⟩

/-- The lock with a thread added at the tail of the ring. -/
def RwLock.enqueue (rw : RwLock T) (self : T) : RwLock T :=
  { rw with
    writerRing := Function.update rw.writerRing rw.writerRingTail (some self)
    writerRingTail := (rw.writerRingTail + 1) % writerRingSize }

omit [DecidableEq T] in
theorem enqueue_holds {rw : RwLock T} {q : List T} {self : T} (h : rw.Holds q)
    (hroom : q.length + 1 ≠ writerRingSize) : (rw.enqueue self).Holds (q ++ [self]) :=
  Ring.push h hroom

theorem rwlockWriteLock_full {self : T} {rw : RwLock T} {q : List T} (h : rw.Holds q)
    (hfull : q.length + 1 = writerRingSize) :
    rwlockWriteLock self rw = ⟨rw, .silent, .ret (-1)⟩ :=
  if_pos ((Ring.full_iff h).mpr hfull)

theorem rwlockWriteLock_room {self : T} {rw : RwLock T} {q : List T} (h : rw.Holds q)
    (hroom : q.length + 1 ≠ writerRingSize) :
    rwlockWriteLock self rw = writeLockTest self (rw.enqueue self) :=
  if_neg fun hfull => hroom ((Ring.full_iff h).mp hfull)

theorem rwlockWriteLock_spec {self : T} {rw : RwLock T} {q : List T} (h : rw.Holds q)
    (hroom : q.length + 1 ≠ writerRingSize) :
    WriteTest self (rw.enqueue self) (q ++ [self]) (rwlockWriteLock self rw) := by
  rw [rwlockWriteLock_room h hroom]
  exact writeLockTest_spec (enqueue_holds h hroom) (by simp)

end Regions

/-! ## What a step does to the queue -/

section Steps

variable {T : Type*} [DecidableEq T] {s s' : State T} {q : List T} {e : Event T} {t : T}

/-- The threads waiting in `rwlock_write_lock` are queued in the ring, each once. -/
structure Queued (s : State T) (q : List T) : Prop where
  ring : s.rw.Holds q
  nodup : q.Nodup
  waiting : ∀ t, t ∈ q ↔ (s.phase t).isWriteWaiting = true

/-- The thread that is put in the ring. -/
def enqueues (s : State T) : Event T → List T
  | .writeLock t _ =>
    if (s.rw.writerRingTail + 1) % writerRingSize = s.rw.writerRingHead then [] else [t]
  | _ => []

/-- The thread whose `rwlock_write_lock` returns 0. -/
def acquires (s : State T) : Event T → List T
  | .writeLock t _ => if (rwlockWriteLock t s.rw).next = .ret 0 then [t] else []
  | .writeRecheck t _ => if (writeLockTest t s.rw).next = .ret 0 then [t] else []
  | _ => []

/-- What a step of thread `t` does to the queue: nothing, or `t` is added at the tail, or `t` is
    the oldest writer and takes the lock, or `t` finds the queue empty and takes the lock. -/
inductive QueueMove (t : T) : Phase → Phase → List T → List T → Prop
  | keep {p p' : Phase} {q : List T} (h : p.isWriteWaiting = p'.isWriteWaiting)
      (h' : p' ≠ .writing) : QueueMove t p p' q q
  | push {q : List T} : QueueMove t .idle (.writeWait false) q (q ++ [t])
  | pop {b : Bool} {q : List T} : QueueMove t (.writeWait b) .writing (t :: q) q
  | pass : QueueMove t .idle .writing [] []

omit [DecidableEq T] in
theorem queued_init : Queued (init : State T) [] := by
  refine ⟨holds_init, List.nodup_nil, fun t => ?_⟩
  simp [init, Phase.isWriteWaiting]

/-- The threads that are at most woken wait for the write lock as before. -/
theorem isWriteWaiting_others {x : Phase} {woken : Finset T}
    (hphase : s'.phase = Function.update (wakeAll woken s.phase) t x) {u : T} (hu : u ≠ t) :
    (s'.phase u).isWriteWaiting = (s.phase u).isWriteWaiting := by
  rw [hphase, Function.update_of_ne hu]
  unfold wakeAll
  split
  · exact isWriteWaiting_wakeUp _
  · rfl

/-- The phases of a step make a queue of its queue. -/
theorem Queued.moved {q' : List T} {x : Phase} {woken : Finset T} (h : Queued s q)
    (hphase : s'.phase = Function.update (wakeAll woken s.phase) t x) (hring : s'.rw.Holds q')
    (hmove : QueueMove t (s.phase t) x q q') : Queued s' q' := by
  have hothers : ∀ u, u ≠ t → (s'.phase u).isWriteWaiting = (s.phase u).isWriteWaiting :=
    fun _ hu => isWriteWaiting_others hphase hu
  have hself : s'.phase t = x := by rw [hphase, Function.update_self]
  have hidle : (s.phase t).isWriteWaiting = false → t ∉ q := by
    intro hp hmem
    rw [(h.waiting t).mp hmem] at hp
    exact absurd hp (by decide)
  have hnodup := h.nodup
  have hwaiting := h.waiting
  generalize hp : s.phase t = p at hmove hidle
  cases hmove with
  | keep hkeep =>
    refine ⟨hring, hnodup, fun u => ?_⟩
    by_cases hu : u = t
    · rw [hu, hself, ← hkeep, ← hp]
      exact hwaiting t
    · rw [hothers u hu]
      exact hwaiting u
  | push =>
    have hout := hidle rfl
    refine ⟨hring, List.nodup_append.mpr ⟨hnodup, List.nodup_singleton t, ?_⟩, fun u => ?_⟩
    · intro a ha b hb
      rw [List.mem_singleton.mp hb]
      exact fun hat => hout (hat ▸ ha)
    · rw [List.mem_append, List.mem_singleton]
      by_cases hu : u = t
      · rw [hu, hself]
        simp [Phase.isWriteWaiting]
      · rw [hothers u hu, hwaiting u]
        simp [hu]
  | pop =>
    obtain ⟨hout, hnodup'⟩ := List.nodup_cons.mp hnodup
    refine ⟨hring, hnodup', fun u => ?_⟩
    by_cases hu : u = t
    · rw [hu, hself]
      simp [hout, Phase.isWriteWaiting]
    · rw [hothers u hu, ← hwaiting u]
      simp [hu]
  | pass =>
    refine ⟨hring, hnodup, fun u => ?_⟩
    by_cases hu : u = t
    · rw [hu, hself]
      simp [Phase.isWriteWaiting]
    · rw [hothers u hu]
      exact hwaiting u

omit [DecidableEq T] in
theorem WriteTest.accepted {self : T} {rw : RwLock T} {r : Region T} (h : WriteTest self rw q r) :
    r.next ≠ .ret (-1) := by
  cases h <;> simp

omit [DecidableEq T] in
/-- The queue after a writer in it ran its test, and where that leaves the writer. -/
theorem WriteTest.move {self : T} {rw : RwLock T} {r : Region T} {b : Bool}
    (hr : WriteTest self rw q r) (hring : rw.Holds q) :
    ∃ q', r.rw.Holds q' ∧
      QueueMove self (.writeWait b) (r.next.phase .writing (.writeWait false)) q q' ∧
      q = (if r.next = .ret 0 then [self] else []) ++ q' := by
  cases hr with
  | enter hread hwrite hq =>
    subst hq
    exact ⟨_, Ring.pop hring, .pop, rfl⟩
  | busy hbusy wake => exact ⟨q, hring, .keep rfl nofun, rfl⟩
  | pass hq ha hwake => exact ⟨q, hring, .keep rfl nofun, rfl⟩

omit [DecidableEq T] in
/-- The same for a writer that joins and runs its first test. -/
theorem WriteTest.join {self : T} {rw : RwLock T} {r : Region T}
    (hr : WriteTest self rw (q ++ [self]) r) (hring : rw.Holds (q ++ [self])) (hself : self ∉ q) :
    ∃ q', r.rw.Holds q' ∧
      QueueMove self .idle (r.next.phase .writing (.writeWait false)) q q' ∧
      q ++ [self] = (if r.next = .ret 0 then [self] else []) ++ q' := by
  cases hr with
  | enter hread hwrite hq =>
    cases q with
    | nil => exact ⟨[], Ring.pop hring, .pass, rfl⟩
    | cons a q =>
      have ha : a = self := (List.cons.inj hq).1
      exact absurd (ha ▸ List.mem_cons_self ..) hself
  | busy hbusy wake => exact ⟨q ++ [self], hring, .push, rfl⟩
  | pass hq ha hwake => exact ⟨q ++ [self], hring, .push, rfl⟩

/-- A region of a thread that is not in `rwlock_write_lock` leaves the queue as it is. -/
theorem Queued.after {woken : Finset T} {held waiting : Phase} (hq : Queued s q) (r : Region T)
    (hring : r.rw.Holds q) (hp : (s.phase t).isWriteWaiting = false)
    (hheld : held.isWriteWaiting = false ∧ held ≠ .writing)
    (hwaiting : waiting.isWriteWaiting = false ∧ waiting ≠ .writing) :
    ∃ q' x woken', Queued (s.after t r woken held waiting) q' ∧
      (s.after t r woken held waiting).phase = Function.update (wakeAll woken' s.phase) t x ∧
      QueueMove t (s.phase t) x q q' ∧ q ++ [] = [] ++ q' := by
  have hphase := after_phase s t r woken held waiting
  have hx : (r.next.phase held waiting).isWriteWaiting = false ∧
      r.next.phase held waiting ≠ .writing :=
    Next.phase_cases (P := fun x => x.isWriteWaiting = false ∧ x ≠ .writing) hheld hwaiting
      (by decide) r.next
  have hmove : QueueMove t (s.phase t) (r.next.phase held waiting) q q :=
    .keep (hp.trans hx.1.symm) hx.2
  exact ⟨q, _, woken, hq.moved hphase hring hmove, hphase, hmove, List.append_nil q⟩

/-- A step is its thread's move in the queue. Who is put in the ring is the new last of the queue,
    who gets the lock was the first. -/
theorem queue_move (hq : Queued s q) (h : step s e s') :
    ∃ q' x woken, Queued s' q' ∧ s'.phase = Function.update (wakeAll woken s.phase) e.thread x ∧
      QueueMove e.thread (s.phase e.thread) x q q' ∧ q ++ enqueues s e = acquires s e ++ q' := by
  cases e with
  | readLock t =>
    obtain ⟨hp, rfl⟩ := h
    exact hq.after _ (rwlockReadLock_holds hq.ring) (hp ▸ rfl) (by decide) (by decide)
  | readRecheck t =>
    obtain ⟨hp, rfl⟩ := h
    exact hq.after _ (readLockTest_holds hq.ring) (hp ▸ rfl) (by decide) (by decide)
  | readUnlock t woken =>
    obtain ⟨hp, -, rfl⟩ := h
    exact hq.after _ (rwlockReadUnlock_holds hq.ring) (hp ▸ rfl) (by decide) (by decide)
  | writeUnlock t woken =>
    obtain ⟨hp, -, rfl⟩ := h
    exact hq.after _ (rwlockWriteUnlock_holds hq.ring) (hp ▸ rfl) (by decide) (by decide)
  | writeLock t woken =>
    obtain ⟨hp, -, rfl⟩ := h
    have hphase := after_phase s t (rwlockWriteLock t s.rw) woken .writing (.writeWait false)
    by_cases hfull : q.length + 1 = writerRingSize
    · have hmove : QueueMove t (s.phase t)
          ((rwlockWriteLock t s.rw).next.phase .writing (.writeWait false)) q q := by
        rw [hp, rwlockWriteLock_full hq.ring hfull]
        exact .keep rfl nofun
      have hring : (rwlockWriteLock t s.rw).rw.Holds q := by
        rw [rwlockWriteLock_full hq.ring hfull]
        exact hq.ring
      have horder : q ++ enqueues s (.writeLock t woken) =
          acquires s (.writeLock t woken) ++ q := by
        rw [enqueues, acquires, if_pos ((Ring.full_iff hq.ring).mpr hfull),
          rwlockWriteLock_full hq.ring hfull]
        exact List.append_nil q
      exact ⟨q, _, woken, hq.moved hphase hring hmove, hphase, hmove, horder⟩
    · have hout : t ∉ q := by
        rw [hq.waiting t, hp]
        decide
      obtain ⟨q', hring, hmove, horder⟩ :=
        (rwlockWriteLock_spec hq.ring hfull).join (enqueue_holds hq.ring hfull) hout
      rw [← hp] at hmove
      refine ⟨q', _, woken, hq.moved hphase hring hmove, hphase, hmove, ?_⟩
      rw [enqueues, if_neg (mt (Ring.full_iff hq.ring).mp hfull)]
      exact horder
  | writeRecheck t woken =>
    obtain ⟨hp, -, rfl⟩ := h
    have hphase := after_phase s t (writeLockTest t s.rw) woken .writing (.writeWait false)
    have hin : t ∈ q := by
      rw [hq.waiting t, hp]
      rfl
    obtain ⟨q', hring, hmove, horder⟩ := (writeLockTest_spec hq.ring hin).move (b := true) hq.ring
    rw [← hp] at hmove
    exact ⟨q', _, woken, hq.moved hphase hring hmove, hphase, hmove,
      (List.append_nil q).trans horder⟩
  | spuriousWakeup t =>
    obtain ⟨hp, rfl⟩ := h
    have hphase : Function.update s.phase t (s.phase t).wakeUp =
        Function.update (wakeAll ∅ s.phase) t (s.phase t).wakeUp := by rw [wakeAll_empty]
    have hmove : QueueMove t (s.phase t) (s.phase t).wakeUp q q := by
      refine .keep (isWriteWaiting_wakeUp _).symm fun h => ?_
      rcases hp with hp | hp <;> rw [hp] at h <;> exact absurd h (by decide)
    exact ⟨q, _, ∅, hq.moved hphase hq.ring hmove, hphase, hmove, List.append_nil q⟩

/-- A step is one thread's move in the queue. -/
theorem queued_step (hq : Queued s q) (h : step s e s') :
    ∃ q' t x woken, Queued s' q' ∧
      s'.phase = Function.update (wakeAll woken s.phase) t x ∧ QueueMove t (s.phase t) x q q' := by
  obtain ⟨q', x, woken, hq', hphase, hmove, -⟩ := queue_move hq h
  exact ⟨q', e.thread, x, woken, hq', hphase, hmove⟩

theorem queued_run {es : List (Event T)} (h : Run step init es s) : ∃ q, Queued s q := by
  refine Run.preserves (P := fun s => ∃ q, Queued s q) ?_ h ⟨[], queued_init⟩
  intro s e s' ⟨q, hq⟩ hstep
  obtain ⟨q', -, -, -, hq', -⟩ := queued_step hq hstep
  exact ⟨q', hq'⟩

/-! ## Refused writers -/

theorem Queued.refused_iff (h : Queued s q) :
    (rwlockWriteLock t s.rw).next = .ret (-1) ↔ q.length + 1 = writerRingSize := by
  constructor
  · intro hrefused
    by_contra hroom
    exact (rwlockWriteLock_spec h.ring hroom).accepted hrefused
  · intro hfull
    rw [rwlockWriteLock_full h.ring hfull]

/-- **When a writer gets a slot.** Among at most `NUM_THREADS` threads, a call of
    `rwlock_write_lock` returns -1 exactly when there are `NUM_THREADS` of them and all the others
    wait in `rwlock_write_lock`. -/
theorem rwlockWriteLock_accepts_iff [Fintype T] {es : List (Event T)}
    (hcard : Fintype.card T ≤ numThreads) (h : Run step init es s) (hidle : s.phase t = .idle) :
    (rwlockWriteLock t s.rw).next ≠ .ret (-1) ↔
      Fintype.card T < numThreads ∨ ∃ u, u ≠ t ∧ ∀ b, s.phase u ≠ .writeWait b := by
  obtain ⟨q, hq⟩ := queued_run h
  have hout : t ∉ q := by
    rw [hq.waiting t, hidle]
    decide
  have hsub : q.toFinset ⊆ Finset.univ.erase t := by
    intro u hu
    exact Finset.mem_erase.mpr ⟨fun hut => hout (hut ▸ List.mem_toFinset.mp hu), Finset.mem_univ u⟩
  have hlen : q.toFinset.card = q.length := List.toFinset_card_of_nodup hq.nodup
  have hothers : (Finset.univ.erase t).card = Fintype.card T - 1 :=
    Finset.card_erase_of_mem (Finset.mem_univ t)
  have hle := Finset.card_le_card hsub
  have hsize : writerRingSize = 10 := rfl
  have hthreads : numThreads = 10 := rfl
  rw [Ne, hq.refused_iff]
  constructor
  · intro hroom
    by_contra hnone
    obtain ⟨hten, hall⟩ := not_or.mp hnone
    have heq : q.toFinset = Finset.univ.erase t := by
      refine Finset.Subset.antisymm hsub fun u hu => ?_
      by_contra hnot
      refine hall ⟨u, Finset.ne_of_mem_erase hu, fun b hb => hnot ?_⟩
      rw [List.mem_toFinset, hq.waiting u, hb]
      rfl
    rw [heq] at hlen
    omega
  · rintro (hlt | ⟨u, hut, hnot⟩) hfull
    · omega
    · have hu : u ∉ q.toFinset := by
        rw [List.mem_toFinset, hq.waiting u, isWriteWaiting_iff]
        exact fun ⟨b, hb⟩ => hnot b hb
      have hlt : q.toFinset.card < (Finset.univ.erase t).card :=
        Finset.card_lt_card ((Finset.ssubset_iff_of_subset hsub).mpr
          ⟨u, Finset.mem_erase.mpr ⟨hut, Finset.mem_univ u⟩, hu⟩)
      omega

end Steps

/-- Ten threads: while 0 holds the write lock and 1 waits for it, the ring takes 2. -/
theorem rwlockWriteLock_accepts_third : ∃ (s : State (Fin 10)) (es : List (Event (Fin 10))),
    Run step init es s ∧ s.phase 0 = .writing ∧ s.phase 1 = .writeWait false ∧
      (rwlockWriteLock 2 s.rw).next ≠ .ret (-1) := by
  have start : Run step init [] (init : State (Fin 10)) := Run.nil _
  have held := start.snoc (show step _ (.writeLock 0 ∅) _ from ⟨rfl, rfl, rfl⟩)
  have one := held.snoc (show step _ (.writeLock 1 ∅) _ from ⟨rfl, rfl, rfl⟩)
  exact ⟨_, _, one, rfl, rfl, (rwlockWriteLock_accepts_iff (by decide) one rfl).mpr
    (Or.inr ⟨3, by decide, fun _ => nofun⟩)⟩

/-- Thread 0 writes while the nine others queue, and asks again before the woken one runs. -/
theorem ten_writers : ∃ (s : State (Fin 10)) (es : List (Event (Fin 10))),
    Run step init es s ∧ s.phase 0 = .idle ∧
      rwlockWriteLock 0 s.rw = ⟨s.rw, .silent, .ret (-1)⟩ := by
  have start : Run step init [] (init : State (Fin 10)) := Run.nil _
  have held := start.snoc (show step _ (.writeLock 0 ∅) _ from ⟨rfl, rfl, rfl⟩)
  have one := held.snoc (show step _ (.writeLock 1 ∅) _ from ⟨rfl, rfl, rfl⟩)
  have two := one.snoc (show step _ (.writeLock 2 ∅) _ from ⟨rfl, rfl, rfl⟩)
  have three := two.snoc (show step _ (.writeLock 3 ∅) _ from ⟨rfl, rfl, rfl⟩)
  have four := three.snoc (show step _ (.writeLock 4 ∅) _ from ⟨rfl, rfl, rfl⟩)
  have five := four.snoc (show step _ (.writeLock 5 ∅) _ from ⟨rfl, rfl, rfl⟩)
  have six := five.snoc (show step _ (.writeLock 6 ∅) _ from ⟨rfl, rfl, rfl⟩)
  have seven := six.snoc (show step _ (.writeLock 7 ∅) _ from ⟨rfl, rfl, rfl⟩)
  have eight := seven.snoc (show step _ (.writeLock 8 ∅) _ from ⟨rfl, rfl, rfl⟩)
  have nine := eight.snoc (show step _ (.writeLock 9 ∅) _ from ⟨rfl, rfl, rfl⟩)
  have released := nine.snoc (show step _ (.writeUnlock 0 {1}) _ from
    ⟨rfl, ⟨by decide, fun _ => ⟨1, by decide⟩⟩, rfl⟩)
  exact ⟨_, _, released, rfl, rfl⟩

theorem rwlockWriteLock_refused_tenth : ∃ (s : State (Fin 10)) (es : List (Event (Fin 10))),
    Run step init es s ∧ s.phase 0 = .idle ∧ (rwlockWriteLock 0 s.rw).next = .ret (-1) := by
  obtain ⟨s, es, hrun, hidle, hfull⟩ := ten_writers
  exact ⟨s, es, hrun, hidle, by rw [hfull]⟩

end SnuSysProg.Rwlock
