import SnuSysProg.Rwlock.Queue

/-
  Writers are served in the order they came.

  A run keeps a history of the threads that were put in the ring and of those that acquired the
  write lock. `rwlock_writers_in_order`: the second list is the first without the threads that
  still wait, and these are what the ring holds, in the same order.
-/

namespace SnuSysProg.Rwlock

open SnuSysProg.Lib

/-- Who was put in the ring, and who acquired the write lock, oldest first. -/
structure History (T : Type*) where
  enqueued : List T
  acquired : List T

def History.empty {T : Type*} : History T := ⟨[], []⟩

section

variable {T : Type*} [DecidableEq T] {s s' : State T} {q : List T} {e : Event T}
    {es : List (Event T)}
  {log : History T}

def History.record (log : History T) (s : State T) (e : Event T) (_ : State T) : History T :=
  ⟨log.enqueued ++ enqueues s e, log.acquired ++ acquires s e⟩

/-- The queue `q` is what the slots from the head up to the tail hold, and what the history says. -/
structure InOrder (s : State T) (log : History T) (q : List T) : Prop where
  slots : ∀ k < q.length,
    s.rw.writerRing ((s.rw.writerRingHead + k) % writerRingSize) = q[k]?
  tail : s.rw.writerRingTail = (s.rw.writerRingHead + q.length) % writerRingSize
  room : q.length < writerRingSize
  /-- The slot that the next enqueue writes to is not one of them. -/
  kept : ∀ k < q.length,
    (s.rw.writerRingHead + k) % writerRingSize ≠ s.rw.writerRingTail
  waiting : ∀ t, t ∈ q ↔ ∃ b, s.phase t = .writeWait b
  once : q.Nodup
  order : log.enqueued = log.acquired ++ q

/-- What a step adds to the history keeps the two lists apart by the queue. -/
theorem order_step {q' : List T} {log' : History T} (h : log.enqueued = log.acquired ++ q)
    (hmove : q ++ enqueues s e = acquires s e ++ q') (hlog : log' = log.record s e s') :
    log'.enqueued = log'.acquired ++ q' := by
  rw [hlog]
  calc log.enqueued ++ enqueues s e
      = log.acquired ++ (q ++ enqueues s e) := by rw [h, List.append_assoc]
    _ = log.acquired ++ acquires s e ++ q' := by rw [hmove, List.append_assoc]

theorem history_run (h : Run (Recording History.record step) (init, History.empty) es (s, log)) :
    ∃ q, Queued s q ∧ log.enqueued = log.acquired ++ q := by
  refine Run.preserves (P := fun x => ∃ q, Queued x.1 q ∧ x.2.enqueued = x.2.acquired ++ q) ?_ h
    ⟨[], queued_init, rfl⟩
  rintro ⟨s, log⟩ e ⟨s', log'⟩ ⟨q, hq, horder⟩ ⟨hstep, hlog⟩
  obtain ⟨q', x, woken, hq', -, -, hmove⟩ := queue_move hq hstep
  exact ⟨q', hq', order_step horder hmove hlog⟩

omit [DecidableEq T] in
theorem Queued.inOrder (hq : Queued s q) (h : log.enqueued = log.acquired ++ q) :
    InOrder s log q := by
  obtain ⟨hhead, htail, hroom, hslot⟩ := hq.ring
  refine ⟨hslot, htail, hroom, fun k hk => ?_, fun t => ?_, hq.nodup, h⟩
  · rw [htail]
    exact slot_ne hhead hk hroom
  · rw [hq.waiting t]
    exact isWriteWaiting_iff

/-- **Writers in arrival order**, in every state that any interleaving of any number of threads
    reaches. -/
theorem rwlock_writers_in_order (hrun : Run step init es s) :
    ∃ log, Run (Recording History.record step) (init, History.empty) es (s, log) ∧
      ∃ q, InOrder s log q := by
  obtain ⟨log, hlog⟩ : ∃ log,
    Run (Recording History.record step) (init, History.empty) es (s, log) :=
    hrun.recorded _
  obtain ⟨q, hq, horder⟩ := history_run hlog
  exact ⟨log, hlog, q, hq.inOrder horder⟩

end

/-- Writers 1 and 2 queue behind writer 0, and writer 1 acquires. -/
theorem rwlock_writers_in_order_two : ∃ (es : List (Event (Fin 3))) (s : State (Fin 3)),
    s.phase 1 = .writing ∧ s.phase 2 = .writeWait false ∧
    ∃ log, Run (Recording History.record step) (init, History.empty) es (s, log) ∧
      ∃ q, InOrder s log q := by
  have start : Run step init [] (init : State (Fin 3)) := Run.nil _
  have held := start.snoc (show step _ (.writeLock 0 ∅) _ from ⟨rfl, rfl, rfl⟩)
  have one := held.snoc (show step _ (.writeLock 1 ∅) _ from ⟨rfl, rfl, rfl⟩)
  have two := one.snoc (show step _ (.writeLock 2 ∅) _ from ⟨rfl, rfl, rfl⟩)
  have left := two.snoc (show step _ (.writeUnlock 0 {1}) _ from
    ⟨rfl, ⟨by decide, fun _ => ⟨1, by decide⟩⟩, rfl⟩)
  have admitted := left.snoc (show step _ (.writeRecheck 1 ∅) _ from ⟨rfl, rfl, rfl⟩)
  exact ⟨_, _, rfl, rfl, rwlock_writers_in_order admitted⟩

end SnuSysProg.Rwlock
