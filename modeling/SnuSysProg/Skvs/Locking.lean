import SnuSysProg.Rwlock.Wakeup
import SnuSysProg.Skvs.Threads

/-
  The workers of the hash table on the locks of `rwlock.c`.

  `Threads` lets a worker into a bucket when the lock admits it. Here every bucket has a lock of
  its own that runs region by region: a worker calls `rwlock_read_lock` or `rwlock_write_lock`,
  may wait there and wake up, and a writer may be refused when the ring is full.

  `Locking.refines`: what the workers do, without the calls that were refused, is a run of
  `Threads`. So the order of the operations that `Threads` promises is one of the program with its
  own locks (`Locking.locking_linearizable`), and the workers never all wait for each other
  (`Locking.locking_no_deadlock`).
-/

namespace SnuSysProg.Skvs
open SnuSysProg.Lib

variable {ι : Type} [DecidableEq ι]

/-! ## A call of Threads that never came to its lock -/

namespace Threads

def Event.worker : Event ι → ι
  | .load w _ _ => w
  | .lock w => w
  | .work w => w
  | .unlock w _ _ => w
  | .reply w _ => w

def Event.isLoad (w : ι) : Event ι → Bool
  | .load u _ _ => decide (u = w)
  | _ => false

/-- The events without the last call that `w` has begun. -/
def retract (w : ι) (es : List (Event ι)) : List (Event ι) :=
  (es.reverse.eraseP (Event.isLoad w)).reverse

variable {s s' : Threads ι} {e : Event ι} {es : List (Event ι)} {w u : ι} {op : Op} {calls : Calls}
  {head : Addr} {g g' : Progress} {t₀ : Table}

theorem retract_load : retract w (es ++ [.load w op calls]) = es := by
  unfold retract
  rw [List.reverse_append, List.reverse_singleton, List.singleton_append,
    List.eraseP_cons_of_pos (show Event.isLoad w (.load w op calls) = true from decide_eq_true rfl),
    List.reverse_reverse]

theorem retract_snoc (he : e.isLoad w = false) : retract w (es ++ [e]) = retract w es ++ [e] := by
  unfold retract
  rw [List.reverse_append, List.reverse_singleton, List.singleton_append,
    List.eraseP_cons_of_neg (show ¬ e.isLoad w = true by rw [he]; decide), List.reverse_cons]

theorem put_put : (s.put w g).put w g' = s.put w g' := by
  unfold put
  rw [Function.update_idem]

theorem put_comm (h : w ≠ u) : (s.put w g).put u g' = (s.put u g').put w g := by
  unfold put
  rw [Function.update_comm h]

theorem put_eq_self (h : s.progress w = g) : s.put w g = s := by
  unfold put
  rw [← h, Function.update_eq_self]

/-- The steps of the others do not need a call that has not come to its lock. -/
theorem Step.without (h : Step s e s') (he : e.worker ≠ w) :
    Step (s.put w .idle) e (s'.put w .idle) := by
  cases h with
  | @load u op calls hw =>
    have hu : u ≠ w := he
    rw [put_comm hu]
    exact .load ((put_of_ne hu).trans hw)
  | @lock u op calls head hw hadmits =>
    have hu : u ≠ w := he
    rw [put_comm hu]
    refine .lock ((put_of_ne hu).trans hw) fun v op' hv hindex => ?_
    by_cases hvw : v = w
    · rw [hvw, put_self] at hv
      exact absurd hv (by simp [Progress.holding])
    · rw [put_of_ne hvw] at hv
      exact hadmits v op' hv hindex
  | @work u op calls head r t hw hwork =>
    have hu : u ≠ w := he
    rw [put_comm hu]
    exact Step.work (s := s.put w .idle) ((put_of_ne hu).trans hw) hwork
  | @unlock u op calls r text hw =>
    have hu : u ≠ w := he
    rw [put_comm hu]
    exact .unlock ((put_of_ne hu).trans hw)
  | @reply u op r hw =>
    have hu : u ≠ w := he
    rw [put_comm hu]
    exact Step.reply (s := s.put w .idle) ((put_of_ne hu).trans hw)

theorem Sound.without (h : Sound s e) (he : e.worker ≠ w) : Sound (s.put w .idle) e := by
  cases e with
  | work u =>
    have hu : u ≠ w := he
    exact fun op calls head hloaded => h op calls head ((put_of_ne hu).symm.trans hloaded)
  | _ => trivial

/-- A worker that has loaded a head has just done so, or another worker did something since. -/
theorem Step.of_loaded (h : Step s e s') (hw : s'.progress w = .loaded op calls head) :
    (e = .load w op calls ∧ s.progress w = .idle ∧ s' = s.put w (.loaded op calls head)) ∨
      (e.worker ≠ w ∧ s.progress w = .loaded op calls head) := by
  by_cases he : e.worker = w
  · left
    cases h with
    | @load u op' calls' hu =>
      obtain rfl : u = w := he
      rw [put_self] at hw
      obtain ⟨rfl, rfl, rfl⟩ := Progress.loaded.inj hw
      exact ⟨rfl, hu, rfl⟩
    | lock =>
      obtain rfl := he
      exact absurd (put_self.symm.trans hw) (by simp)
    | work =>
      obtain rfl := he
      exact absurd (put_self.symm.trans hw) (by simp)
    | unlock =>
      obtain rfl := he
      exact absurd (put_self.symm.trans hw) (by simp)
    | reply =>
      obtain rfl := he
      exact absurd (put_self.symm.trans hw) (by simp)
  · refine Or.inr ⟨he, ?_⟩
    have hne : w ≠ e.worker := fun h => he h.symm
    cases h with
    | load => exact (put_of_ne hne).symm.trans hw
    | lock => exact (put_of_ne hne).symm.trans hw
    | work => exact (put_of_ne hne).symm.trans hw
    | unlock => exact (put_of_ne hne).symm.trans hw
    | reply => exact (put_of_ne hne).symm.trans hw

theorem isLoad_of_worker (he : e.worker ≠ w) : e.isLoad w = false := by
  cases e with
  | load u op calls => exact decide_eq_false he
  | _ => rfl

/-- **A call that has not come to its lock leaves no trace.** -/
theorem run_retract (hrun : Run (Guarded Sound Step) (initial t₀) es s)
    (hw : s.progress w = .loaded op calls head) :
    Run (Guarded Sound Step) (initial t₀) (retract w es) (s.put w .idle) := by
  induction hrun with
  | nil => exact absurd hw (by simp [initial])
  | snoc hprev hlast ih =>
    rcases hlast.2.of_loaded hw with ⟨rfl, hidle, rfl⟩ | ⟨he, hloaded⟩
    · rw [retract_load, put_put, put_eq_self hidle]
      exact hprev
    · rw [retract_snoc (isLoad_of_worker he)]
      exact (ih hloaded).snoc ⟨hlast.1.without he, hlast.2.without he⟩

end Threads

/-! ## The regions of the lock calls of an operation -/

/-- `w` runs a region of the lock call of `op`: its first one, or one after a wake-up. -/
inductive Op.Asks (op : Op) (w : ι) : Rwlock.Event ι → Prop
  | readLock (hop : op.Reads) : Asks op w (.readLock w)
  | readRecheck (hop : op.Reads) : Asks op w (.readRecheck w)
  | writeLock {woken : Finset ι} (hop : ¬ op.Reads) : Asks op w (.writeLock w woken)
  | writeRecheck {woken : Finset ι} (hop : ¬ op.Reads) : Asks op w (.writeRecheck w woken)

/-- `w` runs the unlock call of `op`. -/
inductive Op.Leaves (op : Op) (w : ι) : Rwlock.Event ι → Prop
  | readUnlock {woken : Finset ι} (hop : op.Reads) : Leaves op w (.readUnlock w woken)
  | writeUnlock {woken : Finset ι} (hop : ¬ op.Reads) : Leaves op w (.writeUnlock w woken)

/-- Inside a lock call, blocked or woken. -/
def Waiting (p : Rwlock.Phase) : Prop := ∃ b, p = .readWait b ∨ p = .writeWait b

def Held (p : Rwlock.Phase) : Prop := p = .reading ∨ p = .writing

/-- The workers, and the lock of each bucket. -/
structure Locking (ι : Type) where
  threads : Threads ι
  locks : Nat → Rwlock.State ι

namespace Locking

def index (s : Locking ι) (op : Op) : Nat := s.threads.index op

def setLock (s : Locking ι) (i : Nat) (L : Rwlock.State ι) : Locking ι :=
  { s with locks := Function.update s.locks i L }

def put (s : Locking ι) (w : ι) (p : Progress) : Locking ι :=
  { s with threads := s.threads.put w p }

inductive Event (ι : Type) where
  | load (w : ι) (op : Op) (calls : Calls)
  /-- A region of the lock call, after which the worker waits. -/
  | wait (w : ι) (e : Rwlock.Event ι)
  /-- One after which it has the lock. -/
  | lock (w : ι) (e : Rwlock.Event ι)
  /-- One in which it was refused: the operation returns -1. -/
  | refuse (w : ι) (e : Rwlock.Event ι)
  | spuriousWakeup (i : Nat) (w : ι)
  | work (w : ι)
  | unlock (w : ι) (code : Int) (text : Option Str) (e : Rwlock.Event ι)
  | reply (w : ι) (sent : Option Str)

inductive Step : Locking ι → Event ι → Locking ι → Prop
  | load {s : Locking ι} {w : ι} {op : Op} {calls : Calls} (hw : s.threads.progress w = .idle) :
      Step s (.load w op calls)
        (s.put w (.loaded op calls (s.threads.table.buckets (s.index op))))
  | wait {s : Locking ι} {w : ι} {op : Op} {calls : Calls} {head : Addr} {e : Rwlock.Event ι}
      {L : Rwlock.State ι} (hw : s.threads.progress w = .loaded op calls head) (he : op.Asks w e)
      (hlock : Rwlock.step (s.locks (s.index op)) e L) (hwait : Waiting (L.phase w)) :
      Step s (.wait w e) (s.setLock (s.index op) L)
  | lock {s : Locking ι} {w : ι} {op : Op} {calls : Calls} {head : Addr} {e : Rwlock.Event ι}
      {L : Rwlock.State ι} (hw : s.threads.progress w = .loaded op calls head) (he : op.Asks w e)
      (hlock : Rwlock.step (s.locks (s.index op)) e L) (hheld : Held (L.phase w)) :
      Step s (.lock w e) ((s.setLock (s.index op) L).put w (.locked op calls head))
  | refuse {s : Locking ι} {w : ι} {op : Op} {calls : Calls} {head : Addr} {e : Rwlock.Event ι}
      {L : Rwlock.State ι} (hw : s.threads.progress w = .loaded op calls head) (he : op.Asks w e)
      (hlock : Rwlock.step (s.locks (s.index op)) e L) (hout : L.phase w = .idle) :
      Step s (.refuse w e) ((s.setLock (s.index op) L).put w .idle)
  | spuriousWakeup {s : Locking ι} {i : Nat} {w : ι} {L : Rwlock.State ι}
      (hlock : Rwlock.step (s.locks i) (.spuriousWakeup w) L) :
      Step s (.spuriousWakeup i w) (s.setLock i L)
  | work {s : Locking ι} {w : ι} {t : Threads ι} (hwork : Threads.Step s.threads (.work w) t) :
      Step s (.work w) { s with threads := t }
  | unlock {s : Locking ι} {w : ι} {op : Op} {calls : Calls} {r : Outcome} {text : Option Str}
      {e : Rwlock.Event ι} {L : Rwlock.State ι}
      (hw : s.threads.progress w = .worked op calls r text) (he : op.Leaves w e)
      (hlock : Rwlock.step (s.locks (s.index op)) e L) :
      Step s (.unlock w r.code text e) ((s.setLock (s.index op) L).put w (.returned op r))
  | reply {s : Locking ι} {w : ι} {sent : Option Str} {t : Threads ι}
      (hreply : Threads.Step s.threads (.reply w sent) t) :
      Step s (.reply w sent) { s with threads := t }

/-- No operation is under way, and `hash_init` has made the locks. -/
def initial (t : Table) : Locking ι := ⟨.initial t, fun _ => Rwlock.init⟩

/-- The work is done with a sound head. -/
def Sound (s : Locking ι) : Event ι → Prop
  | .work w => Threads.Sound s.threads (.work w)
  | _ => True

/-- One more event for the workers of `Threads`: a wait is none, and a refusal takes back the
    call. -/
def serve (done : List (Threads.Event ι)) : Event ι → List (Threads.Event ι)
  | .load w op calls => done ++ [.load w op calls]
  | .wait _ _ => done
  | .lock w _ => done ++ [.lock w]
  | .refuse w _ => Threads.retract w done
  | .spuriousWakeup _ _ => done
  | .work w => done ++ [.work w]
  | .unlock w code text _ => done ++ [.unlock w code text]
  | .reply w sent => done ++ [.reply w sent]

/-- The events of the calls that were not refused, as events of `Threads`. -/
def served (es : List (Event ι)) : List (Threads.Event ι) := es.foldl serve []

end Locking

/-! ## The size of the table -/

section Size

variable {α : Type} {t t' : Table} {a : α} {op : Op} {calls : Calls} {i : Nat} {head : Addr}
  {r : Outcome}

theorem onHeap_hashSize {x : ListM α} (h : onHeap x t = .ok (a, t')) :
    t'.hashSize = t.hashSize := by
  unfold onHeap at h
  split at h
  · obtain ⟨-, rfl⟩ := Prod.mk.inj (Except.ok.inj h)
    rfl
  · exact absurd h (by simp)

theorem relink_hashSize {d : Int} {b : Outcome}
    (h : (do relink i head d; return b : TableM Outcome) t = .ok (r, t')) :
    t'.hashSize = t.hashSize := by
  obtain ⟨-, rfl⟩ := Prod.mk.inj (Except.ok.inj h)
  rfl

/-- Only `hash_init` sets `hash_size`. -/
theorem section_hashSize (h : op.section calls i head t = .ok (r, t')) :
    t'.hashSize = t.hashSize := by
  cases op with
  | insert key value =>
    obtain ⟨⟨result, newHead⟩, t₁, hlist, hrest⟩ := ok_of_bind h
    rw [← onHeap_hashSize hlist]
    dsimp only at hrest
    split at hrest
    · exact relink_hashSize hrest
    · obtain ⟨-, rfl⟩ := Prod.mk.inj (Except.ok.inj hrest)
      rfl
  | search key =>
    obtain ⟨node, t₁, hlist, hrest⟩ := ok_of_bind h
    rw [← onHeap_hashSize hlist]
    split at hrest
    · obtain ⟨-, rfl⟩ := Prod.mk.inj (Except.ok.inj hrest)
      rfl
    · obtain ⟨n, t₂, hload, hret⟩ := ok_of_bind hrest
      rw [← onHeap_hashSize hload]
      obtain ⟨-, rfl⟩ := Prod.mk.inj (Except.ok.inj hret)
      rfl
  | update key value =>
    obtain ⟨result, t₁, hlist, hrest⟩ := ok_of_bind h
    rw [← onHeap_hashSize hlist]
    obtain ⟨-, rfl⟩ := Prod.mk.inj (Except.ok.inj hrest)
    rfl
  | delete key =>
    obtain ⟨⟨result, newHead⟩, t₁, hlist, hrest⟩ := ok_of_bind h
    rw [← onHeap_hashSize hlist]
    dsimp only at hrest
    split at hrest
    · exact relink_hashSize hrest
    · obtain ⟨-, rfl⟩ := Prod.mk.inj (Except.ok.inj hrest)
      rfl

end Size

/-! ## Where the workers are in the locks -/

/-- The operation that a worker has begun and not given the lock back for. -/
def Progress.begun : Progress → Option Op
  | .loaded op _ _ => some op
  | .locked op _ _ => some op
  | .worked op _ _ _ => some op
  | _ => none

/-- What the phase of a worker in a lock says about its operation. `here op`: the lock is that of
    the bucket of `op`. -/
inductive AtLock (here : Op → Prop) : Progress → Rwlock.Phase → Prop
  | outside {g : Progress} (h : ∀ op, g.holding = some op → ¬ here op) : AtLock here g .idle
  | reading {g : Progress} {op : Op} (h : g.holding = some op) (hhere : here op) (hop : op.Reads) :
      AtLock here g .reading
  | writing {g : Progress} {op : Op} (h : g.holding = some op) (hhere : here op)
      (hop : ¬ op.Reads) : AtLock here g .writing
  | readWait {op : Op} {calls : Calls} {head : Addr} {b : Bool} (hhere : here op) (hop : op.Reads) :
      AtLock here (.loaded op calls head) (.readWait b)
  | writeWait {op : Op} {calls : Calls} {head : Addr} {b : Bool} (hhere : here op)
      (hop : ¬ op.Reads) : AtLock here (.loaded op calls head) (.writeWait b)

section AtLock

variable {here : Op → Prop} {g g' : Progress} {p : Rwlock.Phase} {op : Op}

theorem AtLock.wakeUp (h : AtLock here g p) : AtLock here g p.wakeUp := by
  cases h with
  | outside h => exact .outside h
  | reading h hhere hop => exact .reading h hhere hop
  | writing h hhere hop => exact .writing h hhere hop
  | readWait hhere hop => exact .readWait hhere hop
  | writeWait hhere hop => exact .writeWait hhere hop

theorem Progress.begun_of_holding (h : g.holding = some op) : g.begun = some op := by
  cases g <;> first | exact h | exact absurd h (by simp [Progress.holding])

/-- A worker is in no lock but that of the operation it has begun. -/
theorem AtLock.idle (h : AtLock here g p) (hout : ∀ op, g.begun = some op → ¬ here op) :
    p = .idle := by
  cases h with
  | outside => rfl
  | reading h hhere => exact absurd hhere (hout _ (Progress.begun_of_holding h))
  | writing h hhere => exact absurd hhere (hout _ (Progress.begun_of_holding h))
  | readWait hhere => exact absurd hhere (hout _ rfl)
  | writeWait hhere => exact absurd hhere (hout _ rfl)

/-- A worker that goes on elsewhere. -/
theorem AtLock.away (h : AtLock here g p) (hout : ∀ op, g.begun = some op → ¬ here op)
    (hout' : ∀ op, g'.begun = some op → ¬ here op) : AtLock here g' p := by
  rw [h.idle hout]
  exact .outside fun op hop => hout' op (Progress.begun_of_holding hop)

/-- A worker that keeps the lock it holds. -/
theorem AtLock.keep (h : AtLock here g p) (hg : g.holding = some op) (hg' : g'.holding = some op) :
    AtLock here g' p := by
  cases h with
  | outside h => exact .outside fun op' hop' => h op' (hg.trans (hg'.symm.trans hop'))
  | reading h hhere hop => exact .reading (hg'.trans (hg.symm.trans h)) hhere hop
  | writing h hhere hop => exact .writing (hg'.trans (hg.symm.trans h)) hhere hop
  | readWait => exact absurd hg (by simp [Progress.holding])
  | writeWait => exact absurd hg (by simp [Progress.holding])

/-- The phase of a worker that holds the lock. -/
theorem AtLock.of_holding (h : AtLock here g p) (hg : g.holding = some op) (hhere : here op) :
    (op.Reads ∧ p = .reading) ∨ (¬ op.Reads ∧ p = .writing) := by
  cases h with
  | outside h => exact absurd hhere (h op hg)
  | reading h _ hop =>
    obtain rfl := Option.some.inj (hg.symm.trans h)
    exact Or.inl ⟨hop, rfl⟩
  | writing h _ hop =>
    obtain rfl := Option.some.inj (hg.symm.trans h)
    exact Or.inr ⟨hop, rfl⟩
  | readWait => exact absurd hg (by simp [Progress.holding])
  | writeWait => exact absurd hg (by simp [Progress.holding])

end AtLock

/-! ## What the regions do to the phases -/

section Phases

variable {L L' : Rwlock.State ι} {e : Rwlock.Event ι} {w u : ι} {op : Op}

/-- Another thread's phase changes at most by a wake-up. -/
theorem phase_others (h : Rwlock.step L e L') (hu : u ≠ e.thread) :
    L'.phase u = L.phase u ∨ L'.phase u = (L.phase u).wakeUp := by
  obtain ⟨x, woken, hphase, -⟩ := Rwlock.step_move h
  rw [hphase, Function.update_of_ne hu]
  unfold Rwlock.wakeAll
  split
  · exact Or.inr rfl
  · exact Or.inl rfl

omit [DecidableEq ι] in
theorem Op.Asks.thread (h : op.Asks w e) : e.thread = w := by
  cases h <;> rfl

omit [DecidableEq ι] in
theorem Op.Leaves.thread (h : op.Leaves w e) : e.thread = w := by
  cases h <;> rfl

omit [DecidableEq ι] in
theorem readLockTest_next (rw : Rwlock.RwLock ι) (held waiting : Rwlock.Phase) :
    (Rwlock.readLockTest rw).next.phase held waiting = held ∨
      (Rwlock.readLockTest rw).next.phase held waiting = waiting := by
  rcases Rwlock.readLockTest_cases rw with ⟨-, h⟩ | h
  · rw [h]
    exact Or.inl rfl
  · rw [h]
    exact Or.inr rfl

/-- Where a region of a lock call leaves the caller. -/
theorem Op.Asks.phase (he : op.Asks w e) (h : Rwlock.step L e L') :
    (op.Reads ∧ (L'.phase w = .reading ∨ ∃ b, L'.phase w = .readWait b)) ∨
      (¬ op.Reads ∧
        (L'.phase w = .writing ∨ L'.phase w = .idle ∨ ∃ b, L'.phase w = .writeWait b)) := by
  have hwrite : ∀ n : Rwlock.Next, n.phase .writing (.writeWait false) = .writing ∨
      n.phase .writing (.writeWait false) = .idle ∨
        ∃ b, n.phase .writing (.writeWait false) = .writeWait b :=
    Rwlock.Next.phase_cases (P := fun p => p = .writing ∨ p = .idle ∨ ∃ b, p = .writeWait b)
      (Or.inl rfl) (Or.inr (Or.inr ⟨false, rfl⟩)) (Or.inr (Or.inl rfl))
  cases he with
  | readLock hop =>
    obtain ⟨-, rfl⟩ := h
    rw [Rwlock.after_phase, Function.update_self]
    refine Or.inl ⟨hop, ?_⟩
    exact (readLockTest_next _ _ _).imp_right fun h => ⟨false, h⟩
  | readRecheck hop =>
    obtain ⟨-, rfl⟩ := h
    rw [Rwlock.after_phase, Function.update_self]
    refine Or.inl ⟨hop, ?_⟩
    exact (readLockTest_next _ _ _).imp_right fun h => ⟨false, h⟩
  | writeLock hop =>
    obtain ⟨-, -, rfl⟩ := h
    rw [Rwlock.after_phase, Function.update_self]
    exact Or.inr ⟨hop, hwrite _⟩
  | writeRecheck hop =>
    obtain ⟨-, -, rfl⟩ := h
    rw [Rwlock.after_phase, Function.update_self]
    exact Or.inr ⟨hop, hwrite _⟩

/-- An unlock call puts the caller outside. -/
theorem Op.Leaves.phase (he : op.Leaves w e) (h : Rwlock.step L e L') : L'.phase w = .idle := by
  cases he with
  | readUnlock hop =>
    obtain ⟨-, -, rfl⟩ := h
    rw [Rwlock.after_phase, Function.update_self, (Rwlock.rwlockReadUnlock_counts L.rw).1]
    rfl
  | writeUnlock hop =>
    obtain ⟨-, -, rfl⟩ := h
    rw [Rwlock.after_phase, Function.update_self, (Rwlock.rwlockWriteUnlock_counts L.rw).1]
    rfl

omit [DecidableEq ι] in
/-- A writer is alone in the lock. -/
theorem writing_alone [Fintype ι] (h : Rwlock.Counts L) (hw : L.phase w = .writing) (hu : u ≠ w) :
    L.phase u ≠ .reading ∧ L.phase u ≠ .writing := by
  have hpos : 0 < count Rwlock.Phase.isWriting L.phase := count_pos_of (decide_eq_true hw)
  refine ⟨fun hr => ?_, fun hr => hu ?_⟩
  · have hread : 0 < count Rwlock.Phase.isReading L.phase := count_pos_of (decide_eq_true hr)
    have hapart := h.apart
    omega
  · exact eq_of_count_le_one h.one (decide_eq_true hr) (decide_eq_true hw)

omit [DecidableEq ι] in
/-- While a thread is blocked in the lock, another one has it or has been woken. -/
theorem blocked_behind [Fintype ι] (hc : Rwlock.Counts L) (ha : Rwlock.Alert L)
    (hw : L.phase w = .readWait false ∨ L.phase w = .writeWait false) :
    ∃ u, Held (L.phase u) ∨ L.phase u = .readWait true ∨ L.phase u = .writeWait true := by
  by_cases hwriter : ∃ u, L.phase u = .writing
  · obtain ⟨u, hu⟩ := hwriter
    exact ⟨u, Or.inl (Or.inr hu)⟩
  · have hnone : L.rw.writeCount = 0 := by
      have hzero : count Rwlock.Phase.isWriting L.phase = 0 :=
        count_eq_zero.mpr fun u => decide_eq_false fun hu => hwriter ⟨u, hu⟩
      rw [hc.write, hzero]
      rfl
    have hreaders : ∀ u, L.phase u ≠ .readWait false := fun u hu =>
      absurd hnone (ne_of_gt (ha.readers u hu))
    rcases hw with hw | hw
    · exact absurd hw (hreaders w)
    · by_cases hcounted : ∃ u, (L.phase u).isCounted = true
      · obtain ⟨u, hu⟩ := hcounted
        generalize hp : L.phase u = p at hu
        cases p with
        | reading => exact ⟨u, Or.inl (Or.inl hp)⟩
        | readWait b =>
          cases b with
          | false => exact absurd hp (hreaders u)
          | true => exact ⟨u, Or.inr (Or.inl hp)⟩
        | _ => exact absurd hu (by simp [Rwlock.Phase.isCounted])
      · have hread : L.rw.readCount = 0 := by
          have hout : ∀ u, (L.phase u).isReading = false ∧ (L.phase u).isReadWaiting = false := by
            intro u
            have hu : ¬ (L.phase u).isCounted = true := fun hu => hcounted ⟨u, hu⟩
            generalize L.phase u = p at hu
            cases p <;> simp [Rwlock.Phase.isCounted, Rwlock.Phase.isReading,
              Rwlock.Phase.isReadWaiting] at hu ⊢
          rw [hc.read, count_eq_zero.mpr fun u => (hout u).1, count_eq_zero.mpr fun u => (hout u).2]
          rfl
        obtain ⟨u, hu⟩ := ha.writers hnone hread w false hw
        exact ⟨u, Or.inr (Or.inr hu)⟩

end Phases

namespace Locking

variable {s s' : Locking ι} {e : Event ι} {es : List (Event ι)} {L : Rwlock.State ι} {w u : ι}
  {op : Op} {g : Progress} {i j : Nat} {t₀ : Table} {x : Rwlock.Event ι}

/-! ## The invariant -/

/-- The locks are as runs of `rwlock.c` leave them, and the workers are in them as their
    operations say. -/
structure Inv (s : Locking ι) : Prop where
  locks : ∀ i, ∃ xs, Run Rwlock.step Rwlock.init xs (s.locks i)
  inside : ∀ i w, AtLock (fun op => s.index op = i) (s.threads.progress w) ((s.locks i).phase w)

theorem inv_initial : Inv (initial t₀ : Locking ι) where
  locks := fun _ => ⟨[], Run.nil _⟩
  inside := fun _ _ => .outside fun _ h =>
    absurd h (by simp [initial, Threads.initial, Progress.holding])

/-- One worker goes on to `g` and the lock of a bucket makes a step of its. -/
theorem Inv.moved (h : Inv s) (hstep : Rwlock.step (s.locks j) x L) (hx : x.thread = w)
    (hself : AtLock (fun op => s.index op = j) g (L.phase w))
    (hother : ∀ i p, i ≠ j → AtLock (fun op => s.index op = i) (s.threads.progress w) p →
      AtLock (fun op => s.index op = i) g p) : Inv ((s.setLock j L).put w g) := by
  refine ⟨fun i => ?_, fun i u => ?_⟩
  · by_cases hi : i = j
    · subst hi
      obtain ⟨xs, hxs⟩ := h.locks i
      exact ⟨xs ++ [x], by
        change Run Rwlock.step Rwlock.init (xs ++ [x]) (Function.update s.locks i L i)
        rw [Function.update_self]
        exact hxs.snoc hstep⟩
    · have hsame : ((s.setLock j L).put w g).locks i = s.locks i := Function.update_of_ne hi ..
      rw [hsame]
      exact h.locks i
  · change AtLock (fun op => s.index op = i) ((s.threads.put w g).progress u)
      ((Function.update s.locks j L i).phase u)
    by_cases hi : i = j
    · subst hi
      rw [Function.update_self]
      by_cases hu : u = w
      · rw [hu, Threads.put_self]
        exact hself
      · rw [Threads.put_of_ne hu]
        rcases phase_others hstep (fun hux => hu (hux.trans hx)) with hsame | hwoken
        · rw [hsame]
          exact h.inside i u
        · rw [hwoken]
          exact (h.inside i u).wakeUp
    · rw [Function.update_of_ne hi]
      by_cases hu : u = w
      · rw [hu, Threads.put_self]
        exact hother i _ hi (h.inside i w)
      · rw [Threads.put_of_ne hu]
        exact h.inside i u

/-- A worker goes on without a lock call. -/
theorem Inv.went (h : Inv s) {t : Threads ι} (hsize : t.table.hashSize = s.threads.table.hashSize)
    (hothers : ∀ u, u ≠ w → t.progress u = s.threads.progress u)
    (hself : ∀ i p, AtLock (fun op => s.index op = i) (s.threads.progress w) p →
      AtLock (fun op => s.index op = i) (t.progress w) p) : Inv { s with threads := t } := by
  have hindex : ∀ op, ({ s with threads := t } : Locking ι).index op = s.index op := fun op => by
    unfold index Threads.index
    rw [hsize]
  refine ⟨h.locks, fun i u => ?_⟩
  simp only [hindex]
  by_cases hu : u = w
  · rw [hu]
    exact hself i _ (h.inside i w)
  · rw [hothers u hu]
    exact h.inside i u

/-- The lock lets in whom `Threads` lets in. -/
theorem Inv.admits [Fintype ι] (h : Inv s) {calls : Calls} {head : Addr}
    (hw : s.threads.progress w = .loaded op calls head) (hx : op.Asks w x)
    (hstep : Rwlock.step (s.locks (s.index op)) x L) (hheld : Held (L.phase w)) :
    s.threads.Admits op := by
  intro u op' hu hindex
  have hne : u ≠ w := by
    rintro rfl
    rw [hw] at hu
    exact absurd hu (by simp [Progress.holding])
  obtain ⟨xs, hxs⟩ := h.locks (s.index op)
  have hcounts : Rwlock.Counts L := Rwlock.counts_run (hxs.snoc hstep)
  have hother := (h.inside (s.index op) u).of_holding hu hindex
  have hsame : L.phase u = (s.locks (s.index op)).phase u := by
    rcases phase_others hstep (fun hux => hne (hux.trans hx.thread)) with hsame | hwoken
    · exact hsame
    · rcases hother with ⟨-, hp⟩ | ⟨-, hp⟩
      · rw [hwoken, hp]
        rfl
      · rw [hwoken, hp]
        rfl
  rcases hheld with hread | hwrite
  · have hop : op.Reads := by
      rcases hx.phase hstep with ⟨hop, -⟩ | ⟨-, hp | hp | ⟨b, hp⟩⟩
      · exact hop
      · exact absurd (hread.symm.trans hp) (by decide)
      · exact absurd (hread.symm.trans hp) (by decide)
      · exact absurd (hread.symm.trans hp) (by simp)
    rcases hother with ⟨hop', -⟩ | ⟨-, hp⟩
    · exact ⟨hop, hop'⟩
    · have hwrite : L.phase u = .writing := hsame.trans hp
      exact absurd hread (writing_alone hcounts hwrite (Ne.symm hne)).1
  · have halone := writing_alone hcounts hwrite hne
    rcases hother with ⟨-, hp⟩ | ⟨-, hp⟩
    · exact absurd (hsame.trans hp) halone.1
    · exact absurd (hsame.trans hp) halone.2

/-- A step keeps the invariant. -/
theorem Inv.step (h : Inv s) (hstep : Step s e s') : Inv s' := by
  cases hstep with
  | @load w op calls hw =>
    refine h.went (w := w) rfl (fun u hu => Threads.put_of_ne hu) fun i p hp => ?_
    rw [hw] at hp
    rw [hp.idle fun _ hop => absurd hop (by simp [Progress.begun])]
    refine .outside fun _ hop => ?_
    change (Threads.progress (s.threads.put w _) w).holding = _ at hop
    rw [Threads.put_self] at hop
    exact absurd hop (by simp [Progress.holding])
  | @wait w op calls head x L hw hx hlock hwait =>
    have hself :
        AtLock (fun op' => s.index op' = s.index op) (.loaded op calls head) (L.phase w) := by
      obtain ⟨b, hb | hb⟩ := hwait
      · rw [hb]
        rcases hx.phase hlock with ⟨hop, -⟩ | ⟨-, hp | hp | ⟨c, hp⟩⟩
        · exact .readWait rfl hop
        · exact absurd (hb.symm.trans hp) (by simp)
        · exact absurd (hb.symm.trans hp) (by simp)
        · exact absurd (hb.symm.trans hp) (by simp)
      · rw [hb]
        rcases hx.phase hlock with ⟨-, hp | ⟨c, hp⟩⟩ | ⟨hop, -⟩
        · exact absurd (hb.symm.trans hp) (by simp)
        · exact absurd (hb.symm.trans hp) (by simp)
        · exact .writeWait rfl hop
    have hmoved := h.moved hlock hx.thread hself fun i p _ hp => hw ▸ hp
    rwa [show (s.setLock (s.index op) L).put w (.loaded op calls head) =
      s.setLock (s.index op) L from congrArg (Locking.mk · _) (Threads.put_eq_self hw)] at hmoved
  | @lock w op calls head x L hw hx hlock hheld =>
    refine h.moved hlock hx.thread ?_ fun i p hi hp => ?_
    · rcases hheld with hp | hp
      · rw [hp]
        rcases hx.phase hlock with ⟨hop, -⟩ | ⟨-, hq | hq | ⟨c, hq⟩⟩
        · exact .reading rfl rfl hop
        · exact absurd (hp.symm.trans hq) (by simp)
        · exact absurd (hp.symm.trans hq) (by simp)
        · exact absurd (hp.symm.trans hq) (by simp)
      · rw [hp]
        rcases hx.phase hlock with ⟨-, hq | ⟨c, hq⟩⟩ | ⟨hop, -⟩
        · exact absurd (hp.symm.trans hq) (by simp)
        · exact absurd (hp.symm.trans hq) (by simp)
        · exact .writing rfl rfl hop
    · rw [hw] at hp
      refine hp.away (fun op' hop' => ?_) fun op' hop' => ?_
      · obtain rfl := Option.some.inj hop'
        exact Ne.symm hi
      · obtain rfl := Option.some.inj hop'
        exact Ne.symm hi
  | @refuse w op calls head x L hw hx hlock hout =>
    refine h.moved hlock hx.thread ?_ fun i p hi hp => ?_
    · rw [hout]
      exact .outside fun _ hop => absurd hop (by simp [Progress.holding])
    · rw [hw] at hp
      refine hp.away (fun op' hop' => ?_) fun _ hop => absurd hop (by simp [Progress.begun])
      obtain rfl := Option.some.inj hop'
      exact Ne.symm hi
  | @spuriousWakeup i w L hlock =>
    have hself : AtLock (fun op => s.index op = i) (s.threads.progress w) (L.phase w) := by
      obtain ⟨-, rfl⟩ := hlock
      change AtLock _ _ (Function.update (s.locks i).phase w _ w)
      rw [Function.update_self]
      exact (h.inside i w).wakeUp
    have hmoved := h.moved (w := w) hlock rfl hself fun _ _ _ hp => hp
    rwa [show (s.setLock i L).put w (s.threads.progress w) = s.setLock i L from
      congrArg (Locking.mk · _) (Threads.put_eq_self rfl)] at hmoved
  | @work w t hwork =>
    cases hwork with
    | @work _ op calls head r t hw hwork =>
      refine h.went (w := w) (section_hashSize hwork) (fun u hu => Threads.put_of_ne hu)
        fun i p hp => ?_
      rw [hw] at hp
      rw [Threads.put_self]
      exact hp.keep (show _ = some op from rfl) rfl
  | @unlock w op calls r text x L hw hx hlock =>
    refine h.moved hlock hx.thread ?_ fun i p hi hp => ?_
    · rw [hx.phase hlock]
      exact .outside fun _ hop => absurd hop (by simp [Progress.holding])
    · rw [hw] at hp
      refine hp.away (fun op' hop' => ?_) fun _ hop => absurd hop (by simp [Progress.begun])
      obtain rfl := Option.some.inj hop'
      exact Ne.symm hi
  | @reply w sent t hreply =>
    cases hreply with
    | @reply _ op r hw =>
      refine h.went (w := w) rfl (fun u hu => Threads.put_of_ne hu) fun i p hp => ?_
      rw [hw] at hp
      rw [Threads.put_self]
      exact hp.away (fun _ hop => absurd hop (by simp [Progress.begun]))
        fun _ hop => absurd hop (by simp [Progress.begun])

/-! ## The workers on the locks are those of Threads -/

theorem served_snoc : served (es ++ [e]) = serve (served es) e := by
  unfold served
  rw [List.foldl_append]
  rfl

/-- **The locks of `rwlock.c` do what `Threads` takes a lock to do**: the workers, without the calls
    that were refused, are workers of `Threads`. -/
theorem refines_run [Fintype ι] (hrun : Run (Guarded Sound Step) (initial t₀) es s) :
    Inv s ∧
      Run (Guarded Threads.Sound Threads.Step) (Threads.initial t₀) (served es) s.threads := by
  induction hrun with
  | nil => exact ⟨inv_initial, Run.nil _⟩
  | @snoc s₁ s₂ es e hprev hlast ih =>
    obtain ⟨hinv, hthreads⟩ := ih
    obtain ⟨hsound, hstep⟩ := hlast
    refine ⟨hinv.step hstep, ?_⟩
    rw [served_snoc]
    cases hstep with
    | load hw => exact hthreads.snoc ⟨trivial, .load hw⟩
    | wait => exact hthreads
    | lock hw hx hlock hheld =>
      exact hthreads.snoc ⟨trivial, .lock hw (hinv.admits hw hx hlock hheld)⟩
    | refuse hw => exact Threads.run_retract hthreads hw
    | spuriousWakeup => exact hthreads
    | work hwork => exact hthreads.snoc ⟨hsound, hwork⟩
    | unlock hw => exact hthreads.snoc ⟨trivial, .unlock hw⟩
    | reply hreply => exact hthreads.snoc ⟨trivial, hreply⟩

/-- **The hash table on its own locks is linearizable** in the runs in which the work is done with a
    sound head: the operations whose lock call was not refused have an order that explains their
    results, and the table holds the map they lead to. The refused ones are no part of it. -/
theorem locking_linearizable [Fintype ι] {n : Nat} {initCalls : InitCalls} {heap : Cells Cell}
    (hn : 0 < n) (hn' : n ≤ 2 ^ 31 - 1) (hinit : hashInit initCalls heap n = some t₀)
    (hrun : Run (Guarded Sound Step) (initial t₀) es s) :
    Run Threads.Step (Threads.initial t₀) (served es) s.threads ∧
      ∃ S m B, Linearization mapSpec ∅ (Threads.history (served es)) S m ∧
        Buckets s.threads.table B ∧ Holds s.threads.table B m := by
  have hthreads := (refines_run hrun).2
  obtain ⟨S, m, B, h⟩ := Threads.tracks_run (represents_init hn hn' hinit) hthreads
  exact ⟨hthreads.of_guarded, S, m, B, h.linearization, h.represents.toBuckets, h.holds⟩

/-! ## Some worker can always go on -/

/-- A step of an operation that is under way. -/
def Event.Advances : Event ι → Prop
  | .load _ _ _ => False
  | .spuriousWakeup _ _ => False
  | _ => True

omit [DecidableEq ι] in
/-- A signal can always wake somebody it may wake. -/
theorem exists_woken [Fintype ι] (phase : ι → Rwlock.Phase) (wake : Rwlock.Wake) :
    ∃ woken, wake.Allows phase woken := by
  cases wake with
  | silent => exact ⟨∅, rfl⟩
  | signalWriters =>
    by_cases hblocked : ∃ t, phase t = .writeWait false
    · obtain ⟨t, ht⟩ := hblocked
      refine ⟨{t}, fun u hu => ?_, fun _ => Finset.singleton_nonempty t⟩
      rwa [Finset.mem_singleton.mp hu]
    · exact ⟨∅, fun u hu => absurd hu (Finset.notMem_empty u), fun h => absurd h hblocked⟩
  | broadcastReaders =>
    exact ⟨Finset.univ.filter fun t => phase t = .readWait false, by simp [Rwlock.Wake.Allows]⟩

/-- Whatever a region of its lock call does, the worker has made a step. -/
theorem step_of_region {calls : Calls} {head : Addr}
    (hw : s.threads.progress w = .loaded op calls head) (hx : op.Asks w x)
    (hlock : Rwlock.step (s.locks (s.index op)) x L) : ∃ e s', Step s e s' ∧ e.Advances := by
  rcases hx.phase hlock with ⟨-, hp | ⟨b, hp⟩⟩ | ⟨-, hp | hp | ⟨b, hp⟩⟩
  · exact ⟨_, _, .lock hw hx hlock (Or.inl hp), trivial⟩
  · exact ⟨_, _, .wait hw hx hlock ⟨b, Or.inl hp⟩, trivial⟩
  · exact ⟨_, _, .lock hw hx hlock (Or.inr hp), trivial⟩
  · exact ⟨_, _, .refuse hw hx hlock hp, trivial⟩
  · exact ⟨_, _, .wait hw hx hlock ⟨b, Or.inr hp⟩, trivial⟩

/-- A worker that is not blocked in its lock call has a step. -/
theorem step_of_loaded [Fintype ι] (h : Inv s) {calls : Calls} {head : Addr}
    (hw : s.threads.progress w = .loaded op calls head)
    (hfree : (s.locks (s.index op)).phase w ≠ .readWait false ∧
      (s.locks (s.index op)).phase w ≠ .writeWait false) : ∃ e s', Step s e s' ∧ e.Advances := by
  have hat := h.inside (s.index op) w
  rw [hw] at hat
  generalize hp : (s.locks (s.index op)).phase w = p at hat hfree
  cases hat with
  | outside =>
    by_cases hop : op.Reads
    · exact step_of_region hw (.readLock hop) ⟨hp, rfl⟩
    · obtain ⟨woken, hwoken⟩ := exists_woken (s.locks (s.index op)).phase
        (Rwlock.rwlockWriteLock w (s.locks (s.index op)).rw).wake
      exact step_of_region hw (.writeLock hop) ⟨hp, hwoken, rfl⟩
  | reading hg => exact absurd hg (by simp [Progress.holding])
  | writing hg => exact absurd hg (by simp [Progress.holding])
  | @readWait _ _ _ b hhere hop =>
    cases b with
    | false => exact absurd rfl hfree.1
    | true => exact step_of_region hw (.readRecheck hop) ⟨hp, rfl⟩
  | @writeWait _ _ _ b hhere hop =>
    cases b with
    | false => exact absurd rfl hfree.2
    | true =>
      obtain ⟨woken, hwoken⟩ := exists_woken (s.locks (s.index op)).phase
        (Rwlock.writeLockTest w (s.locks (s.index op)).rw).wake
      exact step_of_region hw (.writeRecheck hop) ⟨hp, hwoken, rfl⟩

/-- A worker that has a lock has a step: its work with a sound head, or giving the lock back. -/
theorem step_of_holding [Fintype ι] (h : Inv s) {B : Nat → List Entry} {m : Map}
    (hr : Represents s.threads.table B) (hm : Holds s.threads.table B m)
    (hsound : ∀ w op calls head, s.threads.progress w = .locked op calls head →
      HeadSound s.threads.table op (s.index op) head)
    (hw : (s.threads.progress w).holding = some op) : ∃ e s', Step s e s' ∧ e.Advances := by
  have hphase := (h.inside (s.index op) w).of_holding hw rfl
  generalize hg : s.threads.progress w = g at hw
  cases g with
  | locked op' calls head =>
    have hwork : Returns (op'.section calls (s.index op') head) s.threads.table _ :=
      section_sound hr hm rfl (hsound w op' calls head hg)
    obtain ⟨r, t, heq, -⟩ := hwork
    exact ⟨_, _, .work (.work hg heq), trivial⟩
  | worked op' calls r text =>
    obtain rfl : op' = op := Option.some.inj hw
    rcases hphase with ⟨hop, hp⟩ | ⟨hop, hp⟩
    · obtain ⟨woken, hwoken⟩ := exists_woken (s.locks (s.index op')).phase
        (Rwlock.rwlockReadUnlock (s.locks (s.index op')).rw).wake
      exact ⟨_, _, .unlock hg (.readUnlock hop) ⟨hp, hwoken, rfl⟩, trivial⟩
    · obtain ⟨woken, hwoken⟩ := exists_woken (s.locks (s.index op')).phase
        (Rwlock.rwlockWriteUnlock (s.locks (s.index op')).rw).wake
      exact ⟨_, _, .unlock hg (.writeUnlock hop) ⟨hp, hwoken, rfl⟩, trivial⟩
  | _ => exact absurd hw (by simp [Progress.holding])

/-- **The workers never all wait.** While an operation is under way, some worker can make a step of
    an operation that is under way, without a spurious wake-up. -/
theorem locking_no_deadlock [Fintype ι] {n : Nat} {initCalls : InitCalls} {heap : Cells Cell}
    (hn : 0 < n) (hn' : n ≤ 2 ^ 31 - 1) (hinit : hashInit initCalls heap n = some t₀)
    (hrun : Run (Guarded Sound Step) (initial t₀) es s)
    (hsound : ∀ w op calls head, s.threads.progress w = .locked op calls head →
      HeadSound s.threads.table op (s.index op) head)
    (hbusy : s.threads.progress w ≠ .idle) : ∃ e s', Step s e s' ∧ e.Advances := by
  obtain ⟨hinv, hthreads⟩ := refines_run hrun
  obtain ⟨S, m, B, htracks⟩ := Threads.tracks_run (represents_init hn hn' hinit) hthreads
  have hholding : ∀ {u op}, (s.threads.progress u).holding = some op →
      ∃ e s', Step s e s' ∧ e.Advances :=
    fun hu => step_of_holding hinv htracks.represents htracks.holds hsound hu
  generalize hg : s.threads.progress w = g at hbusy
  cases g with
  | idle => exact absurd rfl hbusy
  | locked op calls head => exact hholding (show _ = some op by rw [hg]; rfl)
  | worked op calls r text => exact hholding (show _ = some op by rw [hg]; rfl)
  | returned op r => exact ⟨_, _, .reply (.reply hg), trivial⟩
  | loaded op calls head =>
    by_cases hblocked : (s.locks (s.index op)).phase w = .readWait false ∨
        (s.locks (s.index op)).phase w = .writeWait false
    · -- whoever keeps `w` waiting in this lock can go on
      obtain ⟨xs, hxs⟩ := hinv.locks (s.index op)
      obtain ⟨u, hu⟩ := blocked_behind (Rwlock.counts_run hxs) (Rwlock.alert_run hxs) hblocked
      have hat := hinv.inside (s.index op) u
      generalize hp : (s.locks (s.index op)).phase u = p at hat hu
      generalize hgu : s.threads.progress u = gu at hat
      cases hat with
      | outside => exact absurd hu (by simp [Held])
      | reading hop => exact hholding (by rw [hgu]; exact hop)
      | writing hop => exact hholding (by rw [hgu]; exact hop)
      | readWait hhere hop =>
        refine step_of_loaded hinv hgu ?_
        rw [hhere, hp]
        exact ⟨fun hb => by rw [hb] at hu; exact absurd hu (by simp [Held]), by simp⟩
      | writeWait hhere hop =>
        refine step_of_loaded hinv hgu ?_
        rw [hhere, hp]
        exact ⟨by simp, fun hb => by rw [hb] at hu; exact absurd hu (by simp [Held])⟩
    · exact step_of_loaded hinv hg (not_or.mp hblocked)

/-! ## Two workers on one bucket -/

section OneBucket

variable {p : Threads ι} {L L' : Rwlock.State ι} {x : Rwlock.Event ι} {op : Op} {calls : Calls}
  {head : Addr} {r : Outcome} {text : Option Str}

/-- The workers of a table of one bucket, and its lock. -/
def onBucket (p : Threads ι) (L : Rwlock.State ι) : Locking ι :=
  ⟨p, Function.update (fun _ => Rwlock.init) 0 L⟩

omit [DecidableEq ι] in
theorem onBucket_locks (hi : p.index op = 0) :
    (onBucket p L).locks ((onBucket p L).index op) = L := by
  rw [show (onBucket p L).index op = 0 from hi]
  exact Function.update_self 0 L fun _ => Rwlock.init

omit [DecidableEq ι] in
theorem onBucket_setLock (hi : p.index op = 0) :
    (onBucket p L).setLock ((onBucket p L).index op) L' = onBucket p L' := by
  rw [show (onBucket p L).index op = 0 from hi]
  exact congrArg (Locking.mk p) (Function.update_idem ..)

theorem onBucket_wait (hi : p.index op = 0) (hw : p.progress w = .loaded op calls head)
    (hx : op.Asks w x) (hlock : Rwlock.step L x L') (hwait : Waiting (L'.phase w)) :
    Step (onBucket p L) (.wait w x) (onBucket p L') := by
  rw [← onBucket_locks (L := L) hi] at hlock
  have hstep := Step.wait (s := onBucket p L) hw hx hlock hwait
  rw [onBucket_setLock hi] at hstep
  exact hstep

theorem onBucket_lock (hi : p.index op = 0) (hw : p.progress w = .loaded op calls head)
    (hx : op.Asks w x) (hlock : Rwlock.step L x L') (hheld : Held (L'.phase w)) :
    Step (onBucket p L) (.lock w x) (onBucket (p.put w (.locked op calls head)) L') := by
  rw [← onBucket_locks (L := L) hi] at hlock
  have hstep := Step.lock (s := onBucket p L) hw hx hlock hheld
  rw [onBucket_setLock hi] at hstep
  exact hstep

theorem onBucket_unlock (hi : p.index op = 0) (hw : p.progress w = .worked op calls r text)
    (hx : op.Leaves w x) (hlock : Rwlock.step L x L') :
    Step (onBucket p L) (.unlock w r.code text x) (onBucket (p.put w (.returned op r)) L') := by
  rw [← onBucket_locks (L := L) hi] at hlock
  have hstep := Step.unlock (s := onBucket p L) hw hx hlock
  rw [onBucket_setLock hi] at hstep
  exact hstep

end OneBucket

/-- The first worker has the lock for writing. -/
def writerIn : Rwlock.State Bool :=
  Rwlock.init.after false (Rwlock.rwlockWriteLock false Rwlock.rwlockInit) ∅ .writing
    (.writeWait false)

/-- The second one waits for it, to write. -/
def writerWaits : Rwlock.State Bool :=
  writerIn.after true (Rwlock.rwlockWriteLock true writerIn.rw) ∅ .writing (.writeWait false)

/-- Or to read. -/
def readerWaits : Rwlock.State Bool :=
  writerIn.after true (Rwlock.rwlockReadLock writerIn.rw) ∅ .reading (.readWait false)

/-- The first one has left. -/
def readerWoken : Rwlock.State Bool :=
  readerWaits.after false (Rwlock.rwlockWriteUnlock readerWaits.rw) {true} .idle .idle

def readerIn : Rwlock.State Bool :=
  readerWoken.after true (Rwlock.readLockTest readerWoken.rw) ∅ .reading (.readWait false)

def readerOut : Rwlock.State Bool :=
  readerIn.after true (Rwlock.rwlockReadUnlock readerIn.rw) ∅ .idle .idle

/-- Both workers have loaded the head, and the first one has the lock. -/
def firstIn (op₁ op₂ : Op) : Threads Bool :=
  (Threads.bothLoaded op₁ op₂).put false (.locked op₁ allSucceed nullAddr)

variable {op₁ op₂ : Op} {t : Table}

theorem firstIn_run (hop : ¬ op₁.Reads) :
    Run (Guarded Sound Step) (initial oneBucket) [.load false op₁ allSucceed,
      .load true op₂ allSucceed, .lock false (.writeLock false ∅)]
      (onBucket (firstIn op₁ op₂) writerIn) := by
  have hinitial : initial oneBucket = onBucket (Threads.initial oneBucket : Threads Bool)
      Rwlock.init := congrArg (Locking.mk _) (Function.update_eq_self ..).symm
  have hload₁ : Guarded Sound Step (onBucket (Threads.initial oneBucket) Rwlock.init)
      (.load false op₁ allSucceed) _ := ⟨trivial, .load rfl⟩
  have hload₂ : Guarded Sound Step (onBucket ((Threads.initial oneBucket).put false
      (.loaded op₁ allSucceed nullAddr)) Rwlock.init) (.load true op₂ allSucceed)
      (onBucket (Threads.bothLoaded op₁ op₂) Rwlock.init) := ⟨trivial, .load rfl⟩
  have hlock : Guarded Sound Step (onBucket (Threads.bothLoaded op₁ op₂) Rwlock.init)
      (.lock false (.writeLock false ∅)) (onBucket (firstIn op₁ op₂) writerIn) :=
    ⟨trivial, onBucket_lock (Threads.index_of_size op₁ rfl) rfl (.writeLock hop)
      ⟨rfl, rfl, rfl⟩ (Or.inr rfl)⟩
  rw [hinitial]
  exact Run.cons hload₁ (Run.cons hload₂ (Run.single hlock))

/-- The first one has done its work, which has left the table `t`. -/
def firstWorked (op₁ op₂ : Op) (t : Table) : Threads Bool :=
  { firstIn op₁ op₂ with table := t }.put false (.worked op₁ allSucceed { code := 1 } none)

/-- It has left, and the second one has the lock. -/
def secondIn (op₁ op₂ : Op) (t : Table) : Threads Bool :=
  ((firstWorked op₁ op₂ t).put false (.returned op₁ { code := 1 })).put true
    (.locked op₂ allSucceed nullAddr)

/-- The second one has done its work, which has left the table `t`. -/
def secondWorked (op₁ op₂ : Op) (t : Table) : Threads Bool :=
  { secondIn op₁ op₂ t with table := t }.put true (.worked op₂ allSucceed { code := 0 } none)

theorem writerWaits_run (hop₁ : ¬ op₁.Reads) (hop₂ : ¬ op₂.Reads) :
    Run (Guarded Sound Step) (initial oneBucket) [.load false op₁ allSucceed,
      .load true op₂ allSucceed, .lock false (.writeLock false ∅), .wait true (.writeLock true ∅)]
      (onBucket (firstIn op₁ op₂) writerWaits) :=
  (firstIn_run hop₁).snoc ⟨trivial, onBucket_wait (Threads.index_of_size op₂ rfl) rfl
    (.writeLock hop₂) ⟨rfl, rfl, rfl⟩ ⟨false, Or.inr rfl⟩⟩

theorem readerWaits_run (hop₁ : ¬ op₁.Reads) (hop₂ : op₂.Reads) :
    Run (Guarded Sound Step) (initial oneBucket) [.load false op₁ allSucceed,
      .load true op₂ allSucceed, .lock false (.writeLock false ∅), .wait true (.readLock true)]
      (onBucket (firstIn op₁ op₂) readerWaits) :=
  (firstIn_run hop₁).snoc ⟨trivial, onBucket_wait (Threads.index_of_size op₂ rfl) rfl
    (.readLock hop₂) ⟨rfl, rfl⟩ ⟨false, Or.inl rfl⟩⟩

theorem firstWorked_step {L : Rwlock.State Bool}
    (hwork : op₁.section allSucceed 0 nullAddr oneBucket = .ok ({ code := 1 }, t)) :
    Guarded Sound Step (onBucket (firstIn op₁ op₂) L) (.work false)
      (onBucket (firstWorked op₁ op₂ t) L) := by
  refine ⟨fun op calls head hw => ?_, .work (.work Threads.put_self ?_)⟩
  · obtain ⟨rfl, rfl, rfl⟩ := Progress.locked.inj (Threads.put_self.symm.trans hw)
    exact Or.inl rfl
  · rw [Threads.index_of_size op₁ rfl]
    exact hwork

/-- The first worker leaves, which wakes the second one. -/
theorem secondIn_run (hsize : t.hashSize = 1) (hop₁ : ¬ op₁.Reads) (hop₂ : op₂.Reads) :
    Run (Guarded Sound Step) (onBucket (firstWorked op₁ op₂ t) readerWaits)
      [.unlock false 1 none (.writeUnlock false {true}), .lock true (.readRecheck true)]
      (onBucket (secondIn op₁ op₂ t) readerIn) := by
  have hunlock := onBucket_unlock (p := firstWorked op₁ op₂ t) (w := false) (L := readerWaits)
    (x := .writeUnlock false {true}) (Threads.index_of_size op₁ hsize) Threads.put_self
    (.writeUnlock hop₁) ⟨rfl, fun w => by cases w <;> decide, rfl⟩
  have hlock := onBucket_lock (p := (firstWorked op₁ op₂ t).put false (.returned op₁ { code := 1 }))
    (w := true) (L := readerWoken) (x := .readRecheck true) (Threads.index_of_size op₂ hsize) rfl
    (.readRecheck hop₂) ⟨rfl, rfl⟩ (Or.inl rfl)
  exact Run.cons ⟨trivial, hunlock⟩ (Run.single ⟨trivial, hlock⟩)

theorem secondWorked_run (hsize : t.hashSize = 1) (hop₂ : op₂.Reads)
    (hsound : HeadSound t op₂ 0 nullAddr)
    (hwork : op₂.section allSucceed 0 nullAddr t = .ok ({ code := 0 }, t)) :
    Run (Guarded Sound Step) (onBucket (secondIn op₁ op₂ t) readerIn)
      [.work true, .unlock true 0 none (.readUnlock true ∅)]
      (onBucket ((secondWorked op₁ op₂ t).put true (.returned op₂ { code := 0 })) readerOut) := by
  have hworked : Guarded Sound Step (onBucket (secondIn op₁ op₂ t) readerIn) (.work true)
      (onBucket (secondWorked op₁ op₂ t) readerIn) := by
    have hindex : (secondIn op₁ op₂ t).index op₂ = 0 := Threads.index_of_size op₂ hsize
    refine ⟨fun op calls head hw => ?_, .work (.work Threads.put_self ?_)⟩
    · obtain ⟨rfl, rfl, rfl⟩ := Progress.locked.inj (Threads.put_self.symm.trans hw)
      exact hindex ▸ hsound
    · change op₂.section allSucceed ((secondIn op₁ op₂ t).index op₂) nullAddr t = _
      rw [hindex]
      exact hwork
  have hunlock := onBucket_unlock (p := secondWorked op₁ op₂ t) (w := true) (L := readerIn)
    (x := .readUnlock true ∅) (Threads.index_of_size op₂ hsize) Threads.put_self
    (.readUnlock hop₂) ⟨rfl, ⟨fun _ hu => absurd hu (Finset.notMem_empty _), ?_⟩, rfl⟩
  · exact Run.cons hworked (Run.single ⟨trivial, hunlock⟩)
  · rintro ⟨u, hu⟩
    cases u <;> exact absurd hu (by decide)

/-- A worker loads the head of an empty bucket and waits while another one puts the key in that it
    looks for. -/
theorem locking_linearizable_wait : ∃ (es : List (Event Bool)) (s : Locking Bool),
    Run (Guarded Sound Step) (initial oneBucket) es s ∧
      Event.wait true (.readLock true) ∈ es ∧
      s.threads.progress false = .returned (.insert [97] [49]) { code := 1 } ∧
      s.threads.progress true = .returned (.search [97]) { code := 0 } ∧
      Run Threads.Step (Threads.initial oneBucket) (served es) s.threads ∧
      ∃ S m B, Linearization mapSpec ∅ (Threads.history (served es)) S m ∧
        Buckets s.threads.table B ∧ Holds s.threads.table B m := by
  obtain ⟨h, e, hinsert, -, -, hmove⟩ := insertSection_null oneBucket 0 [97] [49]
  obtain ⟨h, e, hinsert, -, -, hmove⟩ := insertSection_null oneBucket 0 [97] [49]
  have hsound : HeadSound (oneBucket.changed h 0 e.node 1) (.search [97]) 0 nullAddr :=
    Or.inr ⟨[e], [], hmove.chain, rfl, trivial⟩
  have hwaits : Run (Guarded Sound Step) (initial oneBucket) _
      (onBucket (firstIn (.insert [97] [49]) (.search [97])) readerWaits) :=
    readerWaits_run id trivial
  have hrun := ((hwaits.snoc (firstWorked_step hinsert)).trans (secondIn_run rfl id trivial)).trans
    (secondWorked_run rfl trivial hsound (searchSection_null _ [97]))
  exact ⟨_, _, hrun, by simp, rfl, rfl,
    locking_linearizable (by decide) (by decide) hashInit_one hrun⟩

/-- One worker has the lock of the bucket and another one waits for it. -/
theorem locking_no_deadlock_two : ∃ (op : Op) (s : Locking Bool),
    (s.threads.progress false).holding = some op ∧
      (s.locks (s.index op)).phase true = .writeWait false ∧ ∃ e s', Step s e s' ∧ e.Advances := by
  have hblocked : Run (Guarded Sound Step) (initial oneBucket) _
      (onBucket (firstIn (.insert [97] [49]) (.insert [98] [49])) writerWaits) :=
    writerWaits_run id id
  refine ⟨.insert [97] [49], _, rfl, ?_, locking_no_deadlock (w := true) (by decide) (by decide)
    hashInit_one hblocked (fun u op calls head hu => ?_) nofun⟩
  · rw [onBucket_locks (Threads.index_of_size _ rfl)]
    rfl
  · cases u with
    | false =>
      obtain ⟨rfl, rfl, rfl⟩ := Progress.locked.inj (Threads.put_self.symm.trans hu)
      exact Or.inl rfl
    | true => exact nomatch hu

end Locking

end SnuSysProg.Skvs
