import SnuSysProg.Rwlock.Queue

/-
  Lock calls that fail.

  `rwlock_read_lock` counts a reader before it waits, and `rwlock_write_lock` puts a writer in the
  ring. When `pthread_cond_wait` fails, both give up the mutex and return -1, but take nothing back
  (`waitFailed`). `failStep` are the steps of `step` and these failures, at any time and in any
  number. Each of them leaves one reader too many in `read_count` or one entry too many in the
  ring, for good (`surplus_run`); after one of the first kind no writer gets the lock
  (`failedRead_blocks`). So nothing is left of the calls that failed if and only if no wait has
  failed: a full ring leaves nothing behind (`nothingLeft_iff`).
-/

namespace SnuSysProg.Rwlock

open SnuSysProg.Lib

section

variable {T : Type*} [DecidableEq T]

/-- What both lock functions do when `pthread_cond_wait` fails: unlock, and return -1. -/
def waitFailed (rw : RwLock T) : Region T := ⟨rw, .silent, .ret (-1)⟩

/-- A thread runs a region in which nothing fails but a full ring, or its wait fails. -/
inductive FailEvent (T : Type*) where
  | ran (e : Event T)
  | waitFails (t : T)

/-- The thread that takes the step. -/
def FailEvent.thread : FailEvent T → T
  | .ran e => e.thread
  | .waitFails t => t

/-- A wait can fail when it is called, and after any wake-up. -/
def failStep (s : State T) : FailEvent T → State T → Prop
  | .ran e, s' => step s e s'
  | .waitFails t, s' =>
    ((∃ b, s.phase t = .readWait b) ∨ ∃ b, s.phase t = .writeWait b) ∧
      s' = s.after t (waitFailed s.rw) ∅ .idle .idle

/-- The threads that wait in `rwlock_write_lock`, in the order they came: one that begins to wait
    is the last. -/
def waiters (waiting : List T) (s : State T) (e : FailEvent T) (s' : State T) : List T :=
  match (s.phase e.thread).isWriteWaiting, (s'.phase e.thread).isWriteWaiting with
  | false, true => waiting ++ [e.thread]
  | true, false => waiting.erase e.thread
  | _, _ => waiting

variable {s s' : State T} {e : Event T} {t : T} {q q' waiting : List T} {reads writes : Nat}

/-! ## The ring -/

/-- What a step of thread `t` does to the ring, by whether `t` waits for the write lock before and
    after it. -/
inductive RingMove (t : T) : Bool → Bool → List T → List T → Prop
  | keep {b : Bool} {q : List T} : RingMove t b b q q
  | join {q : List T} : RingMove t false true q (q ++ [t])
  | leave {q : List T} : RingMove t true false (t :: q) q
  | through {q q' : List T} (h : q ++ [t] = t :: q') : RingMove t false false q q'

omit [DecidableEq T] in
/-- The ring after a writer in it ran its test. -/
theorem WriteTest.ring {rw : RwLock T} {r : Region T} (hr : WriteTest t rw q r)
    (hring : rw.Holds q) :
    (r.next = .wait ∧ r.rw.Holds q) ∨
      (r.next = .ret 0 ∧ ∃ q', q = t :: q' ∧ r.rw.Holds q') := by
  cases hr with
  | enter hread hwrite hq =>
    subst hq
    exact Or.inr ⟨rfl, _, rfl, Ring.pop hring⟩
  | busy hbusy wake => exact Or.inl ⟨rfl, hring⟩
  | pass hq ha hwake => exact Or.inl ⟨rfl, hring⟩

theorem after_self (s : State T) (t : T) (r : Region T) (woken : Finset T)
    (held waiting : Phase) :
    (s.after t r woken held waiting).phase t = r.next.phase held waiting := by
  rw [after_phase, Function.update_self]

/-- A region that neither starts nor ends in `rwlock_write_lock` keeps the ring. -/
theorem ringMove_after {woken : Finset T} {held waiting : Phase} (r : Region T)
    (hp : (s.phase t).isWriteWaiting = false) (hheld : held.isWriteWaiting = false)
    (hwaiting : waiting.isWriteWaiting = false) :
    RingMove t (s.phase t).isWriteWaiting
      ((s.after t r woken held waiting).phase t).isWriteWaiting q q := by
  have hx : (r.next.phase held waiting).isWriteWaiting = false :=
    Next.phase_cases (P := fun x => x.isWriteWaiting = false) hheld hwaiting rfl r.next
  rw [after_self, hx, hp]
  exact .keep

/-- A step does to the ring what `RingMove` says, as long as the waiting writers are in it. -/
theorem ring_step (hring : s.rw.Holds q)
    (hin : ∀ t, (s.phase t).isWriteWaiting = true → t ∈ q) (h : step s e s') :
    ∃ q', s'.rw.Holds q' ∧ RingMove e.thread (s.phase e.thread).isWriteWaiting
      (s'.phase e.thread).isWriteWaiting q q' := by
  cases e with
  | readLock t =>
    obtain ⟨hp, rfl⟩ := h
    exact ⟨q, rwlockReadLock_holds hring, ringMove_after _ (hp ▸ rfl) rfl rfl⟩
  | readRecheck t =>
    obtain ⟨hp, rfl⟩ := h
    exact ⟨q, readLockTest_holds hring, ringMove_after _ (hp ▸ rfl) rfl rfl⟩
  | readUnlock t woken =>
    obtain ⟨hp, -, rfl⟩ := h
    exact ⟨q, rwlockReadUnlock_holds hring, ringMove_after _ (hp ▸ rfl) rfl rfl⟩
  | writeUnlock t woken =>
    obtain ⟨hp, -, rfl⟩ := h
    exact ⟨q, rwlockWriteUnlock_holds hring, ringMove_after _ (hp ▸ rfl) rfl rfl⟩
  | writeLock t woken =>
    obtain ⟨hp, -, rfl⟩ := h
    rw [Event.thread, after_self, hp]
    by_cases hfull : q.length + 1 = writerRingSize
    · rw [rwlockWriteLock_full hring hfull]
      exact ⟨q, hring, .keep⟩
    · have htest : WriteTest t (s.rw.enqueue t) (q ++ [t]) (rwlockWriteLock t s.rw) :=
        rwlockWriteLock_spec hring hfull
      obtain ⟨hnext, hring'⟩ | ⟨hnext, q', hq, hring'⟩ := htest.ring (enqueue_holds hring hfull)
      · rw [hnext]
        exact ⟨q ++ [t], hring', .join⟩
      · rw [hnext]
        exact ⟨q', hring', .through hq⟩
  | writeRecheck t woken =>
    obtain ⟨hp, -, rfl⟩ := h
    have htest := writeLockTest_spec hring (hin t (hp ▸ rfl))
    rw [Event.thread, after_self, hp]
    obtain ⟨hnext, hring'⟩ | ⟨hnext, q', hq, hring'⟩ := htest.ring hring
    · rw [hnext]
      exact ⟨q, hring', .keep⟩
    · rw [hnext, hq]
      exact ⟨q', hring', .leave⟩
  | spuriousWakeup t =>
    obtain ⟨-, rfl⟩ := h
    refine ⟨q, hring, ?_⟩
    rw [Event.thread]
    dsimp only
    rw [Function.update_self, isWriteWaiting_wakeUp]
    exact .keep

/-- A writer that comes when all threads are outside gets the lock. -/
theorem rwlockWriteLock_idle (hring : s.rw.Holds []) (hread : s.rw.readCount = 0)
    (hwrite : s.rw.writeCount = 0) (t : T) : (rwlockWriteLock t s.rw).next = .ret 0 := by
  have hroom : ([] : List T).length + 1 ≠ writerRingSize := by
    rw [List.length_nil]
    decide
  have htest : WriteTest t (s.rw.enqueue t) [t] (rwlockWriteLock t s.rw) :=
    rwlockWriteLock_spec hring hroom
  generalize rwlockWriteLock t s.rw = r at htest
  cases htest with
  | enter => rfl
  | busy h =>
    have hread' : (s.rw.enqueue t).readCount = s.rw.readCount := rfl
    have hwrite' : (s.rw.enqueue t).writeCount = s.rw.writeCount := rfl
    omega
  | pass hq ha => exact absurd (List.cons.inj hq).1.symm ha

/-! ## The waiting writers -/

/-- The list of the waiting writers lists them, each once. -/
theorem waiters_lists {e : FailEvent T} (hnodup : waiting.Nodup)
    (hwaiting : ∀ t, t ∈ waiting ↔ (s.phase t).isWriteWaiting = true)
    (hothers : ∀ u, u ≠ e.thread → (s'.phase u).isWriteWaiting = (s.phase u).isWriteWaiting) :
    (waiters waiting s e s').Nodup ∧
      ∀ t, t ∈ waiters waiting s e s' ↔ (s'.phase t).isWriteWaiting = true := by
  have hself := hwaiting e.thread
  unfold waiters
  cases hp : (s.phase e.thread).isWriteWaiting <;> cases hx : (s'.phase e.thread).isWriteWaiting
  case false.true =>
    have hout : e.thread ∉ waiting := by
      rw [hself, hp]
      decide
    refine ⟨hnodup.append (List.nodup_singleton _) (List.disjoint_singleton.mpr hout), fun t => ?_⟩
    rw [List.mem_append, List.mem_singleton]
    by_cases ht : t = e.thread
    · rw [ht, hx]
      simp
    · rw [hothers t ht, hwaiting t]
      simp [ht]
  case true.false =>
    refine ⟨hnodup.erase _, fun t => ?_⟩
    rw [hnodup.mem_erase_iff]
    by_cases ht : t = e.thread
    · rw [ht, hx]
      simp
    · rw [hothers t ht, hwaiting t]
      simp [ht]
  all_goals
    refine ⟨hnodup, fun t => ?_⟩
    by_cases ht : t = e.thread
    · rw [ht, hself, hp, hx]
    · rw [hothers t ht]
      exact hwaiting t

/-- They stay in the ring, in their order, and the ring gets no longer than they do. -/
theorem waiters_sublist {e : FailEvent T}
    (hwaiting : ∀ t, t ∈ waiting ↔ (s.phase t).isWriteWaiting = true)
    (hmove : RingMove e.thread (s.phase e.thread).isWriteWaiting
      (s'.phase e.thread).isWriteWaiting q q') (hsub : waiting.Sublist q) :
    (waiters waiting s e s').Sublist q' ∧
      q'.length + waiting.length = q.length + (waiters waiting s e s').length := by
  have hself := hwaiting e.thread
  unfold waiters
  generalize (s.phase e.thread).isWriteWaiting = b at hmove hself
  generalize (s'.phase e.thread).isWriteWaiting = b' at hmove
  cases hmove with
  | keep => cases b <;> exact ⟨hsub, rfl⟩
  | join =>
    refine ⟨hsub.append (List.Sublist.refl _), ?_⟩
    rw [List.length_append, List.length_append]
    exact Nat.add_right_comm _ _ _
  | leave =>
    have herase := hsub.erase e.thread
    rw [List.erase_cons_head] at herase
    refine ⟨herase, ?_⟩
    have hlen := List.length_erase_of_mem (hself.mpr rfl)
    have hpos := List.length_pos_of_mem (hself.mpr rfl)
    rw [List.length_cons]
    dsimp only
    omega
  | through hq =>
    have hout : e.thread ∉ waiting := by
      rw [hself]
      decide
    have herase := (hsub.trans (List.sublist_append_left q [e.thread])).erase e.thread
    rw [hq, List.erase_cons_head, List.erase_of_not_mem hout] at herase
    refine ⟨herase, ?_⟩
    have hlen := congrArg List.length hq
    simp only [List.length_append, List.length_cons, List.length_nil] at hlen
    dsimp only
    omega

/-! ## The counters -/

section Counters

variable [Fintype T]

/-- What the failures have left: `reads` in `read_count` and `writes` in the ring. -/
structure Surplus (s : State T) (waiting : List T) (reads writes : Nat) : Prop where
  write : s.rw.writeCount = count Phase.isWriting s.phase
  read : s.rw.readCount =
    count Phase.isReading s.phase + count Phase.isReadWaiting s.phase + reads
  nodup : waiting.Nodup
  lists : ∀ t, t ∈ waiting ↔ (s.phase t).isWriteWaiting = true
  ring : ∃ q, s.rw.Holds q ∧ waiting.Sublist q ∧ q.length = waiting.length + writes

omit [DecidableEq T] in
theorem surplus_init : Surplus (init : State T) [] 0 0 := by
  have hcounts : Counts (init : State T) := counts_init
  refine ⟨hcounts.write, by rw [hcounts.read]; rfl, List.nodup_nil, queued_init.waiting, ?_⟩
  exact ⟨[], holds_init, List.Sublist.refl _, rfl⟩

/-- A step without a failure leaves no more behind. -/
theorem surplus_ran (hs : Surplus s waiting reads writes) (h : step s e s') :
    Surplus s' (waiters waiting s (.ran e) s') reads writes := by
  obtain ⟨q, hring, hsub, hlen⟩ := hs.ring
  obtain ⟨x, woken, hphase, -⟩ := step_move h
  obtain ⟨hwrite, hread, -, -⟩ := step_balanced h
  obtain ⟨q', hring', hmove⟩ :=
    ring_step hring (fun t ht => hsub.subset ((hs.lists t).mpr ht)) h
  obtain ⟨hnodup, hwaiting⟩ := waiters_lists (e := .ran e) hs.nodup hs.lists
    fun u hu => isWriteWaiting_others hphase hu
  obtain ⟨hsub', hlen'⟩ := waiters_sublist (e := .ran e) hs.lists hmove hsub
  have iw := hs.write
  have ir := hs.read
  exact ⟨by omega, by omega, hnodup, hwaiting, q', hring', hsub', by omega⟩

omit [Fintype T] in
/-- A call that fails leaves the lock as it is. -/
theorem waitFails_after (h : failStep s (.waitFails t) s') :
    s'.rw = s.rw ∧ s'.phase = Function.update (wakeAll ∅ s.phase) t .idle := by
  obtain ⟨-, rfl⟩ := h
  refine ⟨rfl, ?_⟩
  rw [after_phase]
  rfl

omit [Fintype T] in
/-- The lists of the waiting writers before and after a wait of `t` fails. -/
theorem waiters_waitFails (h : failStep s (.waitFails t) s') :
    waiters waiting s (.waitFails t) s' =
      if (s.phase t).isWriteWaiting = true then waiting.erase t else waiting := by
  have hidle : s'.phase t = .idle := by rw [(waitFails_after h).2, Function.update_self]
  rw [waiters, FailEvent.thread, hidle]
  cases (s.phase t).isWriteWaiting <;> rfl

/-- `read_count` still counts a reader whose wait failed. -/
theorem surplus_failedRead {b : Bool} (hs : Surplus s waiting reads writes)
    (h : failStep s (.waitFails t) s') (hp : s.phase t = .readWait b) :
    Surplus s' (waiters waiting s (.waitFails t) s') (reads + 1) writes := by
  obtain ⟨hrw, hphase⟩ := waitFails_after h
  obtain ⟨hnodup, hlists⟩ := waiters_lists (e := .waitFails t) hs.nodup hs.lists
    fun u hu => isWriteWaiting_others hphase hu
  obtain ⟨hw, hr, hq⟩ := count_moves hphase
  rw [hp] at hw hr hq
  simp only [Phase.isWriting, Phase.isReading, Phase.isReadWaiting, reduceCtorEq, decide_false,
    if_true, Bool.false_eq_true, if_false, Nat.add_zero] at hw hr hq
  have hkeep : waiters waiting s (.waitFails t) s' = waiting := by
    rw [waiters_waitFails h, hp]
    rfl
  have iw := hs.write
  have ir := hs.read
  have iring := hs.ring
  rw [← hrw] at iw ir iring
  rw [hkeep] at hnodup hlists ⊢
  exact ⟨by omega, by omega, hnodup, hlists, iring⟩

/-- The entry of a writer whose wait failed stays in the ring. -/
theorem surplus_failedWrite {b : Bool} (hs : Surplus s waiting reads writes)
    (h : failStep s (.waitFails t) s') (hp : s.phase t = .writeWait b) :
    Surplus s' (waiters waiting s (.waitFails t) s') reads (writes + 1) := by
  obtain ⟨hrw, hphase⟩ := waitFails_after h
  obtain ⟨hnodup, hlists⟩ := waiters_lists (e := .waitFails t) hs.nodup hs.lists
    fun u hu => isWriteWaiting_others hphase hu
  obtain ⟨hw, hr, hq⟩ := count_moves hphase
  rw [hp] at hw hr hq
  simp only [Phase.isWriting, Phase.isReading, Phase.isReadWaiting, reduceCtorEq, decide_false,
    Bool.false_eq_true, if_false, Nat.add_zero] at hw hr hq
  have herase : waiters waiting s (.waitFails t) s' = waiting.erase t := by
    rw [waiters_waitFails h, hp]
    rfl
  have hmem : t ∈ waiting := (hs.lists t).mpr (hp ▸ rfl)
  have hlen' := List.length_erase_of_mem hmem
  have hpos := List.length_pos_of_mem hmem
  have iw := hs.write
  have ir := hs.read
  obtain ⟨q, hring, hsub, hlen⟩ := hs.ring
  rw [← hrw] at iw ir hring
  rw [herase] at hnodup hlists ⊢
  exact ⟨by omega, by omega, hnodup, hlists, q, hring, List.erase_sublist.trans hsub, by omega⟩

/-- A failed call leaves one more reader or one more entry behind. -/
theorem surplus_failed (hs : Surplus s waiting reads writes)
    (h : failStep s (.waitFails t) s') : ∃ reads' writes',
      Surplus s' (waiters waiting s (.waitFails t) s') reads' writes' ∧ reads ≤ reads' ∧
      reads' + writes' = reads + writes + 1 := by
  obtain ⟨b, hp⟩ | ⟨b, hp⟩ := h.1
  · exact ⟨reads + 1, writes, surplus_failedRead hs h hp, by omega, by omega⟩
  · exact ⟨reads, writes + 1, surplus_failedWrite hs h hp, by omega, by omega⟩

def FailEvent.isFailure : FailEvent T → Bool
  | .ran _ => false
  | .waitFails _ => true

/-- Every failure of a run has left something. -/
theorem surplus_run {es : List (FailEvent T)} {x : State T × List T}
    (h : Run (Recording waiters failStep) (init, []) es x) :
    ∃ reads writes, Surplus x.1 x.2 reads writes ∧
      reads + writes = es.countP FailEvent.isFailure := by
  induction h with
  | nil => exact ⟨0, 0, surplus_init, rfl⟩
  | @snoc x y es e _ hlast ih =>
    obtain ⟨reads, writes, hs, hsum⟩ := ih
    obtain ⟨hstep, hrecord⟩ := hlast
    rw [hrecord, List.countP_append, ← hsum]
    cases e with
    | ran e => exact ⟨reads, writes, surplus_ran hs hstep, rfl⟩
    | waitFails t =>
      obtain ⟨reads', writes', hs', -, hsum'⟩ := surplus_failed hs hstep
      exact ⟨reads', writes', hs', hsum'⟩

/-- Nothing is left in the lock of the calls that have returned -1: the counters count the threads
    inside, and the ring holds the waiting writers, in the order they came. -/
structure NothingLeft (s : State T) (waiting : List T) : Prop where
  write : s.rw.writeCount = count Phase.isWriting s.phase
  read : s.rw.readCount = count Phase.isReading s.phase + count Phase.isReadWaiting s.phase
  ring : s.rw.Holds waiting
  /-- A reader would only wait for a writer. -/
  reader : (rwlockReadLock s.rw).next = .wait → ∃ u, s.phase u = .writing
  /-- A writer would only wait for a thread that is inside, and be refused only then. -/
  writer : ∀ t, (rwlockWriteLock t s.rw).next ≠ .ret 0 → ∃ u, s.phase u ≠ .idle

/-- Nothing is left of the failures if there were none. -/
theorem Surplus.nothingLeft (hs : Surplus s waiting 0 0) : NothingLeft s waiting := by
  have hwrite := hs.write
  have hread := hs.read
  rw [Int.natCast_zero, Int.add_zero] at hread
  obtain ⟨q, hring, hsub, hlen⟩ := hs.ring
  obtain rfl := hsub.eq_of_length hlen.symm
  refine ⟨hwrite, hread, hring, fun hwait => ?_, fun t hnot => ?_⟩
  · have hpos : 0 < s.rw.writeCount := by
      by_contra hfree
      rw [rwlockReadLock, readLockTest, if_neg hfree] at hwait
      exact absurd hwait (by simp)
    have hcount : 0 < count Phase.isWriting s.phase := by omega
    obtain ⟨u, hu⟩ := exists_of_count_pos hcount
    exact ⟨u, of_decide_eq_true hu⟩
  · by_contra hnone
    have hidle : ∀ u, s.phase u = .idle := fun u => by
      by_contra hu
      exact hnone ⟨u, hu⟩
    have hzero : ∀ p : Phase → Bool, p .idle = false → count p s.phase = 0 :=
      fun p hp => count_eq_zero.mpr fun u => by rw [hidle u, hp]
    rw [hzero _ rfl] at hwrite
    rw [hzero _ rfl, hzero _ rfl] at hread
    have hempty : waiting = [] := List.eq_nil_iff_forall_not_mem.mpr fun u hu => by
      rw [hs.lists u, hidle u] at hu
      exact absurd hu (by decide)
    rw [hempty] at hring
    exact hnot (rwlockWriteLock_idle hring hread hwrite t)

omit [DecidableEq T] in
/-- If the threads account for what is in the lock, nothing has been left. -/
theorem Surplus.eq_zero (hs : Surplus s waiting reads writes)
    (hread : s.rw.readCount = count Phase.isReading s.phase + count Phase.isReadWaiting s.phase)
    (hholds : s.rw.Holds waiting) : reads + writes = 0 := by
  obtain ⟨q, hring, -, hlen⟩ := hs.ring
  have hsame : q.length = waiting.length := hring.length_eq.symm.trans hholds.length_eq
  have ir := hs.read
  omega

/-- **What failed calls leave behind.** In every state that any interleaving of any number of
    threads reaches, with any failures: nothing, if and only if no wait has failed. -/
theorem nothingLeft_iff {es : List (FailEvent T)}
    (h : Run (Recording waiters failStep) (init, []) es (s, waiting)) :
    NothingLeft s waiting ↔ ∀ t, .waitFails t ∉ es := by
  obtain ⟨reads, writes, hs, hsum⟩ := surplus_run h
  have hs : Surplus s waiting reads writes := hs
  have hnone : es.countP FailEvent.isFailure = 0 ↔ ∀ t, .waitFails t ∉ es := by
    rw [List.countP_eq_zero]
    constructor
    · exact fun h t ht => h _ ht rfl
    · intro h e he
      cases e with
      | ran e => exact Bool.false_ne_true
      | waitFails t => exact absurd he (h t)
  rw [← hnone, ← hsum]
  constructor
  · exact fun h => hs.eq_zero h.read h.ring
  · intro hzero
    obtain ⟨rfl, rfl⟩ := Nat.add_eq_zero_iff.mp hzero
    exact hs.nothingLeft

/-- While a reader too many is counted, no thread gets the write lock. -/
theorem Surplus.no_writer (hs : Surplus s waiting reads writes) (hreads : 0 < reads) (t : T) :
    (writeLockTest t s.rw).next = .wait ∧ (rwlockWriteLock t s.rw).next ≠ .ret 0 := by
  have hread : s.rw.readCount > 0 := by
    have ir := hs.read
    omega
  have hwait : ∀ rw : RwLock T, rw.readCount > 0 → (writeLockTest t rw).next = .wait :=
    fun rw h => by rw [writeLockTest, if_pos (Or.inr (Or.inl h))]
  refine ⟨hwait s.rw hread, fun hret => ?_⟩
  rw [rwlockWriteLock] at hret
  split at hret
  · exact absurd hret (by simp)
  · exact absurd ((hwait (s.rw.enqueue t) hread).symm.trans hret) (by simp)

/-- After the wait of a reader failed, no thread ever gets the write lock again. -/
theorem failedRead_blocks {es es' : List (FailEvent T)} {s'' : State T} {b : Bool}
    (h : Run failStep init es s) (hp : s.phase t = .readWait b)
    (hfail : failStep s (.waitFails t) s') (hlater : Run failStep s' es' s'') (u : T) :
    (writeLockTest u s''.rw).next = .wait ∧ (rwlockWriteLock u s''.rw).next ≠ .ret 0 := by
  obtain ⟨waiting, hrec⟩ : ∃ waiting, Run (Recording waiters failStep) (init, []) es (s, waiting) :=
    h.recorded []
  obtain ⟨reads, writes, hs, -⟩ := surplus_run hrec
  have hstart := surplus_failedRead hs hfail hp
  have hkept : ∃ waiting reads writes, Surplus s'' waiting reads writes ∧ 0 < reads := by
    refine Run.preserves
      (P := fun s => ∃ waiting reads writes, Surplus s waiting reads writes ∧ 0 < reads)
      ?_ hlater ⟨_, _, _, hstart, Nat.succ_pos reads⟩
    intro s e s' ⟨waiting, reads, writes, hs, hpos⟩ hstep
    cases e with
    | ran e => exact ⟨_, reads, writes, surplus_ran hs hstep, hpos⟩
    | waitFails t =>
      obtain ⟨reads', writes', hs', hle, -⟩ := surplus_failed hs hstep
      exact ⟨_, reads', writes', hs', Nat.lt_of_lt_of_le hpos hle⟩
  obtain ⟨waiting, reads, writes, hs, hpos⟩ := hkept
  exact hs.no_writer hpos u

end Counters

end

/-- Thread 0 asks for the write lock while the nine others wait, and is refused. -/
theorem nothingLeft_refused :
    ∃ (s s' : State (Fin 10)) (es : List (FailEvent (Fin 10))) (waiting : List (Fin 10)),
      Run failStep init es s ∧ failStep s (.ran (.writeLock 0 ∅)) s' ∧
      (rwlockWriteLock 0 s.rw).next = .ret (-1) ∧ NothingLeft s' waiting := by
  obtain ⟨s, es, hrun, hidle, hfull⟩ := ten_writers
  have hrun : Run failStep init (es.map .ran) s := hrun.map (f := FailEvent.ran) fun _ _ _ h => h
  have hstep : failStep s (.ran (.writeLock 0 ∅)) _ := ⟨hidle, by rw [hfull]; rfl, rfl⟩
  obtain ⟨waiting, hrec⟩ : ∃ waiting, Run (Recording waiters failStep) (init, []) _ (_, waiting) :=
    (hrun.snoc hstep).recorded []
  exact ⟨s, _, _, waiting, hrun, hstep, by rw [hfull], (nothingLeft_iff hrec).mpr (by simp)⟩

/-- The wait of reader 1 fails while thread 0 writes. When all threads are outside again, thread 2
    waits for the write lock. -/
theorem nothingLeft_waitFails :
    ∃ (s : State (Fin 3)) (waiting : List (Fin 3)),
      Run (Recording waiters failStep) (init, [])
        [.ran (.writeLock 0 ∅), .ran (.readLock 1), .waitFails 1, .ran (.writeUnlock 0 ∅)]
        (s, waiting) ∧
      (∀ t, s.phase t = .idle) ∧ s.rw.readCount = 1 ∧ (rwlockWriteLock 2 s.rw).next = .wait ∧
      ¬ NothingLeft s waiting := by
  have start : Run (Recording waiters failStep) (init, []) [] ((init : State (Fin 3)), []) :=
    Run.nil _
  have held := start.snoc (show Recording waiters failStep _ (.ran (.writeLock 0 ∅)) (_, _) from
    ⟨⟨rfl, rfl, rfl⟩, rfl⟩)
  have queued := held.snoc (show Recording waiters failStep _ (.ran (.readLock 1)) (_, _) from
    ⟨⟨rfl, rfl⟩, rfl⟩)
  have failed := queued.snoc (show Recording waiters failStep _ (.waitFails 1) (_, _) from
    ⟨⟨Or.inl ⟨false, rfl⟩, rfl⟩, rfl⟩)
  have left := failed.snoc (show Recording waiters failStep _ (.ran (.writeUnlock 0 ∅)) (_, _) from
    ⟨⟨rfl, by change ∀ t, _ ↔ _; decide, rfl⟩, rfl⟩)
  obtain ⟨s, waiting, hrun, hidle, hread, hwait⟩ : ∃ (s : State (Fin 3)) (waiting : List (Fin 3)),
      Run (Recording waiters failStep) (init, []) _ (s, waiting) ∧ (∀ t, s.phase t = .idle) ∧
        s.rw.readCount = 1 ∧ (rwlockWriteLock 2 s.rw).next = .wait :=
    ⟨_, _, left, by decide, rfl, rfl⟩
  refine ⟨s, waiting, hrun, hidle, hread, hwait, fun h => ?_⟩
  obtain ⟨u, hu⟩ := h.writer 2 (by rw [hwait]; simp)
  exact hu (hidle u)

end SnuSysProg.Rwlock
