import SnuSysProg.Rwlock.Exclusion

/-
  Readers come first.

  A reader is counted before it waits, and every writer tests `read_count` again after each
  wake-up. So from the step that counts a reader until its `rwlock_read_unlock` the count is
  positive (`counted_step`), and a step that takes the write lock needs
  it to be zero (`Acquires.free`). `rwlock_readers_first` puts this together for any run: whoever
  acquires the write lock after the reader came, queued before or not, does so after the reader
  has been inside and has left.
-/

namespace SnuSysProg.Rwlock

open SnuSysProg.Lib

/-- `u` acquires the write lock in a step from `s` to `s'`. -/
def Acquires {T : Type*} (u : T) (s s' : State T) : Prop :=
  s.phase u ≠ .writing ∧ s'.phase u = .writing

section Steps

variable {T : Type*} [DecidableEq T] {s s' : State T} {e : Event T} {t u : T}

theorem wakeUp_writing {p : Phase} (h : p.wakeUp = .writing) : p = .writing := by
  cases p <;> simp [Phase.wakeUp] at h ⊢

theorem wakeAll_writing {phase : T → Phase} {woken : Finset T}
    (h : wakeAll woken phase u = .writing) : phase u = .writing := by
  unfold wakeAll at h
  split at h
  · exact wakeUp_writing h
  · exact h

theorem wakeAll_counted {phase : T → Phase} {woken : Finset T}
    (h : (phase u).isCounted = true) : (wakeAll woken phase u).isCounted = true := by
  unfold wakeAll
  split
  · generalize phase u = p at h ⊢
    cases p <;> exact h
  · exact h

/-- The write lock is acquired by the thread that takes the step, and no reader is counted. -/
theorem Acquires.free (ha : Acquires u s s') (h : step s e s') :
    e.thread = u ∧ s.rw.readCount ≤ 0 := by
  obtain ⟨x, woken, hphase, hmove⟩ := step_move h
  obtain ⟨hbefore, hafter⟩ := ha
  rw [hphase] at hafter
  by_cases hu : u = e.thread
  · rw [← hu, Function.update_self] at hafter
    subst hafter
    refine ⟨hu.symm, ?_⟩
    generalize hc : s.rw.counts = c at hmove
    generalize s'.rw.counts = c' at hmove
    generalize s.phase e.thread = p at hmove
    have hcount : s.rw.readCount = c.1 := by rw [← hc]; rfl
    rw [hcount]
    cases hmove with
    | writeEnter hr hw => exact hr
    | writeAdmit hr hw => exact hr
  · rw [Function.update_of_ne hu] at hafter
    exact absurd (wakeAll_writing hafter) hbefore

/-- A thread leaves `reading` by `rwlock_read_unlock`. -/
theorem unlocks_of_reading (h : step s e s') (hr : s.phase e.thread = .reading) :
    ∃ woken, e = .readUnlock e.thread woken := by
  cases e with
  | readUnlock t woken => exact ⟨woken, rfl⟩
  | spuriousWakeup t =>
    rcases h.1 with hp | hp <;> exact absurd (hp.symm.trans hr) (by decide)
  | _ => exact absurd (h.1.symm.trans hr) (by decide)

/-- A reader stays counted until it unlocks. -/
theorem counted_step (hc : (s.phase t).isCounted = true) (h : step s e s')
    (hkeep : ∀ woken, e ≠ .readUnlock t woken) : (s'.phase t).isCounted = true := by
  obtain ⟨x, woken, hphase, hmove⟩ := step_move h
  rw [hphase]
  by_cases ht : t = e.thread
  · rw [← ht] at hmove ⊢
    rw [Function.update_self]
    cases hp : s.phase t with
    | readWait b =>
      rw [hp] at hmove
      generalize s.rw.counts = c at hmove
      generalize s'.rw.counts = c' at hmove
      cases hmove <;> rfl
    | reading =>
      obtain ⟨w, hw⟩ := unlocks_of_reading h (by rw [← ht, hp])
      rw [← ht] at hw
      exact absurd hw (hkeep w)
    | _ => exact absurd hc (by rw [hp]; exact Bool.false_ne_true)
  · rw [Function.update_of_ne ht]
    exact wakeAll_counted hc

/-- The step that counts a reader acquires nothing, and with a writer inside the reader waits. -/
theorem counted_of_readLock (h : step s (.readLock t) s') : (s'.phase t).isCounted = true := by
  obtain ⟨hp, rfl⟩ := h
  rw [after_phase, Function.update_self, rwlockReadLock]
  rcases readLockTest_cases { s.rw with readCount := s.rw.readCount + 1 } with ⟨-, hr⟩ | hr <;>
    · rw [hr]
      rfl

theorem readLock_acquires_nothing (h : step s (.readLock t) s') : ¬ Acquires u s s' := by
  intro ha
  obtain ⟨rfl, -⟩ := ha.free h
  have hcounted := counted_of_readLock h
  rw [show t = (Event.readLock t).thread from rfl, ha.2] at hcounted
  exact Bool.false_ne_true hcounted

theorem readLock_waits (h : step s (.readLock t) s') (hw : 0 < s.rw.writeCount) :
    s'.phase t = .readWait false := by
  obtain ⟨hp, rfl⟩ := h
  rw [after_phase, Function.update_self, rwlockReadLock, readLockTest, if_pos hw]
  rfl

end Steps

/-! ## Runs -/

section Runs

variable {T : Type*} [DecidableEq T] {s₀ s₁ s₂ s₃ : State T} {fs : List (Event T)} {e : Event T}
  {t : T}

/-- Along a run a counted reader is still counted, or it has been inside and unlocked. -/
theorem counted_or_left (hrun : Run step s₁ fs s₂) (hc : (s₁.phase t).isCounted = true) :
    ((s₂.phase t).isCounted = true ∧ ∀ woken, Event.readUnlock t woken ∉ fs) ∨
      ∃ gs woken hs s, fs = gs ++ Event.readUnlock t woken :: hs ∧
        (∀ w, Event.readUnlock t w ∉ gs) ∧ Run step s₁ gs s ∧ s.phase t = .reading := by
  induction hrun with
  | nil => exact Or.inl ⟨hc, fun _ => List.not_mem_nil⟩
  | @snoc s s' es e hrun hstep ih =>
    rcases ih with ⟨hcounted, hkept⟩ | ⟨gs, woken, hs, u, rfl, hnot, hgs, hreading⟩
    · by_cases hunlock : ∃ woken, e = .readUnlock t woken
      · obtain ⟨woken, rfl⟩ := hunlock
        exact Or.inr ⟨es, woken, [], s, rfl, hkept, hrun, hstep.1⟩
      · have hkeep : ∀ woken, e ≠ .readUnlock t woken := fun w hw => hunlock ⟨w, hw⟩
        refine Or.inl ⟨counted_step hcounted hstep hkeep, ?_⟩
        intro woken hmem
        rcases List.mem_append.mp hmem with hmem | hmem
        · exact hkept woken hmem
        · exact hkeep woken (List.mem_singleton.mp hmem).symm
    · refine Or.inr ⟨gs, woken, hs ++ [e], u, ?_, hnot, hgs, hreading⟩
      rw [List.append_assoc, List.cons_append]

variable [Fintype T]

/-- **What a reader that arrives can count on**: `t` in the step from `s₀` to `s₁`, the steps `fs`
    from there to `s₂`, and one more to `s₃`. -/
structure ReaderFirst (t : T) (s₀ s₁ : State T) (fs : List (Event T)) (s₂ s₃ : State T) : Prop where
  /-- Nobody acquires the write lock as the reader is counted. -/
  arrival : ∀ u, ¬ Acquires u s₀ s₁
  /-- Nobody acquires it until the reader unlocks. -/
  kept_out : (∀ woken, Event.readUnlock t woken ∉ fs) → ∀ u, ¬ Acquires u s₂ s₃
  /-- If a writer holds the lock, the reader waits. -/
  waits : (∃ w, s₀.phase w = .writing) → s₁.phase t = .readWait false
  /-- Whoever acquires the write lock then, queued before or not: the reader has been inside. -/
  first : ∀ u, Acquires u s₂ s₃ →
    ∃ gs woken hs s, fs = gs ++ Event.readUnlock t woken :: hs ∧
      (∀ w, Event.readUnlock t w ∉ gs) ∧ Run step s₁ gs s ∧ s.phase t = .reading

/-- **Readers first**, in any interleaving of any number of threads. -/
theorem rwlock_readers_first {es : List (Event T)} (hrun : Run step init es s₀)
    (harrive : step s₀ (.readLock t) s₁) (hfs : Run step s₁ fs s₂) (hlast : step s₂ e s₃) :
    ReaderFirst t s₀ s₁ fs s₂ s₃ := by
  have hcounts : Counts s₂ := counts_run ((hrun.snoc harrive).trans hfs)
  have hleft := counted_or_left hfs (counted_of_readLock harrive)
  have hbusy : (s₂.phase t).isCounted = true → ∀ u, ¬ Acquires u s₂ s₃ := by
    intro hcounted u ha
    have hpos := hcounts.read_of_counted hcounted
    have hfree := (ha.free hlast).2
    omega
  refine ⟨fun u => readLock_acquires_nothing harrive, ?_, ?_, ?_⟩
  · intro hkeep
    rcases hleft with ⟨hcounted, -⟩ | ⟨gs, woken, hs, s, rfl, -⟩
    · exact hbusy hcounted
    · exact absurd (List.mem_append_right gs List.mem_cons_self) (hkeep woken)
  · rintro ⟨w, hw⟩
    have hwrite := (counts_run hrun).write
    have hpos : 0 < count Phase.isWriting s₀.phase := count_pos_of (decide_eq_true hw)
    exact readLock_waits harrive (by omega)
  · intro u ha
    rcases hleft with ⟨hcounted, -⟩ | hleft
    · exact absurd ha (hbusy hcounted u)
    · exact hleft

end Runs

/-- Writer 0 is inside and writer 1 has queued when reader 2 comes. The reader is let in as writer 0
    leaves, and writer 1 acquires after it. -/
theorem rwlock_readers_first_overtakes :
    ∃ (s₀ s₁ s₂ s₃ : State (Fin 3)) (fs : List (Event (Fin 3))),
      s₀.phase 0 = .writing ∧ s₀.phase 1 = .writeWait false ∧ Acquires 1 s₂ s₃ ∧
      ReaderFirst 2 s₀ s₁ fs s₂ s₃ := by
  have start : Run step init [] (init : State (Fin 3)) := Run.nil _
  have held := start.snoc (show step _ (.writeLock 0 ∅) _ from ⟨rfl, rfl, rfl⟩)
  have queued := held.snoc (show step _ (.writeLock 1 ∅) _ from ⟨rfl, rfl, rfl⟩)
  iterate 5 apply Exists.intro
  refine And.intro ?held (And.intro ?queued (And.intro ?acquired ?first))
  case first =>
    apply rwlock_readers_first queued
    case harrive => exact show step _ (.readLock 2) _ from ⟨rfl, rfl⟩
    case hfs =>
      apply Run.snoc
      · apply Run.snoc
        · exact Run.single (show step _ (.writeUnlock 0 {2}) _ from
            ⟨rfl, fun t => by revert t; decide, rfl⟩)
        · exact show step _ (.readRecheck 2) _ from ⟨rfl, rfl⟩
      · exact show step _ (.readUnlock 2 {1}) _ from
          ⟨rfl, ⟨by decide, fun _ => ⟨1, by decide⟩⟩, rfl⟩
    case hlast => exact show step _ (.writeRecheck 1 ∅) _ from ⟨rfl, rfl, rfl⟩
  case held => rfl
  case queued => rfl
  case acquired => exact ⟨by decide, rfl⟩

end SnuSysProg.Rwlock
