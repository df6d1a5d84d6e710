import SnuSysProg.Rwlock.Queue

/-
  No wake-up of `rwlock.c` is lost.

  `Alert`: a reader is blocked only while a writer holds the lock, and while nobody holds it or
  waits to read, one of the waiting writers has been woken. A step keeps it (`alert_step`): the
  two unlock functions signal when they leave the lock in that state, and a woken writer that is
  not the oldest signals before it blocks again.
-/

namespace SnuSysProg.Rwlock

open SnuSysProg.Lib

/-- The thread is in one of the slots from `writer_ring_head` up to `writer_ring_tail`. -/
def RwLock.InRing {T : Type*} (rw : RwLock T) (t : T) : Prop :=
  ∃ k < (rw.writerRingTail + writerRingSize - rw.writerRingHead) % writerRingSize,
    rw.writerRing ((rw.writerRingHead + k) % writerRingSize) = some t

section Wakes

variable {T : Type*} [DecidableEq T] {s s' : State T} {t u : T} {x : Phase} {woken : Finset T}
  {q : List T}

/-- A reader still blocked after a wake-up was blocked and not woken. -/
theorem wakeAll_blocked {phase : T → Phase} (h : wakeAll woken phase u = .readWait false) :
    phase u = .readWait false ∧ u ∉ woken := by
  unfold wakeAll at h
  split at h
  · generalize phase u = y at h
    cases y <;> simp [Phase.wakeUp] at h
  · rename_i hnot
    exact ⟨h, hnot⟩

/-- A writer waiting after a wake-up was waiting before. -/
theorem wakeAll_waiting {phase : T → Phase} {b : Bool} (h : wakeAll woken phase u = .writeWait b) :
    ∃ c, phase u = .writeWait c := by
  have hwait : (wakeAll woken phase u).isWriteWaiting = true := by
    rw [h]
    rfl
  unfold wakeAll at hwait
  split at hwait
  · exact isWriteWaiting_iff.mp ((isWriteWaiting_wakeUp _).symm.trans hwait)
  · exact isWriteWaiting_iff.mp hwait

theorem wakeAll_woken {phase : T → Phase} (h : phase u = .writeWait true) :
    wakeAll woken phase u = .writeWait true := by
  unfold wakeAll
  rw [h]
  split <;> rfl

/-- A signal with a writer waiting leaves a writer woken. -/
theorem signal_wakes {phase : T → Phase} {b : Bool} (hsig : Wake.signalWriters.Allows phase woken)
    (hu : phase u = .writeWait b) (hut : u ≠ t) (ht : phase t ≠ .writeWait false) :
    ∃ v, Function.update (wakeAll woken phase) t x v = .writeWait true := by
  obtain ⟨hblocked, hsome⟩ := hsig
  cases b with
  | true => exact ⟨u, (Function.update_of_ne hut x _).trans (wakeAll_woken hu)⟩
  | false =>
    obtain ⟨v, hv⟩ := hsome ⟨u, hu⟩
    have hvt : v ≠ t := fun hvt => ht (hvt ▸ hblocked v hv)
    refine ⟨v, ?_⟩
    rw [Function.update_of_ne hvt]
    unfold wakeAll
    rw [if_pos hv, hblocked v hv]
    rfl

/-- Who can be blocked. -/
structure Alert (s : State T) : Prop where
  readers : ∀ t, s.phase t = .readWait false → 0 < s.rw.writeCount
  writers : s.rw.writeCount = 0 → s.rw.readCount = 0 →
    ∀ t b, s.phase t = .writeWait b → ∃ u, s.phase u = .writeWait true

omit [DecidableEq T] in
theorem alert_init : Alert (init : State T) := ⟨fun _ => nofun, fun _ _ _ _ => nofun⟩

/-- What keeps the threads alert over a step of thread `t`: the readers it leaves blocked have a
    writer to wait for, and if it leaves the lock free it wakes a writer. -/
theorem Alert.moved (hphase : s'.phase = Function.update (wakeAll woken s.phase) t x)
    (hread : ∀ u, u ≠ t → s.phase u = .readWait false → u ∉ woken → 0 < s'.rw.writeCount)
    (hx : x = .readWait false → 0 < s'.rw.writeCount)
    (hwrite : s'.rw.writeCount = 0 → s'.rw.readCount = 0 → ∀ u b, u ≠ t → s.phase u = .writeWait b →
      ∃ v, s'.phase v = .writeWait true)
    (hself : s'.rw.writeCount = 0 → s'.rw.readCount = 0 → ∀ b, x = .writeWait b →
      ∃ u c, u ≠ t ∧ s.phase u = .writeWait c) : Alert s' := by
  refine ⟨fun u hu => ?_, fun hw hr u b hu => ?_⟩
  · rw [hphase] at hu
    by_cases hut : u = t
    · rw [hut, Function.update_self] at hu
      exact hx hu
    · rw [Function.update_of_ne hut] at hu
      obtain ⟨hu', hnot⟩ := wakeAll_blocked hu
      exact hread u hut hu' hnot
  · have hother : ∃ v c, v ≠ t ∧ s.phase v = .writeWait c := by
      rw [hphase] at hu
      by_cases hut : u = t
      · rw [hut, Function.update_self] at hu
        exact hself hw hr b hu
      · rw [Function.update_of_ne hut] at hu
        obtain ⟨c, hc⟩ := wakeAll_waiting hu
        exact ⟨u, c, hut, hc⟩
    obtain ⟨v, c, hvt, hv⟩ := hother
    exact hwrite hw hr v c hvt hv

/-- A step after which the lock is not free, and which takes it from no reader. -/
theorem Alert.busy (h : Alert s) (hphase : s'.phase = Function.update (wakeAll woken s.phase) t x)
    (hle : s.rw.writeCount ≤ s'.rw.writeCount) (hx : x = .readWait false → 0 < s'.rw.writeCount)
    (hbusy : s'.rw.writeCount ≠ 0 ∨ s'.rw.readCount ≠ 0) : Alert s' := by
  have hnot : s'.rw.writeCount = 0 → s'.rw.readCount ≠ 0 :=
    fun hw => hbusy.resolve_left (not_not.mpr hw)
  refine Alert.moved hphase (fun u _ hu _ => ?_) hx (fun hw hr => absurd hr (hnot hw))
    (fun hw hr => absurd hr (hnot hw))
  exact lt_of_lt_of_le (h.readers u hu) hle

/-! ## The steps -/

variable [Fintype T]

omit [DecidableEq T] in
theorem Counts.nonneg (h : Counts s) : 0 ≤ s.rw.writeCount ∧ 0 ≤ s.rw.readCount := by
  have hw := h.write
  have hr := h.read
  omega

omit [DecidableEq T] in
/-- A thread inside `rwlock_read_lock` is counted. -/
theorem Counts.read_pos {b : Bool} (h : Counts s) (ht : s.phase t = .readWait b) :
    0 < s.rw.readCount :=
  h.read_of_counted (t := t) (by rw [ht]; rfl)

theorem alert_readLock (h : Alert s) (hc : Counts s)
    (hstep : step s (.readLock t) s') : Alert s' := by
  obtain ⟨-, rfl⟩ := hstep
  have hphase := after_phase s t (rwlockReadLock s.rw) ∅ .reading (.readWait false)
  have hnonneg := hc.nonneg.2
  unfold rwlockReadLock readLockTest at hphase ⊢
  split at hphase
  · rename_i hw
    rw [if_pos hw]
    exact h.busy hphase (le_refl _) (fun _ => hw) (Or.inl (ne_of_gt hw))
  · rename_i hw
    rw [if_neg hw]
    refine h.busy hphase (le_refl _) (fun hx => ?_) (Or.inr ?_)
    · exact absurd hx (by simp [Next.phase])
    · change s.rw.readCount + 1 ≠ 0
      omega

theorem alert_readRecheck (h : Alert s) (hc : Counts s)
    (hstep : step s (.readRecheck t) s') : Alert s' := by
  obtain ⟨hp, rfl⟩ := hstep
  have hphase := after_phase s t (readLockTest s.rw) ∅ .reading (.readWait false)
  have hpos := hc.read_pos hp
  unfold readLockTest at hphase ⊢
  split at hphase
  · rename_i hw
    rw [if_pos hw]
    exact h.busy hphase (le_refl _) (fun _ => hw) (Or.inl (ne_of_gt hw))
  · rename_i hw
    rw [if_neg hw]
    refine h.busy hphase (le_refl _) (fun hx => ?_) (Or.inr (ne_of_gt hpos))
    exact absurd hx (by simp [Next.phase])

omit [DecidableEq T] in
/-- The lock that a writer holds was taken once. -/
theorem Counts.write_one (h : Counts s) (ht : s.phase t = .writing) : s.rw.writeCount = 1 := by
  have hpos : 0 < count Phase.isWriting s.phase := count_pos_of (t := t) (by rw [ht]; rfl)
  have hw := h.write
  have hone := h.one
  omega

omit [Fintype T] in
theorem alert_readUnlock (h : Alert s) (hstep : step s (.readUnlock t woken) s') : Alert s' := by
  obtain ⟨hp, hallow, rfl⟩ := hstep
  have hphase := after_phase s t (rwlockReadUnlock s.rw) woken .idle .idle
  have hblocked : s.phase t ≠ .writeWait false := by
    rw [hp]
    decide
  unfold rwlockReadUnlock at hallow hphase ⊢
  dsimp only at hallow hphase ⊢
  by_cases hzero : s.rw.readCount - 1 = 0
  · rw [if_pos hzero] at hallow hphase ⊢
    refine Alert.moved hphase (fun u _ hu _ => h.readers u hu) nofun
      (fun _ _ u b hut hu => ?_) (fun _ _ _ => nofun)
    rw [hphase]
    exact signal_wakes hallow hu hut hblocked
  · rw [if_neg hzero] at hallow hphase ⊢
    exact h.busy hphase (le_refl _) nofun (Or.inr hzero)

theorem alert_writeUnlock (hc : Counts s) (hstep : step s (.writeUnlock t woken) s') :
    Alert s' := by
  obtain ⟨hp, hallow, rfl⟩ := hstep
  have hphase := after_phase s t (rwlockWriteUnlock s.rw) woken .idle .idle
  have hzero : s.rw.writeCount - 1 = 0 := by
    rw [hc.write_one hp]
    rfl
  have hblocked : s.phase t ≠ .writeWait false := by
    rw [hp]
    decide
  unfold rwlockWriteUnlock at hallow hphase ⊢
  dsimp only at hallow hphase ⊢
  rw [if_pos hzero] at hallow hphase ⊢
  by_cases hread : s.rw.readCount = 0
  · -- no reader is inside: a writer is signalled
    rw [if_pos hread] at hallow hphase ⊢
    refine Alert.moved hphase (fun u _ hu _ => absurd hread (ne_of_gt (hc.read_pos hu))) nofun
      (fun _ _ u b hut hu => ?_) (fun _ _ _ => nofun)
    rw [hphase]
    exact signal_wakes hallow hu hut hblocked
  · -- readers are inside: all of them are woken
    rw [if_neg hread] at hallow hphase ⊢
    exact Alert.moved hphase (fun u _ hu hnot => absurd ((hallow u).mpr hu) hnot) nofun
      (fun _ hr => absurd hr hread) (fun _ _ _ => nofun)

omit [Fintype T] in
/-- A woken writer stays woken over the step of another thread. -/
theorem stays_woken (hphase : s'.phase = Function.update (wakeAll woken s.phase) t x)
    (hu : s.phase u = .writeWait true) (hut : u ≠ t) : s'.phase u = .writeWait true := by
  rw [hphase, Function.update_of_ne hut]
  exact wakeAll_woken hu

omit [Fintype T] in
/-- A writer in the queue runs its test. -/
theorem alert_writeTest {rw : RwLock T} {r : Region T} (h : Alert s) (hpos : 0 ≤ s.rw.writeCount)
    (hr : WriteTest t rw q r) (hcounts : rw.counts = s.rw.counts)
    (hallow : r.wake.Allows s.phase woken) (hblocked : s.phase t ≠ .writeWait false)
    (hq : ∀ a ∈ q, a ≠ t → (s.phase a).isWriteWaiting = true) :
    Alert (s.after t r woken .writing (.writeWait false)) := by
  have hphase := after_phase s t r woken .writing (.writeWait false)
  obtain ⟨hread, hwrite⟩ := Prod.mk.inj hcounts
  cases hr with
  | enter hr0 hw0 hq' =>
    refine h.busy hphase ?_ nofun (Or.inl ?_)
    · change s.rw.writeCount ≤ rw.writeCount + 1
      omega
    · change rw.writeCount + 1 ≠ 0
      omega
  | busy hbusy wake =>
    refine h.busy hphase (le_of_eq hwrite.symm) nofun ?_
    change rw.writeCount ≠ 0 ∨ rw.readCount ≠ 0
    omega
  | pass hq' ha hwake =>
    subst hq'
    refine Alert.moved hphase (fun u _ hu _ => ?_) nofun (fun hw hr u b hut hu => ?_)
      (fun _ _ _ _ => ?_)
    · change 0 < rw.writeCount
      rw [hwrite]
      exact h.readers u hu
    · rw [hphase]
      rw [hwake hw hr] at hallow
      exact signal_wakes hallow hu hut hblocked
    · obtain ⟨c, hc⟩ := isWriteWaiting_iff.mp (hq _ (List.mem_cons_self ..) ha)
      exact ⟨_, c, ha, hc⟩

theorem alert_writeLock (h : Alert s) (hc : Counts s) (hq : Queued s q)
    (hstep : step s (.writeLock t woken) s') : Alert s' := by
  obtain ⟨hp, hallow, rfl⟩ := hstep
  have hblocked : s.phase t ≠ .writeWait false := by
    rw [hp]
    decide
  by_cases hfull : q.length + 1 = writerRingSize
  · have hphase := after_phase s t (rwlockWriteLock t s.rw) woken .writing (.writeWait false)
    rw [rwlockWriteLock_full hq.ring hfull] at hphase ⊢
    refine Alert.moved hphase (fun u _ hu _ => h.readers u hu) nofun
      (fun hw hr u b _ hu => ?_) (fun _ _ _ => nofun)
    obtain ⟨v, hv⟩ := h.writers hw hr u b hu
    have hvt : v ≠ t := by
      rintro rfl
      rw [hp] at hv
      exact absurd hv (by decide)
    exact ⟨v, stays_woken hphase hv hvt⟩
  · refine alert_writeTest h hc.nonneg.1 (rwlockWriteLock_spec hq.ring hfull) rfl hallow hblocked
      fun a ha hat => ?_
    rcases List.mem_append.mp ha with ha | ha
    · exact (hq.waiting a).mp ha
    · exact absurd (List.mem_singleton.mp ha) hat

theorem alert_writeRecheck (h : Alert s) (hc : Counts s) (hq : Queued s q)
    (hstep : step s (.writeRecheck t woken) s') : Alert s' := by
  obtain ⟨hp, hallow, rfl⟩ := hstep
  have hin : t ∈ q := by
    rw [hq.waiting t, hp]
    rfl
  refine alert_writeTest h hc.nonneg.1 (writeLockTest_spec hq.ring hin) rfl hallow ?_
    fun a ha _ => (hq.waiting a).mp ha
  rw [hp]
  decide

omit [Fintype T] in
theorem alert_spuriousWakeup (h : Alert s) (hstep : step s (.spuriousWakeup t) s') : Alert s' := by
  obtain ⟨hp, rfl⟩ := hstep
  have hother : ∀ u, u ≠ t → Function.update s.phase t (s.phase t).wakeUp u = s.phase u :=
    fun u hut => Function.update_of_ne hut _ _
  have hself : Function.update s.phase t (s.phase t).wakeUp t = (s.phase t).wakeUp :=
    Function.update_self ..
  refine ⟨fun u hu => ?_, fun hw hr u b hu => ?_⟩
  · change Function.update s.phase t (s.phase t).wakeUp u = _ at hu
    by_cases hut : u = t
    · rw [hut, hself] at hu
      rcases hp with hp | hp <;> rw [hp] at hu <;> exact absurd hu (by decide)
    · rw [hother u hut] at hu
      exact h.readers u hu
  · change Function.update s.phase t (s.phase t).wakeUp u = _ at hu
    rcases hp with hp | hp
    · have hut : u ≠ t := by
        rintro rfl
        rw [hself, hp] at hu
        exact absurd hu nofun
      rw [hother u hut] at hu
      obtain ⟨v, hv⟩ := h.writers hw hr u b hu
      have hvt : v ≠ t := by
        rintro rfl
        rw [hp] at hv
        exact absurd hv nofun
      exact ⟨v, (hother v hvt).trans hv⟩
    · refine ⟨t, hself.trans ?_⟩
      rw [hp]
      rfl

theorem alert_step {e : Event T} (h : Alert s) (hc : Counts s) (hq : Queued s q)
    (hstep : step s e s') : Alert s' := by
  cases e with
  | readLock t => exact alert_readLock h hc hstep
  | readRecheck t => exact alert_readRecheck h hc hstep
  | readUnlock t woken => exact alert_readUnlock h hstep
  | writeLock t woken => exact alert_writeLock h hc hq hstep
  | writeRecheck t woken => exact alert_writeRecheck h hc hq hstep
  | writeUnlock t woken => exact alert_writeUnlock hc hstep
  | spuriousWakeup t => exact alert_spuriousWakeup h hstep

theorem alert_run {es : List (Event T)} (h : Run step init es s) : Alert s := by
  have hall : Counts s ∧ (∃ q, Queued s q) ∧ Alert s := by
    refine Run.preserves (P := fun s => Counts s ∧ (∃ q, Queued s q) ∧ Alert s) ?_ h
      ⟨counts_init, ⟨[], queued_init⟩, alert_init⟩
    intro s e s' ⟨hc, ⟨q, hq⟩, ha⟩ hstep
    obtain ⟨q', -, -, -, hq', -⟩ := queued_step hq hstep
    exact ⟨counts_step hc hstep, ⟨q', hq'⟩, alert_step ha hc hq hstep⟩
  exact hall.2.2

/-- **What is never the case.** -/
structure NoLostWakeup (s : State T) : Prop where
  /-- No writer holds the lock, and a thread is blocked on `readers`. -/
  readers : ¬ (s.rw.writeCount = 0 ∧ ∃ t, s.phase t = .readWait false)
  /-- The lock is free, writers are in the ring, and all of them are blocked on `writers`. -/
  writers : ¬ (s.rw.writeCount = 0 ∧ s.rw.readCount = 0 ∧ (∃ t, s.rw.InRing t) ∧
    ∀ t, s.rw.InRing t → s.phase t = .writeWait false)
  /-- Nobody holds the lock, threads wait for it, and none of them has been woken. -/
  stuck : ¬ ((∀ t, s.phase t ≠ .reading ∧ s.phase t ≠ .writing) ∧
    (∃ t b, s.phase t = .readWait b ∨ s.phase t = .writeWait b) ∧
    ∀ t, s.phase t ≠ .readWait true ∧ s.phase t ≠ .writeWait true)

/-- **No lost wake-up**, in every state that any interleaving of any number of threads reaches
    from `rwlock_init`. -/
theorem rwlock_no_lost_wakeup {es : List (Event T)} (h : Run step init es s) : NoLostWakeup s := by
  have ha := alert_run h
  have hc := counts_run h
  obtain ⟨q, hq⟩ := queued_run h
  have hring : ∀ t, s.rw.InRing t ↔ (s.phase t).isWriteWaiting = true :=
    fun t => (Ring.mem_iff hq.ring).symm.trans (hq.waiting t)
  refine ⟨?_, ?_, ?_⟩
  · rintro ⟨hw, t, ht⟩
    exact absurd hw (ne_of_gt (ha.readers t ht))
  · rintro ⟨hw, hr, ⟨t, ht⟩, hall⟩
    obtain ⟨u, hu⟩ := ha.writers hw hr t false (hall t ht)
    have hblocked := hall u ((hring u).mpr (by rw [hu]; rfl))
    rw [hu] at hblocked
    exact absurd hblocked (by decide)
  · rintro ⟨hfree, ⟨t, b, ht⟩, hasleep⟩
    have hwrite : s.rw.writeCount = 0 := by
      have hnone : count Phase.isWriting s.phase = 0 :=
        count_eq_zero.mpr fun u => decide_eq_false (hfree u).2
      rw [hc.write, hnone]
      rfl
    have hreader : ∀ u c, s.phase u ≠ .readWait c := by
      intro u c hu
      cases c with
      | true => exact (hasleep u).1 hu
      | false => exact absurd hwrite (ne_of_gt (ha.readers u hu))
    have hread : s.rw.readCount = 0 := by
      have hwaiting : ∀ u, (s.phase u).isReadWaiting = false := by
        intro u
        have hu := hreader u
        generalize s.phase u = p at hu
        cases p with
        | readWait c => exact absurd rfl (hu c)
        | _ => rfl
      have hnone : count Phase.isReading s.phase = 0 :=
        count_eq_zero.mpr fun u => decide_eq_false (hfree u).1
      rw [hc.read, hnone, count_eq_zero.mpr hwaiting]
      rfl
    rcases ht with ht | ht
    · exact hreader t b ht
    · obtain ⟨u, hu⟩ := ha.writers hwrite hread t b ht
      exact (hasleep u).2 hu

end Wakes

/-- Reader 0 is inside, writers 1 and 2 queue and block, the reader leaves and the signal wakes
    writer 2, which is not the oldest. -/
theorem rwlock_no_lost_wakeup_younger :
    ∃ s : State (Fin 3), s.rw.writeCount = 0 ∧ s.rw.readCount = 0 ∧ s.phase 1 = .writeWait false ∧
      NoLostWakeup s := by
  have start : Run step init [] (init : State (Fin 3)) := Run.nil _
  have entered := start.snoc (show step _ (.readLock 0) _ from ⟨rfl, rfl⟩)
  have queued := entered.snoc (show step _ (.writeLock 1 ∅) _ from ⟨rfl, rfl, rfl⟩)
  have queued' := queued.snoc (show step _ (.writeLock 2 ∅) _ from ⟨rfl, rfl, rfl⟩)
  have left := queued'.snoc (show step _ (.readUnlock 0 {2}) _ from
    ⟨rfl, ⟨by decide, fun _ => ⟨2, by decide⟩⟩, rfl⟩)
  exact ⟨_, rfl, rfl, rfl, rwlock_no_lost_wakeup left⟩

end SnuSysProg.Rwlock
