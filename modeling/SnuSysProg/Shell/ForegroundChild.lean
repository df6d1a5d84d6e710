import SnuSysProg.Shell.Foreground

/-
  How one foreground command is waited for.

  `fork_exec` waits for its child, and so does `sigzombie_handler`. When the handler reaps the
  child first, `waitpid` finds no child, and `fork_exec` reports an error; the pipeline ignores it.
  So it returns the pid of the child if and only if the handler has not reaped it
  (`forkExec_waits`). In both cases the child has ended.
-/

namespace SnuSysProg.Shell
open SnuSysProg.Lib

/-- The child ends after it was forked. -/
def Ended (c : Int) (es : List (Happening Call.Ret Event)) : Prop :=
  SinceFork c (fun h => h = .env (.exits c)) es

/-- Where the parent is: `ok` says that `waitpid` gave it the child. -/
inductive Await where
  | start
  | forked (pid : Int)
  | waited (pid : Int) (ok : Bool)

/-- The parent forks one child and waits for it once. -/
def awaiting : Discipline Call.Ret Await where
  allowed := fun φ c => match c with
    | .fork _ => φ = .start
    | .waitpid pid => φ = .forked pid
    | .errorPrint _ _ => True
    | _ => False
  answer := fun _ c => match c with
    | .fork _ => fun r => r = -1 ∨ 0 < r
    | _ => fun _ => True
  next := fun φ c => match c with
    | .fork _ => fun r => if 0 < r then .forked r else .start
    | .waitpid pid => fun r => .waited pid (0 ≤ r.1)
    | _ => fun _ => φ

/-- What `fork_exec` returns. -/
def AwaitReturns (r : Int) : Await → Prop
  | .start => r = -1
  | .forked _ => False
  | .waited pid ok => r = if ok then pid else -1

variable {tokens : List Token} {φ : Await} {es : List (Happening Call.Ret Event)} {s s' : Snush}
  {pid : Int} {ok : Bool} {e : Event}

theorem awaiting_errorPrint {α : Type} {Q : α → Await → Prop} {input : Subject} {mode : PrintMode}
    {a : α} (h : Q a φ) : Obeys awaiting Q (do errorPrint input mode; return a) φ :=
  Obeys.quiet (fun _ => ⟨trivial, fun _ => rfl⟩) fun _ => Obeys.ret h

theorem forkExec_awaiting : Obeys awaiting AwaitReturns (forkExec tokens false) .start := by
  refine Obeys.perform rfl fun pid hr => ?_
  rcases hr with hr | hr
  · obtain rfl : pid = (-1 : Int) := hr
    refine Obeys.ite_pos (by decide) (awaiting_errorPrint rfl)
  · have hpid : (0 : Int) < pid := hr
    have hnext : awaiting.next .start (.fork ⟨false, none, true⟩) pid = .forked pid := if_pos hr
    rw [hnext]
    refine parent_obeys hpid ?_
    refine Obeys.ite_neg (by decide) ?_
    refine Obeys.perform rfl fun r _ => ?_
    have hwaited : awaiting.next (.forked pid) (.waitpid pid) r = .waited pid (0 ≤ r.1) := rfl
    rw [hwaited]
    refine Obeys.ite (fun hneg => awaiting_errorPrint ?_) fun hnot => Obeys.ret ?_
    · rw [decide_eq_false (Int.not_le.mpr hneg)]
      rfl
    · rw [decide_eq_true (Int.not_lt.mp hnot)]
      rfl

/-! ## The child -/

/-- The child has been forked, and the parent has not waited for it. -/
structure Forked (pid : Int) (es : List (Happening Call.Ret Event)) (s : Snush) : Prop where
  children : Shell.children es = [pid]
  positive : 0 < pid
  reaped : s.procs pid = none ↔ HandlerReaped pid es
  running : (∃ p, s.procs pid = some p ∧ p.running = true) ↔ ¬ Ended pid es

/-- The parent has waited for the child. -/
structure Waited (pid : Int) (ok : Bool) (es : List (Happening Call.Ret Event)) (s : Snush) :
    Prop where
  children : Shell.children es = [pid]
  positive : 0 < pid
  gone : s.procs pid = none
  ended : Ended pid es
  reaped : ok = true ↔ ¬ HandlerReaped pid es

def Awaited (es : List (Happening Call.Ret Event)) : Await → Snush → Prop
  | .start, _ => children es = []
  | .forked pid, s => Forked pid es s
  | .waited pid ok, s => Waited pid ok es s

variable {h : Happening Call.Ret Event}

theorem children_other (hchild : forkedChild h = none) : children (es ++ [h]) = children es := by
  rw [children_snoc, hchild]
  exact List.append_nil _

theorem handlerReaped_other (hreap : ∀ text, h ≠ .env (.reap pid text)) :
    HandlerReaped pid (es ++ [h]) ↔ HandlerReaped pid es := by
  rw [HandlerReaped.snoc_iff]
  exact ⟨fun hor => hor.elim id fun ⟨_, text, heq⟩ => absurd heq (hreap text), Or.inl⟩

theorem ended_other (hexits : h ≠ .env (.exits pid)) : Ended pid (es ++ [h]) ↔ Ended pid es := by
  unfold Ended
  rw [SinceFork.snoc_iff]
  exact ⟨fun hor => hor.elim id fun hnew => absurd hnew.2 hexits, Or.inl⟩

/-- A step that has nothing to do with the child. -/
theorem Forked.other (hf : Forked pid es s) (hchild : forkedChild h = none)
    (hreap : ∀ text, h ≠ .env (.reap pid text)) (hexits : h ≠ .env (.exits pid))
    (hprocs : s'.procs pid = s.procs pid) : Forked pid (es ++ [h]) s' where
  children := (children_other hchild).trans hf.children
  positive := hf.positive
  reaped := by rw [hprocs, handlerReaped_other hreap, hf.reaped]
  running := by rw [hprocs, ended_other hexits, hf.running]

theorem Waited.other (hw : Waited pid ok es s) (hchild : forkedChild h = none)
    (hreap : ∀ text, h ≠ .env (.reap pid text)) (hexits : h ≠ .env (.exits pid))
    (hprocs : s'.procs pid = s.procs pid) : Waited pid ok (es ++ [h]) s' where
  children := (children_other hchild).trans hw.children
  positive := hw.positive
  gone := hprocs.trans hw.gone
  ended := (ended_other hexits).mpr hw.ended
  reaped := by rw [handlerReaped_other hreap, hw.reaped]

theorem Forked.exits {p : Proc} (hf : Forked pid es s) (hproc : s.procs pid = some p)
    (hprocs : s'.procs pid = some { p with running := false }) :
    Forked pid (es ++ [.env (.exits pid)]) s' := by
  have hended : Ended pid (es ++ [.env (.exits pid)]) := by
    refine SinceFork.snoc_iff.mpr (Or.inr ⟨?_, rfl⟩)
    rw [hf.children]
    exact List.mem_cons_self
  refine ⟨(children_other rfl).trans hf.children, hf.positive, ?_, ?_⟩
  · rw [handlerReaped_other (by simp), ← hf.reaped, hproc, hprocs]
    exact iff_of_false (Option.some_ne_none _) (Option.some_ne_none _)
  · refine iff_of_false ?_ fun hnot => hnot hended
    rintro ⟨p', hp', hrunning⟩
    obtain rfl := Option.some.inj (hprocs.symm.trans hp')
    exact absurd hrunning (by simp)

/-- A child that does not run has ended. -/
theorem Forked.ended (hf : Forked pid es s) (hnot : ∀ p, s.procs pid = some p → p.running = false) :
    Ended pid es := by
  by_contra hended
  obtain ⟨p, hproc, hrunning⟩ := hf.running.mpr hended
  rw [hnot p hproc] at hrunning
  exact absurd hrunning (by decide)

theorem Snush.Zombie.not_running {p : Proc} (hz : s.Zombie pid) (hproc : s.procs pid = some p) :
    p.running = false := by
  obtain ⟨p', hproc', hnot⟩ := hz
  obtain rfl := Option.some.inj (hproc'.symm.trans hproc)
  exact hnot

theorem Forked.reap {text : Option (List Char)} (hf : Forked pid es s) (hz : s.Zombie pid)
    (hprocs : s'.procs pid = none) : Forked pid (es ++ [.env (.reap pid text)]) s' := by
  have hmem : pid ∈ Shell.children es := by
    rw [hf.children]
    exact List.mem_cons_self
  have hended : Ended pid (es ++ [.env (.reap pid text)]) :=
    (ended_other (by simp)).mpr (hf.ended fun p hproc => hz.not_running hproc)
  refine ⟨(children_other rfl).trans hf.children, hf.positive, ?_, ?_⟩
  · exact iff_of_true hprocs (HandlerReaped.snoc_iff.mpr (Or.inr ⟨hmem, text, rfl⟩))
  · refine iff_of_false ?_ fun hnot => hnot hended
    rintro ⟨p, hproc, -⟩
    exact absurd (hprocs.symm.trans hproc) (by simp)

theorem Awaited.event (ha : Awaited es φ s) (hstep : ShellEvent s e s') :
    Awaited (es ++ [.env e]) φ s' := by
  cases φ with
  | start => exact (children_other rfl).trans ha
  | forked pid =>
    have hf : Forked pid es s := ha
    change Forked pid _ s'
    cases hstep with
    | @exits pid' p hproc hrunning =>
      by_cases heq : pid' = pid
      · subst heq
        exact hf.exits hproc (Snush.procs_setProc_self ..)
      · exact hf.other rfl (by simp) (by simpa using heq) (Snush.procs_setProc_ne (Ne.symm heq))
    | deliver => exact hf.other rfl (by simp) (by simp) rfl
    | @reap pid' hhandling hzombie =>
      by_cases heq : pid' = pid
      · subst heq
        exact hf.reap hzombie (Snush.procs_setProc_self ..)
      · exact hf.other rfl (by simpa using fun h => absurd h heq) (by simp)
          (Snush.procs_setProc_ne (Ne.symm heq))
    | finish => exact hf.other rfl (by simp) (by simp) rfl
  | waited pid ok =>
    have hw : Waited pid ok es s := ha
    change Waited pid ok _ s'
    cases hstep with
    | @exits pid' p hproc hrunning =>
      have hne : pid' ≠ pid := by
        rintro rfl
        exact absurd (hw.gone.symm.trans hproc) (by simp)
      exact hw.other rfl (by simp) (by simpa using hne) (Snush.procs_setProc_ne (Ne.symm hne))
    | deliver => exact hw.other rfl (by simp) (by simp) rfl
    | @reap pid' hhandling hzombie =>
      have hne : pid' ≠ pid := by
        rintro rfl
        obtain ⟨p, hproc, -⟩ := hzombie
        exact absurd (hw.gone.symm.trans hproc) (by simp)
      exact hw.other rfl (by simpa using fun h => absurd h hne) (by simp)
        (Snush.procs_setProc_ne (Ne.symm hne))
    | finish => exact hw.other rfl (by simp) (by simp) rfl

theorem Awaited.call {c : Call} {r : c.Ret} (ha : Awaited es φ s) (hallowed : awaiting.allowed φ c)
    (hstep : ShellCall s c r s') : awaiting.answer φ c r ∧
      Awaited (es ++ [.call c r]) (awaiting.next φ c r) s' := by
  obtain ⟨-, hstep⟩ := hstep
  cases c with
  | fork child =>
    obtain rfl : φ = .start := hallowed
    have hnone : children es = [] := ha
    rcases hstep with ⟨hpos, hfree, rfl⟩ | ⟨hfail, rfl⟩
    · refine ⟨Or.inr hpos, ?_⟩
      have hnext : awaiting.next .start (.fork child) r = .forked r := if_pos hpos
      have hchild : forkedChild (.call (.fork child) r) = some r := if_pos hpos
      have hthere : (s.setProc r (some (child.proc r))).procs r = some (child.proc r) :=
        Snush.procs_setProc_self ..
      rw [hnext]
      refine ⟨?_, hpos, ?_, ?_⟩
      · rw [children_snoc, hnone, hchild]
        rfl
      · rw [handlerReaped_other (by simp), hthere]
        refine iff_of_false (by simp) fun hreaped => ?_
        have hmem := hreaped.mem_children
        rw [hnone] at hmem
        exact absurd hmem (by simp)
      · rw [ended_other (by simp)]
        refine iff_of_true ⟨_, hthere, rfl⟩ fun hended => ?_
        have hmem := SinceFork.mem_children hended
        rw [hnone] at hmem
        exact absurd hmem (by simp)
    · refine ⟨Or.inl hfail, ?_⟩
      obtain rfl : r = (-1 : Int) := hfail
      exact (children_other rfl).trans hnone
  | waitpid pid =>
    obtain rfl : φ = .forked pid := hallowed
    have hf : Forked pid es s := ha
    refine ⟨trivial, ?_⟩
    change Waited pid (decide ((0 : Int) ≤ r.1)) _ s'
    rcases hstep with ⟨hzombie, hr, rfl⟩ | ⟨hgone, rfl, rfl⟩
    · have hpos := hf.positive
      have hended := hf.ended fun p hproc => hzombie.not_running hproc
      refine ⟨(children_other rfl).trans hf.children, hpos, Snush.procs_setProc_self .., ?_, ?_⟩
      · exact (ended_other (by simp)).mpr hended
      · rw [handlerReaped_other (by simp), ← hf.reaped]
        obtain ⟨p, hproc, -⟩ := hzombie
        exact iff_of_true (decide_eq_true (by omega)) (by rw [hproc]; simp)
    · have hended := hf.ended fun p hproc => absurd (hgone.symm.trans hproc) (by simp)
      refine ⟨(children_other rfl).trans hf.children, hf.positive, hgone,
        (ended_other (by simp)).mpr hended, ?_⟩
      rw [handlerReaped_other (by simp), ← hf.reaped]
      exact iff_of_false (by simp) fun hnot => hnot hgone
  | errorPrint input mode =>
    obtain rfl := hstep
    refine ⟨trivial, ?_⟩
    cases φ with
    | start => exact (children_other rfl).trans ha
    | forked pid => exact Forked.other ha rfl (by simp) (by simp) rfl
    | waited pid ok => exact Waited.other ha rfl (by simp) (by simp) rfl
  | _ => exact hallowed.elim

/-! ## `fork_exec` -/

variable {s₀ : Snush} {p' : ShellM Int}

/-- All along `fork_exec`. -/
theorem forkExec_awaited (hrun : ShellRun (forkExec tokens false) s₀ es p' s) :
    ∃ φ, Awaited es φ s ∧ Obeys awaiting AwaitReturns p' φ :=
  ⟨_, Obeys.run_of_forall (I := Awaited)
    (fun _ _ _ _ _ _ ha hallowed hexec => ha.call hallowed hexec)
    (fun _ _ _ _ _ ha hstep => ha.event hstep) forkExec_awaiting rfl hrun⟩

/-- The parent can go on: the child does not run, nor does the handler. -/
def CanGoOn (φ : Await) (s : Snush) : Prop :=
  s.handling = false ∧ ∀ pid p, φ = .forked pid → s.procs pid = some p → p.running = false

theorem CanGoOn.call {c : Call} (hgo : CanGoOn φ s) (hallowed : awaiting.allowed φ c) :
    ∃ (r : c.Ret) (s' : Snush), ShellCall s c r s' ∧ awaiting.answer φ c r ∧
      CanGoOn (awaiting.next φ c r) s' := by
  obtain ⟨hhandling, hchild⟩ := hgo
  cases c with
  | fork child =>
    obtain rfl : φ = .start := hallowed
    exact ⟨(-1 : Int), s, ⟨hhandling, Or.inr ⟨rfl, rfl⟩⟩, Or.inl rfl, hhandling,
      fun _ _ heq => absurd heq (by simp [awaiting])⟩
  | waitpid pid =>
    obtain rfl : φ = .forked pid := hallowed
    cases hproc : s.procs pid with
    | none =>
      exact ⟨(-1, .echild), s, ⟨hhandling, Or.inr ⟨hproc, rfl, rfl⟩⟩, trivial, hhandling,
        fun _ _ heq => absurd heq (by simp [awaiting])⟩
    | some p =>
      exact ⟨(pid, .other), s.setProc pid none,
        ⟨hhandling, Or.inl ⟨⟨p, hproc, hchild pid p rfl hproc⟩, rfl, rfl⟩⟩, trivial, hhandling,
        fun _ _ heq => absurd heq (by simp [awaiting])⟩
  | errorPrint input mode => exact ⟨(), s, ⟨hhandling, rfl⟩, trivial, hhandling, hchild⟩
  | _ => exact hallowed.elim

/-- A foreground command of one child: it returns the pid of the child after the child has ended,
    if and only if the handler has not reaped the child. Once the child has ended it can return. -/
theorem forkExec_waits :
    (∀ (r : Int) (s : Snush), ShellRun (forkExec tokens false) s₀ es (.ret r) s →
      children es = [pid] → ((r = pid ∧ Ended pid es) ↔ ¬ HandlerReaped pid es)) ∧
    (∀ (p : ShellM Int) (s : Snush), ShellRun (forkExec tokens false) s₀ es p s →
      children es = [pid] → Ended pid es → s.handling = false →
      ∃ (fs : List (Happening Call.Ret Event)) (r : Int) (s' : Snush),
        ShellRun p s fs (.ret r) s') := by
  constructor
  · intro r s hrun hchildren
    obtain ⟨φ, hawaited, hreturns⟩ := forkExec_awaited hrun
    cases φ with
    | start => exact absurd (hchildren.symm.trans hawaited) (by simp)
    | forked pid' => exact hreturns.elim
    | waited pid' ok =>
      have hw : Waited pid' ok es s := hawaited
      have hr : r = if ok then pid' else -1 := hreturns
      obtain rfl : pid' = pid := List.singleton_inj.mp (hw.children.symm.trans hchildren)
      rw [← hw.reaped]
      cases ok with
      | true => exact iff_of_true ⟨hr, hw.ended⟩ rfl
      | false =>
        have hpos := hw.positive
        have hminus : r = -1 := hr
        exact iff_of_false (fun hpid => by omega) (by decide)
  · intro p s hrun hchildren hended hhandling
    obtain ⟨φ, hawaited, hobeys⟩ := forkExec_awaited hrun
    refine Obeys.completes (K := CanGoOn) (fun _ _ _ hgo hallowed => hgo.call hallowed) hobeys
      ⟨hhandling, ?_⟩
    rintro pid' q rfl hproc
    have hf : Forked pid' es s := hawaited
    obtain rfl : pid' = pid := List.singleton_inj.mp (hf.children.symm.trans hchildren)
    by_contra hrunning
    exact hf.running.mp ⟨q, hproc, by simpa using hrunning⟩ hended

/-- `a`, where the parent gets the child. -/
theorem forkExec_waits_one : ∃ (es : List (Happening Call.Ret Event)) (s : Snush),
    ShellRun (forkExec [.word [97]] false) Snush.initial es (.ret 100) s ∧ Ended 100 es := by
  have hrun : ∃ (es : List (Happening Call.Ret Event)) (s : Snush),
      ShellRun (forkExec [.word [97]] false) Snush.initial es (.ret 100) s ∧
      children es = [100] ∧ ∀ text, .env (.reap 100 text) ∉ es := by
    apply Exists.intro
    apply Exists.intro
    apply And.intro
    · apply ProgRun.called (Call.fork ⟨false, none, true⟩) (100 : Int) rfl
        ⟨rfl, Or.inl ⟨by decide, rfl, rfl⟩⟩
      apply ProgRun.happened (Event.exits 100) (ShellEvent.exits rfl rfl)
      apply ProgRun.called (Call.waitpid 100) (100, .other) rfl
        ⟨rfl, Or.inl ⟨⟨_, rfl, rfl⟩, rfl, rfl⟩⟩
      exact Run.nil _
    · refine ⟨rfl, ?_⟩
      simp
  obtain ⟨es, s, hrun, hchildren, hnone⟩ := hrun
  refine ⟨es, s, hrun, ((forkExec_waits.1 _ _ hrun hchildren).mpr ?_).2⟩
  rintro ⟨es₁, h, es₂, text, rfl, -, hmem⟩
  exact hnone text (List.mem_append_right _ (List.mem_cons_of_mem _ hmem))

/-- `a`, which ends and is reaped before the parent waits for it: `fork_exec` returns -1. -/
theorem forkExec_loses_child : ¬ ∀ (tokens : List Token) (s₀ : Snush)
    (es : List (Happening Call.Ret Event)) (pid r : Int) (s : Snush),
    ShellRun (forkExec tokens false) s₀ es (.ret r) s → children es = [pid] →
      r = pid ∧ Ended pid es := by
  intro hall
  have hrun : ∃ (es : List (Happening Call.Ret Event)) (s : Snush),
      ShellRun (forkExec [.word [97]] false) Snush.initial es (.ret (-1)) s ∧
      children es = [100] := by
    apply Exists.intro
    apply Exists.intro
    apply And.intro
    · apply ProgRun.called (Call.fork ⟨false, none, true⟩) (100 : Int) rfl
        ⟨rfl, Or.inl ⟨by decide, rfl, rfl⟩⟩
      apply ProgRun.happened (Event.exits 100) (ShellEvent.exits rfl rfl)
      apply ProgRun.happened Event.deliver (ShellEvent.deliver rfl rfl rfl)
      apply ProgRun.happened (Event.reap 100 none) (ShellEvent.reap rfl ⟨_, rfl, rfl⟩)
      apply ProgRun.happened Event.finish (ShellEvent.finish rfl fun pid ⟨q, hq, _⟩ =>
        absurd hq (by simp [Snush.setTable, Snush.setProc, Snush.initial]))
      apply ProgRun.called (Call.waitpid 100) (-1, .echild) rfl ⟨rfl, Or.inr ⟨rfl, rfl, rfl⟩⟩
      apply ProgRun.called (Call.errorPrint (.text "Waitpid failed") .perror) () rfl ⟨rfl, rfl⟩
      exact Run.nil _
    · rfl
  obtain ⟨es, s, hrun, hchildren⟩ := hrun
  exact absurd (hall _ _ _ _ _ _ hrun hchildren).1 (by decide)

end SnuSysProg.Shell
