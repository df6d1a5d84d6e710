import SnuSysProg.Shell.Calls
import SnuSysProg.Shell.Interleaving

/-
  How a foreground pipeline is waited for.

  `iter_pipe_fork_exec` records the pid of the first child for every child, so its `waitpid` calls
  all wait for the first child. The other children are reaped by `sigzombie_handler` or not at all:
  when it returns, all children have been reaped if and only if the handler has reaped all but the
  first (`foreground_waited`).
-/

namespace SnuSysProg.Shell
open SnuSysProg.Lib

/-- The child of a fork. -/
def forkedChild : Happening Call.Ret Event → Option Int
  | .call (.fork _) r => if 0 < r then some r else none
  | _ => none

/-- The children that were forked, in order. -/
def children (es : List (Happening Call.Ret Event)) : List Int := es.filterMap forkedChild

/-- The handler reaps the child after it was forked. -/
def HandlerReaped (c : Int) (es : List (Happening Call.Ret Event)) : Prop :=
  ∃ es₁ h es₂ text, es = es₁ ++ h :: es₂ ∧ forkedChild h = some c ∧ .env (.reap c text) ∈ es₂

/-- The children so far, and whether the parent has waited for one. -/
structure Waiting where
  children : List Int
  waited : Bool

/-- The parent waits only for its first child, and forks no child after that. -/
def waiting : Discipline Call.Ret Waiting where
  allowed := fun φ c => match c with
    | .fork _ => φ.waited = false
    | .waitpid pid => φ.children.head? = some pid
    | _ => True
  answer := fun _ c => match c with
    | .fork _ => fun r => r = -1 ∨ 0 < r
    | _ => fun _ => True
  next := fun φ c => match c with
    | .fork _ => fun r => if 0 < r then { φ with children := φ.children ++ [r] } else φ
    | .waitpid _ => fun _ => { φ with waited := true }
    | _ => fun _ => φ

theorem waiting_apart : Apart waiting where
  pipe := fun _ => ⟨trivial, fun _ => rfl⟩
  close := fun _ _ => ⟨trivial, fun _ => rfl⟩
  errorPrint := fun _ _ _ => ⟨trivial, fun _ => rfl⟩
  perror := fun _ _ => ⟨trivial, fun _ => rfl⟩
  printf := fun _ _ => ⟨trivial, fun _ => rfl⟩
  getenvHome := fun _ => ⟨trivial, fun _ => rfl⟩
  chdir := fun _ _ => ⟨trivial, fun _ => rfl⟩
  checkBgStatus := fun _ => ⟨trivial, fun _ => rfl⟩
  exit := fun _ _ => trivial

variable {β : Type} {φ : Waiting} {R : β → Waiting → Prop} {pl : Pipeline} {pid pgid : Int}
  {pids l : List Int} {n i pcount : Nat} {tokens : List Token}

/-! ## The calls of the parent -/

/-- The parent has forked its first child, and has not waited. -/
def Forking (pgid : Int) (m : Nat) (φ : Waiting) : Prop :=
  φ.children.head? = some pgid ∧ φ.children.length = m ∧ φ.waited = false

/-- The fork of another child. -/
theorem forking_obeys {m : Nat} {child : Child} {k : Int → ShellM β} (h : Forking pgid m φ)
    (hfail : Obeys waiting R (k (-1)) φ)
    (hpid : ∀ pid φ', 0 < pid → Forking pgid (m + 1) φ' → Obeys waiting R (k pid) φ') :
    Obeys waiting R (fork child >>= k) φ := by
  obtain ⟨hhead, hlen, hwaited⟩ := h
  refine Obeys.perform hwaited fun r hr => ?_
  rcases hr with hr | hr
  · obtain rfl : r = (-1 : Int) := hr
    exact hfail
  · refine hpid r _ hr ?_
    have hnext : waiting.next φ (.fork child) r = { φ with children := φ.children ++ [r] } :=
      if_pos hr
    rw [hnext]
    refine ⟨?_, ?_, hwaited⟩
    · rw [List.head?_append, hhead]
      rfl
    · rw [List.length_append, hlen]
      rfl

theorem afterFork_waiting : Obeys waiting (fun _ φ' => φ' = φ) (afterFork pl false pid pgid) φ := by
  have hquiet : waiting.Quiet .sigBlock := fun _ => ⟨trivial, fun _ => rfl⟩
  have hquiet' : ∀ b, waiting.Quiet (.sigSetmask b) := fun _ _ => ⟨trivial, fun _ => rfl⟩
  have hfail : ∀ text, Obeys waiting (fun _ φ' => φ' = φ) (do
      closeAllPipes pl.pipeFds
      errorPrint (.text text) .perror
      return false) φ := by
    intro text
    refine Obeys.bind (closeAllPipes_obeys waiting_apart) ?_
    rintro _ φ rfl
    exact errorPrint_obeys waiting_apart (Obeys.ret rfl)
  refine Obeys.quiet hquiet fun r => ?_
  refine Obeys.ite (fun _ => hfail _) fun _ => ?_
  refine Obeys.ite_neg (by decide) ?_
  refine Obeys.quiet (hquiet' r.2) fun r' => ?_
  exact Obeys.ite (fun _ => hfail _) fun _ => Obeys.ret rfl

theorem middleLoop_waiting {m : Nat} (h : Forking pgid m φ) (hpids : ∀ p ∈ pids, p = pgid) :
    Obeys waiting (fun r φ' => ∀ pids', r = some pids' →
        Forking pgid (m + n) φ' ∧ ∀ p ∈ pids', p = pgid)
      (middleLoop pl false pgid n i pids) φ := by
  induction n generalizing φ i m pids with
  | zero =>
    refine Obeys.ret ?_
    rintro pids' heq
    obtain rfl := Option.some.inj heq
    exact ⟨h, hpids⟩
  | succ n ih =>
    refine forking_obeys h ?_ fun pid φ' hpid hφ' => ?_
    · refine Obeys.ite_pos (by decide) ?_
      exact errorPrint_obeys waiting_apart (Obeys.ret (by simp))
    · refine parent_obeys hpid ?_
      refine Obeys.bind afterFork_waiting ?_
      rintro goOn φ' rfl
      refine Obeys.ite (fun _ => Obeys.ret (by simp)) fun _ => ?_
      have hrest := ih (i := i + 1) hφ' (all_pgid hpids)
      rw [Nat.add_assoc, Nat.add_comm 1] at hrest
      exact hrest

theorem waitLoop_waiting (hhead : φ.children.head? = some pgid) (hpids : ∀ p ∈ pids, p = pgid) :
    Obeys waiting (fun _ φ' => φ'.children = φ.children ∧ (pids ≠ [] → φ'.waited = true) ∧
      (φ.waited = true → φ'.waited = true)) (waitLoop pids) φ := by
  induction pids generalizing φ with
  | nil => exact Obeys.ret ⟨rfl, fun hne => absurd rfl hne, fun h => h⟩
  | cons p pids ih =>
    obtain rfl := hpids p List.mem_cons_self
    refine Obeys.perform hhead fun r _ => ?_
    have hrest : Obeys waiting (fun _ φ' => φ'.children = φ.children ∧
        (pids ≠ [] → φ'.waited = true) ∧ (true = true → φ'.waited = true)) (waitLoop pids)
        { φ with waited := true } :=
      @ih { φ with waited := true } hhead fun q hq => hpids q (List.mem_cons_of_mem _ hq)
    refine Obeys.ite (fun _ => ?_) fun _ => ?_
    · refine Obeys.ite (fun _ => errorPrint_obeys waiting_apart (Obeys.ret ?_)) fun _ => ?_
      · exact ⟨rfl, fun _ => rfl, fun _ => rfl⟩
      · exact hrest.mono fun _ _ h => ⟨h.1, fun _ => h.2.2 rfl, fun _ => h.2.2 rfl⟩
    · exact hrest.mono fun _ _ h => ⟨h.1, fun _ => h.2.2 rfl, fun _ => h.2.2 rfl⟩

/-- A foreground pipeline that returns without error has forked its children and waited. -/
theorem iterPipeForkExec_waiting (hpos : 1 ≤ pcount) :
    Obeys waiting (fun r φ => r ≠ -1 → φ.children.length = pcount + 1 ∧ φ.waited = true)
      (iterPipeForkExec pcount tokens false) ⟨[], false⟩ := by
  refine Obeys.bind (pipeLoop_obeys waiting_apart) ?_
  rintro r _ rfl
  cases r with
  | none => exact Obeys.ret fun hne => absurd rfl hne
  | some pipeFds =>
    refine Obeys.perform rfl fun pgid hr => ?_
    rcases hr with hr | hr
    · obtain rfl : pgid = (-1 : Int) := hr
      refine Obeys.ite_pos (by decide) ?_
      exact errorPrint_obeys waiting_apart (Obeys.ret fun hne => absurd rfl hne)
    · have hpgid : (0 : Int) < pgid := hr
      have hfirst : Forking pgid 1
          (waiting.next ⟨[], false⟩ (.fork ⟨false, none, false⟩) pgid) := by
        have hnext : waiting.next ⟨[], false⟩ (.fork ⟨false, none, false⟩) pgid = ⟨[pgid], false⟩ :=
          if_pos hr
        rw [hnext]
        exact ⟨rfl, rfl, rfl⟩
      refine parent_obeys hpgid ?_
      refine Obeys.ite_neg (by decide) ?_
      refine Obeys.bind (middleLoop_waiting hfirst fun p hp => List.mem_singleton.mp hp) ?_
      intro r φ hmiddle
      cases r with
      | none => exact Obeys.ret fun hne => absurd rfl hne
      | some pids =>
        obtain ⟨hforking, hpids⟩ := hmiddle pids rfl
        refine forking_obeys hforking ?_ fun pid φ' hpid hφ' => ?_
        · refine Obeys.ite_pos (by decide) ?_
          exact errorPrint_obeys waiting_apart (Obeys.ret fun hne => absurd rfl hne)
        · refine parent_obeys hpid ?_
          refine Obeys.bind afterFork_waiting ?_
          rintro goOn φ' rfl
          refine Obeys.ite (fun _ => Obeys.ret fun hne => absurd rfl hne) fun _ => ?_
          refine Obeys.bind (closeAllPipes_obeys waiting_apart) ?_
          rintro _ φ' rfl
          refine Obeys.ite_neg (by decide) ?_
          refine Obeys.bind (waitLoop_waiting hφ'.1 (all_pgid hpids)) ?_
          rintro ok φ'' ⟨hsame, hwaited, -⟩
          refine Obeys.ite (fun _ => Obeys.ret fun hne => absurd rfl hne) fun _ => Obeys.ret ?_
          refine fun _ => ⟨?_, hwaited (by simp)⟩
          rw [hsame, hφ'.2.1]
          omega

/-! ## Who reaps the children -/

variable {es : List (Happening Call.Ret Event)} {h : Happening Call.Ret Event} {s s' : Snush}
  {c : Int} {e : Event}

theorem children_snoc : children (es ++ [h]) = children es ++ (forkedChild h).toList := by
  unfold children
  rw [List.filterMap_append]
  cases hchild : forkedChild h <;> simp [hchild]

/-- Something happens after the fork of the child. -/
def SinceFork (c : Int) (P : Happening Call.Ret Event → Prop)
    (es : List (Happening Call.Ret Event)) : Prop :=
  ∃ es₁ h es₂, es = es₁ ++ h :: es₂ ∧ forkedChild h = some c ∧ ∃ h' ∈ es₂, P h'

theorem SinceFork.mem_children {P : Happening Call.Ret Event → Prop} (hc : SinceFork c P es) :
    c ∈ children es := by
  obtain ⟨es₁, h, es₂, rfl, hchild, -⟩ := hc
  exact List.mem_filterMap.mpr ⟨h, by simp, hchild⟩

theorem SinceFork.snoc_iff {P : Happening Call.Ret Event → Prop} : SinceFork c P (es ++ [h]) ↔
    SinceFork c P es ∨ c ∈ children es ∧ P h := by
  constructor
  · rintro ⟨es₁, h₁, es₂, heq, hchild, h', hmem, hP⟩
    rcases List.eq_nil_or_concat es₂ with rfl | ⟨es₂, h₂, rfl⟩
    · exact absurd hmem (by simp)
    · rw [List.concat_eq_append, ← List.cons_append, ← List.append_assoc] at heq
      obtain ⟨rfl, hlast⟩ := List.append_inj' heq rfl
      obtain rfl := List.singleton_inj.mp hlast
      rw [List.concat_eq_append] at hmem
      rcases List.mem_append.mp hmem with hmem | hmem
      · exact Or.inl ⟨es₁, h₁, es₂, rfl, hchild, h', hmem, hP⟩
      · obtain rfl := List.mem_singleton.mp hmem
        exact Or.inr ⟨List.mem_filterMap.mpr ⟨h₁, by simp, hchild⟩, hP⟩
  · rintro (⟨es₁, h₁, es₂, rfl, hchild, h', hmem, hP⟩ | ⟨hmem, hP⟩)
    · exact ⟨es₁, h₁, es₂ ++ [h], by simp, hchild, h', by simp [hmem], hP⟩
    · obtain ⟨h₁, hmem, hchild⟩ := List.mem_filterMap.mp hmem
      obtain ⟨es₁, es₂, rfl⟩ := List.append_of_mem hmem
      exact ⟨es₁, h₁, es₂ ++ [h], by simp, hchild, h, by simp, hP⟩

theorem handlerReaped_iff :
    HandlerReaped c es ↔ SinceFork c (fun h => ∃ text, h = .env (.reap c text)) es := by
  constructor
  · rintro ⟨es₁, h, es₂, text, heq, hchild, hmem⟩
    exact ⟨es₁, h, es₂, heq, hchild, _, hmem, text, rfl⟩
  · rintro ⟨es₁, h, es₂, heq, hchild, _, hmem, text, rfl⟩
    exact ⟨es₁, h, es₂, text, heq, hchild, hmem⟩

theorem HandlerReaped.mem_children (hc : HandlerReaped c es) : c ∈ children es :=
  (handlerReaped_iff.mp hc).mem_children

theorem HandlerReaped.snoc_iff : HandlerReaped c (es ++ [h]) ↔
    HandlerReaped c es ∨ c ∈ children es ∧ ∃ text, h = .env (.reap c text) := by
  rw [handlerReaped_iff, handlerReaped_iff, SinceFork.snoc_iff]

/-- All children but the first are there until the handler reaps them. The first is gone once the
    parent has waited. -/
structure Reaping (es : List (Happening Call.Ret Event)) (φ : Waiting) (s : Snush) : Prop where
  children : φ.children = Shell.children es
  first : φ.waited = true → ∀ c, φ.children.head? = some c → s.procs c = none
  others : ∀ c ∈ Shell.children es, φ.children.head? ≠ some c →
    (s.procs c = none ↔ HandlerReaped c es)

/-- A step that forks no child and reaps none that the pipeline has forked. -/
theorem Reaping.congr (hr : Reaping es φ s) (hchild : forkedChild h = none)
    (hreap : ∀ c text, h ≠ .env (.reap c text))
    (hprocs : ∀ c, s'.procs c = none ↔ s.procs c = none) : Reaping (es ++ [h]) φ s' := by
  have hsame : Shell.children (es ++ [h]) = Shell.children es := by
    rw [children_snoc, hchild]
    exact List.append_nil _
  constructor
  · rw [hsame]
    exact hr.children
  · exact fun hwaited c hc => (hprocs c).mpr (hr.first hwaited c hc)
  · intro c hc hne
    rw [hsame] at hc
    rw [hprocs c, hr.others c hc hne, HandlerReaped.snoc_iff]
    exact ⟨Or.inl, fun hor => hor.elim id fun ⟨_, text, heq⟩ => absurd heq (hreap c text)⟩

theorem Reaping.forked {child : Child} {r : Int} (hr : Reaping es φ s) (hpos : 0 < r)
    (hwaited : φ.waited = false) (hnew : r ∉ Shell.children es) {p : Proc} :
    Reaping (es ++ [.call (.fork child) r]) { φ with children := φ.children ++ [r] }
      (s.setProc r (some p)) := by
  have hchildren : Shell.children (es ++ [.call (.fork child) r]) = Shell.children es ++ [r] := by
    rw [children_snoc]
    exact congrArg (fun o : Option Int => Shell.children es ++ o.toList) (if_pos hpos)
  constructor
  · rw [hchildren, hr.children]
  · exact fun h => absurd (hwaited.symm.trans h) (by decide)
  · intro c hc hne
    rw [hchildren] at hc
    rw [HandlerReaped.snoc_iff]
    by_cases hcr : c = r
    · subst hcr
      rw [s.procs_setProc_self c]
      refine ⟨fun h => absurd h (by simp), fun hor => ?_⟩
      rcases hor with hreaped | ⟨hmem, -⟩
      · exact absurd hreaped.mem_children hnew
      · exact absurd hmem hnew
    · have hmem : c ∈ Shell.children es := by
        rcases List.mem_append.mp hc with hc | hc
        · exact hc
        · exact absurd (List.mem_singleton.mp hc) hcr
      rw [Snush.procs_setProc_ne hcr, hr.others c hmem
        fun hhead => hne (by rw [List.head?_append, hhead]; rfl)]
      exact ⟨Or.inl, fun hor => hor.elim id fun ⟨_, _, heq⟩ => absurd heq (by simp)⟩

theorem Reaping.waited {pid : Int} {r : Int × Errno} (hr : Reaping es φ s)
    (hhead : φ.children.head? = some pid) (hgone : s'.procs pid = none)
    (hsame : ∀ c, c ≠ pid → s'.procs c = s.procs c) :
    Reaping (es ++ [.call (.waitpid pid) r]) { φ with waited := true } s' := by
  have hchildren : Shell.children (es ++ [.call (.waitpid pid) r]) = Shell.children es := by
    rw [children_snoc]
    exact List.append_nil _
  constructor
  · rw [hchildren]
    exact hr.children
  · intro _ c hc
    obtain rfl := Option.some.inj (hhead.symm.trans hc)
    exact hgone
  · intro c hc hne
    rw [hchildren] at hc
    have hcp : c ≠ pid := fun heq => hne (heq ▸ hhead)
    rw [hsame c hcp, hr.others c hc hne, HandlerReaped.snoc_iff]
    exact ⟨Or.inl, fun hor => hor.elim id fun ⟨_, _, heq⟩ => absurd heq (by simp)⟩

theorem Reaping.event (hr : Reaping es φ s) (hstep : ShellEvent s e s') :
    Reaping (es ++ [.env e]) φ s' := by
  cases hstep with
  | @exits pid p hproc hrunning =>
    refine hr.congr rfl (by simp) fun c => ?_
    change (s.setProc pid (some { p with running := false })).procs c = none ↔ _
    by_cases hc : c = pid
    · subst hc
      rw [hproc]
      exact iff_of_false (by simp [Snush.setProc]) (by simp)
    · rw [Snush.procs_setProc_ne hc]
  | deliver => exact hr.congr rfl (by simp) fun _ => Iff.rfl
  | finish => exact hr.congr rfl (by simp) fun _ => Iff.rfl
  | @reap pid hhandling hzombie =>
    have hchildren : Shell.children (es ++ [.env (.reap pid (handleChild s.table pid).2)]) =
        Shell.children es := by
      rw [children_snoc]
      exact List.append_nil _
    have hgone := s.procs_setProc_self pid none
    have hsame : ∀ c, c ≠ pid → (s.setProc pid none).procs c = s.procs c :=
      fun _ hc => Snush.procs_setProc_ne hc
    constructor
    · rw [hchildren]
      exact hr.children
    · intro hwaited c hc
      by_cases hcp : c = pid
      · exact hcp ▸ hgone
      · exact (hsame c hcp).trans (hr.first hwaited c hc)
    · intro c hc hne
      rw [hchildren] at hc
      rw [HandlerReaped.snoc_iff]
      by_cases hcp : c = pid
      · subst hcp
        exact iff_of_true hgone (Or.inr ⟨hc, _, rfl⟩)
      · change (s.setProc pid none).procs c = none ↔ _
        rw [hsame c hcp, hr.others c hc hne]
        refine ⟨Or.inl, fun hor => hor.elim id ?_⟩
        rintro ⟨-, text, heq⟩
        exact absurd (Event.reap.inj (Happening.env.inj heq)).1.symm hcp

theorem Reaping.call {c : Call} {r : c.Ret} (hr : Reaping es φ s)
    (hnodup : (Shell.children (es ++ [.call c r])).Nodup) (hallowed : waiting.allowed φ c)
    (hstep : ShellCall s c r s') : Reaping (es ++ [.call c r]) (waiting.next φ c r) s' := by
  obtain ⟨-, hstep⟩ := hstep
  cases c with
  | fork child =>
    rcases hstep with ⟨hpos, hfree, rfl⟩ | ⟨hfail, rfl⟩
    · have hnext : waiting.next φ (.fork child) r = { φ with children := φ.children ++ [r] } :=
        if_pos hpos
      have hchild : forkedChild (.call (.fork child) r) = some r := if_pos hpos
      rw [hnext]
      refine hr.forked hpos hallowed fun hmem => ?_
      rw [children_snoc, hchild] at hnodup
      exact (List.disjoint_of_nodup_append hnodup) hmem (by simp)
    · obtain rfl : r = (-1 : Int) := hfail
      exact hr.congr rfl (by simp) fun _ => Iff.rfl
  | waitpid pid =>
    rcases hstep with ⟨-, -, rfl⟩ | ⟨hgone, -, rfl⟩
    · exact hr.waited hallowed (Snush.procs_setProc_self ..) fun c hc => Snush.procs_setProc_ne hc
    · exact hr.waited hallowed hgone fun _ _ => rfl
  | sigBlock =>
    obtain ⟨-, rfl⟩ := hstep
    exact hr.congr rfl (by simp) fun _ => Iff.rfl
  | sigSetmask oldset =>
    obtain ⟨-, rfl⟩ := hstep
    exact hr.congr rfl (by simp) fun _ => Iff.rfl
  | bgArrayIdx =>
    obtain ⟨-, rfl⟩ := hstep
    exact hr.congr rfl (by simp) fun _ => Iff.rfl
  | _ =>
    obtain rfl := hstep
    exact hr.congr rfl (by simp) fun _ => Iff.rfl

theorem waiting_answer {c : Call} {r : c.Ret} (hstep : ShellCall s c r s') :
    waiting.answer φ c r := by
  cases c with
  | fork child =>
    rcases hstep.2 with ⟨hpos, -⟩ | ⟨hfail, -⟩
    · exact Or.inr hpos
    · exact Or.inl hfail
  | _ => exact trivial

/-- When a foreground pipeline returns without error, all its children have been reaped if and only
    if the handler has reaped all but the first. -/
theorem foreground_waited {s₀ : Snush} {r : Int} (hpos : 1 ≤ pcount)
    (hrun : ShellRun (iterPipeForkExec pcount tokens false) s₀ es (.ret r) s) (hr : r ≠ -1)
    (hdistinct : (children es).Nodup) : (children es).length = pcount + 1 ∧
      ((∀ c ∈ children es, s.procs c = none) ↔ ∀ c ∈ (children es).tail, HandlerReaped c es) := by
  have hstart : Reaping [] ⟨[], false⟩ s₀ :=
    ⟨rfl, fun h => absurd h (by decide), fun c hc => absurd hc (by simp [children])⟩
  obtain ⟨hreaping, hobeys⟩ := Obeys.run_of_forall (D := waiting)
    (I := fun es φ s => (children es).Nodup → Reaping es φ s)
    (fun es φ s c r s' hI hallowed hexec => ⟨waiting_answer hexec, fun hnodup => by
      have hbefore := hnodup
      rw [children_snoc] at hbefore
      exact (hI hbefore.of_append_left).call hnodup hallowed hexec⟩)
    (fun es φ s e s' hI hstep hnodup => by
      have hbefore := hnodup
      rw [children_snoc] at hbefore
      exact (hI hbefore.of_append_left).event hstep)
    (iterPipeForkExec_waiting hpos) (fun _ => hstart) hrun
  have hreaping := hreaping hdistinct
  obtain ⟨hlen, hwaited⟩ := hobeys hr
  rw [hreaping.children] at hlen
  refine ⟨hlen, ?_⟩
  cases hc : children es with
  | nil =>
    rw [hc] at hlen
    exact absurd hlen (by simp)
  | cons first rest =>
    have hhead : (waiting.phase ⟨[], false⟩ es).children.head? = some first := by
      rw [hreaping.children, hc]
      rfl
    rw [hc] at hdistinct
    obtain ⟨hnot, -⟩ := List.nodup_cons.mp hdistinct
    have hothers : ∀ c ∈ rest, s.procs c = none ↔ HandlerReaped c es := by
      intro c hmem
      refine hreaping.others c (hc ▸ List.mem_cons_of_mem _ hmem) fun heq => ?_
      obtain rfl := Option.some.inj (hhead.symm.trans heq)
      exact hnot hmem
    constructor
    · exact fun hall c hmem => (hothers c hmem).mp (hall c (List.mem_cons_of_mem _ hmem))
    · intro hall c hmem
      rcases List.mem_cons.mp hmem with rfl | hmem
      · exact hreaping.first hwaited c hhead
      · exact (hothers c hmem).mpr (hall c hmem)

/-- `a | b`, where `b` ends and is reaped while the parent waits for `a`. -/
theorem foreground_waited_two : ∃ (es : List (Happening Call.Ret Event)) (s : Snush),
    ShellRun (iterPipeForkExec 1 [.word [97], .pipe, .word [98]] false) Snush.initial es
      (.ret 100) s ∧ children es = [100, 101] ∧ ∀ c ∈ children es, s.procs c = none := by
  have hrun : ∃ (es : List (Happening Call.Ret Event)) (s : Snush),
      ShellRun (iterPipeForkExec 1 [.word [97], .pipe, .word [98]] false) Snush.initial es
        (.ret 100) s ∧ children es = [100, 101] ∧
      ∃ es₁ h es₂ text, es = es₁ ++ h :: es₂ ∧ forkedChild h = some 101 ∧
        .env (.reap 101 text) ∈ es₂ := by
    apply Exists.intro
    apply Exists.intro
    apply And.intro
    · apply Run.trans
      · apply ProgRun.called Call.pipe (some (5, 6)) rfl ⟨rfl, rfl⟩
        apply ProgRun.called (Call.fork ⟨false, none, false⟩) (100 : Int) rfl
          ⟨rfl, Or.inl ⟨by decide, rfl, rfl⟩⟩
        exact Run.nil _
      · apply ProgRun.called (Call.fork ⟨false, some 100, true⟩) (101 : Int) rfl
          ⟨rfl, Or.inl ⟨by decide, rfl, rfl⟩⟩
        apply ProgRun.called Call.sigBlock (0, false) rfl ⟨rfl, rfl, rfl⟩
        apply ProgRun.called (Call.sigSetmask false) (0 : Int) rfl ⟨rfl, rfl, rfl⟩
        apply ProgRun.called (Call.close 5) (0 : Int) rfl ⟨rfl, rfl⟩
        apply ProgRun.called (Call.close 6) (0 : Int) rfl ⟨rfl, rfl⟩
        apply ProgRun.happened (Event.exits 101) (ShellEvent.exits rfl rfl)
        apply ProgRun.happened Event.deliver (ShellEvent.deliver rfl rfl rfl)
        apply ProgRun.happened (Event.reap 101 none) (ShellEvent.reap rfl ⟨_, rfl, rfl⟩)
        apply ProgRun.happened Event.finish (ShellEvent.finish rfl fun pid ⟨q, hq, hzombie⟩ => by
          by_cases hpid : pid = 100
          · subst hpid
            obtain rfl := Option.some.inj hq
            exact absurd hzombie (by decide)
          · exact absurd hq (by simp [Snush.setTable, Snush.setProc, Snush.setBlocked,
              Snush.initial, Function.update_apply, hpid]))
        apply ProgRun.happened (Event.exits 100) (ShellEvent.exits rfl rfl)
        apply ProgRun.called (Call.waitpid 100) (100, .other) rfl
          ⟨rfl, Or.inl ⟨⟨_, rfl, rfl⟩, rfl, rfl⟩⟩
        apply ProgRun.called (Call.waitpid 100) (-1, .echild) rfl ⟨rfl, Or.inr ⟨rfl, rfl, rfl⟩⟩
        exact Run.nil _
    · refine ⟨rfl, _, _, _, none, rfl, rfl, ?_⟩
      simp
  obtain ⟨es, s, hrun, hchildren, hreaped⟩ := hrun
  have hwaited := foreground_waited (Nat.le_refl 1) hrun (by decide) (by rw [hchildren]; decide)
  refine ⟨es, s, hrun, hchildren, hwaited.2.mpr fun c hc => ?_⟩
  rw [hchildren] at hc
  obtain rfl : c = 101 := by simpa using hc
  exact hreaped

/-- `a | b`, where `a` ends first: `b` still runs when the shell goes on. -/
theorem foreground_not_waited : ¬ ∀ (pcount : Nat) (tokens : List Token) (s₀ : Snush)
    (es : List (Happening Call.Ret Event)) (r : Int) (s : Snush), 1 ≤ pcount →
    countPipe tokens = pcount → ShellRun (iterPipeForkExec pcount tokens false) s₀ es (.ret r) s →
    r ≠ -1 → (children es).Nodup → ∀ c ∈ children es, s.procs c = none := by
  intro hall
  have hrun : ∃ (es : List (Happening Call.Ret Event)) (s : Snush),
      ShellRun (iterPipeForkExec 1 [.word [97], .pipe, .word [98]] false) Snush.initial es
        (.ret 100) s ∧ children es = [100, 101] ∧ s.procs 101 ≠ none := by
    apply Exists.intro
    apply Exists.intro
    apply And.intro
    · apply ProgRun.called Call.pipe (some (5, 6)) rfl ⟨rfl, rfl⟩
      apply ProgRun.called (Call.fork ⟨false, none, false⟩) (100 : Int) rfl
        ⟨rfl, Or.inl ⟨by decide, rfl, rfl⟩⟩
      apply ProgRun.called (Call.fork ⟨false, some 100, true⟩) (101 : Int) rfl
        ⟨rfl, Or.inl ⟨by decide, rfl, rfl⟩⟩
      apply ProgRun.called Call.sigBlock (0, false) rfl ⟨rfl, rfl, rfl⟩
      apply ProgRun.called (Call.sigSetmask false) (0 : Int) rfl ⟨rfl, rfl, rfl⟩
      apply ProgRun.called (Call.close 5) (0 : Int) rfl ⟨rfl, rfl⟩
      apply ProgRun.called (Call.close 6) (0 : Int) rfl ⟨rfl, rfl⟩
      apply ProgRun.happened (Event.exits 100) (ShellEvent.exits rfl rfl)
      apply ProgRun.called (Call.waitpid 100) (100, .other) rfl
        ⟨rfl, Or.inl ⟨⟨_, rfl, rfl⟩, rfl, rfl⟩⟩
      apply ProgRun.called (Call.waitpid 100) (-1, .echild) rfl ⟨rfl, Or.inr ⟨rfl, rfl, rfl⟩⟩
      exact Run.nil _
    · exact ⟨rfl, fun h => absurd h (Option.some_ne_none _)⟩
  obtain ⟨es, s, hrun, hchildren, hrunning⟩ := hrun
  have hgone := hall 1 _ _ es 100 s (Nat.le_refl 1) (by decide) hrun (by decide)
    (by rw [hchildren]; decide) 101
  exact hrunning (hgone (by rw [hchildren]; decide))

end SnuSysProg.Shell
