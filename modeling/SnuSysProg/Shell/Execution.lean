import SnuSysProg.Lib.Discipline
import SnuSysProg.Shell.Jobs
import SnuSysProg.Shell.Main

/-
  What the children of a job execute.

  `executing` follows one process through the forks of a line, whatever its calls answer. A process
  that calls `execvp` is the child of some stage, counted by the forks before it, and calls it with
  the words of that stage. When the shell itself goes on to the next line, it has forked one child
  for each stage, or has printed that it could not (`executeExternal_executing`).
-/

namespace SnuSysProg.Shell
open SnuSysProg.Lib

/-- What one process has done so far. -/
structure Progress where
  /-- The children it has forked. -/
  forks : Nat
  /-- In a child, how many were forked before it. -/
  child : Option Nat
  printed : List String

def Progress.initial : Progress := ⟨0, none, []⟩

def Progress.fork (φ : Progress) (r : Int) : Progress :=
  if r = 0 then { φ with child := some φ.forks }
  else if 0 < r then { φ with forks := φ.forks + 1 }
  else φ

/-- Only children execute something: the words of their stages. They are forked in the background
    if the job is. -/
def executing (job : Job) : Discipline Call.Ret Progress where
  allowed := fun φ c => match c with
    | .execvp args =>
      ∃ i stage, φ.child = some i ∧ job.stages[i]? = some stage ∧ args = stage.words
    | .fork child => child.background = job.background
    | _ => True
  answer := fun _ c => match c with
    | .execvp _ => fun r => r < 0
    | _ => fun _ => True
  next := fun φ c => match c with
    | .fork _ => fun r => φ.fork r
    | .printf s => fun _ => { φ with printed := φ.printed ++ [s] }
    | _ => fun _ => φ

variable {α : Type} {job : Job} {stages front : List Command} {stage next before : Command}
  {φ : Progress} {Q : α → Progress → Prop} {pipeFds : List (Int × Int)} {pids : List Int}
  {pid pgid : Int} {isBackground : Bool} {n i : Nat} {items : List Item} {pl : Pipeline}

/-! ## The calls that change nothing -/

theorem executing_exit {status : Int} {Q : Unit → Progress → Prop} :
    Obeys (executing job) Q (exit status) φ :=
  ⟨trivial, fun r => r.elim⟩

theorem executing_errorPrint {input : Subject} {mode : PrintMode} {k : Unit → ShellM α}
    (hk : Obeys (executing job) Q (k ()) φ) :
    Obeys (executing job) Q (errorPrint input mode >>= k) φ :=
  Obeys.quiet (fun _ => ⟨trivial, fun _ => rfl⟩) fun _ => hk

theorem executing_perror {s : String} {k : Unit → ShellM α}
    (hk : Obeys (executing job) Q (k ()) φ) :
    Obeys (executing job) Q (perror s >>= k) φ :=
  Obeys.quiet (fun _ => ⟨trivial, fun _ => rfl⟩) fun _ => hk

theorem closeAllPipes_executing :
    Obeys (executing job) (fun _ φ' => φ' = φ) (closeAllPipes pipeFds) φ := by
  induction pipeFds with
  | nil => exact Obeys.ret rfl
  | cons p pipeFds ih =>
    have hsecond : Obeys (executing job) (fun _ φ' => φ' = φ) (do
        if (← close p.2) < 0 then perror "close failed"
        closeAllPipes pipeFds) φ := by
      refine Obeys.quiet (fun _ => ⟨trivial, fun _ => rfl⟩) fun _ => ?_
      exact Obeys.ite (fun _ => executing_perror ih) fun _ => ih
    refine Obeys.quiet (fun _ => ⟨trivial, fun _ => rfl⟩) fun _ => ?_
    exact Obeys.ite (fun _ => executing_perror hsecond) fun _ => hsecond

theorem pipeLoop_executing :
    Obeys (executing job) (fun _ φ' => φ' = φ) (pipeLoop n pipeFds) φ := by
  induction n generalizing pipeFds with
  | zero => exact Obeys.ret rfl
  | succ n ih =>
    refine Obeys.quiet (fun _ => ⟨trivial, fun _ => rfl⟩) fun r => ?_
    cases r with
    | some fds => exact ih
    | none =>
      refine Obeys.bind closeAllPipes_executing ?_
      rintro _ φ rfl
      exact executing_errorPrint (Obeys.ret rfl)

theorem register_executing :
    Obeys (executing job) (fun _ φ' => φ' = φ) (register pid pgid) φ := by
  refine Obeys.quiet (fun _ => ⟨trivial, fun _ => rfl⟩) fun _ => ?_
  refine Obeys.quiet (fun _ => ⟨trivial, fun _ => rfl⟩) fun _ => ?_
  exact Discipline.Quiet.obeys fun _ => ⟨trivial, fun _ => rfl⟩

theorem afterFork_executing :
    Obeys (executing job) (fun _ φ' => φ' = φ) (afterFork pl isBackground pid pgid) φ := by
  have hfail : ∀ text, Obeys (executing job) (fun _ φ' => φ' = φ) (do
      closeAllPipes pl.pipeFds
      errorPrint (.text text) .perror
      return false) φ := by
    intro text
    refine Obeys.bind closeAllPipes_executing ?_
    rintro _ φ rfl
    exact executing_errorPrint (Obeys.ret rfl)
  have hrest : ∀ oldset, Obeys (executing job) (fun _ φ' => φ' = φ) (do
      if (← sigSetmask oldset) < 0 then
        closeAllPipes pl.pipeFds
        errorPrint (.text "Failed to restore signal mask") .perror
        return false
      return true) φ := by
    intro oldset
    refine Obeys.quiet (fun _ => ⟨trivial, fun _ => rfl⟩) fun r => ?_
    exact Obeys.ite (fun _ => hfail _) fun _ => Obeys.ret rfl
  refine Obeys.quiet (fun _ => ⟨trivial, fun _ => rfl⟩) fun r => ?_
  refine Obeys.ite (fun _ => hfail _) fun _ => ?_
  refine Obeys.ite (fun _ => ?_) fun _ => hrest _
  refine Obeys.bind register_executing ?_
  rintro _ φ rfl
  exact hrest _

theorem waitLoop_executing :
    Obeys (executing job) (fun _ φ' => φ' = φ) (waitLoop pids) φ := by
  induction pids with
  | nil => exact Obeys.ret rfl
  | cons pid pids ih =>
    refine Obeys.quiet (fun _ => ⟨trivial, fun _ => rfl⟩) fun r => ?_
    refine Obeys.ite (fun _ => ?_) fun _ => ih
    exact Obeys.ite (fun _ => executing_errorPrint (Obeys.ret rfl)) fun _ => ih

/-! ## A child -/

/-- The child of stage `i`, before it executes the words of the stage. -/
def IsChild (stages : List Command) (stage : Command) (φ : Progress) : Prop :=
  ∃ i, φ.child = some i ∧ stages[i]? = some stage

theorem redirect_executing {fd target : Int} :
    Obeys (executing job) (fun _ φ' => φ' = φ) (redirect fd target) φ := by
  have hfail : ∀ k : Unit → ShellM Unit, Obeys (executing job) (fun _ φ' => φ' = φ) (do
      errorPrint .null .perror
      exit exitFailure >>= k) φ := fun k =>
    executing_errorPrint (Obeys.bind (Q := fun _ _ => False) executing_exit fun _ _ h => h.elim)
  refine Obeys.ite (fun _ => hfail _) fun _ => ?_
  refine Obeys.quiet (fun _ => ⟨trivial, fun _ => rfl⟩) fun r => ?_
  refine Obeys.ite (fun _ => executing_errorPrint ?_) fun _ => ?_
  · refine Obeys.quiet (fun _ => ⟨trivial, fun _ => rfl⟩) fun _ => ?_
    exact Obeys.bind (Q := fun _ _ => False) executing_exit fun _ _ h => h.elim
  · refine Obeys.quiet (fun _ => ⟨trivial, fun _ => rfl⟩) fun r => ?_
    exact Obeys.ite (fun _ => executing_errorPrint executing_exit) fun _ => Obeys.ret rfl

theorem openFiles_executing :
    Obeys (executing job) (fun _ φ' => φ' = φ) (openFiles items) φ := by
  induction items with
  | nil => exact Obeys.ret rfl
  | cons item items ih =>
    cases item with
    | word value => exact ih
    | redin value =>
      refine Obeys.bind (Q := fun _ φ' => φ' = φ) ?_ ?_
      · exact Obeys.quiet (fun _ => ⟨trivial, fun _ => rfl⟩) fun _ => redirect_executing
      · rintro _ φ rfl
        exact ih
    | redout value =>
      refine Obeys.bind (Q := fun _ φ' => φ' = φ) ?_ ?_
      · exact Obeys.quiet (fun _ => ⟨trivial, fun _ => rfl⟩) fun _ => redirect_executing
      · rintro _ φ rfl
        exact ih

theorem build_executing : Obeys (executing job) (fun args φ' => args = stage.words ∧ φ' = φ)
    stage.build φ := by
  refine Obeys.bind openFiles_executing ?_
  rintro _ φ rfl
  exact Obeys.ret ⟨rfl, rfl⟩

theorem signalDefault_executing {x : ShellM α} (h : Obeys (executing job) Q x φ) :
    Obeys (executing job) Q (do
      if ¬ isBackground then sys .signalDefault
      x) φ := by
  refine Obeys.ite (fun _ => ?_) fun _ => h
  exact Obeys.quiet (fun _ => ⟨trivial, fun _ => rfl⟩) fun _ => h

theorem dupOrExit_executing {fd fd' : Int} :
    Obeys (executing job) (fun _ φ' => φ' = φ) (dupOrExit fd fd' pipeFds) φ := by
  refine Obeys.quiet (fun _ => ⟨trivial, fun _ => rfl⟩) fun r => ?_
  refine Obeys.ite (fun _ => executing_perror ?_) fun _ => Obeys.ret rfl
  refine Obeys.bind closeAllPipes_executing ?_
  rintro _ φ rfl
  exact executing_exit

/-- The child does not come back from its `execvp`. -/
theorem execvp_executing (h : IsChild job.stages stage φ) {k : Int → ShellM α}
    (hk : ∀ r < 0, Obeys (executing job) Q (k r) φ) :
    Obeys (executing job) Q (execvp stage.words >>= k) φ := by
  obtain ⟨i, hi, hstage⟩ := h
  exact Obeys.perform ⟨i, stage, hi, hstage, rfl⟩ fun r hr => hk r hr

/-- What the children of a pipeline do once they have their arguments. -/
theorem exec_executing (h : IsChild job.stages stage φ) {rest : ShellM Unit}
    (hrest : ∀ φ, Obeys (executing job) (fun _ _ => False) rest φ) :
    Obeys (executing job) (fun _ _ => False) (do
      closeAllPipes pipeFds
      if (← execvp stage.words) < 0 then rest) φ := by
  refine Obeys.bind closeAllPipes_executing ?_
  rintro _ φ rfl
  exact execvp_executing h fun r hr => Obeys.ite_pos hr (hrest φ)

theorem firstChild_executing (h : job.stages = stage :: next :: stages)
    (hchild : φ.child = some 0) : Obeys (executing job) (fun _ _ => False)
      (firstChild (job.pipeline pipeFds) isBackground) φ := by
  have hbuild : buildCommandPartial (job.pipeline pipeFds).tokens 0
      ((job.pipeline pipeFds).index 0) = stage.build := firstChild_build h
  have hstage : IsChild job.stages stage φ := ⟨0, hchild, by rw [h]; rfl⟩
  unfold firstChild
  rw [hbuild]
  refine signalDefault_executing (Obeys.bind build_executing ?_)
  rintro _ φ ⟨rfl, rfl⟩
  refine Obeys.bind dupOrExit_executing ?_
  rintro _ φ rfl
  refine exec_executing hstage fun φ => executing_errorPrint ?_
  exact Obeys.bind closeAllPipes_executing fun _ _ _ => executing_exit

theorem middleChild_executing (h : job.stages = front ++ before :: stage :: next :: stages)
    (hchild : φ.child = some (front.length + 1)) :
    Obeys (executing job) (fun _ _ => False)
      (middleChild (job.pipeline pipeFds) isBackground (front.length + 1)) φ := by
  have hbuild : buildCommandPartial (job.pipeline pipeFds).tokens
      ((job.pipeline pipeFds).index (front.length + 1 - 1) + 1)
      ((job.pipeline pipeFds).index (front.length + 1)) = stage.build := middleChild_build h
  have hstage : IsChild job.stages stage φ := by
    refine ⟨front.length + 1, hchild, ?_⟩
    rw [h, List.append_cons, List.getElem?_append_right (by simp), List.length_append,
      List.length_singleton, Nat.sub_self]
    rfl
  unfold middleChild
  rw [hbuild]
  refine signalDefault_executing (Obeys.bind build_executing ?_)
  rintro _ φ ⟨rfl, rfl⟩
  refine Obeys.bind dupOrExit_executing ?_
  rintro _ φ rfl
  refine Obeys.bind dupOrExit_executing ?_
  rintro _ φ rfl
  exact exec_executing hstage fun φ => executing_errorPrint executing_exit

theorem lastChild_executing (h : job.stages = front ++ [before, stage])
    (hchild : φ.child = some (front.length + 1)) :
    Obeys (executing job) (fun _ _ => False)
      (lastChild (job.pipeline pipeFds) isBackground (front.length + 1)) φ := by
  have hbuild : buildCommandPartial (job.pipeline pipeFds).tokens
      ((job.pipeline pipeFds).index (front.length + 1 - 1))
      (job.pipeline pipeFds).tokens.length = stage.build := lastChild_build h
  have hstage : IsChild job.stages stage φ := by
    refine ⟨front.length + 1, hchild, ?_⟩
    rw [h, List.append_cons, List.getElem?_append_right (by simp), List.length_append,
      List.length_singleton, Nat.sub_self]
    rfl
  unfold lastChild
  rw [hbuild]
  refine signalDefault_executing (Obeys.bind build_executing ?_)
  rintro _ φ ⟨rfl, rfl⟩
  refine Obeys.bind dupOrExit_executing ?_
  rintro _ φ rfl
  exact exec_executing hstage fun φ => executing_errorPrint executing_exit

/-! ## The parent -/

/-- The shell itself, after `k` forks. -/
structure Parent (k : Nat) (printed : List String) (φ : Progress) : Prop where
  forks : φ.forks = k
  child : φ.child = none
  printed : φ.printed = printed

variable {k : Nat} {printed : List String}

/-- What comes after a `fork`: in the child, in the parent, and when it fails. -/
theorem fork_executing {child : Child} {failed : Int → ShellM α} {inChild parent : Int → ShellM α}
    (hbg : child.background = job.background) (h : Parent k printed φ)
    (hchild : ∀ φ', φ'.child = some k → Obeys (executing job) Q (inChild 0) φ')
    (hparent : ∀ pid φ', 0 < pid → Parent (k + 1) printed φ' →
      Obeys (executing job) Q (parent pid) φ')
    (hfailed : ∀ pid, pid < 0 → Obeys (executing job) Q (failed pid) φ) :
    Obeys (executing job) Q (fork child >>= fun pid =>
      if pid < 0 then failed pid else if pid = 0 then inChild pid else parent pid) φ := by
  refine Obeys.perform hbg fun pid _ => ?_
  have hnext : (executing job).next φ (.fork child) pid = φ.fork pid := rfl
  rw [hnext]
  obtain hneg | hzero | hpos := Int.lt_trichotomy (pid : Int) 0
  · have hsame : φ.fork pid = φ := by
      unfold Progress.fork
      rw [if_neg (Int.ne_of_lt hneg), if_neg (Int.lt_asymm hneg)]
    rw [hsame]
    exact Obeys.ite_pos hneg (hfailed pid hneg)
  · obtain rfl : pid = (0 : Int) := hzero
    have hforked : φ.fork 0 = { φ with child := some φ.forks } := if_pos rfl
    rw [hforked]
    exact hchild _ (congrArg some h.forks)
  · have hforked : φ.fork pid = { φ with forks := φ.forks + 1 } := by
      unfold Progress.fork
      rw [if_neg (Int.ne_of_gt hpos), if_pos hpos]
    rw [hforked]
    refine Obeys.ite_neg (Int.lt_asymm hpos) (Obeys.ite_neg (Int.ne_of_gt hpos) ?_)
    exact hparent pid _ hpos ⟨congrArg (· + 1) h.forks, h.child, h.printed⟩

/-- A child does not come back, so what stands behind it does not matter. -/
theorem child_executing {x : ShellM Unit} {f : Unit → ShellM α}
    (h : Obeys (executing job) (fun _ _ => False) x φ) :
    Obeys (executing job) Q (x >>= f) φ :=
  Obeys.bind h fun _ _ hfalse => hfalse.elim

/-- The children between the first and the last, from the one behind `before`. -/
theorem middleLoop_executing (pids : List Int) (hbg : isBackground = job.background)
    (h : job.stages = front ++ before :: stages)
    (hn : n + 1 = stages.length) (hφ : Parent (front.length + 1) printed φ) :
    Obeys (executing job)
      (fun r φ' => φ'.child = none ∧ φ'.printed = printed ∧
        (r.isSome → φ'.forks = front.length + 1 + n))
      (middleLoop (job.pipeline pipeFds) isBackground pgid n (front.length + 1) pids) φ := by
  induction n generalizing front before stages φ pids with
  | zero => exact Obeys.ret ⟨hφ.child, hφ.printed, fun _ => hφ.forks⟩
  | succ n ih =>
    obtain ⟨stage, next, stages, rfl⟩ : ∃ stage next rest, stages = stage :: next :: rest := by
      match stages, hn with
      | stage :: next :: rest, _ => exact ⟨stage, next, rest, rfl⟩
    have hfront : job.stages = (front ++ [before]) ++ stage :: next :: stages := by
      rw [h, List.append_cons]
    have hlen : (front ++ [before]).length = front.length + 1 := List.length_append
    refine fork_executing hbg hφ (fun φ' hchild => ?_) (fun pid φ' _ hparent => ?_) fun pid _ => ?_
    · exact child_executing (middleChild_executing h hchild)
    · refine Obeys.bind afterFork_executing ?_
      rintro goOn φ' rfl
      refine Obeys.ite (fun _ => Obeys.ret ⟨hparent.child, hparent.printed, by simp⟩) fun _ => ?_
      rw [← hlen] at hparent
      have hrest := ih (pids ++ [pgid]) hfront (by simpa using hn) hparent
      rw [hlen] at hrest
      refine hrest.mono fun r φ' hr => ⟨hr.1, hr.2.1, fun hsome => (hr.2.2 hsome).trans ?_⟩
      omega
    · exact executing_errorPrint (Obeys.ret ⟨hφ.child, hφ.printed, by simp⟩)

/-- The last of two or more stages and the one before it. -/
theorem last_two (stage : Command) (hne : stages ≠ []) :
    ∃ front before last, stage :: stages = front ++ [before, last] := by
  obtain rfl | ⟨init, last, rfl⟩ := List.eq_nil_or_concat stages
  · exact absurd rfl hne
  · obtain hnil | ⟨front, before, hfront⟩ := List.eq_nil_or_concat (stage :: init)
    · exact absurd hnil (List.cons_ne_nil _ _)
    · refine ⟨front, before, last, ?_⟩
      rw [List.concat_eq_append] at hfront ⊢
      rw [← List.cons_append, hfront, List.append_assoc]
      rfl

/-- How a launch ends in the shell: with one child for each stage if it returns a process group. -/
def Launched (stages : List Command) (printed : List String) (r : Int) (φ : Progress) : Prop :=
  φ.child = none ∧ φ.printed = printed ∧ (0 < r → φ.forks = stages.length)

theorem otherChildren_executing (pipeFds : List (Int × Int)) (pgid : Int)
    (hbg : isBackground = job.background) (h : job.stages = stage :: stages) (hne : stages ≠ [])
    (hφ : Parent 1 printed φ) :
    Obeys (executing job) (Launched job.stages printed)
      (otherChildren (job.pipeline pipeFds) isBackground stages.length pgid) φ := by
  have hpos : 0 < stages.length := List.length_pos_of_ne_nil hne
  have hn : stages.length - 1 + 1 = stages.length := Nat.sub_add_cancel hpos
  have hfirst : job.stages = [] ++ stage :: stages := h
  refine Obeys.bind (middleLoop_executing [pgid] hbg hfirst hn hφ) fun r φ' hr => ?_
  obtain ⟨hchild, hprinted, hforks⟩ := hr
  cases r with
  | none => exact Obeys.ret ⟨hchild, hprinted, by simp⟩
  | some pids =>
    have hforks : φ'.forks = stages.length := by
      have hcount := hforks rfl
      rw [List.length_nil] at hcount
      omega
    refine fork_executing hbg ⟨hforks, hchild, hprinted⟩ (fun φ' hlast => ?_)
      (fun pid φ' _ hparent => ?_) fun pid _ => ?_
    · obtain ⟨front, before, last, hstages⟩ := last_two stage hne
      have hlen := congrArg List.length hstages
      rw [List.length_cons, List.length_append, List.length_cons, List.length_singleton] at hlen
      obtain hlen : stages.length = front.length + 1 := Nat.succ.inj hlen
      rw [hlen] at hlast ⊢
      exact child_executing (lastChild_executing (h.trans hstages) hlast)
    · refine Obeys.bind afterFork_executing ?_
      rintro goOn φ' rfl
      refine Obeys.ite (fun _ => Obeys.ret ⟨hparent.child, hparent.printed, by simp⟩) fun _ => ?_
      refine Obeys.bind closeAllPipes_executing ?_
      rintro _ φ' rfl
      have hall : ∀ r, Launched job.stages printed r φ' := by
        refine fun r => ⟨hparent.child, hparent.printed, fun _ => ?_⟩
        rw [h, List.length_cons]
        exact hparent.forks
      refine Obeys.ite (fun _ => Obeys.ret (hall _)) fun _ => ?_
      refine Obeys.bind waitLoop_executing ?_
      rintro ok φ' rfl
      exact Obeys.ite (fun _ => Obeys.ret (hall _)) fun _ => Obeys.ret (hall _)
    · exact executing_errorPrint (Obeys.ret ⟨hchild, hprinted, by simp⟩)

theorem iterPipeForkExec_executing (hbg : isBackground = job.background)
    (h : job.stages = stage :: stages) (hne : stages ≠ []) (hφ : Parent 0 printed φ) :
    Obeys (executing job) (Launched job.stages printed)
      (iterPipeForkExec stages.length job.tokens isBackground) φ := by
  refine Obeys.bind pipeLoop_executing ?_
  rintro r φ rfl
  cases r with
  | none => exact Obeys.ret ⟨hφ.child, hφ.printed, by simp⟩
  | some pipeFds =>
    refine fork_executing hbg hφ (fun φ' hchild => ?_) (fun pgid φ' _ hparent => ?_) fun pid _ => ?_
    · obtain ⟨next, rest, rfl⟩ := List.exists_cons_of_ne_nil hne
      exact child_executing (firstChild_executing h hchild)
    · have hmain := otherChildren_executing pipeFds pgid hbg h hne hparent
      refine Obeys.ite (fun _ => ?_) fun _ => hmain
      refine Obeys.quiet (fun _ => ⟨trivial, fun _ => rfl⟩) fun r => ?_
      refine Obeys.bind register_executing ?_
      rintro _ φ' rfl
      exact Obeys.quiet (fun _ => ⟨trivial, fun _ => rfl⟩) fun _ => hmain
    · exact executing_errorPrint (Obeys.ret ⟨hφ.child, hφ.printed, by simp⟩)

theorem forkExec_executing (hbg : isBackground = job.background) (h : job.stages = [stage])
    (hφ : Parent 0 printed φ) :
    Obeys (executing job) (Launched job.stages printed)
      (forkExec job.tokens isBackground) φ := by
  have hone : job.stages.length = 1 := by rw [h]; rfl
  refine fork_executing hbg hφ (fun φ' hchild => ?_) (fun pid φ' _ hparent => ?_) fun pid _ => ?_
  · have hstage : IsChild job.stages stage φ' := ⟨0, hchild, by rw [h]; rfl⟩
    rw [buildCommand_build h]
    refine signalDefault_executing (Obeys.bind build_executing ?_)
    rintro _ φ ⟨rfl, rfl⟩
    refine execvp_executing hstage fun r hr => Obeys.ite_pos hr (executing_errorPrint ?_)
    exact child_executing executing_exit
  · have hall : ∀ r, Launched job.stages printed r φ' := fun r =>
      ⟨hparent.child, hparent.printed, fun _ => hparent.forks.trans hone.symm⟩
    refine Obeys.ite (fun _ => ?_) fun _ => ?_
    · refine Obeys.quiet (fun _ => ⟨trivial, fun _ => rfl⟩) fun r => ?_
      refine Obeys.bind register_executing ?_
      rintro _ φ' rfl
      exact Obeys.quiet (fun _ => ⟨trivial, fun _ => rfl⟩) fun _ => Obeys.ret (hall _)
    · refine Obeys.quiet (fun _ => ⟨trivial, fun _ => rfl⟩) fun r => ?_
      exact Obeys.ite (fun _ => executing_errorPrint (Obeys.ret (hall _))) fun _ =>
        Obeys.ret (hall _)
  · exact executing_errorPrint (Obeys.ret ⟨hφ.child, hφ.printed, by simp⟩)

/-- The texts that say that a command could not be launched. -/
def complaints : List String :=
  ["Error: Total background processes exceed the limit (" ++ toString maxBgPro ++ ").\n",
    "Invalid return value of external command execution\n"]

/-- Where the shell is after a line: every stage has its child, or the user has been told. -/
def Finished (stages : List Command) (φ : Progress) : Prop :=
  φ.child = none ∧ (φ.forks = stages.length ∨ ∃ s ∈ complaints, s ∈ φ.printed)

theorem complaint_executing {s : String} (hs : s ∈ complaints) (hchild : φ.child = none) :
    Obeys (executing job) (fun _ φ' => Finished stages φ') (printf s) φ :=
  Obeys.call trivial fun _ _ => ⟨hchild, Or.inr ⟨s, hs, List.mem_append_right _ List.mem_cons_self⟩⟩

theorem afterLaunch_executing {retPgid : Int} {printed : List String}
    (h : Launched stages printed retPgid φ) :
    Obeys (executing job) (fun _ φ' => Finished stages φ') (do
      if 0 < retPgid then
        if isBackground then
          printf ("[" ++ toString retPgid ++ "] Background process group running\n")
      else printf "Invalid return value of external command execution\n") φ := by
  obtain ⟨hchild, -, hforks⟩ := h
  refine Obeys.ite (fun hpos => ?_) fun _ => ?_
  · refine Obeys.ite (fun _ => ?_) fun _ => Obeys.ret ⟨hchild, Or.inl (hforks hpos)⟩
    exact Obeys.call trivial fun _ _ => ⟨hchild, Or.inl (hforks hpos)⟩
  · exact complaint_executing (List.mem_cons_of_mem _ List.mem_cons_self) hchild

/-- **The children of a job.** Each executes the words of its stage, and the shell comes back with
    one child for each stage, or has said that it could not launch them. -/
theorem executeExternal_executing (job : Job) :
    Obeys (executing job) (fun _ φ' => Finished job.stages φ')
      (executeExternal job.tokens) Progress.initial := by
  have hstart : Parent 0 [] Progress.initial := ⟨rfl, rfl, rfl⟩
  have hbg := job.checkBg_tokens
  have hlaunch : Obeys (executing job) (fun _ φ' => Finished job.stages φ') (do
      let retPgid ← if 0 < countPipe job.tokens then
          iterPipeForkExec (countPipe job.tokens) job.tokens (checkBg job.tokens)
        else forkExec job.tokens (checkBg job.tokens)
      if 0 < retPgid then
        if checkBg job.tokens then
          printf ("[" ++ toString retPgid ++ "] Background process group running\n")
      else printf "Invalid return value of external command execution\n") Progress.initial := by
    rw [job.countPipe_tokens]
    refine Obeys.ite (fun hpos => ?_) fun hnone => ?_
    · have hne : job.later ≠ [] := List.ne_nil_of_length_pos hpos
      exact Obeys.bind (iterPipeForkExec_executing hbg rfl hne hstart)
        fun _ _ => afterLaunch_executing
    · have hnil : job.later = [] := List.length_eq_zero_iff.mp (Nat.eq_zero_of_not_pos hnone)
      have hone : job.stages = [job.first] := congrArg (job.first :: ·) hnil
      exact Obeys.bind (forkExec_executing hbg hone hstart) fun _ _ => afterLaunch_executing
  unfold executeExternal
  refine Obeys.ite (fun _ => ?_) fun _ => hlaunch
  refine Obeys.quiet (c := Call.bgArrayIdx) (fun _ => ⟨trivial, fun _ => rfl⟩) fun r => ?_
  refine Obeys.ite (fun _ => ?_) fun _ => hlaunch
  exact Obeys.bind (complaint_executing List.mem_cons_self rfl) fun _ _ h => Obeys.ret h

end SnuSysProg.Shell
