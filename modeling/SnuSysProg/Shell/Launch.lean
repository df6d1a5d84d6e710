import SnuSysProg.Shell.Calls
import SnuSysProg.Shell.Interleaving

/-
  How the main thread launches commands.

  `launching` is the discipline of the calls that have to do with children. A background child is
  forked, SIGCHLD is blocked, its pid and its group are stored and counted, and the mask is
  restored; then the next child of its command may be forked. The main thread waits only for
  foreground children that were forked after the last background child. `mainLoop_obeys`: the main
  thread keeps to this, whatever the lines are and whichever calls fail.
-/

namespace SnuSysProg.Shell
open SnuSysProg.Lib

/-- Where the launch of a background command is. `more`: other children are forked after it. -/
inductive Stage where
  | idle
  /-- SIGCHLD is blocked after the fork of a foreground child. -/
  | masked
  | forked (pid group : Int) (more : Bool)
  | guarded (pid group : Int) (more : Bool)
  | pidStored (pid group : Int) (more : Bool)
  | stored (pid group : Int) (more : Bool)
  | counted (group : Int) (more : Bool)
  | between (group : Int)

/-- The child that is forked and not yet in the table. -/
def Stage.fresh : Stage → Option (Int × Int)
  | .forked pid group _ => some (pid, group)
  | .guarded pid group _ => some (pid, group)
  | .pidStored pid group _ => some (pid, group)
  | .stored pid group _ => some (pid, group)
  | _ => none

/-- The group whose members are not all in the table. -/
def Stage.group : Stage → Option Int
  | .forked _ group _ => some group
  | .guarded _ group _ => some group
  | .pidStored _ group _ => some group
  | .stored _ group _ => some group
  | .counted group more => if more then some group else none
  | .between group => some group
  | _ => none

def Stage.blocked : Stage → Bool
  | .idle => false
  | .forked _ _ _ => false
  | .between _ => false
  | _ => true

structure Phase where
  stage : Stage
  /-- The foreground children forked since the last background child. -/
  waitable : List Int

def Phase.initial : Phase := ⟨.idle, []⟩

def launchAllowed (φ : Phase) : Call → Prop
  | .fork child => match φ.stage with
    | .idle => child.background = true → child.group = none
    | .between group => child.background = true ∧ child.group = some group
    | _ => False
  | .sigBlock => φ.stage = .idle ∨ ∃ pid group more, φ.stage = .forked pid group more
  | .sigSetmask oldset =>
      oldset = false ∧ (φ.stage = .masked ∨ ∃ group more, φ.stage = .counted group more)
  | .storePid pid => ∃ group more, φ.stage = .guarded pid group more
  | .storePgid group => ∃ pid more, φ.stage = .pidStored pid group more
  | .incIdx => ∃ pid group more, φ.stage = .stored pid group more
  | .waitpid pid => φ.stage = .idle ∧ pid ∈ φ.waitable
  | .fgets => φ.stage = .idle
  | _ => True

def launchAnswer (φ : Phase) : (c : Call) → c.Ret → Prop
  | .fork _, r => r = -1 ∨ 0 < r
  | .sigBlock, r => r = (0, φ.stage.blocked)
  | .sigSetmask _, r => r = 0
  | _, _ => True

def Stage.block : Stage → Stage
  | .forked pid group more => .guarded pid group more
  | _ => .masked

def Stage.unblock : Stage → Stage
  | .counted group true => .between group
  | _ => .idle

def Stage.storePid : Stage → Stage
  | .guarded pid group more => .pidStored pid group more
  | stage => stage

def Stage.storePgid : Stage → Stage
  | .pidStored pid group more => .stored pid group more
  | stage => stage

def Stage.count : Stage → Stage
  | .stored _ group more => .counted group more
  | stage => stage

/-- The phase after a fork. -/
def Phase.fork (φ : Phase) (child : Child) (r : Int) : Phase :=
  if r < 0 then ⟨.idle, φ.waitable⟩
  else if child.background then ⟨.forked r (child.group.getD r) (!child.last), []⟩
  else ⟨φ.stage, r :: φ.waitable⟩

def launchNext (φ : Phase) : (c : Call) → c.Ret → Phase
  | .fork child, r => φ.fork child r
  | .sigBlock, _ => { φ with stage := φ.stage.block }
  | .sigSetmask _, _ => { φ with stage := φ.stage.unblock }
  | .storePid _, _ => { φ with stage := φ.stage.storePid }
  | .storePgid _, _ => { φ with stage := φ.stage.storePgid }
  | .incIdx, _ => { φ with stage := φ.stage.count }
  | _, _ => φ

def launching : Discipline Call.Ret Phase := ⟨launchAllowed, launchAnswer, launchNext⟩

variable {α β : Type} {φ : Phase} {Q : α → Phase → Prop} {R : β → Phase → Prop} {x : ShellM α}
  {f : α → ShellM β} {pl : Pipeline} {isBackground : Bool} {pid pgid : Int} {pids w : List Int}
  {n i pcount : Nat} {tokens : List Token} {more : Bool}

theorem launching_apart : Apart launching where
  pipe := fun _ => ⟨trivial, fun _ => rfl⟩
  close := fun _ _ => ⟨trivial, fun _ => rfl⟩
  errorPrint := fun _ _ _ => ⟨trivial, fun _ => rfl⟩
  perror := fun _ _ => ⟨trivial, fun _ => rfl⟩
  printf := fun _ _ => ⟨trivial, fun _ => rfl⟩
  getenvHome := fun _ => ⟨trivial, fun _ => rfl⟩
  chdir := fun _ _ => ⟨trivial, fun _ => rfl⟩
  checkBgStatus := fun _ => ⟨trivial, fun _ => rfl⟩
  exit := fun _ _ => trivial

/-! ## A child -/

/-- A background child is put into the table. -/
theorem register_obeys : Obeys launching (fun _ φ' => φ' = ⟨.counted pgid more, w⟩)
    (register pid pgid) ⟨.guarded pid pgid more, w⟩ := by
  refine Obeys.perform ⟨pgid, more, rfl⟩ fun _ _ => ?_
  refine Obeys.perform ⟨pid, more, rfl⟩ fun _ _ => ?_
  exact Obeys.call ⟨pid, pgid, more, rfl⟩ fun _ _ => rfl

/-- The calls around the registration of a child, when nothing fails. -/
theorem registered_obeys {k : ShellM β} (hk : Obeys launching R k
      ⟨if more then .between pgid else .idle, w⟩) :
    Obeys launching R (do
      let (_, oldset) ← sigBlock
      register pid pgid
      let _ ← sigSetmask oldset
      k) ⟨.forked pid pgid more, w⟩ := by
  refine Obeys.perform (Or.inr ⟨pid, pgid, more, rfl⟩) fun r hr => ?_
  obtain rfl : r = (0, false) := hr
  refine Obeys.bind register_obeys ?_
  rintro _ _ rfl
  refine Obeys.perform ⟨rfl, Or.inr ⟨pgid, more, rfl⟩⟩ fun _ _ => ?_
  cases more with
  | true => exact hk
  | false => exact hk

/-- The rest of a command after a background child, or after a foreground one. -/
def Ready (isBackground : Bool) (pgid : Int) (more : Bool) (φ : Phase) : Prop :=
  φ.stage = if isBackground ∧ more then .between pgid else .idle

theorem afterFork_obeys (hφ : φ.stage = if isBackground then .forked pid pgid more else .idle) :
    Obeys launching (fun goOn φ' => goOn = true ∧ Ready isBackground pgid more φ' ∧
      φ'.waitable = φ.waitable) (afterFork pl isBackground pid pgid) φ := by
  obtain ⟨stage, w⟩ := φ
  cases isBackground with
  | true =>
    obtain rfl : stage = .forked pid pgid more := hφ
    unfold afterFork
    refine Obeys.perform (Or.inr ⟨pid, pgid, more, rfl⟩) fun r hr => ?_
    obtain rfl : r = (0, false) := hr
    refine Obeys.ite_neg (by decide) ?_
    refine Obeys.ite_pos rfl ?_
    refine Obeys.bind register_obeys ?_
    rintro _ _ rfl
    refine Obeys.perform ⟨rfl, Or.inr ⟨pgid, more, rfl⟩⟩ fun r hr => ?_
    obtain rfl : r = (0 : Int) := hr
    refine Obeys.ite_neg (by decide) (Obeys.ret ?_)
    cases more with
    | true => exact ⟨rfl, rfl, rfl⟩
    | false => exact ⟨rfl, rfl, rfl⟩
  | false =>
    obtain rfl : stage = .idle := hφ
    unfold afterFork
    refine Obeys.perform (Or.inl rfl) fun r hr => ?_
    obtain rfl : r = (0, false) := hr
    refine Obeys.ite_neg (by decide) ?_
    refine Obeys.ite_neg (by decide) ?_
    refine Obeys.perform ⟨rfl, Or.inl rfl⟩ fun r hr => ?_
    obtain rfl : r = (0 : Int) := hr
    refine Obeys.ite_neg (by decide) (Obeys.ret ?_)
    exact ⟨rfl, rfl, rfl⟩

/-- A fork that is allowed: it fails, or gives the pid of the child. -/
theorem fork_obeys {child : Child} {k : Int → ShellM β} (hallowed : launchAllowed φ (.fork child))
    (hfail : Obeys launching R (k (-1)) ⟨.idle, φ.waitable⟩)
    (hpid : ∀ pid, 0 < pid → Obeys launching R (k pid) (φ.fork child pid)) :
    Obeys launching R (fork child >>= k) φ := by
  refine Obeys.perform hallowed fun r hr => ?_
  rcases hr with hr | hr
  · obtain rfl : r = (-1 : Int) := hr
    exact hfail
  · exact hpid r hr

theorem Phase.fork_pos {child : Child} (hpid : 0 < pid) : φ.fork child pid =
    if child.background then ⟨.forked pid (child.group.getD pid) (!child.last), []⟩
    else ⟨φ.stage, pid :: φ.waitable⟩ :=
  if_neg (by omega)

theorem Phase.fork_stage (φ : Phase) (child : Child) {isBackground more : Bool} {pgid pid : Int}
    (hpid : 0 < pid) (hback : child.background = isBackground) (hlast : (!child.last) = more)
    (hgroup : child.group.getD pid = pgid) (hidle : isBackground = false → φ.stage = .idle) :
    (φ.fork child pid).stage = if isBackground then .forked pid pgid more else .idle := by
  rw [Phase.fork_pos hpid, hback, hlast, hgroup]
  cases isBackground with
  | true => rfl
  | false => exact hidle rfl

theorem Phase.fork_waitable {child : Child} {pid : Int} (hpid : 0 < pid)
    (hback : child.background = false) : (φ.fork child pid).waitable = pid :: φ.waitable := by
  rw [Phase.fork_pos hpid, hback]
  rfl

theorem Ready.idle (h : Ready isBackground pgid more φ) (hfore : isBackground = false) :
    φ.stage = .idle := by
  subst hfore
  exact h

/-- Another child of the command. -/
theorem Ready.allowed {child : Child} (h : Ready isBackground pgid true φ)
    (hback : child.background = isBackground) (hgroup : child.group = some pgid) :
    launchAllowed φ (.fork child) := by
  obtain ⟨stage, w⟩ := φ
  cases isBackground with
  | true =>
    obtain rfl : stage = .between pgid := h
    exact ⟨hback, hgroup⟩
  | false =>
    obtain rfl : stage = .idle := h
    exact fun htrue => absurd (hback.symm.trans htrue) (by decide)

/-- The parent can wait for the first child of a foreground command. -/
def Waits (isBackground : Bool) (pgid : Int) (φ : Phase) : Prop :=
  isBackground = false → pgid ∈ φ.waitable

theorem Waits.fork {child : Child} (h : Waits isBackground pgid φ) (hpid : 0 < pid)
    (hback : child.background = isBackground) : Waits isBackground pgid (φ.fork child pid) := by
  rintro rfl
  rw [Phase.fork_waitable hpid hback]
  exact List.mem_cons_of_mem _ (h rfl)

theorem middleLoop_obeys (h : Ready isBackground pgid true φ) (hw : Waits isBackground pgid φ)
    (hpids : ∀ p ∈ pids, p = pgid) :
    Obeys launching (fun r φ' => match r with
        | some pids' => Ready isBackground pgid true φ' ∧ Waits isBackground pgid φ' ∧
            ∀ p ∈ pids', p = pgid
        | none => φ'.stage = .idle)
      (middleLoop pl isBackground pgid n i pids) φ := by
  induction n generalizing φ i pids with
  | zero => exact Obeys.ret ⟨h, hw, hpids⟩
  | succ n ih =>
    refine fork_obeys (h.allowed rfl rfl) ?_ fun pid hpid => ?_
    · exact Obeys.ite_pos (by decide) (errorPrint_obeys launching_apart (Obeys.ret rfl))
    · refine parent_obeys hpid ?_
      have hstage := Phase.fork_stage φ ⟨isBackground, some pgid, false⟩ hpid rfl rfl rfl h.idle
      refine Obeys.bind (afterFork_obeys hstage) ?_
      rintro goOn φ' ⟨rfl, hready, hwait⟩
      refine Obeys.ite_neg (fun hnot => absurd rfl hnot) ?_
      refine ih hready ?_ ?_
      · intro hfore
        rw [hwait]
        exact hw.fork hpid rfl hfore
      · exact all_pgid hpids

theorem waitLoop_obeys (hstage : φ.stage = .idle) (hpids : ∀ p ∈ pids, p ∈ φ.waitable) :
    Obeys launching (fun _ φ' => φ'.stage = .idle) (waitLoop pids) φ := by
  induction pids with
  | nil => exact Obeys.ret hstage
  | cons pid pids ih =>
    have hrest := ih fun p hp => hpids p (List.mem_cons_of_mem _ hp)
    refine Obeys.perform ⟨hstage, hpids pid List.mem_cons_self⟩ fun r _ => ?_
    refine Obeys.ite (fun _ => ?_) fun _ => hrest
    exact Obeys.ite (fun _ => errorPrint_obeys launching_apart (Obeys.ret hstage)) fun _ => hrest

theorem lastFork_obeys (h : Ready isBackground pgid true φ) (hw : Waits isBackground pgid φ)
    (hpids : ∀ p ∈ pids, p = pgid) :
    Obeys launching (fun _ φ' => φ'.stage = .idle)
      (lastFork pl isBackground pcount pgid pids) φ := by
  refine fork_obeys (h.allowed rfl rfl) ?_ fun pid hpid => ?_
  · exact Obeys.ite_pos (by decide) (errorPrint_obeys launching_apart (Obeys.ret rfl))
  · refine parent_obeys hpid ?_
    have hstage := Phase.fork_stage φ ⟨isBackground, some pgid, true⟩ hpid rfl rfl rfl h.idle
    refine Obeys.bind (afterFork_obeys hstage) ?_
    rintro goOn φ' ⟨rfl, hready, hwait⟩
    have hidle : φ'.stage = .idle := by
      rw [hready, if_neg (by simp)]
    refine Obeys.ite_neg (fun hnot => absurd rfl hnot) ?_
    refine Obeys.bind (closeAllPipes_obeys launching_apart) ?_
    rintro _ φ' rfl
    refine Obeys.ite (fun _ => Obeys.ret hidle) fun hfore => ?_
    have hmem : ∀ p ∈ pids ++ [pgid], p ∈ φ'.waitable := by
      intro p hp
      rw [all_pgid hpids p hp, hwait]
      exact hw.fork hpid rfl (by simpa using hfore)
    refine Obeys.bind (waitLoop_obeys hidle hmem) fun _ φ'' hφ'' => ?_
    exact Obeys.ite (fun _ => Obeys.ret hφ'') fun _ => Obeys.ret hφ''

theorem otherChildren_obeys (h : Ready isBackground pgid true φ) (hw : Waits isBackground pgid φ) :
    Obeys launching (fun _ φ' => φ'.stage = .idle)
      (otherChildren pl isBackground pcount pgid) φ := by
  refine Obeys.bind (middleLoop_obeys h hw fun p hp => List.mem_singleton.mp hp) fun r φ' hr => ?_
  cases r with
  | none => exact Obeys.ret hr
  | some pids => exact lastFork_obeys hr.1 hr.2.1 hr.2.2

theorem iterPipeForkExec_obeys (hidle : φ.stage = .idle) :
    Obeys launching (fun _ φ' => φ'.stage = .idle)
      (iterPipeForkExec pcount tokens isBackground) φ := by
  refine Obeys.bind (pipeLoop_obeys launching_apart) ?_
  rintro r φ rfl
  cases r with
  | none => exact Obeys.ret hidle
  | some pipeFds =>
    have hallowed : launchAllowed φ (.fork ⟨isBackground, none, false⟩) := by
      unfold launchAllowed
      rw [hidle]
      exact fun _ => rfl
    refine fork_obeys hallowed ?_ fun pgid hpgid => ?_
    · exact Obeys.ite_pos (by decide) (errorPrint_obeys launching_apart (Obeys.ret rfl))
    · refine parent_obeys hpgid ?_
      cases isBackground with
      | true =>
        have hfork : φ.fork ⟨true, none, false⟩ pgid = ⟨.forked pgid pgid true, []⟩ :=
          Phase.fork_pos hpgid
        rw [hfork]
        refine Obeys.ite_pos rfl ?_
        exact registered_obeys (otherChildren_obeys rfl fun hfore => absurd hfore (by decide))
      | false =>
        refine Obeys.ite_neg (by decide) ?_
        have hstage := Phase.fork_stage φ ⟨false, none, false⟩ hpgid rfl rfl rfl
          fun _ => hidle
        refine otherChildren_obeys hstage fun _ => ?_
        rw [Phase.fork_waitable hpgid rfl]
        exact List.mem_cons_self

theorem forkExec_obeys (hidle : φ.stage = .idle) :
    Obeys launching (fun _ φ' => φ'.stage = .idle) (forkExec tokens isBackground) φ := by
  have hallowed : launchAllowed φ (.fork ⟨isBackground, none, true⟩) := by
    unfold launchAllowed
    rw [hidle]
    exact fun _ => rfl
  refine fork_obeys hallowed ?_ fun pid hpid => ?_
  · exact Obeys.ite_pos (by decide) (errorPrint_obeys launching_apart (Obeys.ret rfl))
  · refine parent_obeys hpid ?_
    cases isBackground with
    | true =>
      have hfork : φ.fork ⟨true, none, true⟩ pid = ⟨.forked pid pid false, []⟩ :=
        Phase.fork_pos hpid
      rw [hfork]
      refine Obeys.ite_pos rfl ?_
      exact registered_obeys (Obeys.ret rfl)
    | false =>
      refine Obeys.ite_neg (by decide) ?_
      have hfork := Phase.fork_stage φ ⟨false, none, true⟩ hpid rfl rfl rfl fun _ => hidle
      have hstage : (φ.fork ⟨false, none, true⟩ pid).stage = .idle := hfork
      refine Obeys.perform ⟨hstage, ?_⟩ fun r _ => ?_
      · rw [Phase.fork_waitable hpid rfl]
        exact List.mem_cons_self
      · exact Obeys.ite (fun _ => errorPrint_obeys launching_apart (Obeys.ret hstage))
          fun _ => Obeys.ret hstage

/-! ## The main thread -/

theorem executeExternal_obeys (hidle : φ.stage = .idle) :
    Obeys launching (fun _ φ' => φ'.stage = .idle) (executeExternal tokens) φ := by
  have hrun : Obeys launching (fun _ φ' => φ'.stage = .idle) (do
      let retPgid ← if 0 < countPipe tokens then
          iterPipeForkExec (countPipe tokens) tokens (checkBg tokens)
        else forkExec tokens (checkBg tokens)
      if 0 < retPgid then
        if checkBg tokens then
          printf ("[" ++ toString retPgid ++ "] Background process group running\n")
      else printf "Invalid return value of external command execution\n") φ := by
    refine Obeys.ite (fun _ => ?_) fun _ => ?_
    · exact Obeys.bind (iterPipeForkExec_obeys hidle) fun retPgid φ' h =>
        (afterLaunch_apart launching_apart).mono fun _ _ heq => heq ▸ h
    · exact Obeys.bind (forkExec_obeys hidle) fun retPgid φ' h =>
        (afterLaunch_apart launching_apart).mono fun _ _ heq => heq ▸ h
  unfold executeExternal
  refine Obeys.ite (fun _ => ?_) fun _ => hrun
  refine Obeys.quiet (c := Call.bgArrayIdx) (fun _ => ⟨trivial, fun _ => rfl⟩) fun r => ?_
  exact Obeys.ite (fun _ => printf_obeys launching_apart (Obeys.ret hidle)) fun _ => hrun

variable {lexLine : Str → LexResult × List Token}

/-- The main thread launches commands as the discipline says. -/
theorem mainLoop_obeys (hidle : φ.stage = .idle) :
    Obeys launching (fun _ φ' => φ'.stage = .idle) (mainLoop lexLine n) φ :=
  mainLoop_apart (K := fun φ => φ.stage = .idle) launching_apart
    (fun φ hφ => ⟨show φ.stage = .idle from hφ, fun _ => rfl⟩)
    (fun _ _ hφ => executeExternal_obeys hφ) hidle

end SnuSysProg.Shell
