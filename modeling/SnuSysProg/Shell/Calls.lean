import SnuSysProg.Lib.Discipline
import SnuSysProg.Shell.Main

/-
  The parts of the program that have nothing to do with children, under a discipline that is about
  children only (`Apart`).
-/

namespace SnuSysProg.Shell
open SnuSysProg.Lib

/-- The calls that a discipline about children leaves alone. -/
structure Apart {Φ : Type} (D : Discipline Call.Ret Φ) : Prop where
  pipe : D.Quiet .pipe
  close : ∀ fd, D.Quiet (.close fd)
  errorPrint : ∀ input mode, D.Quiet (.errorPrint input mode)
  perror : ∀ s, D.Quiet (.perror s)
  printf : ∀ s, D.Quiet (.printf s)
  getenvHome : D.Quiet .getenvHome
  chdir : ∀ dir, D.Quiet (.chdir dir)
  checkBgStatus : D.Quiet .checkBgStatus
  exit : ∀ φ status, D.allowed φ (.exit status)

variable {α Φ : Type} {D : Discipline Call.Ret Φ} {φ : Φ} {Q : α → Φ → Prop} {n : Nat}
  {pipeFds : List (Int × Int)}

theorem exit_obeys (h : Apart D) {status : Int} {Q : Unit → Φ → Prop} :
    Obeys D Q (exit status) φ :=
  ⟨h.exit φ status, fun r => r.elim⟩

theorem errorPrint_obeys (h : Apart D) {input : Subject} {mode : PrintMode} {k : Unit → ShellM α}
    (hk : Obeys D Q (k ()) φ) : Obeys D Q (errorPrint input mode >>= k) φ :=
  Obeys.quiet (h.errorPrint input mode) fun _ => hk

theorem printf_obeys (h : Apart D) {s : String} {k : Unit → ShellM α} (hk : Obeys D Q (k ()) φ) :
    Obeys D Q (printf s >>= k) φ :=
  Obeys.quiet (h.printf s) fun _ => hk

theorem perror_obeys (h : Apart D) {s : String} {k : Unit → ShellM α} (hk : Obeys D Q (k ()) φ) :
    Obeys D Q (perror s >>= k) φ :=
  Obeys.quiet (h.perror s) fun _ => hk

/-- `p_pids` holds the process group over and over. -/
theorem all_pgid {pids : List Int} {pgid : Int} (h : ∀ p ∈ pids, p = pgid) :
    ∀ p ∈ pids ++ [pgid], p = pgid :=
  List.forall_mem_append.mpr ⟨h, List.forall_mem_singleton.mpr rfl⟩

/-- What the parent does after a fork. -/
theorem parent_obeys {pid : Int} (hpid : 0 < pid) {failed child parent : ShellM α}
    (h : Obeys D Q parent φ) :
    Obeys D Q (if pid < 0 then failed else if pid = 0 then child else parent) φ :=
  Obeys.ite_neg (Int.lt_asymm hpid) (Obeys.ite_neg (Int.ne_of_gt hpid) h)

theorem closeAllPipes_obeys (h : Apart D) :
    Obeys D (fun _ φ' => φ' = φ) (closeAllPipes pipeFds) φ := by
  induction pipeFds with
  | nil => exact Obeys.ret rfl
  | cons p pipeFds ih =>
    have hsecond : Obeys D (fun _ φ' => φ' = φ) (do
        if (← close p.2) < 0 then perror "close failed"
        closeAllPipes pipeFds) φ :=
      Obeys.quiet (h.close p.2) fun _ => Obeys.ite (fun _ => perror_obeys h ih) fun _ => ih
    exact Obeys.quiet (h.close p.1) fun _ =>
      Obeys.ite (fun _ => perror_obeys h hsecond) fun _ => hsecond

theorem pipeLoop_obeys (h : Apart D) :
    Obeys D (fun _ φ' => φ' = φ) (pipeLoop n pipeFds) φ := by
  induction n generalizing pipeFds with
  | zero => exact Obeys.ret rfl
  | succ n ih =>
    refine Obeys.quiet h.pipe fun r => ?_
    cases r with
    | some fds => exact ih
    | none =>
      refine Obeys.bind (closeAllPipes_obeys h) ?_
      rintro _ φ rfl
      exact errorPrint_obeys h (Obeys.ret rfl)

/-! ## The main thread -/

variable {K : Φ → Prop} {tokens : List Token} {lexLine : Str → LexResult × List Token} {line : Str}

theorem executeBuiltin_apart (h : Apart D) {btype : BuiltinType} :
    Obeys D (fun _ φ' => φ' = φ) (executeBuiltin tokens btype) φ := by
  have hprint : ∀ {input : Subject} {mode : PrintMode},
      Obeys D (fun _ φ' => φ' = φ) (errorPrint input mode) φ := fun {input mode} =>
    (h.errorPrint input mode).obeys
  cases btype with
  | normal => exact errorPrint_obeys h (exit_obeys h)
  | exit => exact Obeys.ite (fun _ => exit_obeys h) fun _ => hprint
  | cd =>
    have hdir : ∀ dir : Option Str, Obeys D (fun _ φ' => φ' = φ) (match dir with
        | none =>
          if tokens.length = 1 then errorPrint (.text "cd: HOME variable not set") .fprintf
          else errorPrint (.text "cd takes one parameter") .fprintf
        | some dir => do if (← sys (.chdir dir)) < 0 then errorPrint .null .perror) φ := by
      intro dir
      cases dir with
      | none => exact Obeys.ite (fun _ => hprint) fun _ => hprint
      | some dir =>
        refine Obeys.quiet (h.chdir dir) fun r => ?_
        exact Obeys.ite (fun _ => hprint) fun _ => Obeys.ret rfl
    refine Obeys.ite (fun _ => ?_) fun _ => hdir _
    exact Obeys.quiet h.getenvHome fun dir => hdir dir

/-- What is printed after a command that is not built in. -/
theorem afterLaunch_apart (h : Apart D) {retPgid : Int} : Obeys D (fun _ φ' => φ' = φ) (do
    if 0 < retPgid then
      if checkBg tokens then
        printf ("[" ++ toString retPgid ++ "] Background process group running\n")
    else printf "Invalid return value of external command execution\n") φ :=
  Obeys.ite (fun _ => Obeys.ite (fun _ => (h.printf _).obeys) fun _ => Obeys.ret rfl) fun _ =>
    (h.printf _).obeys

/-- A line ends as the commands that are not built in do, or as it began. -/
theorem shellHelper_ends (h : Apart D)
    (hexternal : ∀ tokens, Obeys D (fun _ φ' => K φ') (executeExternal tokens) φ) (hK : K φ) :
    Obeys D (fun _ φ' => K φ') (shellHelper lexLine line) φ := by
  have hprint : ∀ {input : Subject} {mode : PrintMode},
      Obeys D (fun _ φ' => K φ') (errorPrint input mode) φ := fun {input mode} =>
    (h.errorPrint input mode).obeys.mono fun _ _ heq => heq ▸ hK
  have hbuiltin : ∀ tokens btype, Obeys D (fun _ φ' => K φ') (executeBuiltin tokens btype) φ :=
    fun _ _ => (executeBuiltin_apart h).mono fun _ _ heq => heq ▸ hK
  unfold shellHelper
  rcases lexLine line with ⟨result, tokens⟩
  cases result with
  | success =>
    refine Obeys.ite (fun _ => Obeys.ret hK) fun _ => ?_
    cases syntaxMessage (syntaxCheck tokens) with
    | some message => exact hprint
    | none =>
      cases checkBuiltin tokens.head? with
      | normal => exact hexternal tokens
      | exit => exact hbuiltin tokens .exit
      | cd => exact hbuiltin tokens .cd
  | qerror => exact hprint
  | nomem => exact hprint
  | long => exact hprint

/-- What the commands that are not built in keep, a line keeps. -/
theorem shellHelper_apart (h : Apart D)
    (hexternal : ∀ tokens φ, K φ → Obeys D (fun _ φ' => K φ') (executeExternal tokens) φ)
    (hK : K φ) : Obeys D (fun _ φ' => K φ') (shellHelper lexLine line) φ :=
  shellHelper_ends h (fun tokens => hexternal tokens φ hK) hK

theorem mainLoop_apart (h : Apart D)
    (hfgets : ∀ φ, K φ → D.allowed φ .fgets ∧ ∀ r, D.next φ .fgets r = φ)
    (hexternal : ∀ tokens φ, K φ → Obeys D (fun _ φ' => K φ') (executeExternal tokens) φ)
    (hK : K φ) : Obeys D (fun _ φ' => K φ') (mainLoop lexLine n) φ := by
  induction n generalizing φ with
  | zero => exact Obeys.ret hK
  | succ n ih =>
    refine Obeys.quiet h.checkBgStatus fun _ => ?_
    refine printf_obeys h ?_
    refine Obeys.perform (hfgets φ hK).1 fun line _ => ?_
    rw [(hfgets φ hK).2 line]
    cases line with
    | none => exact printf_obeys h ⟨h.exit φ _, fun r => r.elim⟩
    | some line =>
      exact Obeys.bind (shellHelper_apart h hexternal hK) fun _ _ hK' => ih hK'

end SnuSysProg.Shell
