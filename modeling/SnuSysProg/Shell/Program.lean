import SnuSysProg.Lib.Program
import SnuSysProg.Shell.Tokens

/-
  The shell: `execute.c` and the main thread of `snush.c`, as programs that make system calls.

  `fork` answers 0 in the child and the pid in the parent, as in the source, so a program is what
  the parent does together with what the children do. The statements on `bg_array` and
  `bg_array_idx` are calls too: `sigzombie_handler` shares them. An `exit` has no answer.

  `args`, `pipe_fds`, `pipe_index` and `pids` are lists. The arrays of the source have 1024
  elements, which is enough for every line (`arrays_fit`).
-/

namespace SnuSysProg.Shell
open SnuSysProg.Lib

/-- What a child is, by the variables of the parent that it gets a copy of. The kernel does not
    look at it. -/
structure Child where
  /-- `is_background`. -/
  background : Bool
  /-- The group it belongs to, if it is not the first of its group. -/
  group : Option Int
  /-- No child of the command is forked after it. -/
  last : Bool
  deriving DecidableEq

inductive Errno where
  | echild
  | eintr
  | other
  deriving DecidableEq

inductive PrintMode where
  | perror
  | fprintf
  deriving DecidableEq

/-- What `error_print` puts in front of the message. -/
inductive Subject where
  | null
  | text (s : String)
  | word (w : Option Str)
  deriving DecidableEq

inductive Call where
  | pipe
  | fork (child : Child)
  /-- `sigprocmask(SIG_BLOCK, &blockset, &oldset)`. -/
  | sigBlock
  /-- `sigprocmask(SIG_SETMASK, &oldset, NULL)`. -/
  | sigSetmask (oldset : Bool)
  /-- `signal(SIGINT, SIG_DFL)`. -/
  | signalDefault
  | openRead (fname : Str)
  | openWrite (fname : Str)
  | dup2 (fd fd' : Int)
  | close (fd : Int)
  | execvp (args : List Str)
  | exit (status : Int)
  | waitpid (pid : Int)
  | bgArrayIdx
  /-- `bg_array[bg_array_idx].pid = pid`. -/
  | storePid (pid : Int)
  /-- `bg_array[bg_array_idx].pgid = pgid`. -/
  | storePgid (pgid : Int)
  /-- `bg_array_idx++`. -/
  | incIdx
  | errorPrint (input : Subject) (mode : PrintMode)
  | perror (s : String)
  | printf (s : String)
  | getenvHome
  | chdir (dir : Str)
  /-- `check_bg_status`: what is in the pipe of the handler is copied to the terminal. -/
  | checkBgStatus
  | fgets

/-- The answers. A mask says whether SIGCHLD is blocked. -/
abbrev Call.Ret : Call → Type
  | .pipe => Option (Int × Int)
  | .fork _ => Int
  | .sigBlock => Int × Bool
  | .sigSetmask _ => Int
  | .signalDefault => Unit
  | .openRead _ => Int
  | .openWrite _ => Int
  | .dup2 _ _ => Int
  | .close _ => Int
  | .execvp _ => Int
  | .exit _ => Empty
  | .waitpid _ => Int × Errno
  | .bgArrayIdx => Int
  | .storePid _ => Unit
  | .storePgid _ => Unit
  | .incIdx => Unit
  | .errorPrint _ _ => Unit
  | .perror _ => Unit
  | .printf _ => Unit
  | .getenvHome => Option Str
  | .chdir _ => Int
  | .checkBgStatus => Unit
  | .fgets => Option Str

abbrev ShellM := Prog Call.Ret

/-- One call. -/
abbrev sys (c : Call) : ShellM c.Ret := perform c

def pipe : ShellM (Option (Int × Int)) := sys .pipe

def fork (child : Child) : ShellM Int := sys (.fork child)

def sigBlock : ShellM (Int × Bool) := sys .sigBlock

def sigSetmask (oldset : Bool) : ShellM Int := sys (.sigSetmask oldset)

def openRead (fname : Str) : ShellM Int := sys (.openRead fname)

def openWrite (fname : Str) : ShellM Int := sys (.openWrite fname)

def dup2 (fd fd' : Int) : ShellM Int := sys (.dup2 fd fd')

def close (fd : Int) : ShellM Int := sys (.close fd)

def execvp (args : List Str) : ShellM Int := sys (.execvp args)

def waitpid (pid : Int) : ShellM (Int × Errno) := sys (.waitpid pid)

def errorPrint (input : Subject) (mode : PrintMode) : ShellM Unit := sys (.errorPrint input mode)

def perror (s : String) : ShellM Unit := sys (.perror s)

def printf (s : String) : ShellM Unit := sys (.printf s)

def exitSuccess : Int := 0

def exitFailure : Int := 1

def exit (status : Int) : ShellM Unit := .call (.exit status) Empty.elim

/-! ## Redirections and arguments -/

def stdinFileno : Int := 0

def stdoutFileno : Int := 1

/-- What `redin_handler` and `redout_handler` do with the descriptor that `open` gave them. -/
def redirect (fd target : Int) : ShellM Unit := do
  if fd < 0 then
    errorPrint .null .perror
    exit exitFailure
  if (← dup2 fd target) < 0 then
    errorPrint .null .perror
    let _ ← close fd
    exit exitFailure
  if (← close fd) < 0 then
    errorPrint .null .perror
    exit exitFailure

def redoutHandler (fname : Str) : ShellM Unit := do
  redirect (← openWrite fname) stdoutFileno

def redinHandler (fname : Str) : ShellM Unit := do
  redirect (← openRead fname) stdinFileno

/-- The loop of `build_command_partial` over the tokens of its range. -/
def buildLoop (redin redout : Bool) (args : List Str) : List Token → ShellM (List Str)
  | [] => pure args
  | .word value :: rest =>
    if redin then do
      redinHandler value
      buildLoop false redout args rest
    else if redout then do
      redoutHandler value
      buildLoop redin false args rest
    else buildLoop redin redout (args ++ [value]) rest
  | .redin :: rest => buildLoop true redout args rest
  | .redout :: rest => buildLoop redin true args rest
  | .pipe :: rest => buildLoop redin redout args rest
  | .bg :: rest => buildLoop redin redout args rest

/-- `build_command_partial`: the arguments, without the NULL after them. -/
def buildCommandPartial (tokens : List Token) (start stop : Nat) : ShellM (List Str) :=
  buildLoop false false [] (slice tokens start stop)

def buildCommand (tokens : List Token) : ShellM (List Str) :=
  buildCommandPartial tokens 0 tokens.length

/-! ## One command -/

/-- `bg_array[bg_array_idx].pid = pid`, `.pgid = pgid`, and `bg_array_idx++`. -/
def register (pid pgid : Int) : ShellM Unit := do
  sys (.storePid pid)
  sys (.storePgid pgid)
  sys .incIdx

def forkExec (tokens : List Token) (isBackground : Bool) : ShellM Int := do
  let pid ← fork { background := isBackground, group := none, last := true }
  if pid < 0 then
    errorPrint (.text "Fork failed") .perror
    return -1
  if pid = 0 then
    if ¬ isBackground then sys .signalDefault
    let args ← buildCommand tokens
    if (← execvp args) < 0 then
      errorPrint (.word args.head?) .perror
      exit exitFailure
  else
    if isBackground then
      let (_, oldset) ← sigBlock
      register pid pid
      let _ ← sigSetmask oldset
    else
      let (ret, _) ← waitpid pid
      if ret < 0 then
        errorPrint (.text "Waitpid failed") .perror
        return -1
  return pid

/-! ## A pipeline -/

def closeAllPipes : List (Int × Int) → ShellM Unit
  | [] => pure ()
  | (readEnd, writeEnd) :: rest => do
    if (← close readEnd) < 0 then perror "close failed"
    if (← close writeEnd) < 0 then perror "close failed"
    closeAllPipes rest

/-- The loop that makes the pipes. -/
def pipeLoop : Nat → List (Int × Int) → ShellM (Option (List (Int × Int)))
  | 0, pipeFds => pure (some pipeFds)
  | n + 1, pipeFds => do
    match ← pipe with
    | some fds => pipeLoop n (pipeFds ++ [fds])
    | none =>
      closeAllPipes pipeFds
      errorPrint (.text "Pipe failed") .perror
      return none

/-- `dup2` in a child, which gives up when it fails. -/
def dupOrExit (fd fd' : Int) (pipeFds : List (Int × Int)) : ShellM Unit := do
  if (← dup2 fd fd') < 0 then
    perror "dup2 failed"
    closeAllPipes pipeFds
    exit exitFailure

/-- The arrays of the pipeline. -/
structure Pipeline where
  tokens : List Token
  pipeFds : List (Int × Int)
  pipeIndex : List Nat

def Pipeline.readEnd (pl : Pipeline) (i : Nat) : Int := (pl.pipeFds.getD i (-1, -1)).1

def Pipeline.writeEnd (pl : Pipeline) (i : Nat) : Int := (pl.pipeFds.getD i (-1, -1)).2

def Pipeline.index (pl : Pipeline) (i : Nat) : Nat := pl.pipeIndex.getD i 0

/-- The branch of the first child. -/
def firstChild (pl : Pipeline) (isBackground : Bool) : ShellM Unit := do
  if ¬ isBackground then sys .signalDefault
  let args ← buildCommandPartial pl.tokens 0 (pl.index 0)
  dupOrExit (pl.writeEnd 0) stdoutFileno pl.pipeFds
  closeAllPipes pl.pipeFds
  if (← execvp args) < 0 then
    errorPrint (.word args.head?) .perror
    closeAllPipes pl.pipeFds
    exit exitFailure

/-- The branch of the child `i` between the first and the last. -/
def middleChild (pl : Pipeline) (isBackground : Bool) (i : Nat) : ShellM Unit := do
  if ¬ isBackground then sys .signalDefault
  let args ← buildCommandPartial pl.tokens (pl.index (i - 1) + 1) (pl.index i)
  dupOrExit (pl.readEnd (i - 1)) stdinFileno pl.pipeFds
  dupOrExit (pl.writeEnd i) stdoutFileno pl.pipeFds
  closeAllPipes pl.pipeFds
  if (← execvp args) < 0 then
    errorPrint (.word args.head?) .perror
    exit exitFailure

/-- The branch of the last child; its range starts at the last pipe. -/
def lastChild (pl : Pipeline) (isBackground : Bool) (pcount : Nat) : ShellM Unit := do
  if ¬ isBackground then sys .signalDefault
  let args ← buildCommandPartial pl.tokens (pl.index (pcount - 1)) pl.tokens.length
  dupOrExit (pl.readEnd (pcount - 1)) stdinFileno pl.pipeFds
  closeAllPipes pl.pipeFds
  if (← execvp args) < 0 then
    errorPrint (.word args.head?) .perror
    exit exitFailure

/-- What the parent does after it forked a child other than the first: whether it goes on. -/
def afterFork (pl : Pipeline) (isBackground : Bool) (pid pgid : Int) : ShellM Bool := do
  let (ret, oldset) ← sigBlock
  if ret < 0 then
    closeAllPipes pl.pipeFds
    errorPrint (.text "Failed to block signals") .perror
    return false
  if isBackground then register pid pgid
  if (← sigSetmask oldset) < 0 then
    closeAllPipes pl.pipeFds
    errorPrint (.text "Failed to restore signal mask") .perror
    return false
  return true

/-- The loop that forks the children between the first and the last, from child `i`, with `n` of
    them to go. It returns `pids`. -/
def middleLoop (pl : Pipeline) (isBackground : Bool) (pgid : Int) :
    Nat → Nat → List Int → ShellM (Option (List Int))
  | 0, _, pids => pure (some pids)
  | n + 1, i, pids => do
    let pid ← fork { background := isBackground, group := some pgid, last := false }
    if pid < 0 then
      errorPrint (.text "Fork failed") .perror
      return none
    if pid = 0 then middleChild pl isBackground i
    else if ¬ (← afterFork pl isBackground pid pgid) then return none
    -- every child is recorded under the pid of the first one
    middleLoop pl isBackground pgid n (i + 1) (pids ++ [pgid])

/-- The loop that waits for the children: whether no call failed for good. -/
def waitLoop : List Int → ShellM Bool
  | [] => pure true
  | pid :: pids => do
    let (ret, errno) ← waitpid pid
    if ret < 0 then
      if ret = -1 ∧ errno ≠ .echild ∧ errno ≠ .eintr then
        errorPrint (.text "Waitpid failed") .perror
        return false
    waitLoop pids

def iterPipeForkExec (pcount : Nat) (tokens : List Token) (isBackground : Bool) : ShellM Int := do
  let some pipeFds ← pipeLoop pcount [] | return -1
  let pl : Pipeline := ⟨tokens, pipeFds, pipeIndices tokens⟩
  let pgid ← fork { background := isBackground, group := none, last := false }
  if pgid < 0 then
    errorPrint (.text "Fork failed") .perror
    return -1
  if pgid = 0 then firstChild pl isBackground
  else if isBackground then
    let (_, oldset) ← sigBlock
    register pgid pgid
    let _ ← sigSetmask oldset
  let some pids ← middleLoop pl isBackground pgid (pcount - 1) 1 [pgid] | return -1
  let pid ← fork { background := isBackground, group := some pgid, last := true }
  if pid < 0 then
    errorPrint (.text "Fork failed") .perror
    return -1
  if pid = 0 then lastChild pl isBackground pcount
  else if ¬ (← afterFork pl isBackground pid pgid) then return -1
  closeAllPipes pipeFds
  if isBackground then return pgid
  if ¬ (← waitLoop (pids ++ [pgid])) then return -1
  return pgid

/-- The end of `iter_pipe_fork_exec`, from the fork of the last child. -/
def lastFork (pl : Pipeline) (isBackground : Bool) (pcount : Nat) (pgid : Int)
    (pids : List Int) : ShellM Int := do
  let pid ← fork { background := isBackground, group := some pgid, last := true }
  if pid < 0 then
    errorPrint (.text "Fork failed") .perror
    return -1
  if pid = 0 then lastChild pl isBackground pcount
  else if ¬ (← afterFork pl isBackground pid pgid) then return -1
  closeAllPipes pl.pipeFds
  if isBackground then return pgid
  if ¬ (← waitLoop (pids ++ [pgid])) then return -1
  return pgid

/-- `iter_pipe_fork_exec` from the moment when its first child is forked and registered. -/
def otherChildren (pl : Pipeline) (isBackground : Bool) (pcount : Nat) (pgid : Int) :
    ShellM Int := do
  let some pids ← middleLoop pl isBackground pgid (pcount - 1) 1 [pgid] | return -1
  lastFork pl isBackground pcount pgid pids

end SnuSysProg.Shell
