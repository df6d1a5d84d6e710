import SnuSysProg.Shell.Program

/-
  The main thread of `snush.c`: the built-in commands, one line, and the loop of `main`.

  `lexLine` stands for `lex_line`: what it answers and the tokens it adds. The loop of `main` has
  no end; `mainLoop n` is its first `n` rounds.
-/

namespace SnuSysProg.Shell
open SnuSysProg.Lib

inductive LexResult where
  | success
  | qerror
  | nomem
  | long
  deriving DecidableEq

def maxBgPro : Int := 16

/-- The directory that `cd` names. -/
def dirArgument : List Token → Option Str
  | [_, .word value] => some value
  | _ => none

def executeBuiltin (tokens : List Token) (btype : BuiltinType) : ShellM Unit :=
  match btype with
  | .exit =>
    if tokens.length = 1 then exit exitSuccess
    else errorPrint (.text "exit does not take any parameters") .fprintf
  | .cd => do
    let dir ← if tokens.length = 1 then sys .getenvHome else pure (dirArgument tokens)
    match dir with
    | none =>
      if tokens.length = 1 then errorPrint (.text "cd: HOME variable not set") .fprintf
      else errorPrint (.text "cd takes one parameter") .fprintf
    | some dir => if (← sys (.chdir dir)) < 0 then errorPrint .null .perror
  | .normal => do
    errorPrint (.text "Bug found in execute_builtin") .fprintf
    exit exitFailure

/-- The message for a line that `syntax_check` does not accept. -/
def syntaxMessage : SyntaxResult → Option String
  | .success => none
  | .failNocmd => some "Missing command name"
  | .failMultredout => some "Multiple redirection of standard out"
  | .failNodestout => some "Standard output redirection without file name"
  | .failMultredin => some "Multiple redirection of standard input"
  | .failNodestin => some "Standard input redirection without file name"
  | .failInvalidbg => some "Invalid use of background"

/-- A command that is not built in. -/
def executeExternal (tokens : List Token) : ShellM Unit := do
  let isBackground := checkBg tokens
  let pcount := countPipe tokens
  if isBackground then
    if (← sys .bgArrayIdx) + pcount + 1 > maxBgPro then
      printf ("Error: Total background processes exceed the limit (" ++ toString maxBgPro ++ ").\n")
      return
  let retPgid ← if 0 < pcount then iterPipeForkExec pcount tokens isBackground
    else forkExec tokens isBackground
  if 0 < retPgid then
    if isBackground then
      printf ("[" ++ toString retPgid ++ "] Background process group running\n")
  else printf "Invalid return value of external command execution\n"

def shellHelper (lexLine : Str → LexResult × List Token) (inLine : Str) : ShellM Unit :=
  match lexLine inLine with
  | (.success, tokens) =>
    if tokens.length = 0 then pure ()
    else match syntaxMessage (syntaxCheck tokens) with
      | none =>
        match checkBuiltin tokens.head? with
        | .normal => executeExternal tokens
        | btype => executeBuiltin tokens btype
      | some message => errorPrint (.text message) .fprintf
  | (.qerror, _) => errorPrint (.text "Unmatched quote") .fprintf
  | (.nomem, _) => errorPrint (.text "Cannot allocate memory") .fprintf
  | (.long, _) => errorPrint (.text "Command is too large") .fprintf

def mainLoop (lexLine : Str → LexResult × List Token) : Nat → ShellM Unit
  | 0 => pure ()
  | n + 1 => do
    sys .checkBgStatus
    printf "% "
    match ← sys .fgets with
    | none =>
      printf "\n"
      exit exitSuccess
    | some line => shellHelper lexLine line
    mainLoop lexLine n

end SnuSysProg.Shell
