import Mathlib.Data.List.Basic

/-
  The tokens of a command line, `syntax_check` of `lexsyn.c` and the questions of `util.c`.

  A token array is a list. `syntax_check` reads the tokens in order and looks at the next one;
  `first` is `i == 0`, and the flags say what it has met: `<`, `>` and `|`.
-/

namespace SnuSysProg.Shell

/-- A C string, without the NUL. -/
abbrev Str := List UInt8

/-- The characters of a literal. -/
def cString (s : String) : Str := s.toList.map fun c => c.toNat.toUInt8

/-- `struct Token`: only words have a value. -/
inductive Token where
  | pipe
  | redin
  | redout
  | word (value : Str)
  | bg
  deriving DecidableEq

inductive SyntaxResult where
  | success
  | failNocmd
  | failMultredin
  | failNodestin
  | failMultredout
  | failNodestout
  | failInvalidbg
  deriving DecidableEq

/-- The next token is a word. -/
def nextIsWord : List Token → Bool
  | .word _ :: _ => true
  | _ => false

/-- The loop of `syntax_check`. -/
def syntaxLoop (first riExist roExist pExist : Bool) : List Token → SyntaxResult
  | [] => .success
  | .word _ :: rest => syntaxLoop false riExist roExist pExist rest
  | .pipe :: rest =>
    if first then .failNocmd
    else if roExist then .failMultredout
    else if ¬ nextIsWord rest then .failNocmd
    else syntaxLoop false riExist roExist true rest
  | .bg :: rest =>
    if first then .failNocmd
    else if rest ≠ [] then .failInvalidbg
    else syntaxLoop false riExist roExist pExist rest
  | .redin :: rest =>
    if first then .failNocmd
    else if pExist ∨ riExist then .failMultredin
    else if ¬ nextIsWord rest then .failNodestin
    else syntaxLoop false true roExist pExist rest
  | .redout :: rest =>
    if first then .failNocmd
    else if roExist then .failMultredout
    else if ¬ nextIsWord rest then .failNodestout
    else syntaxLoop false riExist true pExist rest

def syntaxCheck (tokens : List Token) : SyntaxResult := syntaxLoop true false false false tokens

def countPipe (tokens : List Token) : Nat := tokens.count .pipe

def checkBg (tokens : List Token) : Bool := tokens.contains .bg

inductive BuiltinType where
  | normal
  | exit
  | cd
  deriving DecidableEq

/-- `check_builtin`; its argument is the first token of an accepted line. -/
def checkBuiltin : Option Token → BuiltinType
  | some (.word value) =>
    if value = cString "cd" then .cd
    else if value = cString "exit" then .exit
    else .normal
  | _ => .normal

/-- `pipe_index`: where the pipes are. -/
def pipeIndices (tokens : List Token) : List Nat :=
  (List.range tokens.length).filter fun i => tokens[i]? = some .pipe

/-- The tokens from `start` up to `stop`. -/
def slice (tokens : List Token) (start stop : Nat) : List Token := (tokens.take stop).drop start

end SnuSysProg.Shell
