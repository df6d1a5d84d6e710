/-
  `decomment.c`: a DFA over characters with an action table, and the line bookkeeping of `main`.

  A text is a list of characters, without the `EOF` that ends it. An action returns what it
  prints. `lineCur` and `lineCom` are values of an `int`. C leaves the overflow of `lineCur++`
  undefined; here it wraps around.
-/

namespace SnuSysProg.Decomment

inductive State where
  | normalState
  | slashReceiveInitially
  | insideOneLineComment
  | insideMultiLineComment
  | asteriskReceivedInitiallyInComment
  | insideSingleQuote
  | insideDoubleQuote
  | escapeSeqInSingleQuote
  | escapeSeqInDoubleQuote
  deriving DecidableEq, Repr

/-! ## Transitions -/

def transitionFromNormalState (input : Char) : State :=
  if input = '/' then .slashReceiveInitially
  else if input = '\'' then .insideSingleQuote
  else if input = '"' then .insideDoubleQuote
  else .normalState

def transitionFromSlashReceiveInitially (input : Char) : State :=
  if input = '/' then .insideOneLineComment
  else if input = '*' then .insideMultiLineComment
  else .normalState

def transitionFromInsideOneLineComment (input : Char) : State :=
  if input = '\n' then .normalState else .insideOneLineComment

def transitionFromInsideMultiLineComment (input : Char) : State :=
  if input = '*' then .asteriskReceivedInitiallyInComment else .insideMultiLineComment

def transitionFromAsteriskReceivedInitiallyInComment (input : Char) : State :=
  if input = '/' then .normalState
  else if input = '*' then .asteriskReceivedInitiallyInComment
  else .insideMultiLineComment

def transitionFromInsideSingleQuote (input : Char) : State :=
  if input = '\'' then .normalState
  else if input = '\\' then .escapeSeqInSingleQuote
  else .insideSingleQuote

def transitionFromInsideDoubleQuote (input : Char) : State :=
  if input = '"' then .normalState
  else if input = '\\' then .escapeSeqInDoubleQuote
  else .insideDoubleQuote

def transitionFromEscapeSeqInSingleQuote (_input : Char) : State := .insideSingleQuote

def transitionFromEscapeSeqInDoubleQuote (_input : Char) : State := .insideDoubleQuote

def transitionState (currentState : State) (input : Char) : State :=
  match currentState with
  | .normalState => transitionFromNormalState input
  | .slashReceiveInitially => transitionFromSlashReceiveInitially input
  | .insideOneLineComment => transitionFromInsideOneLineComment input
  | .insideMultiLineComment => transitionFromInsideMultiLineComment input
  | .asteriskReceivedInitiallyInComment => transitionFromAsteriskReceivedInitiallyInComment input
  | .insideSingleQuote => transitionFromInsideSingleQuote input
  | .insideDoubleQuote => transitionFromInsideDoubleQuote input
  | .escapeSeqInSingleQuote => transitionFromEscapeSeqInSingleQuote input
  | .escapeSeqInDoubleQuote => transitionFromEscapeSeqInDoubleQuote input

/-! ## Actions -/

def printToStdout (input : Char) : List Char := [input]

def executeActionFromNormalState (input : Char) : List Char :=
  if input = '/' then [] else printToStdout input

/-- The held-back slash is printed here, when it turns out not to open a comment. -/
def executeActionFromSlashReceiveInitially (input : Char) : List Char :=
  if input = '/' then printToStdout ' '
  else if input = '*' then printToStdout ' '
  else printToStdout '/' ++ printToStdout input

def executeActionFromInsideOneLineComment (input : Char) : List Char :=
  if input = '\n' then printToStdout '\n' else []

def executeActionFromInsideMultiLineComment (input : Char) : List Char :=
  if input = '\n' then printToStdout '\n' else []

def executeActionFromAsteriskReceivedInitiallyInComment (input : Char) : List Char :=
  if input = '\n' then printToStdout '\n' else []

def executeActionFromInsideSingleQuote (input : Char) : List Char := printToStdout input

def executeActionFromInsideDoubleQuote (input : Char) : List Char := printToStdout input

def executeActionFromEscapeSeqInSingleQuote (input : Char) : List Char := printToStdout input

def executeActionFromEscapeSeqInDoubleQuote (input : Char) : List Char := printToStdout input

def executeAction (currentState : State) (input : Char) : List Char :=
  match currentState with
  | .normalState => executeActionFromNormalState input
  | .slashReceiveInitially => executeActionFromSlashReceiveInitially input
  | .insideOneLineComment => executeActionFromInsideOneLineComment input
  | .insideMultiLineComment => executeActionFromInsideMultiLineComment input
  | .asteriskReceivedInitiallyInComment =>
    executeActionFromAsteriskReceivedInitiallyInComment input
  | .insideSingleQuote => executeActionFromInsideSingleQuote input
  | .insideDoubleQuote => executeActionFromInsideDoubleQuote input
  | .escapeSeqInSingleQuote => executeActionFromEscapeSeqInSingleQuote input
  | .escapeSeqInDoubleQuote => executeActionFromEscapeSeqInDoubleQuote input

/-- The next state and what was printed on the way. -/
def handleStateTransition (currentState : State) (input : Char) : State × List Char :=
  (transitionState currentState input, executeAction currentState input)

/-! ## main -/

/-- `COMMENT_CLOSED`, the value of `lineCom` while no comment is open. -/
def commentClosed : Int := -1

def intMax : Int := 2147483647

/-- `x++` for an `int`. -/
def incInt (x : Int) : Int := (x + 1).bmod 4294967296

def exitSuccess : Int := 0

def exitFailure : Int := 1

/-- The variables of `main`, and what it has written to stdout so far. -/
structure Vars where
  state : State
  lineCur : Int
  lineCom : Int
  stdout : List Char

def initVars : Vars := ⟨.normalState, 1, commentClosed, []⟩

/-- The body of the `while` loop, for one character. -/
def loopBody (v : Vars) (ch : Char) : Vars :=
  let next := handleStateTransition v.state ch
  let lineCom :=
    if next.1 = .insideMultiLineComment ∧ v.lineCom = commentClosed then v.lineCur else v.lineCom
  let lineCom :=
    if next.1 = .normalState ∧ lineCom ≠ commentClosed then commentClosed else lineCom
  { state := next.1
    lineCur := if ch = '\n' then incInt v.lineCur else v.lineCur
    lineCom := lineCom
    stdout := v.stdout ++ next.2 }

def printErrorLog (lineCom : Int) : String :=
  "Error: line " ++ toString lineCom ++ ": unterminated comment\n"

structure Result where
  stdout : List Char
  stderr : String
  exitCode : Int

def main (input : List Char) : Result :=
  let v := input.foldl loopBody initVars
  if v.lineCom ≠ commentClosed then ⟨v.stdout, printErrorLog v.lineCom, exitFailure⟩
  else ⟨v.stdout, "", exitSuccess⟩

end SnuSysProg.Decomment
