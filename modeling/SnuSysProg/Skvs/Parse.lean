import Mathlib.Logic.Function.Basic
import SnuSysProg.Skvs.Hashtable

/-
  `skvs_parse`, and the `strtok` it calls.

  `strtok` keeps its position in one variable of the process. So the position is a place in the
  buffer of some worker, and `skvs_parse` is cut at its calls of `strtok`: `skvsParseStart` is the
  code before the first call, `resume` the code between a call and the next one. One worker alone
  runs them one after the other (`skvsParse`).

  A buffer is the list of its bytes; the C string at an offset runs up to the next NUL.
-/

namespace SnuSysProg.Skvs

/-- `BUFFER_SIZE`. -/
def bufferSize : Nat := 4096

/-- `MAX_KEY_LEN`. -/
def maxKeyLen : Nat := 32

def newline : UInt8 := 10

def space : UInt8 := 32

abbrev Buffer := List UInt8

/-- The C string at an offset of a buffer. -/
def cstr (b : Buffer) (off : Nat) : Str := (b.drop off).takeWhile (· ≠ 0)

/-- A place in the buffer of a worker. -/
structure Pos (ι : Type) where
  buf : ι
  off : Nat
  deriving DecidableEq

abbrev Buffers (ι : Type) := ι → Buffer

/-- `enum CMD`. -/
inductive Cmd where
  | incomplete
  | invalid
  | create
  | read
  | update
  | delete
  deriving DecidableEq, Repr

def ascii (s : List Char) : Str := s.map fun c => c.toNat.toUInt8

/-- `g_cmds`. -/
def gCmds : List (Cmd × Str) :=
  [(.create, ascii ['C', 'R', 'E', 'A', 'T', 'E']), (.read, ascii ['R', 'E', 'A', 'D']),
    (.update, ascii ['U', 'P', 'D', 'A', 'T', 'E']),
    (.delete, ascii ['D', 'E', 'L', 'E', 'T', 'E'])]

/-- `toupper` in the C locale. -/
def toupper (c : UInt8) : UInt8 := if 97 ≤ c ∧ c ≤ 122 then c - 32 else c

section Calls

variable {ι : Type} [DecidableEq ι]

/-- `strtok(s, " ")`: the token, and the position that is kept for the next call. -/
def strtok (mem : Buffers ι) (saved : Option (Pos ι)) (s : Option (Pos ι)) :
    Option (Pos ι) × Buffers ι × Option (Pos ι) :=
  match s.or saved with
  | none => (none, mem, saved)
  | some p =>
    let b := mem p.buf
    let start := p.off + ((b.drop p.off).takeWhile (· = space)).length
    let token := (b.drop start).takeWhile fun c => c ≠ space ∧ c ≠ 0
    let stop := start + token.length
    if token = [] then (none, mem, some ⟨p.buf, start⟩)
    else if b[stop]? = some space then
      (some ⟨p.buf, start⟩, Function.update mem p.buf (b.set stop 0), some ⟨p.buf, stop + 1⟩)
    else (some ⟨p.buf, start⟩, mem, some ⟨p.buf, stop⟩)

/-- What `skvs_parse` returns, with `*key` and `*value`. -/
structure Parsed (ι : Type) where
  cmd : Cmd
  key : Option (Pos ι) := none
  value : Option (Pos ι) := none
  deriving DecidableEq

/-- Which call of `strtok` is next, with the local variables that are set by then. -/
inductive Pc (ι : Type) where
  | cmd
  | key (i : Cmd)
  | value (i : Cmd) (key : Pos ι)
  | extra (i : Cmd) (key : Pos ι) (value : Option (Pos ι))
  deriving DecidableEq

inductive Ctl (ι : Type) where
  | call (pc : Pc ι)
  | ret (r : Parsed ι)
  deriving DecidableEq

/-- The argument of the call: the buffer the first time, `NULL` after that. -/
def Pc.arg (w : ι) : Pc ι → Option (Pos ι)
  | .cmd => some ⟨w, 0⟩
  | _ => none

/-- `skvs_parse` up to its first call of `strtok`. -/
def skvsParseStart (b : Buffer) (len : Nat) : Buffer × Ctl ι :=
  if len > bufferSize then (b, .ret { cmd := .invalid })
  else if len = bufferSize then
    if b[bufferSize - 1]? ≠ some newline then (b, .ret { cmd := .invalid })
    else (b.set (bufferSize - 1) 0, .call .cmd)
  else
    let b := b.set len 0
    match (cstr b 0).idxOf? newline with
    | none => (b, .ret { cmd := .incomplete })
    | some crlf => (b.set crlf 0, .call .cmd)

/-- The loop that converts the string at an offset to uppercase. -/
def upperAt (b : Buffer) (off : Nat) : Buffer :=
  b.take off ++ (cstr b off).map toupper ++ b.drop (off + (cstr b off).length)

/-- The code from a call of `strtok`, which gave `token`, to the next one or to the return. -/
def resume (pc : Pc ι) (token : Option (Pos ι)) (mem : Buffers ι) : Buffers ι × Ctl ι :=
  match pc, token with
  | .cmd, none => (mem, .ret { cmd := .invalid })
  | .cmd, some cmd =>
    let b := upperAt (mem cmd.buf) cmd.off
    let mem := Function.update mem cmd.buf b
    match gCmds.find? fun g => cstr b cmd.off = g.2 with
    | some (i, _) => (mem, .call (.key i))
    | none => (mem, .ret { cmd := .invalid })
  | .key _, none => (mem, .ret { cmd := .invalid })
  | .key i, some key =>
    if (cstr (mem key.buf) key.off).length > maxKeyLen then
      (mem, .ret { cmd := .invalid, key := some key })
    else (mem, .call (.value i key))
  | .value i key, value =>
    if (i = .read ∨ i = .delete) ∧ value ≠ none then
      (mem, .ret { cmd := .invalid, key := some key, value := value })
    else if (i = .create ∨ i = .update) ∧ value = none then
      (mem, .ret { cmd := .invalid, key := some key, value := value })
    else (mem, .call (.extra i key value))
  | .extra i key value, token =>
    if token ≠ none then (mem, .ret { cmd := .invalid, key := some key, value := value })
    else (mem, .ret { cmd := i, key := some key, value := value })

/-- Worker `w` makes its next call of `strtok` and goes on to the one after it. -/
def parseStep (w : ι) (pc : Pc ι) (mem : Buffers ι) (saved : Option (Pos ι)) :
    Buffers ι × Option (Pos ι) × Ctl ι :=
  let (token, mem, saved) := strtok mem saved (pc.arg w)
  let (mem, ctl) := resume pc token mem
  (mem, saved, ctl)

end Calls

/-! ## One worker alone -/

/-- How many calls of `strtok` are left at most. -/
def Pc.calls {ι : Type} : Pc ι → Nat
  | .cmd => 4
  | .key _ => 3
  | .value _ _ => 2
  | .extra _ _ _ => 1

/-- The rest of `skvs_parse`, in at most `calls` calls of `strtok`. -/
def parseFrom : Nat → Ctl Unit → Buffer → Option (Pos Unit) → Buffer × Parsed Unit
  | _, .ret r, b, _ => (b, r)
  | 0, .call _, b, _ => (b, { cmd := .invalid })
  | calls + 1, .call pc, b, saved =>
    let (mem, saved, ctl) := parseStep () pc (fun _ => b) saved
    parseFrom calls ctl (mem ()) saved

/-- `skvs_parse` on a buffer of its own: the buffer it leaves, and what it returns. -/
def skvsParse (b : Buffer) (len : Nat) (saved : Option (Pos Unit)) : Buffer × Parsed Unit :=
  let (b, ctl) := skvsParseStart b len
  parseFrom 4 ctl b saved

theorem parseFrom_ret (n : Nat) (r : Parsed Unit) (b : Buffer) (saved : Option (Pos Unit)) :
    parseFrom n (.ret r) b saved = (b, r) := by
  cases n <;> rfl

/-- A request for the value of a key of one letter, in a buffer with room for the NUL. -/
def readLine (c : UInt8) : Buffer := ascii ['R', 'E', 'A', 'D'] ++ [space, c, newline, 0]

end SnuSysProg.Skvs
