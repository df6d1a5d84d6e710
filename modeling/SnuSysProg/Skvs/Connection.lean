import SnuSysProg.Skvs.OneLine

/-
  `handle_client` on one connection.

  The worker is before a `read`, before `skvs_serve`, before a `write`, or done with the
  connection; `afterReading` and the like are the code in between. The results of the system calls
  are events, and so is what the client sends, the requests of other clients, and the signal that
  sets `g_shutdown`. A system call that gives `EAGAIN` is made again.

  `skvs_serve` and the `snprintf` behind it are one step here: the response is the string that was
  returned, and the request of another client is carried out before or after it, as a whole. That
  another worker changes the bucket or frees the value in between is in `Threads`.
-/

namespace SnuSysProg.Skvs
open SnuSysProg.Lib

/-- `sizeof(buffer)`. -/
def bufferLen : Nat := bufferSize + 10

/-- Where the worker is. -/
inductive Loop where
  | reading (totalRead : Nat)
  | serving (totalRead : Nat)
  | writing (totalWritten bufferLength : Nat)
  | closed
  deriving DecidableEq

/-- A call of `skvs_serve`: the bytes it was given, and the string it returned. -/
structure ServeCall where
  request : Str
  response : Option Str
  deriving DecidableEq

structure Connection where
  buffer : Buffer
  loop : Loop
  shutdown : Bool
  table : Table
  /-- What the client has sent, one `send` at a time. -/
  sent : List Str
  /-- The bytes sent that the worker has not read. -/
  unread : Str
  served : List ServeCall
  /-- The bytes the worker has written. -/
  written : Str

/-- From the inner reading loop to `skvs_serve` or to the end of the connection. -/
def afterReading (buffer : Buffer) (totalRead : Nat) : Loop :=
  if totalRead = 0 then .closed
  else if totalRead = 1 ∧ buffer[0]? = some newline then .closed
  else .serving totalRead

/-- The head of the inner reading loop. -/
def readHead (shutdown : Bool) (buffer : Buffer) (totalRead : Nat) : Loop :=
  if shutdown then afterReading buffer totalRead else .reading totalRead

/-- The head of the loop over the requests. -/
def requestHead (shutdown : Bool) : Loop := if shutdown then .closed else .reading 0

/-- The head of the writing loop. -/
def writeHead (shutdown : Bool) (totalWritten bufferLength : Nat) : Loop :=
  if totalWritten < bufferLength then .writing totalWritten bufferLength else requestHead shutdown

/-- The buffer after `read` put `bytes` into it, and the NUL behind them. -/
def received (buffer : Buffer) (totalRead : Nat) (bytes : Str) : Buffer :=
  buffer.take totalRead ++ bytes ++ 0 :: buffer.drop (totalRead + bytes.length + 1)

/-- The bytes of `%s` for a string or for `NULL`. -/
def formatted : Option Str → Str
  | some s => s
  | none => ascii ['(', 'n', 'u', 'l', 'l', ')']

/-- `snprintf(buffer, sizeof(buffer), "%s\n", response)`. -/
def snprintfLine (buffer : Buffer) (response : Option Str) : Buffer :=
  let line := (formatted response ++ [newline]).take (bufferLen - 1)
  line ++ 0 :: buffer.drop (line.length + 1)

namespace Connection

inductive Event where
  /-- The client sends bytes. -/
  | send (bytes : Str)
  /-- `read` gives `n` bytes. -/
  | readData (n : Nat)
  | readAgain
  | readEof
  | readError
  | serve (calls : Calls) (saved : Option (Pos Unit))
  /-- `write` takes `n` bytes. -/
  | write (n : Nat)
  | writeAgain
  | writeError
  | sigint
  /-- Another worker serves a request. -/
  | other (e : ServeEvent)

/-- The worker gets `bytes` from `read`. -/
def gotData (c : Connection) (totalRead : Nat) (bytes : Str) : Connection :=
  let buffer := received c.buffer totalRead bytes
  let totalRead := totalRead + bytes.length
  { c with
    buffer := buffer
    unread := c.unread.drop bytes.length
    loop :=
      if buffer[totalRead - 1]? = some newline then afterReading buffer totalRead
      else readHead c.shutdown buffer totalRead }

/-- The worker gets the response from `skvs_serve` and puts it into the buffer. -/
def gotResponse (c : Connection) (totalRead : Nat) (buffer : Buffer) (response : Option Str)
    (table : Table) : Connection :=
  let line := snprintfLine buffer response
  { c with
    buffer := line
    table := table
    served := c.served ++ [⟨c.buffer.take totalRead, response⟩]
    loop := writeHead c.shutdown 0 (cstr line 0).length }

/-- `write` takes `n` bytes. -/
def wrote (c : Connection) (totalWritten bufferLength n : Nat) : Connection :=
  { c with
    written := c.written ++ (c.buffer.drop totalWritten).take n
    loop := writeHead c.shutdown (totalWritten + n) bufferLength }

inductive Step (c : Connection) : Event → Connection → Prop
  | send {bytes : Str} : Step c (.send bytes)
      { c with sent := c.sent ++ [bytes], unread := c.unread ++ bytes }
  | readData {n totalRead : Nat} (hloop : c.loop = .reading totalRead) (hpos : 0 < n)
      (hunread : n ≤ c.unread.length) (hroom : n ≤ bufferLen - 1 - totalRead) :
      Step c (.readData n) (c.gotData totalRead (c.unread.take n))
  | readAgain {totalRead : Nat} (hloop : c.loop = .reading totalRead) :
      Step c .readAgain { c with loop := readHead c.shutdown c.buffer totalRead }
  | readEof {totalRead : Nat} (hloop : c.loop = .reading totalRead)
      (hend : c.unread = [] ∨ bufferLen - 1 - totalRead = 0) :
      Step c .readEof { c with loop := afterReading c.buffer totalRead }
  | readError {totalRead : Nat} (hloop : c.loop = .reading totalRead) :
      Step c .readError { c with loop := afterReading c.buffer totalRead }
  | serve {calls : Calls} {saved : Option (Pos Unit)} {totalRead : Nat} {buffer : Buffer}
      {resp : Response} {table : Table} (hloop : c.loop = .serving totalRead)
      (hserve : skvsServe calls c.buffer totalRead saved c.table = .ok ((buffer, resp), table)) :
      Step c (.serve calls saved) (c.gotResponse totalRead buffer (resp.text table) table)
  | write {n totalWritten bufferLength : Nat} (hloop : c.loop = .writing totalWritten bufferLength)
      (hpos : 0 < n) (hn : n ≤ bufferLength - totalWritten) :
      Step c (.write n) (c.wrote totalWritten bufferLength n)
  | writeAgain {totalWritten bufferLength : Nat}
      (hloop : c.loop = .writing totalWritten bufferLength) :
      Step c .writeAgain { c with loop := writeHead c.shutdown totalWritten bufferLength }
  | writeError {totalWritten bufferLength : Nat}
      (hloop : c.loop = .writing totalWritten bufferLength) :
      Step c .writeError { c with loop := requestHead c.shutdown }
  | sigint : Step c .sigint { c with shutdown := true }
  | other {e : ServeEvent} {table : Table} (hserve : serveStep c.table e table) :
      Step c (.other e) { c with table := table }

/-- The client has just been accepted. -/
def accepted (buffer : Buffer) (table : Table) : Connection :=
  { buffer := buffer
    loop := .reading 0
    shutdown := false
    table := table
    sent := []
    unread := []
    served := []
    written := [] }

/-- What the client should have got: each response with a newline. -/
def replies (c : Connection) : Str := c.served.flatMap fun s => s.response.getD [] ++ [newline]

end Connection

end SnuSysProg.Skvs
