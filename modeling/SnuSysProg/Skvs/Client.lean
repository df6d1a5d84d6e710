import SnuSysProg.Skvs.Answers

/-
  The client, and what it prints.

  `client.c` sends `stdin` line by line and reads after each line until a newline ends what it has
  read, which it prints; it stops at an empty line or at the end of `stdin`. A `Session` is the
  client with the worker of the server that has accepted it, and the bytes on their way between
  them: both may send and get them in pieces of any size.

  `backed_serve`, `backed_other`: the table stays the map of the `Service` that answers the lines of
  the client.

  The options and the connection set-up of `main` are not modelled.
-/

namespace SnuSysProg.Skvs
open SnuSysProg.Lib

/-- `fgets(buffer, size, stdin)`: the bytes it reads. -/
def fgets (size : Nat) (stdin : Str) : Str :=
  let chunk := stdin.take (size - 1)
  chunk.take ((chunk.takeWhile (· ≠ newline)).length + 1)

/-- Where the client is: before `fgets`, before a `write` or a `read`, or at the end of `main`. -/
inductive ClientLoop where
  | line
  | writing (off len : Nat)
  | reading (off : Nat)
  | returned (code : Int)
  deriving DecidableEq

structure Session where
  server : Connection
  buffer : Buffer
  loop : ClientLoop
  stdin : Str
  /-- How many of the bytes that the server wrote the client has read. -/
  taken : Nat
  stdout : Str

/-- `"Connection closed by server\n"`. -/
def closedByServer : Str :=
  ascii ['C', 'o', 'n', 'n', 'e', 'c', 't', 'i', 'o', 'n', ' ', 'c', 'l', 'o', 's', 'e', 'd', ' ',
    'b', 'y', ' ', 's', 'e', 'r', 'v', 'e', 'r', '\n']

namespace Session

/-- The bytes on their way to the client. -/
def coming (s : Session) : Str := s.server.written.drop s.taken

def Closed (s : Session) : Prop := ∃ code, s.loop = .returned code

/-- The head of the writing loop. -/
def writeHead (off len : Nat) : ClientLoop := if off < len then .writing off len else .reading 0

/-- `fgets` gives a line, or `NULL` at the end of `stdin`. -/
def gotLine (s : Session) (line : Str) : Session :=
  if line = [] then { s with loop := .returned 0 }
  else
    let buffer := line ++ 0 :: s.buffer.drop (line.length + 1)
    let len := (cstr buffer 0).length
    { s with
      buffer := buffer
      stdin := s.stdin.drop line.length
      loop := if len = 1 ∧ buffer[0]? = some newline then .returned 0 else writeHead 0 len }

/-- `write` takes `n` bytes. -/
def wrote (s : Session) (off len n : Nat) : Session :=
  let bytes := (s.buffer.drop off).take n
  { s with
    server :=
      { s.server with
        sent := s.server.sent ++ [bytes]
        unread := s.server.unread ++ bytes }
    loop := writeHead (off + n) len }

/-- `read` gives `bytes`; they are printed when a newline ends them. -/
def gotData (s : Session) (off : Nat) (bytes : Str) : Session :=
  let buffer := s.buffer.take off ++ bytes ++ s.buffer.drop (off + bytes.length)
  let off := off + bytes.length
  let taken := s.taken + bytes.length
  if buffer[off - 1]? = some newline then
    let buffer := buffer.set off 0
    { s with buffer := buffer, taken := taken, stdout := s.stdout ++ cstr buffer 0, loop := .line }
  else { s with buffer := buffer, taken := taken, loop := .reading off }

inductive Event where
  | fgets
  | write (n : Nat)
  | writeError
  | read (n : Nat)
  | readEof
  | readError
  /-- The worker makes a step. -/
  | server (e : Connection.Event)

/-- What the worker gets comes from the client: it sees the end of the stream after the client has
    closed its socket, or where its buffer has no room. -/
def FromClient (s : Session) : Connection.Event → Prop
  | .send _ => False
  | .readEof => s.Closed ∨ ∃ total, s.server.loop = .reading total ∧ bufferLen - 1 - total = 0
  | _ => True

inductive Step (s : Session) : Event → Session → Prop
  | fgets (hloop : s.loop = .line) : Step s .fgets (s.gotLine (fgets bufferLen s.stdin))
  | write {off len n : Nat} (hloop : s.loop = .writing off len) (hpos : 0 < n)
      (hn : n ≤ len - off) : Step s (.write n) (s.wrote off len n)
  | writeError {off len : Nat} (hloop : s.loop = .writing off len) :
      Step s .writeError { s with loop := .returned (-1) }
  | read {off n : Nat} (hloop : s.loop = .reading off) (hpos : 0 < n) (hn : n ≤ s.coming.length)
      (hroom : n ≤ bufferLen - 1 - off) : Step s (.read n) (s.gotData off (s.coming.take n))
  | readEof {off : Nat} (hloop : s.loop = .reading off)
      (hend : s.coming = [] ∧ s.server.loop = .closed ∨ bufferLen - 1 - off = 0) :
      Step s .readEof { s with stdout := s.stdout ++ closedByServer, loop := .returned 0 }
  | readError {off : Nat} (hloop : s.loop = .reading off) :
      Step s .readError { s with loop := .returned (-1) }
  | server {e : Connection.Event} {c : Connection} (hstep : Connection.Step s.server e c)
      (hfrom : s.FromClient e) : Step s (.server e) { s with server := c }

/-- The client is connected, and a worker has accepted it. -/
def start (serverBuffer buffer : Buffer) (t : Table) (stdin : Str) : Session :=
  { server := Connection.accepted serverBuffer t
    buffer := buffer
    loop := .line
    stdin := stdin
    taken := 0
    stdout := [] }

/-- No `read` or `write` fails, the server is not told to stop, and no other request stores a
    newline. -/
def Reliable (_ : Session) : Event → Prop
  | .writeError => False
  | .readError => False
  | .server .readError => False
  | .server .writeError => False
  | .server .sigint => False
  | .server (.other e) => Legible e.rbuf e.rlen
  | _ => True

/-- What an event is to the service. -/
def Event.label : Event → Option Service.Label
  | .server (.serve calls _) => some (.mine calls)
  | .server (.other e) => some (.other e)
  | _ => none

/-- The events that get the session further. -/
def Event.Moves : Event → Prop
  | .fgets => True
  | .write _ => True
  | .read _ => True
  | .server e => e.Moves
  | _ => False

end Session

variable {c c' : Connection} {e : Connection.Event} {v v' : Service} {t t' : Table}
  {B : Nat → List Entry} {m : Map} {calls : Calls} {buffer : Buffer} {total : Nat}
  {saved : Option (Pos Unit)} {resp : Response} {line more : Str} {lines said rest : List Str}

/-! ## Lines -/

/-- A line the client may say: not empty, and with its newline no longer than the buffer. -/
structure IsLine (line : Str) : Prop where
  ne : line ≠ []
  newline : newline ∉ line
  nul : 0 ∉ line
  length : line.length + 1 ≤ bufferSize

/-- A line with its newline. -/
def message (line : Str) : Str := line ++ [newline]

theorem length_message (line : Str) : (message line).length = line.length + 1 := by
  unfold message
  rw [List.length_append]
  rfl

theorem message_ne (line : Str) : message line ≠ [] := by simp [message]

theorem message_inj {x y : Str} (h : message x = message y) : x = y := List.append_cancel_right h

theorem map_message_inj {xs ys : List Str} (h : xs.map message = ys.map message) : xs = ys :=
  List.map_injective_iff.mpr (fun _ _ => message_inj) h

theorem IsLine.message (h : IsLine line) : Message (message line) := by
  refine ⟨?_, ⟨line, rfl, h.newline⟩, fun heq => h.ne ?_, ?_⟩
  · rw [length_message]
    exact h.length
  · exact List.append_cancel_right (heq.trans (List.nil_append _).symm)
  · unfold Skvs.message
    rw [List.mem_append, not_or]
    exact ⟨h.nul, by decide⟩

/-- What a line is to `fgets`, with anything behind it. -/
theorem fgets_line (hnewline : newline ∉ line) (hlen : line.length + 1 < bufferLen) (more : Str) :
    fgets bufferLen (message line ++ more) = message line := by
  have hchunk : (message line ++ more).take (bufferLen - 1) =
      line ++ newline :: more.take (bufferLen - 1 - (line.length + 1)) := by
    rw [List.take_append, List.take_of_length_le, length_message, message, List.append_assoc]
    · rfl
    · rw [length_message]
      omega
  have hstop : (line ++ newline :: more.take (bufferLen - 1 - (line.length + 1))).takeWhile
      (· ≠ newline) = line := by
    rw [List.takeWhile_append_of_pos, List.takeWhile_cons_of_neg (by decide), List.append_nil]
    exact fun x hx => decide_eq_true fun heq => hnewline (heq ▸ hx)
  unfold fgets
  dsimp only
  rw [hchunk, hstop, List.append_cons]
  exact List.take_left' (length_message line)

/-- A text without a NUL is found again behind its NUL. -/
theorem cstr_text {s : Str} (hnul : 0 ∉ s) (rest : Buffer) : cstr (s ++ 0 :: rest) 0 = s := by
  have hat : cstr ([] ++ s ++ 0 :: rest) ([] : Buffer).length = s := cstr_at hnul (ended_nul rest)
  exact hat

/-! ## Strings that fit a line -/

/-- A string without a NUL or a newline, not longer than the buffer. -/
structure Tidy (s : Str) : Prop extends Fits s where
  newline : newline ∉ s

theorem tidy_gMsgs (msg : Msg) : Tidy (gMsgs msg) := ⟨fits_gMsgs msg, newline_notMem_gMsgs msg⟩

theorem tidy_of_legible {op : Op} {v : Str} {rbuf : Buffer} {rlen : Nat}
    (hlegible : Legible rbuf rlen)
    (hrequest : requestIn rbuf rlen = .ok ⟨op.cmd, op.key, op.value?⟩) (hv : op.value? = some v) :
    Tidy op.key ∧ Tidy v := by
  obtain ⟨hkey, hvalue⟩ := isWord_of_legible hlegible hrequest hv
  obtain ⟨hkey', hvalue'⟩ := fits_of_request hrequest hv
  exact ⟨⟨hkey', hkey.newline⟩, ⟨hvalue', hvalue.newline⟩⟩

/-- The request in a buffer that begins with a line. -/
theorem requestIn_message (h : IsLine line) (hlen : (message line).length = total)
    (htake : buffer.take total = message line) :
    requestIn buffer total = requestOf (words line) := by
  have hbuffer : buffer = line ++ newline :: buffer.drop total := by
    conv_lhs => rw [← List.take_append_drop total buffer, htake, message, List.append_assoc]
    rfl
  rw [length_message] at hlen
  unfold requestIn
  rw [hbuffer, ← hlen, lineIn_line h.nul h.newline h.length]

theorem legible_message (h : IsLine line) (hlen : (message line).length = total)
    (htake : buffer.take total = message line) : Legible buffer total := by
  intro _ q hrequest _
  rw [requestIn_message h hlen htake] at hrequest
  obtain ⟨hkey, -, hvalue⟩ := mem_of_requestOf hrequest
  exact ⟨fun hin => h.newline ((mem_words hkey).2.2.subset hin),
    fun v hv hin => h.newline ((mem_words (hvalue v hv)).2.2.subset hin)⟩

/-! ## The table behind the server -/

/-- The table holds the map of the service, and the worker has answered what the client has
    heard. -/
structure Backed (lines : List Str) (c : Connection) (v : Service) : Prop where
  table : ∃ B, Represents c.table B ∧ Holds c.table B v.map
  tidy : ∀ k x, v.map.lookup k = some x → Tidy k ∧ Tidy x
  heard : v.heard = c.replies
  asked : ∃ said, lines = said ++ v.lines ∧ c.requests = said.map message
  answered : ∀ s ∈ c.served, ∃ x, s.response = some x ∧ Tidy x

theorem Backed.congr (h : Backed lines c v) (htable : c'.table = c.table)
    (hserved : c'.served = c.served) : Backed lines c' v := by
  obtain ⟨⟨B, hr, hm⟩, htidy, hheard, hasked, hanswered⟩ := h
  refine ⟨⟨B, htable ▸ hr, htable ▸ hm⟩, htidy, ?_, ?_, hserved ▸ hanswered⟩
  · unfold Connection.replies
    rw [hserved]
    exact hheard
  · unfold Connection.requests
    rw [hserved]
    exact hasked

theorem Backed.fits (h : Backed lines c v) : HoldsOnly Fits c.table := by
  obtain ⟨B, hr, hm⟩ := h.table
  exact ⟨B, v.map, hr, hm, fun k x hx => ⟨(h.tidy k x hx).1.toFits, (h.tidy k x hx).2.toFits⟩⟩

/-- The map after an answer is tidy, and so is the answer. -/
theorem tidy_of_answer {request : Except Cmd Request} {text : Option Str} {m' : Map}
    (htidy : ∀ k x, m.lookup k = some x → Tidy k ∧ Tidy x)
    (hstores : ∀ op v, request = .ok ⟨Op.cmd op, op.key, op.value?⟩ →
      op.value? = some v → Tidy op.key ∧ Tidy v)
    (h : Answer calls request m text m') :
    (∀ k x, m'.lookup k = some x → Tidy k ∧ Tidy x) ∧ ∀ x, text = some x → Tidy x := by
  have hdone : ∀ op : Op, request = .ok ⟨op.cmd, op.key, op.value?⟩ →
      ∀ k x, (op.apply m).2.2.lookup k = some x → Tidy k ∧ Tidy x := by
    intro op hop k x hx
    rcases apply_lookup hx with hold | ⟨rfl, hv⟩
    · exact htidy k x hold
    · exact hstores op x hop hv
  cases h with
  | incomplete => exact ⟨htidy, fun x hx => absurd hx (by simp)⟩
  | invalid => exact ⟨htidy, fun x hx => Option.some.inj hx ▸ tidy_gMsgs _⟩
  | @did op hop =>
    refine ⟨hdone op hop, fun x hx => ?_⟩
    obtain rfl := Option.some.inj hx
    cases op with
    | search key =>
      cases hfind : m.lookup key with
      | none =>
        rw [show (Op.search key).response m = gMsgs .notFound by simp [Op.response, hfind]]
        exact tidy_gMsgs _
      | some value =>
        rw [show (Op.search key).response m = value by simp [Op.response, hfind]]
        exact (htidy key value hfind).2
    | _ =>
      unfold Op.response
      dsimp only
      split <;> exact tidy_gMsgs _
  | @failed op m' hop _ hmap =>
    refine ⟨?_, fun x hx => Option.some.inj hx ▸ tidy_gMsgs _⟩
    rcases hmap with rfl | rfl
    · exact htidy
    · exact hdone op hop

/-- The worker serves a line. -/
theorem backed_serve (h : Backed lines c v) (hlines : lines = said ++ line :: rest)
    (hsaid : c.requests = said.map message) (hline : IsLine line)
    (hlen : (message line).length = total) (htake : c.buffer.take total = message line)
    (hserve : skvsServe calls c.buffer total saved c.table = .ok ((buffer, resp), t')) :
    ∃ v' x, Service.Step v (.mine calls) v' ∧ resp.text t' = some x ∧ Tidy x ∧
      Backed lines (c.gotResponse total buffer (resp.text t') t') v' := by
  obtain ⟨B, hr, hm⟩ := h.table
  obtain ⟨said', hlines', hsaid'⟩ := h.asked
  obtain rfl : said' = said := map_message_inj (hsaid'.symm.trans hsaid)
  have hnext : v.lines = line :: rest := List.append_cancel_left (hlines'.symm.trans hlines)
  obtain ⟨B', m', hr', hm', hanswer⟩ :=
    answer_of_served hr hm (Returns.of_eq hserve (skvsServe_spec hr hm))
  obtain ⟨htidy, hresponse⟩ := tidy_of_answer h.tidy
    (fun _ _ hrequest hv => tidy_of_legible (legible_message hline hlen htake) hrequest hv) hanswer
  have hwhole : c.buffer.take (message line).length = message line := hlen ▸ htake
  obtain ⟨-, x, hx, -⟩ :=
    skvsServe_responds h.fits (hline.message.complete hwhole) (hlen ▸ hserve)
  rw [requestIn_message hline hlen htake] at hanswer
  dsimp only at hanswer hresponse
  rw [hx] at hanswer ⊢
  have hserved : (c.gotResponse total buffer (some x) t').served =
      c.served ++ [⟨message line, some x⟩] := by
    rw [← htake]
    rfl
  refine ⟨_, x, .mine hnext hanswer, rfl, hresponse x hx, ⟨B', hr', hm'⟩, htidy, ?_, ?_, ?_⟩
  · unfold Connection.replies
    rw [hserved, List.flatMap_append, List.flatMap_singleton, h.heard]
    rfl
  · refine ⟨said' ++ [line], by rw [hlines, List.append_assoc]; rfl, ?_⟩
    unfold Connection.requests at hsaid ⊢
    rw [hserved, List.map_append, hsaid, List.map_append]
    rfl
  · intro s hs
    rw [hserved] at hs
    rcases List.mem_append.mp hs with hs | hs
    · exact h.answered s hs
    · rw [List.mem_singleton.mp hs]
      exact ⟨x, rfl, hresponse x hx⟩

/-- Another worker serves a request. -/
theorem backed_other {e : ServeEvent} (h : Backed lines c v) (hlegible : Legible e.rbuf e.rlen)
    (hserve : serveStep c.table e t') :
    ∃ v', Service.Step v (.other e) v' ∧ Backed lines { c with table := t' } v' := by
  obtain ⟨B, hr, hm⟩ := h.table
  obtain ⟨b, resp, hcall, htext⟩ := hserve
  obtain ⟨B', m', hr', hm', hanswer⟩ :=
    answer_of_served hr hm (Returns.of_eq hcall (skvsServe_spec hr hm))
  obtain ⟨htidy, -⟩ := tidy_of_answer h.tidy
    (fun _ _ hrequest hv => tidy_of_legible hlegible hrequest hv) hanswer
  rw [← htext] at hanswer
  exact ⟨_, .other hanswer, ⟨B', hr', hm'⟩, htidy, h.heard, h.asked, h.answered⟩

end SnuSysProg.Skvs
