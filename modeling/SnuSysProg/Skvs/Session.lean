import SnuSysProg.Skvs.Client

/-
  A session refines the service.

  The client is before a line, sends one, hears the answer, or is at its end (`At`). The worker is
  in a conversation of `Replies` with a client that has sent whole lines: what the client has not
  written yet is added to what the worker can read (`Connection.ahead`). A step of the session is
  one of the service or none (`refines_step`), and a run is a run of the service (`refines_run`).
-/

namespace SnuSysProg.Skvs
open SnuSysProg.Lib

variable {c c' : Connection} {e : Connection.Event} {v v' : Service} {t t' : Table}
  {B : Nat → List Entry} {m : Map} {calls : Calls} {buffer : Buffer} {total : Nat}
  {saved : Option (Pos Unit)} {resp : Response} {line more : Str} {lines said rest : List Str}

/-! ## The server, with what is still to come -/

namespace Connection

/-- The worker as it would be if the client had sent these messages, with `more` behind what it can
    read now. -/
def ahead (c : Connection) (sent : List Str) (more : Str) : Connection :=
  { c with sent := sent, unread := c.unread ++ more }

/-- What the worker can do, it can do with more to read. -/
theorem step_ahead (sent : List Str) (more : Str) (hstep : Step c e c')
    (hsend : ∀ bytes, e ≠ .send bytes) (heof : e ≠ .readEof) :
    Step (c.ahead sent more) e (c'.ahead sent more) := by
  cases hstep with
  | send => exact absurd rfl (hsend _)
  | @readData n total hloop hpos hunread hroom =>
    have hchunk : (c.ahead sent more).unread.take n = c.unread.take n :=
      List.take_append_of_le_length hunread
    have hlen : (c.unread.take n).length ≤ c.unread.length := by
      rw [List.length_take_of_le hunread]
      exact hunread
    have hgot : (c.ahead sent more).gotData total ((c.ahead sent more).unread.take n) =
        (c.gotData total (c.unread.take n)).ahead sent more := by
      rw [hchunk]
      unfold gotData ahead
      dsimp only
      rw [List.drop_append_of_le_length hlen]
    rw [← hgot]
    refine .readData hloop hpos ?_ hroom
    change n ≤ (c.unread ++ more).length
    rw [List.length_append]
    omega
  | readAgain hloop => exact .readAgain hloop
  | readEof => exact absurd rfl heof
  | readError hloop => exact .readError hloop
  | serve hloop hserve => exact .serve hloop hserve
  | write hloop hpos hn => exact .write hloop hpos hn
  | writeAgain hloop => exact .writeAgain hloop
  | writeError hloop => exact .writeError hloop
  | sigint => exact .sigint
  | other hserve => exact .other hserve

/-- A call of `skvs_serve`, a request of another worker, or neither. -/
inductive Kind (c : Connection) : Event → Connection → Prop
  | serve {calls : Calls} {saved : Option (Pos Unit)} {total : Nat} {buffer : Buffer}
      {resp : Response} {table : Table} (hloop : c.loop = .serving total)
      (hserve : skvsServe calls c.buffer total saved c.table = .ok ((buffer, resp), table)) :
      Kind c (.serve calls saved) (c.gotResponse total buffer (resp.text table) table)
  | other {e : ServeEvent} {table : Table} (hserve : serveStep c.table e table) :
      Kind c (.other e) { c with table := table }
  | quiet {e : Event} {c' : Connection} (hlabel : (Session.Event.server e).label = none)
      (htable : c'.table = c.table) (hserved : c'.served = c.served)
      (hwritten : c.written <+: c'.written) : Kind c e c'

theorem kind_of_step (hstep : Step c e c') : Kind c e c' := by
  cases hstep with
  | serve hloop hserve => exact .serve hloop hserve
  | other hserve => exact .other hserve
  | write => exact .quiet rfl rfl rfl (List.prefix_append _ _)
  | _ => exact .quiet rfl rfl rfl (List.prefix_refl _)

/-- With bytes to read the worker reads. -/
theorem Conversing.reading (h : c.Conversing) (hne : c.unread ≠ []) :
    ∃ total, c.loop = .reading total := by
  have hposition := h.position
  unfold Position at hposition
  cases hloop : c.loop with
  | reading total => exact ⟨total, rfl⟩
  | serving total =>
    rw [hloop] at hposition
    exact absurd hposition.2.1 hne
  | writing written total =>
    rw [hloop] at hposition
    exact absurd hposition.2.1 hne
  | closed =>
    rw [hloop] at hposition
    exact hposition.elim

/-- A message never fills the buffer. -/
theorem Conversing.room (h : c.Conversing) (hloop : c.loop = .reading total) :
    total ≤ bufferSize := by
  have hposition := h.position
  unfold Position at hposition
  rw [hloop] at hposition
  obtain ⟨-, ⟨rfl, -⟩ | ⟨got, hmsg, -, -, hlen, -⟩⟩ := hposition
  · exact Nat.zero_le _
  · have hlength := hmsg.length
    rw [List.length_append] at hlength
    omega

/-- The worker has answered everything and sent all its answers: it waits. -/
theorem Conversing.waits (h : c.Conversing) (hrequests : c.requests = c.sent)
    (hwritten : c.written = c.replies) : c.loop = .reading 0 ∧ c.unread = [] := by
  have hposition := h.position
  unfold Position at hposition
  cases hloop : c.loop with
  | reading total =>
    rw [hloop] at hposition
    obtain ⟨-, ⟨rfl, hunread, -⟩ | ⟨got, -, hsent, -⟩⟩ := hposition
    · exact ⟨rfl, hunread⟩
    · rw [← hrequests] at hsent
      exact absurd hsent (by simp)
  | serving total =>
    rw [hloop] at hposition
    obtain ⟨-, -, msg, -, hsent, -⟩ := hposition
    rw [← hrequests] at hsent
    exact absurd hsent (by simp)
  | writing written total =>
    rw [hloop] at hposition
    obtain ⟨-, -, hlt, line, -, -, rfl, hreplies⟩ := hposition
    rw [← hwritten, List.self_eq_append_right, List.drop_eq_nil_iff] at hreplies
    omega
  | closed =>
    rw [hloop] at hposition
    exact hposition.elim

theorem Conversing.written (h : c.Conversing) : c.written <+: c.replies := h.inOrder.bytes

end Connection

/-! ## The session -/

namespace Session

variable {s s' : Session} {e : Event} {tail : Str}

/-- The server has done everything for these lines, and the client has printed it. -/
structure Idle (said : List Str) (s : Session) : Prop where
  running : s.server.shutdown = false
  unread : s.server.unread = []
  requests : s.server.requests = said.map message
  written : s.server.written = s.server.replies
  taken : s.taken = s.server.written.length
  out : s.stdout = s.server.written

/-- The client is sending a line, from `off` on. -/
structure Sending (said : List Str) (line : Str) (off : Nat) (s : Session) : Prop where
  lt : off < (message line).length
  buffer : s.buffer.take (message line).length = message line
  conversing : (s.server.ahead ((said ++ [line]).map message)
    ((message line).drop off)).Conversing
  requests : s.server.requests = said.map message
  written : s.server.written = s.server.replies
  taken : s.taken = s.server.written.length
  out : s.stdout = s.server.written

/-- The client has `off` bytes of the answer to a line, which is `current` once the line is
    served. -/
structure Hearing (said : List Str) (line : Str) (off : Nat) (current : Str) (s : Session) :
    Prop where
  conversing : (s.server.ahead ((said ++ [line]).map message) []).Conversing
  answer : current = [] ∧ s.server.requests = said.map message ∨
    ∃ x, Tidy x ∧ current = message x ∧ s.server.requests = (said ++ [line]).map message
  replies : s.server.replies = s.stdout ++ current
  taken : s.taken = s.stdout.length + off
  behind : s.taken ≤ s.server.written.length
  buffer : s.buffer.take off = current.take off
  more : newline ∉ current.take off

/-- Where the client is in the conversation. -/
inductive At (lines : List Str) (tail : Str) (s : Session) : Prop
  | line {said rest : List Str} (hlines : lines = said ++ rest) (hloop : s.loop = .line)
      (hstdin : s.stdin = rest.flatMap message ++ tail) (hserver : s.server.loop = .reading 0)
      (hidle : s.Idle said)
  | writing {said rest : List Str} {line : Str} {off : Nat} (hlines : lines = said ++ line :: rest)
      (hloop : s.loop = .writing off (message line).length)
      (hstdin : s.stdin = rest.flatMap message ++ tail) (hsending : s.Sending said line off)
  | reading {said rest : List Str} {line current : Str} {off : Nat}
      (hlines : lines = said ++ line :: rest) (hloop : s.loop = .reading off)
      (hstdin : s.stdin = rest.flatMap message ++ tail) (hhearing : s.Hearing said line off current)
  | returned (hloop : s.loop = .returned 0) (hidle : s.Idle lines)
      (hserver : s.server.loop = .reading 0 ∨ s.server.loop = .closed)

theorem At.of_line (h : At lines tail s) (hloop : s.loop = .line) :
    ∃ said rest, lines = said ++ rest ∧ s.stdin = rest.flatMap message ++ tail ∧
      s.server.loop = .reading 0 ∧ s.Idle said := by
  cases h with
  | line hlines _ hstdin hserver hidle => exact ⟨_, _, hlines, hstdin, hserver, hidle⟩
  | writing _ hother => exact absurd (hloop.symm.trans hother) (by simp)
  | reading _ hother => exact absurd (hloop.symm.trans hother) (by simp)
  | returned hother => exact absurd (hloop.symm.trans hother) (by simp)

theorem At.of_writing {off len : Nat} (h : At lines tail s) (hloop : s.loop = .writing off len) :
    ∃ said line rest, lines = said ++ line :: rest ∧ len = (message line).length ∧
      s.stdin = rest.flatMap message ++ tail ∧ s.Sending said line off := by
  cases h with
  | writing hlines hwriting hstdin hsending =>
    obtain ⟨rfl, rfl⟩ := ClientLoop.writing.inj (hwriting.symm.trans hloop)
    exact ⟨_, _, _, hlines, rfl, hstdin, hsending⟩
  | line _ hother => exact absurd (hloop.symm.trans hother) (by simp)
  | reading _ hother => exact absurd (hloop.symm.trans hother) (by simp)
  | returned hother => exact absurd (hloop.symm.trans hother) (by simp)

theorem At.of_reading {off : Nat} (h : At lines tail s) (hloop : s.loop = .reading off) :
    ∃ said line rest current, lines = said ++ line :: rest ∧
      s.stdin = rest.flatMap message ++ tail ∧ s.Hearing said line off current := by
  cases h with
  | reading hlines hreading hstdin hhearing =>
    obtain rfl := ClientLoop.reading.inj (hreading.symm.trans hloop)
    exact ⟨_, _, _, _, hlines, hstdin, hhearing⟩
  | line _ hother => exact absurd (hloop.symm.trans hother) (by simp)
  | writing _ hother => exact absurd (hloop.symm.trans hother) (by simp)
  | returned hother => exact absurd (hloop.symm.trans hother) (by simp)

/-- What `stdin` has behind the lines: nothing, or an empty line and anything. -/
def Ending (tail : Str) : Prop := tail = [] ∨ ∃ more, tail = newline :: more

/-! ### The client moves -/

/-- `fgets` finds no further line, and the client closes its socket. -/
theorem gotLine_ending (h : Ending tail) (hstdin : s.stdin = tail) :
    ∃ buffer stdin, s.gotLine (fgets bufferLen s.stdin) =
      { s with buffer := buffer, stdin := stdin, loop := .returned 0 } ∧
        stdin.length ≤ s.stdin.length := by
  rcases h with rfl | ⟨more, rfl⟩
  · have hline : fgets bufferLen s.stdin = [] := congrArg (fgets bufferLen) hstdin
    refine ⟨s.buffer, s.stdin, ?_, le_rfl⟩
    unfold gotLine
    rw [hline, if_pos rfl]
  · have hline : fgets bufferLen (message [] ++ more) = [newline] :=
      fgets_line List.not_mem_nil (by decide) more
    rw [message, List.nil_append, List.singleton_append] at hline
    refine ⟨[newline] ++ 0 :: s.buffer.drop 2, s.stdin.drop 1, ?_, ?_⟩
    · rw [hstdin, hline]
      unfold gotLine
      rw [if_neg (by simp)]
      dsimp only
      rw [cstr_text (by decide), if_pos ⟨rfl, rfl⟩, hstdin]
      rfl
    · rw [List.length_drop]
      exact Nat.sub_le _ _

/-- `fgets` gives a line, and the client is going to send it. -/
theorem gotLine_line (h : IsLine line) (hstdin : s.stdin = message line ++ more) :
    s.gotLine (fgets bufferLen s.stdin) =
      { s with
        buffer := message line ++ 0 :: s.buffer.drop ((message line).length + 1)
        stdin := more
        loop := .writing 0 (message line).length } := by
  have hlen : line.length + 1 < bufferLen := Nat.lt_of_le_of_lt h.length (by decide)
  have hnot : ¬ ((message line).length = 1 ∧
      (message line ++ 0 :: s.buffer.drop ((message line).length + 1))[0]? = some newline) := by
    rintro ⟨hone, -⟩
    rw [length_message] at hone
    exact h.ne (List.length_eq_zero_iff.mp (Nat.succ.inj hone))
  have hpos : 0 < (message line).length := by
    rw [length_message]
    exact Nat.succ_pos _
  rw [hstdin, fgets_line h.newline hlen]
  unfold gotLine
  rw [if_neg (message_ne line)]
  dsimp only
  rw [cstr_text h.message.nul, if_neg hnot, hstdin, List.drop_left, writeHead, if_pos hpos]

theorem Idle.conversing (h : s.Idle said) (hback : Backed lines s.server v)
    (hserver : s.server.loop = .reading 0) :
    (s.server.ahead (said.map message) []).Conversing := by
  refine ⟨h.running, hback.fits, fun call hcall => ?_, ?_⟩
  · obtain ⟨x, hx, -⟩ := hback.answered call hcall
    rw [hx]
    exact Option.some_ne_none x
  · have hloop : (s.server.ahead (said.map message) []).loop = .reading 0 := hserver
    unfold Connection.Position
    rw [hloop]
    refine ⟨h.written, Or.inl ⟨rfl, ?_, h.requests⟩⟩
    exact (List.append_nil _).trans h.unread

theorem Idle.sending (h : s.Idle said) (hback : Backed lines s.server v)
    (hserver : s.server.loop = .reading 0) (hline : IsLine line) {rest : Buffer} {stdin : Str} :
    Sending said line 0 { s with
      buffer := message line ++ 0 :: rest
      stdin := stdin
      loop := .writing 0 (message line).length } := by
  have hcount : s.server.served.length = (said.map message).length := by
    rw [← h.requests]
    exact (List.length_map _).symm
  have hsent := Connection.conversing_send (h.conversing hback hserver)
    ⟨hline.message, hcount, h.written⟩
  refine ⟨?_, List.take_left, ?_, h.requests, h.written, h.taken, h.out⟩
  · rw [length_message]
    exact Nat.succ_pos _
  · rw [List.map_append]
    have hunread : (s.server.ahead (said.map message) []).unread ++ message line =
        s.server.unread ++ message line := congrArg (· ++ message line) (List.append_nil _)
    rw [hunread] at hsent
    exact hsent

theorem Sending.bytes {off n : Nat} (h : s.Sending said line off)
    (hn : n ≤ (message line).length - off) :
    (s.buffer.drop off).take n = ((message line).drop off).take n := by
  rw [← h.buffer, List.drop_take, List.take_take, Nat.min_eq_left hn]

/-- The bytes that `write` takes were to be read next. -/
theorem Sending.wrote {off n : Nat} (h : s.Sending said line off)
    (hn : n ≤ (message line).length - off) (sent : List Str) :
    (s.wrote off (message line).length n).server.ahead sent ((message line).drop (off + n)) =
      s.server.ahead sent ((message line).drop off) := by
  have hunread : s.server.unread ++ (s.buffer.drop off).take n ++ (message line).drop (off + n) =
      s.server.unread ++ (message line).drop off := by
    rw [h.bytes hn, List.append_assoc, ← List.drop_drop, List.take_append_drop]
  unfold Session.wrote Connection.ahead
  dsimp only
  rw [hunread]

theorem at_wrote {off n : Nat} (hlines : lines = said ++ line :: rest)
    (hstdin : s.stdin = rest.flatMap message ++ tail) (h : s.Sending said line off)
    (hn : n ≤ (message line).length - off) :
    At lines tail (s.wrote off (message line).length n) := by
  have hconv := h.conversing
  rw [← h.wrote hn] at hconv
  by_cases hmore : off + n < (message line).length
  · exact .writing hlines (if_pos hmore) hstdin
      ⟨hmore, h.buffer, hconv, h.requests, h.written, h.taken, h.out⟩
  · rw [List.drop_of_length_le (Nat.le_of_not_lt hmore)] at hconv
    have hout : s.stdout = s.server.replies := h.out.trans h.written
    have hhearing : Hearing said line 0 [] (s.wrote off (message line).length n) := by
      refine ⟨hconv, Or.inl ⟨rfl, h.requests⟩, ?_, ?_, Nat.le_of_eq h.taken, rfl, List.not_mem_nil⟩
      · exact hout.symm.trans (List.append_nil _).symm
      · exact h.taken.trans (congrArg List.length h.out).symm
    exact .reading hlines (if_neg hmore) hstdin hhearing

/-- What is on its way continues what the client has of the answer. -/
theorem Hearing.coming {off : Nat} {current : Str} (h : s.Hearing said line off current) :
    s.coming <+: current.drop off := by
  obtain ⟨post, hpost⟩ : s.server.written <+: s.server.replies := h.conversing.written
  refine ⟨post, ?_⟩
  have hdrop := congrArg (List.drop s.taken) hpost
  rw [h.replies, List.drop_append_of_le_length h.behind] at hdrop
  rw [Session.coming, hdrop, h.taken, List.drop_append]
  have hall : s.stdout.drop (s.stdout.length + off) = [] :=
    List.drop_of_length_le (Nat.le_add_right _ _)
  rw [hall, List.nil_append, Nat.add_sub_cancel_left]

/-- The client has the whole answer, and the server has nothing more to do. -/
theorem Hearing.idle {off : Nat} {current x : Str} (h : s.Hearing said line off current)
    (hcurrent : current = message x) (hwritten : s.server.written = s.server.replies) :
    s.server.loop = .reading 0 ∧ s.server.unread = [] ∧ s.server.shutdown = false ∧
      s.server.requests = (said ++ [line]).map message := by
  have hrequests : s.server.requests = (said ++ [line]).map message := by
    rcases h.answer with ⟨hnil, -⟩ | ⟨_, -, -, hrequests⟩
    · exact absurd (hcurrent.symm.trans hnil) (message_ne x)
    · exact hrequests
  obtain ⟨hloop, hunread⟩ := h.conversing.waits hrequests hwritten
  exact ⟨hloop, (List.append_nil _).symm.trans hunread, h.conversing.running, hrequests⟩

theorem at_gotData {off n : Nat} {current : Str} (hlines : lines = said ++ line :: rest)
    (hstdin : s.stdin = rest.flatMap message ++ tail) (h : s.Hearing said line off current)
    (hpos : 0 < n) (hn : n ≤ s.coming.length) :
    At lines tail (s.gotData off (s.coming.take n)) := by
  obtain ⟨post, hpost⟩ := h.coming
  have hlen : (s.coming.take n).length = n := List.length_take_of_le hn
  have hbytes : s.coming.take n = (current.drop off).take n := by
    rw [← hpost, List.take_append_of_le_length hn]
  have hle : off + n ≤ current.length := by
    have hdrop := congrArg List.length hpost
    rw [List.length_append, List.length_drop] at hdrop
    omega
  obtain ⟨x, htidy, rfl⟩ : ∃ x, Tidy x ∧ current = message x := by
    rcases h.answer with ⟨rfl, -⟩ | ⟨x, htidy, hx, -⟩
    · exact absurd hle (by simp; omega)
    · exact ⟨x, htidy, hx⟩
  have hgot : ((message x).take (off + n)).length = off + n := List.length_take_of_le hle
  have htake : (s.buffer.take off ++ s.coming.take n ++ s.buffer.drop (off + n)).take (off + n) =
      (message x).take (off + n) := by
    rw [h.buffer, hbytes, ← List.take_add]
    exact List.take_left' hgot
  have hsplit : (message x).take (off + n) ++ (message x).drop (off + n) = x ++ [newline] :=
    List.take_append_drop _ _
  have hlast := (Eq.congr_left (Connection.last_byte htake hgot (by omega))).trans
    (Connection.newline_last hsplit htidy.newline)
  have hbehind : s.taken + n ≤ s.server.written.length := by
    rw [Session.coming, List.length_drop] at hn
    have hbehind := h.behind
    omega
  unfold gotData
  dsimp only
  rw [hlen]
  by_cases hend : (message x).drop (off + n) = []
  · rw [if_pos (hlast.mpr hend)]
    have hoff : off + n = (message x).length := Nat.le_antisymm hle (List.drop_eq_nil_iff.mp hend)
    have hnul : (message x).takeWhile (· ≠ 0) = message x := by
      refine List.takeWhile_eq_self_iff.mpr fun c hc => decide_eq_true fun h0 => ?_
      rcases List.mem_append.mp hc with hc | hc
      · exact htidy.nul (h0 ▸ hc)
      · exact absurd (h0.symm.trans (List.mem_singleton.mp hc)) (by decide)
    have htaken : s.taken + n = s.server.replies.length := by
      rw [h.replies, List.length_append, h.taken]
      omega
    have hwritten : s.server.written = s.server.replies :=
      List.IsPrefix.eq_of_length_le h.conversing.written (htaken ▸ hbehind)
    obtain ⟨hloop, hunread, hrunning, hrequests⟩ := h.idle rfl hwritten
    have hsplit' : lines = (said ++ [line]) ++ rest := by
      rw [hlines, List.append_assoc]
      rfl
    refine .line hsplit' rfl hstdin hloop ⟨hrunning, hunread, hrequests, hwritten, ?_, ?_⟩
    · exact htaken.trans (congrArg List.length hwritten).symm
    · dsimp only
      rw [cstr_set, htake, hoff, List.take_length, hnul, hwritten, h.replies]
  · rw [if_neg (mt hlast.mp hend)]
    refine .reading hlines rfl hstdin
      ⟨h.conversing, h.answer, h.replies, ?_, hbehind, htake, fun hin => ?_⟩
    · change s.taken + n = s.stdout.length + (off + n)
      rw [h.taken, Nat.add_assoc]
    · have hlt : off + n ≤ x.length := by
        rw [List.drop_eq_nil_iff, length_message] at hend
        omega
      rw [message, List.take_append_of_le_length hlt] at hin
      exact htidy.newline (List.mem_of_mem_take hin)

/-! ### The server moves -/

/-- The worker goes on in the conversation. -/
theorem conversing_ahead {e : Connection.Event} {sent : List Str} {more : Str}
    (h : (c.ahead sent more).Conversing) (hreliable : s.Reliable (.server e))
    (hsend : ∀ bytes, e ≠ .send bytes) (heof : e ≠ .readEof) (hstep : Connection.Step c e c') :
    (c'.ahead sent more).Conversing := by
  refine Connection.conversing_step h ?_ (Connection.step_ahead sent more hstep hsend heof)
  cases e with
  | send bytes => exact absurd rfl (hsend bytes)
  | readEof => exact absurd rfl heof
  | readError => exact hreliable
  | writeError => exact hreliable
  | sigint => exact hreliable
  | _ => trivial

/-- While the client listens, the worker does not see the end of the stream. -/
theorem not_eof {e : Connection.Event} {sent : List Str} {more : Str} (hopen : ¬ s.Closed)
    (h : (s.server.ahead sent more).Conversing) (hfrom : s.FromClient e) : e ≠ .readEof := by
  rintro rfl
  rcases hfrom with hclosed | ⟨total, hloop, hfull⟩
  · exact hopen hclosed
  · have hroom : total ≤ bufferSize := h.room hloop
    have hsize : bufferSize + 10 - 1 - total = 0 := hfull
    omega

theorem not_send {e : Connection.Event} (hfrom : s.FromClient e) (bytes : Str) :
    e ≠ .send bytes := by
  rintro rfl
  exact hfrom

/-- The worker waits, and goes on waiting. -/
theorem Idle.server {e : Connection.Event} (h : s.Idle said) (hback : Backed lines s.server v)
    (hserver : s.server.loop = .reading 0) (heof : e ≠ .readEof) (hsend : ∀ bytes, e ≠ .send bytes)
    (hreliable : s.Reliable (.server e)) (hstep : Connection.Step s.server e c) :
    Idle said { s with server := c } ∧ c.loop = .reading 0 := by
  have hconv := conversing_ahead (h.conversing hback hserver) hreliable hsend heof hstep
  have hwaits : c.served = s.server.served → s.server.written <+: c.written →
      Idle said { s with server := c } ∧ c.loop = .reading 0 := by
    intro hserved hgrown
    have hrequests : c.requests = said.map message := by
      unfold Connection.requests
      rw [hserved]
      exact h.requests
    have hreplies : c.replies = s.server.replies := by
      unfold Connection.replies
      rw [hserved]
    have hwritten : c.written = s.server.written := by
      refine (List.IsPrefix.eq_of_length_le hgrown ?_).symm
      have hle : c.written <+: c.replies := hconv.written
      rw [h.written, ← hreplies]
      exact hle.length_le
    have hall : c.written = c.replies := by rw [hwritten, hreplies, h.written]
    obtain ⟨hloop, hunread⟩ := hconv.waits hrequests hall
    refine ⟨⟨hconv.running, (List.append_nil _).symm.trans hunread, hrequests, hall, ?_, ?_⟩, hloop⟩
    · exact h.taken.trans (congrArg List.length hwritten).symm
    · exact h.out.trans hwritten.symm
  cases Connection.kind_of_step hstep with
  | serve hloop => exact absurd (hserver.symm.trans hloop) (by simp)
  | other => exact hwaits rfl (List.prefix_refl _)
  | quiet _ _ hserved hgrown => exact hwaits hserved hgrown

/-- The worker has not all of the line. -/
theorem Sending.ne {off : Nat} (h : s.Sending said line off) (unread : Str) :
    unread ++ (message line).drop off ≠ [] := by
  intro hnil
  have hdrop := (List.append_eq_nil_iff.mp hnil).2
  exact absurd (List.drop_eq_nil_iff.mp hdrop) (Nat.not_le.mpr h.lt)

theorem Sending.server {e : Connection.Event} {off : Nat} (h : s.Sending said line off)
    (hconv : (c.ahead ((said ++ [line]).map message) ((message line).drop off)).Conversing)
    (hkind : Connection.Kind s.server e c) : Sending said line off { s with server := c } := by
  obtain ⟨total, hloop⟩ := hconv.reading (h.ne c.unread)
  have hposition := hconv.position
  unfold Connection.Position at hposition
  rw [hloop] at hposition
  have hwritten : c.written = c.replies := hposition.1
  have hsame : c.served = s.server.served →
      Sending said line off { s with server := c } := by
    intro hserved
    have hreplies : c.replies = s.server.replies := by
      unfold Connection.replies
      rw [hserved]
    have hold : c.written = s.server.written := by rw [hwritten, hreplies, h.written]
    refine ⟨h.lt, h.buffer, hconv, ?_, hwritten, ?_, h.out.trans hold.symm⟩
    · change c.requests = _
      unfold Connection.requests
      rw [hserved]
      exact h.requests
    · exact h.taken.trans (congrArg List.length hold).symm
  cases hkind with
  | serve hserving =>
    obtain ⟨total, hreading⟩ := h.conversing.reading (h.ne s.server.unread)
    exact absurd (hserving.symm.trans hreading) (by simp)
  | other => exact hsame rfl
  | quiet _ _ hserved => exact hsame hserved

/-- The worker has the whole line, and it is not served yet. -/
theorem Hearing.serving {off : Nat} {current : Str} (h : s.Hearing said line off current)
    (hloop : s.server.loop = .serving total) :
    s.server.requests = said.map message ∧ current = [] ∧ off = 0 ∧
      (message line).length = total ∧ s.server.buffer.take total = message line := by
  have hposition := h.conversing.position
  unfold Connection.Position at hposition
  rw [show (s.server.ahead ((said ++ [line]).map message) []).loop = .serving total from hloop]
    at hposition
  obtain ⟨hwritten, -, msg, -, hsent, hlen, htake⟩ := hposition
  have hsent : (said ++ [line]).map message = s.server.requests ++ [msg] := hsent
  have hwritten : s.server.written = s.server.replies := hwritten
  rcases h.answer with ⟨rfl, hrequests⟩ | ⟨x, -, -, hrequests⟩
  · rw [hrequests, List.map_append] at hsent
    obtain rfl : message line = msg := List.singleton_inj.mp (List.append_cancel_left hsent)
    refine ⟨hrequests, rfl, ?_, hlen, htake⟩
    have hbehind := h.behind
    rw [h.taken, hwritten, h.replies, List.append_nil] at hbehind
    omega
  · rw [hrequests] at hsent
    exact absurd hsent (by simp)

theorem Hearing.server {off : Nat} {current : Str}
    (h : s.Hearing said line off current)
    (hconv : (c.ahead ((said ++ [line]).map message) []).Conversing)
    (hserved : c.served = s.server.served) (hgrown : s.server.written <+: c.written) :
    Hearing said line off current { s with server := c } := by
  have hrequests : c.requests = s.server.requests := congrArg (List.map _) hserved
  refine ⟨hconv, ?_, ?_, h.taken, Nat.le_trans h.behind hgrown.length_le, h.buffer, h.more⟩
  · change current = [] ∧ c.requests = _ ∨ ∃ x, Tidy x ∧ current = message x ∧ c.requests = _
    rw [hrequests]
    exact h.answer
  · change c.replies = _
    unfold Connection.replies
    rw [hserved]
    exact h.replies

/-- The line is served: now the client waits for this answer. -/
theorem Hearing.served {off : Nat} {current x : Str} {table : Table}
    (h : s.Hearing said line off current) (hloop : s.server.loop = .serving total) (htidy : Tidy x)
    (hconv : ((s.server.gotResponse total buffer (some x) table).ahead
      ((said ++ [line]).map message) []).Conversing) :
    Hearing said line off (message x)
      { s with server := s.server.gotResponse total buffer (some x) table } := by
  obtain ⟨hrequests, rfl, rfl, hlen, htake⟩ := h.serving hloop
  have hserved : (s.server.gotResponse total buffer (some x) table).served =
      s.server.served ++ [⟨message line, some x⟩] := by
    rw [← htake]
    rfl
  refine ⟨hconv, Or.inr ⟨x, htidy, rfl, ?_⟩, ?_, h.taken, h.behind, rfl, List.not_mem_nil⟩
  · unfold Connection.requests at hrequests ⊢
    rw [hserved, List.map_append, hrequests, List.map_append]
    rfl
  · have hreplies := h.replies
    rw [List.append_nil] at hreplies
    rw [← hreplies]
    unfold Connection.replies
    rw [hserved, List.flatMap_append, List.flatMap_singleton]
    rfl

/-! ### The invariant -/

/-- The session and the service that it refines. -/
structure Refines (lines : List Str) (tail : Str) (s : Session) (v : Service) : Prop where
  backed : Backed lines s.server v
  place : At lines tail s

/-- What an event is to the service, and what it makes of it. -/
def Follows (v : Service) (l : Option Service.Label) (v' : Service) : Prop :=
  match l with
  | none => v' = v
  | some l => Service.Step v l v'

theorem refines_start {serverBuffer : Buffer} (hr : Represents t B) (hm : Holds t B ∅)
    (lines : List Str) (tail : Str) :
    Refines lines tail (start serverBuffer buffer t (lines.flatMap message ++ tail))
      ⟨∅, lines, []⟩ := by
  refine ⟨⟨⟨B, hr, hm⟩, fun k x hx => ?_, rfl, ⟨[], rfl, rfl⟩, fun _ hs => ?_⟩, ?_⟩
  · rw [Finmap.lookup_empty] at hx
    exact absurd hx (by simp)
  · exact absurd hs List.not_mem_nil
  · have hsplit : lines = [] ++ lines := rfl
    exact .line hsplit rfl rfl rfl ⟨rfl, rfl, rfl, rfl, rfl, rfl⟩

theorem refines_fgets (h : Refines lines tail s v) (hlines : ∀ line ∈ lines, IsLine line)
    (htail : Ending tail) (hloop : s.loop = .line) :
    Refines lines tail (s.gotLine (fgets bufferLen s.stdin)) v := by
  obtain ⟨said, rest, hsplit, hstdin, hserver, hidle⟩ := h.place.of_line hloop
  cases rest with
  | nil =>
    obtain ⟨buffer, stdin, hgot, -⟩ := gotLine_ending htail hstdin
    obtain rfl : lines = said := hsplit.trans (List.append_nil _)
    rw [hgot]
    exact ⟨h.backed, .returned rfl ⟨hidle.running, hidle.unread, hidle.requests, hidle.written,
      hidle.taken, hidle.out⟩ (Or.inl hserver)⟩
  | cons line rest =>
    have hline := hlines line (by rw [hsplit]; simp)
    rw [List.flatMap_cons, List.append_assoc] at hstdin
    rw [gotLine_line hline hstdin]
    exact ⟨h.backed, .writing hsplit rfl rfl (hidle.sending h.backed hserver hline)⟩

/-- The worker makes a step while the client is sending or hearing. -/
theorem refines_kind {e : Connection.Event}
    (h : Refines lines tail s v) (hreliable : s.Reliable (.server e))
    (hkind : Connection.Kind s.server e c) (hserve : ∀ calls saved, e ≠ .serve calls saved)
    (hplace : At lines tail { s with server := c }) :
    ∃ v', Follows v (Event.server e).label v' ∧ Refines lines tail { s with server := c } v' := by
  cases hkind with
  | serve => exact absurd rfl (hserve _ _)
  | other hother =>
    obtain ⟨v', hstep, hback⟩ := backed_other h.backed hreliable hother
    exact ⟨v', hstep, hback, hplace⟩
  | quiet hlabel htable hserved =>
    rw [hlabel]
    exact ⟨v, rfl, h.backed.congr htable hserved, hplace⟩

theorem not_serve_of_loop {e : Connection.Event} (hkind : Connection.Kind c e c')
    (hloop : ∀ total, c.loop ≠ .serving total) (calls : Calls) (saved : Option (Pos Unit)) :
    e ≠ .serve calls saved := by
  rintro rfl
  cases hkind with
  | serve hserving => exact hloop _ hserving
  | quiet hlabel => exact absurd hlabel (by simp [Event.label])

/-- After the client has closed its socket the worker sees the end of the stream, or waits. -/
theorem Idle.closing {e : Connection.Event} (h : s.Idle lines) (hback : Backed lines s.server v)
    (hserver : s.server.loop = .reading 0 ∨ s.server.loop = .closed)
    (hsend : ∀ bytes, e ≠ .send bytes) (hreliable : s.Reliable (.server e))
    (hstep : Connection.Step s.server e c) :
    Idle lines { s with server := c } ∧ (c.loop = .reading 0 ∨ c.loop = .closed) := by
  rcases hserver with hserver | hserver
  · by_cases heof : e = .readEof
    · subst heof
      cases hstep with
      | readEof hloop =>
        obtain rfl := Loop.reading.inj (hserver.symm.trans hloop)
        exact ⟨⟨h.running, h.unread, h.requests, h.written, h.taken, h.out⟩, Or.inr rfl⟩
    · obtain ⟨hidle, hloop⟩ := h.server hback hserver heof hsend hreliable hstep
      exact ⟨hidle, Or.inl hloop⟩
  · cases hstep with
    | send => exact absurd rfl (hsend _)
    | sigint => exact hreliable.elim
    | other => exact ⟨⟨h.running, h.unread, h.requests, h.written, h.taken, h.out⟩, Or.inr hserver⟩
    | _ hloop => exact absurd (hserver.symm.trans hloop) (by simp)

theorem refines_server {e : Connection.Event} (h : Refines lines tail s v)
    (hlines : ∀ line ∈ lines, IsLine line) (hreliable : s.Reliable (.server e))
    (hstep : Connection.Step s.server e c) (hfrom : s.FromClient e) :
    ∃ v', Follows v (Event.server e).label v' ∧ Refines lines tail { s with server := c } v' := by
  have hkind := Connection.kind_of_step hstep
  have hsend := not_send hfrom
  cases h.place with
  | line hsplit hloop hstdin hserver hidle =>
    have hopen : ¬ s.Closed := by
      rintro ⟨code, hclosed⟩
      exact absurd (hloop.symm.trans hclosed) (by simp)
    have heof := not_eof hopen (hidle.conversing h.backed hserver) hfrom
    obtain ⟨hidle', hserver'⟩ := hidle.server h.backed hserver heof hsend hreliable hstep
    refine refines_kind h hreliable hkind (not_serve_of_loop hkind ?_)
      (.line hsplit hloop hstdin hserver' hidle')
    exact fun total hserving => absurd (hserver.symm.trans hserving) (by simp)
  | writing hsplit hloop hstdin hsending =>
    have hopen : ¬ s.Closed := by
      rintro ⟨code, hclosed⟩
      exact absurd (hloop.symm.trans hclosed) (by simp)
    have heof := not_eof hopen hsending.conversing hfrom
    have hsending' := hsending.server
      (conversing_ahead hsending.conversing hreliable hsend heof hstep) hkind
    refine refines_kind h hreliable hkind (not_serve_of_loop hkind fun total hserving => ?_)
      (.writing hsplit hloop hstdin hsending')
    obtain ⟨total, hreading⟩ := hsending.conversing.reading (hsending.ne s.server.unread)
    exact absurd (hserving.symm.trans hreading) (by simp)
  | @reading said rest line current off hsplit hloop hstdin hhearing =>
    have hopen : ¬ s.Closed := by
      rintro ⟨code, hclosed⟩
      exact absurd (hloop.symm.trans hclosed) (by simp)
    have heof := not_eof hopen hhearing.conversing hfrom
    have hconv := conversing_ahead hhearing.conversing hreliable hsend heof hstep
    cases hkind with
    | serve hserving hserve =>
      obtain ⟨hrequests, -, -, hlen, htake⟩ := hhearing.serving hserving
      have hline := hlines line (by rw [hsplit]; simp)
      obtain ⟨v', x, hanswer, hx, htidy, hback⟩ :=
        backed_serve h.backed hsplit hrequests hline hlen htake hserve
      rw [hx] at hback hconv ⊢
      exact ⟨v', hanswer, hback, .reading hsplit hloop hstdin
        (hhearing.served hserving htidy hconv)⟩
    | other hother =>
      exact refines_kind h hreliable (.other hother) (fun _ _ => by simp)
        (.reading hsplit hloop hstdin (hhearing.server hconv rfl (List.prefix_refl _)))
    | quiet hlabel htable hserved hgrown =>
      rw [hlabel]
      exact ⟨v, rfl, h.backed.congr htable hserved,
        .reading hsplit hloop hstdin (hhearing.server hconv hserved hgrown)⟩
  | returned hloop hidle hserver =>
    obtain ⟨hidle', hserver'⟩ := hidle.closing h.backed hserver hsend hreliable hstep
    refine refines_kind h hreliable hkind (not_serve_of_loop hkind fun total hserving => ?_)
      (.returned hloop hidle' hserver')
    rcases hserver with hserver | hserver <;> exact absurd (hserver.symm.trans hserving) (by simp)

/-- The client never has its buffer full, nor does it see the end of the stream. -/
theorem Hearing.not_eof {off : Nat} {current : Str} (h : s.Hearing said line off current)
    (hend : s.coming = [] ∧ s.server.loop = .closed ∨ bufferLen - 1 - off = 0) : False := by
  rcases hend with ⟨-, hclosed⟩ | hfull
  · have hposition := h.conversing.position
    unfold Connection.Position at hposition
    rw [show (s.server.ahead ((said ++ [line]).map message) []).loop = .closed from hclosed]
      at hposition
    exact hposition
  · have hoff : off ≤ current.length := by
      have hbehind := Nat.le_trans h.behind h.conversing.written.length_le
      rw [h.taken] at hbehind
      change _ ≤ s.server.replies.length at hbehind
      rw [h.replies, List.length_append] at hbehind
      omega
    have hcurrent : current.length ≤ bufferSize + 1 := by
      rcases h.answer with ⟨rfl, -⟩ | ⟨x, htidy, rfl, -⟩
      · exact Nat.zero_le _
      · rw [length_message]
        exact Nat.succ_le_succ htidy.length
    have hsize : bufferSize + 10 - 1 - off = 0 := hfull
    omega

theorem refines_step (hlines : ∀ line ∈ lines, IsLine line) (htail : Ending tail)
    (h : Refines lines tail s v) (hreliable : s.Reliable e) (hstep : Step s e s') :
    ∃ v', Follows v e.label v' ∧ Refines lines tail s' v' := by
  cases hstep with
  | fgets hloop => exact ⟨v, rfl, refines_fgets h hlines htail hloop⟩
  | write hloop hpos hn =>
    obtain ⟨said, line, rest, hsplit, rfl, hstdin, hsending⟩ := h.place.of_writing hloop
    exact ⟨v, rfl, h.backed.congr rfl rfl, at_wrote hsplit hstdin hsending hn⟩
  | @read off n hloop hpos hn =>
    obtain ⟨said, line, rest, current, hsplit, hstdin, hhearing⟩ := h.place.of_reading hloop
    refine ⟨v, rfl, h.backed.congr ?_ ?_, at_gotData hsplit hstdin hhearing hpos hn⟩ <;>
      · unfold gotData
        dsimp only
        split <;> rfl
  | readEof hloop hend =>
    obtain ⟨said, line, rest, current, -, -, hhearing⟩ := h.place.of_reading hloop
    exact (hhearing.not_eof hend).elim
  | writeError => exact hreliable.elim
  | readError => exact hreliable.elim
  | server hserver hfrom => exact refines_server h hlines hreliable hserver hfrom

/-- Every run of the session is one of the service. -/
theorem refines_run {es : List Event} {v₀ : Service} {s₀ : Session}
    (hlines : ∀ line ∈ lines, IsLine line) (htail : Ending tail) (h : Refines lines tail s₀ v₀)
    (hrun : Run (Guarded Reliable Step) s₀ es s) :
    ∃ v, Run Service.Step v₀ (es.filterMap Event.label) v ∧ Refines lines tail s v := by
  induction hrun with
  | nil => exact ⟨v₀, Run.nil _, h⟩
  | @snoc s s' es e _ hlast ih =>
    obtain ⟨v, hservice, hrefines⟩ := ih
    obtain ⟨v', hfollows, hrefines'⟩ := refines_step hlines htail hrefines hlast.1 hlast.2
    refine ⟨v', ?_, hrefines'⟩
    rw [List.filterMap_append]
    unfold Follows at hfollows
    cases hlabel : e.label with
    | none =>
      rw [hlabel] at hfollows
      obtain rfl : v' = v := hfollows
      rwa [List.filterMap_cons_none hlabel, List.filterMap_nil, List.append_nil]
    | some l =>
      rw [hlabel] at hfollows
      rw [List.filterMap_cons_some hlabel, List.filterMap_nil]
      exact hservice.snoc hfollows

end Session

end SnuSysProg.Skvs
