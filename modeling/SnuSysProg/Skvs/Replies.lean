import SnuSysProg.Skvs.Connection

/-
  Responses do not depend on how the stream is cut.

  A client that sends one message at a time, and the next one after the whole response, is answered
  message by message, however its messages are cut into reads and the responses into writes
  (`handle_client_in_order`).
-/

namespace SnuSysProg.Skvs
open SnuSysProg.Lib

variable {t t' t₀ : Table} {B : Nat → List Entry} {m : Map} {op : Op} {calls : Calls}
  {rbuf buffer : Buffer} {rlen n total : Nat} {saved : Option (Pos Unit)} {resp : Response}
  {r : Outcome} {k v s msg got : Str} {heap : Cells Cell} {initCalls : InitCalls}

/-! ## What is stored fits the buffer -/

/-- A string as it may be stored: without a NUL, and not longer than the buffer. -/
structure Fits (s : Str) : Prop where
  nul : 0 ∉ s
  length : s.length ≤ bufferSize

theorem fits_gMsgs (msg : Msg) : Fits (gMsgs msg) := by
  cases msg <;> exact ⟨by decide, by decide⟩

theorem fits_of_request (hrequest : requestIn rbuf rlen = .ok ⟨op.cmd, op.key, op.value?⟩)
    (hv : op.value? = some v) : Fits op.key ∧ Fits v := by
  obtain ⟨line, hline, hwords⟩ := requestIn_ok hrequest
  obtain ⟨hnul, hlength⟩ := lineIn_fits hline
  obtain ⟨hkey, -, hvalue⟩ := mem_of_requestOf hwords
  have hword : ∀ w ∈ words line, Fits w := by
    intro w hw
    obtain ⟨-, -, hin⟩ := mem_words hw
    exact ⟨fun h0 => hnul (hin.subset h0), Nat.le_trans hin.length_le hlength⟩
  exact ⟨hword _ hkey, hword v (hvalue v hv)⟩

theorem serveStep_fits {e : ServeEvent} (h : HoldsOnly Fits t) (hstep : serveStep t e t') :
    HoldsOnly Fits t' := by
  obtain ⟨B, m, hr, hm, hfits⟩ := h
  obtain ⟨b, resp, hcall, -⟩ := hstep
  exact (served_holds hfits hr hm (fun _ _ hrequest hv => fits_of_request hrequest hv)
    (Returns.of_eq hcall (skvsServe_spec hr hm))).1

/-- Only a search that succeeds is answered with something else than a message. -/
theorem reply_msg (h : r.code > 0 → ∀ k, op ≠ .search k) : ∃ msg, op.reply r = .msg msg := by
  unfold Op.reply
  split
  · rename_i hpos
    cases op with
    | search k => exact absurd rfl (h hpos k)
    | _ => exact ⟨_, rfl⟩
  · split
    · cases op <;> exact ⟨_, rfl⟩
    · exact ⟨_, rfl⟩

theorem reply_msg_text (h : r.code > 0 → ∀ k, op ≠ .search k) :
    ∃ s, (op.reply r).text t = some s := by
  obtain ⟨msg, hmsg⟩ := reply_msg h
  rw [hmsg]
  exact ⟨_, rfl⟩

/-- A reply points to nothing but what was found. -/
theorem reply_text_some (h : Called op calls t B m r t') : ∃ s, (op.reply r).text t' = some s := by
  have hfailed : ∃ s, (op.reply { code := -1 }).text t' = some s :=
    reply_msg_text fun hpos => absurd hpos (by decide)
  cases h with
  | lockFailed => exact hfailed
  | unlockFailed => exact hfailed
  | unlocked h =>
    cases h with
    | failed => exact hfailed
    | did h =>
      by_cases hpos : r.code > 0
      · cases op with
        | search k =>
          have hcode := h.code
          have htext := h.text
          cases hfind : m.lookup k with
          | none =>
            rw [search_absent hfind] at hcode
            rw [hcode] at hpos
            exact absurd hpos (by simp)
          | some v =>
            rw [search_present hfind] at htext
            exact ⟨v, reply_found hpos htext⟩
        | _ => exact reply_msg_text fun _ k => by simp
      · exact reply_msg_text fun hpos' => absurd hpos' hpos

/-- A complete request is answered with a string that fits the buffer. -/
theorem skvsServe_responds (h : HoldsOnly Fits t)
    (hcomplete : requestIn rbuf rlen ≠ .error .incomplete)
    (hserve : skvsServe calls rbuf rlen saved t = .ok ((buffer, resp), t')) :
    HoldsOnly Fits t' ∧ ∃ s, resp.text t' = some s ∧ Fits s := by
  obtain ⟨B, m, hr, hm, hfits⟩ := h
  have hserved := Returns.of_eq hserve (skvsServe_spec hr hm)
  obtain ⟨hfits', hresponse⟩ := served_holds hfits hr hm
    (fun _ _ hrequest hv => fits_of_request hrequest hv) hserved
  refine ⟨hfits', ?_⟩
  have hsome : ∃ s, resp.text t' = some s := by
    cases hserved with
    | incomplete _ hnone => exact absurd hnone hcomplete
    | invalid => exact ⟨_, rfl⟩
    | request _ hcalled => exact reply_text_some hcalled
  obtain ⟨s, hs⟩ := hsome
  refine ⟨s, hs, ?_⟩
  rcases hresponse s hs with ⟨msg, rfl⟩ | hs
  · exact fits_gMsgs msg
  · exact hs

/-! ## The worker -/

/-- A message of the protocol: one line that is not empty and fits the buffer. -/
structure Message (msg : Str) : Prop where
  length : msg.length ≤ bufferSize
  line : ∃ line, msg = line ++ [newline] ∧ newline ∉ line
  ne : msg ≠ [newline]
  nul : 0 ∉ msg

/-- A message in the buffer is not incomplete. -/
theorem Message.complete (h : Message msg) (hbuffer : buffer.take msg.length = msg) :
    requestIn buffer msg.length ≠ .error .incomplete := by
  have hlen : msg.length ≤ buffer.length := by
    conv_lhs => rw [← hbuffer]
    exact List.length_take_le' _ _
  have hall : msg.takeWhile (· ≠ 0) = msg :=
    List.takeWhile_eq_self_iff.mpr fun x hx => decide_eq_true fun h0 => h.nul (h0 ▸ hx)
  obtain ⟨line, hline, -⟩ := h.line
  rw [Ne, requestIn_incomplete hlen, hbuffer, not_not, Complete, hall, hline]
  exact Or.inr (List.mem_append_right _ (List.mem_singleton_self _))

theorem received_take (bytes : Str) (h : buffer.take total = got) (hlen : got.length = total) :
    (received buffer total bytes).take (total + bytes.length) = got ++ bytes := by
  unfold received
  rw [h, List.take_left']
  rw [List.length_append, hlen]

/-- `snprintf` has room for a response that fits. -/
theorem snprintfLine_fits (h : Fits s) :
    snprintfLine buffer (some s) =
      s ++ [newline] ++ 0 :: buffer.drop ((s ++ [newline]).length + 1) := by
  have hroom : (s ++ [newline]).length ≤ bufferLen - 1 := by
    rw [List.length_append]
    exact Nat.le_trans (Nat.add_le_add_right h.length _) (by decide)
  unfold snprintfLine
  rw [formatted, List.take_of_length_le hroom]

theorem cstr_snprintfLine (h : Fits s) :
    cstr (snprintfLine buffer (some s)) 0 = s ++ [newline] := by
  have hnul : 0 ∉ s ++ [newline] := by
    rw [List.mem_append, not_or]
    exact ⟨h.nul, by decide⟩
  rw [snprintfLine_fits h]
  have hat : cstr ([] ++ (s ++ [newline]) ++ 0 :: buffer.drop ((s ++ [newline]).length + 1))
      ([] : Buffer).length = s ++ [newline] := cstr_at hnul (ended_nul _)
  exact hat

namespace Connection

variable {c c' : Connection} {e : Event} {es : List Event}

/-- What a client of the protocol does, and what happens to its connection. -/
def HalfDuplex (c : Connection) : Event → Prop
  | .send bytes => Message bytes ∧ c.served.length = c.sent.length ∧ c.written = c.replies
  | .readEof => False
  | .readError => False
  | .writeError => False
  | .sigint => False
  | _ => True

/-- The requests that were served. -/
def requests (c : Connection) : List Str := c.served.map ServeCall.request

/-- Where the worker is in the conversation. -/
def Position (c : Connection) : Prop :=
  match c.loop with
  | .reading total => c.written = c.replies ∧
      (total = 0 ∧ c.unread = [] ∧ c.requests = c.sent ∨
        ∃ got, Message (got ++ c.unread) ∧ c.sent = c.requests ++ [got ++ c.unread] ∧
          c.unread ≠ [] ∧ got.length = total ∧ c.buffer.take total = got)
  | .serving total => c.written = c.replies ∧ c.unread = [] ∧
      ∃ msg, Message msg ∧ c.sent = c.requests ++ [msg] ∧ msg.length = total ∧
        c.buffer.take total = msg
  | .writing written total => c.requests = c.sent ∧ c.unread = [] ∧ written < total ∧
      ∃ line rest, c.buffer = line ++ rest ∧ line.length = total ∧
        c.replies = c.written ++ line.drop written
  | .closed => False

/-- The invariant of a conversation. -/
structure Conversing (c : Connection) : Prop where
  running : c.shutdown = false
  table : HoldsOnly Fits c.table
  answered : ∀ s ∈ c.served, s.response ≠ none
  position : c.Position

theorem conversing_start (buffer : Buffer) (h : HoldsOnly Fits t) :
    (accepted buffer t).Conversing :=
  ⟨rfl, h, fun _ hs => absurd hs List.not_mem_nil, rfl, Or.inl ⟨rfl, rfl, rfl⟩⟩

/-- The client sends its next message. -/
theorem conversing_send (h : c.Conversing) (hguard : c.HalfDuplex (.send msg)) :
    { c with sent := c.sent ++ [msg], unread := c.unread ++ msg : Connection }.Conversing := by
  obtain ⟨hmsg, hcount, hwritten⟩ := hguard
  refine ⟨h.running, h.table, h.answered, ?_⟩
  have hposition := h.position
  have hrequests : c.requests.length = c.sent.length := by
    unfold requests
    rw [List.length_map, hcount]
  unfold Position at hposition ⊢
  dsimp only
  cases hloop : c.loop with
  | closed =>
    rw [hloop] at hposition
    exact hposition
  | writing written total =>
    rw [hloop] at hposition
    obtain ⟨-, -, hlt, line, rest, -, hlen, hreplies⟩ := hposition
    rw [hwritten, List.self_eq_append_right, List.drop_eq_nil_iff] at hreplies
    omega
  | serving total =>
    rw [hloop] at hposition
    obtain ⟨-, -, msg', -, hsent, -⟩ := hposition
    rw [hsent, List.length_append] at hrequests
    exact absurd hrequests (by simp)
  | reading total =>
    rw [hloop] at hposition
    obtain ⟨hw, hidle | ⟨got, -, hsent, -⟩⟩ := hposition
    · obtain ⟨rfl, hunread, hsent⟩ := hidle
      have hne : msg ≠ [] := by
        obtain ⟨line, hline, -⟩ := hmsg.line
        rw [hline]
        simp
      refine ⟨hw, Or.inr ⟨[], ?_⟩⟩
      rw [hunread, List.nil_append, List.nil_append, ← hsent]
      exact ⟨hmsg, rfl, hne, rfl, rfl⟩
    · rw [hsent, List.length_append] at hrequests
      exact absurd hrequests (by simp)

/-- A part of a line ends in a newline only if it is the whole line. -/
theorem newline_last {line rest : Str} (hline : got ++ rest = line ++ [newline])
    (hnot : newline ∉ line) : got.getLast? = some newline ↔ rest = [] := by
  constructor
  · intro hlast
    rcases List.eq_nil_or_concat rest with hnil | ⟨rest', x, rfl⟩
    · exact hnil
    · rw [List.concat_eq_append, ← List.append_assoc] at hline
      obtain ⟨hgot, -⟩ := List.append_inj' hline rfl
      refine absurd ?_ hnot
      rw [← hgot]
      exact List.mem_append_left _ (List.mem_of_getLast? hlast)
  · rintro rfl
    rw [List.append_nil] at hline
    rw [hline, List.getLast?_concat]

/-- The last byte of what is in the buffer. -/
theorem last_byte (h : buffer.take total = got) (hlen : got.length = total) (hpos : 0 < total) :
    buffer[total - 1]? = got.getLast? := by
  rw [List.getLast?_eq_getElem?, hlen, ← h, List.getElem?_take, if_pos (by omega)]

/-- A whole message is served. -/
theorem afterReading_message (h : Message msg) (htake : buffer.take total = msg)
    (hlen : msg.length = total) : afterReading buffer total = .serving total := by
  obtain ⟨line, hline, -⟩ := h.line
  have hpos : 0 < total := by
    rw [← hlen, hline]
    simp
  unfold afterReading
  rw [if_neg (Nat.ne_of_gt hpos), if_neg]
  rintro ⟨rfl, hfirst⟩
  refine h.ne ?_
  have hlast := last_byte htake hlen hpos
  rw [hline, List.getLast?_concat] at hlast
  have hnil : line = [] := by
    rw [hline, List.length_append] at hlen
    exact List.length_eq_zero_iff.mp (Nat.succ.inj hlen)
  rw [hline, hnil, List.nil_append]

/-- `read` gives some bytes of the message. -/
theorem conversing_readData (h : c.Conversing) (hloop : c.loop = .reading total) (hpos : 0 < n)
    (hunread : n ≤ c.unread.length) : (c.gotData total (c.unread.take n)).Conversing := by
  refine ⟨h.running, h.table, h.answered, ?_⟩
  have hposition := h.position
  unfold Position at hposition
  rw [hloop] at hposition
  obtain ⟨hw, hidle | ⟨got, hmsg, hsent, hne, hlen, htake⟩⟩ := hposition
  · rw [hidle.2.1] at hunread
    exact absurd hunread (by simp; omega)
  · have hchunk : (c.unread.take n).length = n := List.length_take_of_le hunread
    have hbuffer := received_take (c.unread.take n) htake hlen
    have hgot : (got ++ c.unread.take n).length = total + (c.unread.take n).length := by
      rw [List.length_append, hlen]
    have hsplit : got ++ c.unread = (got ++ c.unread.take n) ++ c.unread.drop n := by
      rw [List.append_assoc, List.take_append_drop]
    rw [hsplit] at hmsg hsent
    obtain ⟨line, hline, hnot⟩ := hmsg.line
    have hlast := (Eq.congr_left (last_byte hbuffer hgot (by omega))).trans
      (newline_last hline hnot)
    have hleft : (c.gotData total (c.unread.take n)).unread = c.unread.drop n := by
      change c.unread.drop (c.unread.take n).length = _
      rw [hchunk]
    by_cases hrest : c.unread.drop n = []
    · have hloop' : (c.gotData total (c.unread.take n)).loop =
          .serving (total + (c.unread.take n).length) := by
        rw [hrest, List.append_nil] at hmsg
        exact (if_pos (hlast.mpr hrest)).trans (afterReading_message hmsg hbuffer hgot)
      unfold Position
      rw [hloop', hleft, hrest]
      rw [hrest, List.append_nil] at hmsg hsent
      exact ⟨hw, rfl, _, hmsg, hsent, hgot, hbuffer⟩
    · have hloop' : (c.gotData total (c.unread.take n)).loop =
          .reading (total + (c.unread.take n).length) := by
        refine (if_neg (mt hlast.mp hrest)).trans ?_
        rw [h.running]
        rfl
      unfold Position
      rw [hloop', hleft]
      exact ⟨hw, Or.inr ⟨_, hmsg, hsent, hrest, hgot, hbuffer⟩⟩

theorem gotResponse_loop (hrunning : c.shutdown = false) (h : Fits s) :
    (c.gotResponse total buffer (some s) t).loop = .writing 0 (s ++ [newline]).length := by
  change writeHead c.shutdown 0 (cstr (snprintfLine buffer (some s)) 0).length = _
  rw [cstr_snprintfLine h, hrunning]
  exact if_pos (by simp)

/-- The worker calls `skvs_serve` on a whole message, and it responds. -/
theorem Conversing.responds {resp : Response} (h : c.Conversing) (hloop : c.loop = .serving total)
    (hserve : skvsServe calls c.buffer total saved c.table = .ok ((buffer, resp), t')) :
    HoldsOnly Fits t' ∧ ∃ s, resp.text t' = some s ∧ Fits s := by
  have hposition := h.position
  unfold Position at hposition
  rw [hloop] at hposition
  obtain ⟨-, -, msg, hmsg, -, rfl, htake⟩ := hposition
  exact skvsServe_responds h.table (hmsg.complete htake) hserve

/-- `skvs_serve` is called on the message, and the response goes into the buffer. -/
theorem conversing_serve {resp : Response} (h : c.Conversing) (hloop : c.loop = .serving total)
    (hserve : skvsServe calls c.buffer total saved c.table = .ok ((buffer, resp), t')) :
    (c.gotResponse total buffer (resp.text t') t').Conversing := by
  have hposition := h.position
  unfold Position at hposition
  rw [hloop] at hposition
  obtain ⟨hw, hunread, msg, hmsg, hsent, rfl, htake⟩ := hposition
  obtain ⟨htable, s, hs, hfits⟩ := h.responds hloop hserve
  rw [hs]
  have hrequests : (c.gotResponse msg.length buffer (some s) t').requests = c.sent := by
    change (c.served ++
      [(⟨c.buffer.take msg.length, some s⟩ : ServeCall)]).map ServeCall.request = _
    rw [hsent, htake, List.map_append]
    rfl
  have hreplies : (c.gotResponse msg.length buffer (some s) t').replies =
      c.written ++ (s ++ [newline]) := by
    change (c.served ++ [(⟨c.buffer.take msg.length, some s⟩ : ServeCall)]).flatMap _ = _
    rw [hw, List.flatMap_append, List.flatMap_singleton]
    rfl
  refine ⟨h.running, htable, fun call hcall => ?_, ?_⟩
  · rcases List.mem_append.mp hcall with hcall | hcall
    · exact h.answered call hcall
    · rw [List.mem_singleton.mp hcall]
      simp
  · unfold Position
    rw [gotResponse_loop h.running hfits]
    exact ⟨hrequests, hunread, by simp, s ++ [newline], _, snprintfLine_fits hfits, rfl, hreplies⟩

/-- `write` takes some bytes of the response. -/
theorem conversing_write {written : Nat} (h : c.Conversing)
    (hloop : c.loop = .writing written total)
    (hn : n ≤ total - written) : (c.wrote written total n).Conversing := by
  have hposition := h.position
  unfold Position at hposition
  rw [hloop] at hposition
  obtain ⟨hrequests, hunread, hlt, line, rest, hbuffer, rfl, hreplies⟩ := hposition
  refine ⟨h.running, h.table, h.answered, ?_⟩
  have hbytes : (c.buffer.drop written).take n = (line.drop written).take n := by
    rw [hbuffer, List.drop_append_of_le_length (Nat.le_of_lt hlt), List.take_append_of_le_length]
    rw [List.length_drop]
    exact hn
  have hwritten : (c.wrote written line.length n).written ++ line.drop (written + n) =
      c.replies := by
    change c.written ++ (c.buffer.drop written).take n ++ _ = _
    rw [hbytes, hreplies, List.append_assoc, ← List.drop_drop, List.take_append_drop]
  by_cases hmore : written + n < line.length
  · have hloop' : (c.wrote written line.length n).loop = .writing (written + n) line.length :=
      if_pos hmore
    unfold Position
    rw [hloop']
    exact ⟨hrequests, hunread, hmore, line, rest, hbuffer, rfl, hwritten.symm⟩
  · have hloop' : (c.wrote written line.length n).loop = .reading 0 := by
      refine (if_neg hmore).trans ?_
      rw [h.running]
      rfl
    rw [List.drop_of_length_le (Nat.le_of_not_lt hmore), List.append_nil] at hwritten
    unfold Position
    rw [hloop']
    exact ⟨hwritten, Or.inl ⟨rfl, hunread, hrequests⟩⟩

/-- A repeated `read` finds everything as it was. -/
theorem conversing_readAgain (h : c.Conversing) (hloop : c.loop = .reading total) :
    { c with loop := readHead c.shutdown c.buffer total : Connection }.Conversing := by
  have hsame : readHead c.shutdown c.buffer total = c.loop := by
    rw [h.running, hloop]
    rfl
  rw [hsame]
  exact h

/-- And so does a repeated `write`. -/
theorem conversing_writeAgain {written : Nat} (h : c.Conversing)
    (hloop : c.loop = .writing written total) :
    { c with loop := writeHead c.shutdown written total : Connection }.Conversing := by
  have hposition := h.position
  unfold Position at hposition
  rw [hloop] at hposition
  have hsame : writeHead c.shutdown written total = c.loop := by
    rw [hloop]
    exact if_pos hposition.2.2.1
  rw [hsame]
  exact h

theorem conversing_step (h : c.Conversing) (hguard : c.HalfDuplex e) (hstep : Step c e c') :
    c'.Conversing := by
  cases hstep with
  | send => exact conversing_send h hguard
  | readData hloop hpos hunread => exact conversing_readData h hloop hpos hunread
  | readAgain hloop => exact conversing_readAgain h hloop
  | readEof => exact absurd hguard id
  | readError => exact absurd hguard id
  | serve hloop hserve => exact conversing_serve h hloop hserve
  | write hloop _ hn => exact conversing_write h hloop hn
  | writeAgain hloop => exact conversing_writeAgain h hloop
  | writeError => exact absurd hguard id
  | sigint => exact absurd hguard id
  | other hserve => exact ⟨h.running, serveStep_fits h.table hserve, h.answered, h.position⟩

/-! ## What the client sees -/

/-- `skvs_serve` is called on the messages, one after the other, and the client gets each response
    with a newline; all of them, when nothing is left to read and the worker waits for more. -/
structure InOrder (c : Connection) : Prop where
  calls : c.requests <+: c.sent
  answered : ∀ s ∈ c.served, s.response ≠ none
  bytes : c.written <+: c.replies
  complete : c.unread = [] → c.loop = .reading 0 → c.requests = c.sent ∧ c.written = c.replies

/-- The worker waits for the next message, or goes on whatever the next call gives. -/
def Ready (c : Connection) : Prop :=
  c.loop = .reading 0 ∧ c.unread = [] ∨
    (∃ total, c.loop = .reading total ∧ c.unread ≠ [] ∧
      ∀ n, 0 < n → n ≤ c.unread.length → ∃ c', Step c (.readData n) c') ∨
    (∃ total, c.loop = .serving total ∧ ∀ calls saved, ∃ c', Step c (.serve calls saved) c') ∨
    ∃ written total, c.loop = .writing written total ∧ written < total ∧
      ∀ n, 0 < n → n ≤ total - written → ∃ c', Step c (.write n) c'

/-- What is left to do for the message, at most. -/
def work (c : Connection) : Nat :=
  match c.loop with
  | .reading _ => if c.unread = [] then 0 else c.unread.length + (bufferSize + 3)
  | .serving _ => bufferSize + 2
  | .writing written total => total - written
  | .closed => 0

/-- The events that get the worker further. -/
def Event.Moves : Event → Prop
  | .readData _ => True
  | .serve _ _ => True
  | .write _ => True
  | _ => False

theorem Conversing.inOrder (h : c.Conversing) : c.InOrder := by
  have hposition := h.position
  unfold Position at hposition
  have hcalls : c.requests <+: c.sent ∧ c.written <+: c.replies := by
    cases hloop : c.loop with
    | closed =>
      rw [hloop] at hposition
      exact hposition.elim
    | reading total =>
      rw [hloop] at hposition
      obtain ⟨hw, ⟨-, -, hsent⟩ | ⟨got, -, hsent, -⟩⟩ := hposition
      · exact ⟨hsent ▸ List.prefix_refl _, hw ▸ List.prefix_refl _⟩
      · exact ⟨hsent ▸ List.prefix_append _ _, hw ▸ List.prefix_refl _⟩
    | serving total =>
      rw [hloop] at hposition
      obtain ⟨hw, -, msg, -, hsent, -⟩ := hposition
      exact ⟨hsent ▸ List.prefix_append _ _, hw ▸ List.prefix_refl _⟩
    | writing written total =>
      rw [hloop] at hposition
      obtain ⟨hsent, -, -, line, rest, -, -, hreplies⟩ := hposition
      exact ⟨hsent ▸ List.prefix_refl _, hreplies ▸ List.prefix_append _ _⟩
  refine ⟨hcalls.1, h.answered, hcalls.2, fun hunread hloop => ?_⟩
  rw [hloop] at hposition
  obtain ⟨hw, ⟨-, -, hsent⟩ | ⟨_, -, -, hne, -⟩⟩ := hposition
  · exact ⟨hsent, hw⟩
  · exact absurd hunread hne

theorem Conversing.ready (h : c.Conversing) : c.Ready := by
  have hposition := h.position
  unfold Position at hposition
  cases hloop : c.loop with
  | closed =>
    rw [hloop] at hposition
    exact hposition.elim
  | reading total =>
    rw [hloop] at hposition
    obtain ⟨-, ⟨rfl, hunread, -⟩ | ⟨got, hmsg, -, hne, hlen, -⟩⟩ := hposition
    · exact Or.inl ⟨hloop, hunread⟩
    · refine Or.inr (Or.inl ⟨total, hloop, hne, fun n hpos hn => ⟨_, .readData hloop hpos hn ?_⟩⟩)
      have hroom := hmsg.length
      rw [List.length_append, hlen] at hroom
      change n ≤ bufferSize + 10 - 1 - total
      omega
  | serving total =>
    refine Or.inr (Or.inr (Or.inl ⟨total, hloop, fun calls saved => ?_⟩))
    obtain ⟨B, m, hr, hm, -⟩ := h.table
    obtain ⟨⟨buffer, resp⟩, table, hserve, -⟩ :
        Returns (skvsServe calls c.buffer total saved) c.table _ := skvsServe_spec hr hm
    exact ⟨_, .serve hloop hserve⟩
  | writing written total =>
    rw [hloop] at hposition
    exact Or.inr (Or.inr (Or.inr ⟨written, total, hloop, hposition.2.2.1,
      fun n hpos hn => ⟨_, .write hloop hpos hn⟩⟩))

/-- A part of a message that was read is waited for, or served. -/
theorem work_gotData (hpos : 0 < n) (hunread : n ≤ c.unread.length)
    (hloop : c.loop = .reading total) :
    (c.gotData total (c.unread.take n)).work < c.work := by
  have hne : c.unread ≠ [] := by
    intro hnil
    rw [hnil] at hunread
    exact absurd hunread (by simp; omega)
  have hless : (c.gotData total (c.unread.take n)).unread.length < c.unread.length := by
    change (c.unread.drop (c.unread.take n).length).length < _
    rw [List.length_drop, List.length_take_of_le hunread]
    omega
  have hbefore : c.work = c.unread.length + (bufferSize + 3) := by
    unfold work
    rw [hloop]
    exact if_neg hne
  have hnot : ∀ w l, (c.gotData total (c.unread.take n)).loop ≠ .writing w l := by
    intro w l
    unfold gotData readHead afterReading
    dsimp only
    split_ifs <;> simp
  rw [hbefore]
  unfold work
  cases hloop' : (c.gotData total (c.unread.take n)).loop with
  | closed => exact Nat.lt_of_lt_of_le (Nat.zero_lt_succ _) (Nat.le_add_left _ _)
  | writing w l => exact absurd hloop' (hnot w l)
  | serving =>
    dsimp only
    omega
  | reading =>
    dsimp only
    split
    · exact Nat.lt_of_lt_of_le (Nat.zero_lt_succ _) (Nat.le_add_left _ _)
    · omega

theorem Conversing.work_lt (h : c.Conversing) (hmoves : e.Moves) (hstep : Step c e c') :
    c'.work < c.work := by
  cases hstep with
  | readData hloop hpos hunread => exact work_gotData hpos hunread hloop
  | serve hloop hserve =>
    obtain ⟨-, s, hs, hfits⟩ := h.responds hloop hserve
    have hlength := hfits.length
    rw [hs]
    unfold work
    rw [hloop, gotResponse_loop h.running hfits, List.length_append]
    dsimp only [List.length_singleton]
    omega
  | @write n written total hloop hpos hn =>
    have hposition := h.position
    unfold Position at hposition
    rw [hloop] at hposition
    obtain ⟨-, hunread, hlt, -⟩ := hposition
    have hbefore : c.work = total - written := by
      unfold work
      rw [hloop]
    rw [hbefore]
    by_cases hmore : written + n < total
    · have hloop' : (c.wrote written total n).loop = .writing (written + n) total := if_pos hmore
      unfold work
      rw [hloop']
      dsimp only
      omega
    · have hloop' : (c.wrote written total n).loop = .reading 0 := by
        refine (if_neg hmore).trans ?_
        rw [h.running]
        rfl
      have hdone : (c.wrote written total n).work = 0 := by
        unfold work
        rw [hloop']
        exact if_pos hunread
      rw [hdone]
      omega
  | _ => exact absurd hmoves id

/-- **Responses do not depend on how the stream is cut.** However the messages are cut into reads
    and the responses into writes, `skvs_serve` is called on the messages, each once and in order,
    and each response is sent with a newline; the worker never gets stuck, and every call that gives
    something brings it nearer to the next message. Requests of other clients may be carried out
    between the steps of this worker, each of them as a whole. -/
theorem handle_client_in_order {c : Connection} {es : List Event} (hn : 0 < n)
    (hn' : n ≤ 2 ^ 31 - 1)
    (hinit : hashInit initCalls heap n = some t₀)
    (hrun : Run (Guarded HalfDuplex Step) (accepted buffer t₀) es c) :
    c.InOrder ∧ c.Ready ∧ ∀ e c', e.Moves → Step c e c' → c'.work < c.work := by
  have hall : c.Conversing :=
    Run.preserves_of_steps (P := Conversing)
      (fun _ _ _ h hguard hstep => conversing_step h hguard hstep) hrun
      (conversing_start buffer (holdsOnly_init hn hn' hinit))
  exact ⟨hall.inOrder, hall.ready, fun e c' hmoves hstep => hall.work_lt hmoves hstep⟩

/-- The server with an empty table of one bucket, before a client sends anything. -/
def fresh : Connection := accepted [] ⟨∅, fun _ => nullAddr, fun _ => 0, 0, 1⟩

/-- A message that comes in two parts. -/
theorem handle_client_in_order_two_reads : ∃ es c, Run (Guarded HalfDuplex Step) fresh es c ∧
    c.loop = .serving 7 ∧ c.InOrder ∧ c.Ready ∧
      ∀ e c', e.Moves → Step c e c' → c'.work < c.work := by
  have hmsg : Message ((readLine 107).take 7) :=
    ⟨by decide, ⟨(readLine 107).take 6, by decide, by decide⟩, by decide, by decide⟩
  have hsend : fresh.HalfDuplex (.send ((readLine 107).take 7)) := ⟨hmsg, rfl, rfl⟩
  have hread : ∀ (c : Connection) n, c.HalfDuplex (.readData n) := fun _ _ => trivial
  have hagain : ∀ c : Connection, c.HalfDuplex .readAgain := fun _ => trivial
  have h1 : Run (Guarded HalfDuplex Step) fresh _ _ := Run.single ⟨hsend, .send⟩
  have h2 := h1.snoc ⟨hread _ 3, .readData rfl (by decide) (by decide) (by decide)⟩
  have h3 := h2.snoc ⟨hagain _, .readAgain rfl⟩
  have h4 := h3.snoc ⟨hread _ 4, .readData rfl (by decide) (by decide) (by decide)⟩
  exact ⟨_, _, h4, rfl, handle_client_in_order (by decide) (by decide) hashInit_one h4⟩

end Connection

end SnuSysProg.Skvs
