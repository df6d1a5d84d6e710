import SnuSysProg.Skvs.Replies

/-
  A message that is longer than `BUFFER_SIZE`.

  The worker asks `read` for `sizeof(buffer) - 1` bytes at most. A message up to that length is read
  whole, and `skvs_parse` refuses it. For a longer one the last `read` is asked for no bytes at all;
  its 0 ends the reading loop as the end of the stream does, what is in the buffer is refused, and
  what is left of the message stands where the next message should be. One byte left is a newline
  alone, which ends the connection; two or more are served as a request of their own
  (`handle_client_oversized`).
-/

namespace SnuSysProg.Skvs
open SnuSysProg.Lib

variable {t t' t₀ : Table} {calls : Calls} {rbuf buffer : Buffer} {rlen n total : Nat}
  {saved : Option (Pos Unit)} {resp : Response} {msg got line bytes : Str} {heap : Cells Cell}
  {initCalls : InitCalls}

/-- A line that is longer than `BUFFER_SIZE`. -/
structure Oversized (msg : Str) : Prop where
  length : bufferSize < msg.length
  line : ∃ line, msg = line ++ [newline] ∧ newline ∉ line

/-- The answer to it. -/
def invalidLine : Str := gMsgs .invalid ++ [newline]

theorem requestIn_oversized (h : bufferSize < rlen) : requestIn rbuf rlen = .error .invalid := by
  unfold requestIn lineIn
  rw [if_pos h]

/-- More bytes than `BUFFER_SIZE` are refused, and the table is not touched. -/
theorem skvsServe_oversized (h : HoldsOnly Fits t) (hlong : bufferSize < rlen)
    (hserve : skvsServe calls rbuf rlen saved t = .ok ((buffer, resp), t')) :
    t' = t ∧ resp.text t' = some (gMsgs .invalid) := by
  obtain ⟨B, m, hr, hm, -⟩ := h
  have hinvalid : requestIn rbuf rlen = .error .invalid := requestIn_oversized hlong
  cases Returns.of_eq hserve (skvsServe_spec hr hm) with
  | incomplete _ hnone =>
    rw [hinvalid] at hnone
    exact absurd hnone (by simp)
  | invalid => exact ⟨rfl, rfl⟩
  | request hrequest =>
    rw [hinvalid] at hrequest
    exact absurd hrequest (by simp)

theorem serves (h : HoldsOnly Fits t) (calls : Calls) (rbuf : Buffer) (rlen : Nat)
    (saved : Option (Pos Unit)) :
    ∃ buffer resp t', skvsServe calls rbuf rlen saved t = .ok ((buffer, resp), t') := by
  obtain ⟨B, m, hr, hm, -⟩ := h
  obtain ⟨⟨buffer, resp⟩, t', hserve, -⟩ : Returns (skvsServe calls rbuf rlen saved) t _ :=
    skvsServe_spec hr hm
  exact ⟨buffer, resp, t', hserve⟩

namespace Connection

variable {c c₀ c₁ c' : Connection} {e : Event} {es es₀ : List Event}

/-- The worker waits for a message. -/
def Waits (c : Connection) : Prop := c.loop = .reading 0 ∧ c.unread = [] ∧ c.shutdown = false

/-- Before the next message of a client that leaves the connection open: a `read` gives 0 only when
    it is asked for 0 bytes. -/
def BeforeNext (c : Connection) : Event → Prop
  | .send _ => False
  | .readEof => c.loop = .reading (bufferLen - 1)
  | .readError => False
  | .writeError => False
  | .sigint => False
  | _ => True

/-- The worker has nothing more to do until the next message. -/
def Idle (c : Connection) : Prop := c.loop = .closed ∨ c.loop = .reading 0 ∧ c.unread = []

/-- What is left to do for the bytes in the buffer, at most. -/
def loopLeft : Loop → Nat
  | .reading 0 => 0
  | .reading _ => bufferSize + 4
  | .serving _ => bufferSize + 3
  | .writing written total => total - written
  | .closed => 0

/-- What is left to do until then, at most. -/
def left (c : Connection) : Nat := c.unread.length * (bufferSize + 5) + loopLeft c.loop

/-- A system call or `skvs_serve` gets the worker further. -/
def Event.Advances (e : Event) : Prop := e.Moves ∨ e = .readEof

/-- The responses since `c₀` are none or one, and it is `INVALID CMD`; the table is not changed by
    the worker; and the one response is written before the worker waits again, or is done with the
    connection, which it gets nearer to with every call. -/
structure OneAnswer (c₀ c : Connection) : Prop where
  calls : c.served = c₀.served ∨
    ∃ request, c.served = c₀.served ++ [⟨request, some (gMsgs .invalid)⟩]
  bytes : c.written <+: c₀.written ++ invalidLine
  quiet : ∀ calls saved c', Step c (.serve calls saved) c' → c'.table = c.table
  done : c.Idle → c.served ≠ c₀.served ∧ c.written = c₀.written ++ invalidLine
  ready : c.Idle ∨ ∃ e c', e.Advances ∧ c.BeforeNext e ∧ Step c e c'
  returns : ∀ total, c.loop = .serving total → ∀ calls saved, ∃ c', Step c (.serve calls saved) c'
  nearer : ∀ e c', e.Advances → c.BeforeNext e → Step c e c' → c'.left < c.left

/-! ## While the message is answered -/

/-- Nothing was served since `c₀`. -/
def Unanswered (c₀ c : Connection) : Prop := c.served = c₀.served ∧ c.written = c₀.written

/-- The message was served. -/
def Refused (c₀ c : Connection) : Prop :=
  ∃ request, c.served = c₀.served ++ [⟨request, some (gMsgs .invalid)⟩]

/-- At most the newline of the message was not read. -/
def Leftover (c : Connection) : Prop := c.unread = [] ∨ c.unread = [newline]

/-- Where the worker is with the message `msg`. -/
def Stage (msg : Str) (c₀ c : Connection) : Prop :=
  match c.loop with
  | .reading total =>
    Unanswered c₀ c ∧ c.unread ≠ [] ∧
        (∃ got, msg = got ++ c.unread ∧ got.length = total ∧ c.buffer.take total = got) ∨
      total = 0 ∧ Refused c₀ c ∧ c.written = c₀.written ++ invalidLine ∧ c.Leftover
  | .serving total => Unanswered c₀ c ∧ bufferSize < total ∧ c.Leftover
  | .writing written total =>
    Refused c₀ c ∧ c.Leftover ∧ written < total ∧ total = invalidLine.length ∧
      (∃ rest, c.buffer = invalidLine ++ rest) ∧
      c₀.written ++ invalidLine = c.written ++ invalidLine.drop written
  | .closed => Refused c₀ c ∧ c.written = c₀.written ++ invalidLine ∧ c.unread = []

/-- The invariant from the message to its answer. -/
structure Answering (msg : Str) (c₀ c : Connection) : Prop where
  running : c.shutdown = false
  table : HoldsOnly Fits c.table
  stage : Stage msg c₀ c

/-- Every step keeps what is stored short. -/
theorem fits_step (h : HoldsOnly Fits c.table) (hstep : Step c e c') : HoldsOnly Fits c'.table := by
  cases hstep with
  | serve _ hserve => exact serveStep_fits (e := ⟨_, _, _, _, _⟩) h ⟨_, _, hserve, rfl⟩
  | other hserve => exact serveStep_fits h hserve
  | _ => exact h

/-- Where a `read` that gives `bytes` leads. -/
theorem gotData_loop (htake : c.buffer.take total = got) (hlen : got.length = total)
    (hne : bytes ≠ []) :
    (c.gotData total bytes).loop =
      if (got ++ bytes).getLast? = some newline then
        afterReading (received c.buffer total bytes) (total + bytes.length)
      else readHead c.shutdown (received c.buffer total bytes) (total + bytes.length) := by
  have hpos : 0 < bytes.length := List.length_pos_iff.mpr hne
  have hlast := last_byte (received_take bytes htake hlen)
    (by rw [List.length_append, hlen] : (got ++ bytes).length = total + bytes.length) (by omega)
  rw [← hlast]
  rfl

/-- What `afterReading` does with more than a newline. -/
theorem afterReading_long (h : 1 < total) : afterReading buffer total = .serving total := by
  unfold afterReading
  rw [if_neg (by omega), if_neg (by omega)]

theorem invalidLine_pos : 0 < invalidLine.length := by decide

/-- A message that fits the buffer but for its last byte leaves its newline. -/
theorem leftover_of_full (hmsg : Oversized msg) (hfits : msg.length ≤ bufferLen)
    (hsplit : msg = got ++ c.unread) (hlen : got.length = bufferLen - 1) : c.Leftover := by
  by_cases hnil : c.unread = []
  · exact Or.inl hnil
  · obtain ⟨line, hline, -⟩ := hmsg.line
    have hone : c.unread.length = 1 := by
      have hpos := List.length_pos_iff.mpr hnil
      have hboth := congrArg List.length hsplit
      rw [List.length_append, hlen] at hboth
      have hpred : bufferLen - 1 + 1 = bufferLen := by decide
      omega
    obtain ⟨x, hx⟩ := List.length_eq_one_iff.mp hone
    rw [hx, hline] at hsplit
    obtain ⟨-, hlast⟩ := List.append_inj' hsplit rfl
    exact Or.inr (hx.trans hlast.symm)

/-- The message comes in. -/
theorem answering_readData (h : Answering msg c₀ c) (hmsg : Oversized msg)
    (hloop : c.loop = .reading total) (hpos : 0 < n) (hunread : n ≤ c.unread.length) :
    Answering msg c₀ (c.gotData total (c.unread.take n)) := by
  refine ⟨h.running, h.table, ?_⟩
  have hstage := h.stage
  unfold Stage at hstage
  rw [hloop] at hstage
  have hchunk : (c.unread.take n).length = n := List.length_take_of_le hunread
  have hne : c.unread.take n ≠ [] := List.length_pos_iff.mp (by omega)
  have hleft : (c.gotData total (c.unread.take n)).unread = c.unread.drop n :=
    congrArg (fun n => c.unread.drop n) hchunk
  obtain ⟨hun, -, got, hsplit, hlen, htake⟩ | ⟨rfl, hrefused, hwritten, hleftover⟩ := hstage
  · obtain ⟨line, hline, hnot⟩ := hmsg.line
    have hgot : (got ++ c.unread.take n).length = total + (c.unread.take n).length := by
      rw [List.length_append, hlen]
    have hparts : msg = (got ++ c.unread.take n) ++ c.unread.drop n := by
      rw [hsplit, List.append_assoc, List.take_append_drop]
    have hlast := newline_last (hparts.symm.trans hline) hnot
    by_cases hrest : c.unread.drop n = []
    · have hall : msg = got ++ c.unread.take n := by
        rw [hparts, hrest, List.append_nil]
      have hlong : bufferSize < total + (c.unread.take n).length := by
        rw [← hgot, ← hall]
        exact hmsg.length
      have hloop' : (c.gotData total (c.unread.take n)).loop =
          .serving (total + (c.unread.take n).length) := by
        rw [gotData_loop htake hlen hne, if_pos (hlast.mpr hrest)]
        exact afterReading_long (Nat.lt_of_le_of_lt (by decide) hlong)
      unfold Stage
      rw [hloop']
      exact ⟨hun, hlong, Or.inl (hleft.trans hrest)⟩
    · have hloop' : (c.gotData total (c.unread.take n)).loop =
          .reading (total + (c.unread.take n).length) := by
        rw [gotData_loop htake hlen hne, if_neg (mt hlast.mp hrest), h.running]
        rfl
      unfold Stage
      rw [hloop']
      refine Or.inl ⟨hun, hleft ▸ hrest, _, ?_, hgot, received_take _ htake hlen⟩
      rw [hleft]
      exact hparts
  · -- the newline that was left over
    have hnewline : c.unread = [newline] := by
      rcases hleftover with hnil | hone
      · exact absurd (by rw [hnil, List.take_nil]) hne
      · exact hone
    have hn : n = 1 := by
      rw [hnewline] at hunread
      exact Nat.le_antisymm hunread hpos
    have hloop' : (c.gotData 0 (c.unread.take n)).loop = .closed := by
      rw [hnewline, hn]
      rfl
    unfold Stage
    rw [hloop']
    refine ⟨hrefused, hwritten, ?_⟩
    rw [hleft, hnewline, hn]
    rfl

/-- `read` is asked for no bytes. -/
theorem answering_readEof (h : Answering msg c₀ c) (hmsg : Oversized msg)
    (hfits : msg.length ≤ bufferLen) (hloop : c.loop = .reading (bufferLen - 1)) :
    Answering msg c₀ { c with loop := afterReading c.buffer (bufferLen - 1) } := by
  refine ⟨h.running, h.table, ?_⟩
  have hstage := h.stage
  unfold Stage at hstage
  rw [hloop] at hstage
  obtain ⟨hun, -, got, hsplit, hlen, -⟩ | ⟨hzero, -⟩ := hstage
  · have hlong : 1 < bufferLen - 1 := by decide
    have hleft := leftover_of_full hmsg hfits hsplit hlen
    rw [afterReading_long hlong]
    exact ⟨hun, by decide, hleft⟩
  · exact absurd hzero (by decide)

/-- What was read is refused. -/
theorem answering_serve (h : Answering msg c₀ c) (hloop : c.loop = .serving total)
    (hserve : skvsServe calls c.buffer total saved c.table = .ok ((buffer, resp), t')) :
    Answering msg c₀ (c.gotResponse total buffer (resp.text t') t') ∧ t' = c.table := by
  have hstage := h.stage
  unfold Stage at hstage
  rw [hloop] at hstage
  obtain ⟨⟨hserved, hwritten⟩, hlong, hleftover⟩ := hstage
  obtain ⟨rfl, hresp⟩ := skvsServe_oversized h.table hlong hserve
  rw [hresp]
  refine ⟨⟨h.running, h.table, ?_⟩, rfl⟩
  have hfits := fits_gMsgs .invalid
  unfold Stage
  rw [gotResponse_loop h.running hfits]
  refine ⟨⟨c.buffer.take total, ?_⟩, hleftover, invalidLine_pos, rfl,
    ⟨_, snprintfLine_fits hfits⟩, ?_⟩
  · rw [← hserved]
    rfl
  · rw [← hwritten]
    rfl

/-- The answer goes out. -/
theorem answering_write {written : Nat} (h : Answering msg c₀ c)
    (hloop : c.loop = .writing written total) (hn : n ≤ total - written) :
    Answering msg c₀ (c.wrote written total n) := by
  have hstage := h.stage
  unfold Stage at hstage
  rw [hloop] at hstage
  obtain ⟨hrefused, hleftover, hlt, rfl, ⟨rest, hbuffer⟩, hbytes⟩ := hstage
  refine ⟨h.running, h.table, ?_⟩
  have htaken : (c.buffer.drop written).take n = (invalidLine.drop written).take n := by
    rw [hbuffer, List.drop_append_of_le_length (Nat.le_of_lt hlt), List.take_append_of_le_length]
    rw [List.length_drop]
    exact hn
  have hwritten : c₀.written ++ invalidLine =
      (c.wrote written invalidLine.length n).written ++ invalidLine.drop (written + n) := by
    change _ = c.written ++ (c.buffer.drop written).take n ++ _
    rw [htaken, hbytes, List.append_assoc, ← List.drop_drop, List.take_append_drop]
  unfold Stage
  by_cases hmore : written + n < invalidLine.length
  · have hloop' : (c.wrote written invalidLine.length n).loop =
        .writing (written + n) invalidLine.length := if_pos hmore
    rw [hloop']
    exact ⟨hrefused, hleftover, hmore, rfl, ⟨rest, hbuffer⟩, hwritten⟩
  · have hloop' : (c.wrote written invalidLine.length n).loop = .reading 0 := by
      refine (if_neg hmore).trans ?_
      rw [h.running]
      rfl
    rw [List.drop_of_length_le (Nat.le_of_not_lt hmore), List.append_nil] at hwritten
    rw [hloop']
    exact Or.inr ⟨rfl, hrefused, hwritten.symm, hleftover⟩

/-- A repeated call finds the worker where it was. -/
theorem answering_again {loop : Loop} (h : Answering msg c₀ c) (hloop : loop = c.loop) :
    Answering msg c₀ { c with loop := loop } := by
  rw [hloop]
  exact h

theorem answering_step (h : Answering msg c₀ c) (hmsg : Oversized msg)
    (hfits : msg.length ≤ bufferLen) (hbefore : c.BeforeNext e) (hstep : Step c e c') :
    Answering msg c₀ c' := by
  cases hstep with
  | send => exact absurd hbefore id
  | readData hloop hpos hunread => exact answering_readData h hmsg hloop hpos hunread
  | readAgain hloop =>
    refine answering_again h ?_
    rw [h.running, hloop]
    rfl
  | readEof hloop =>
    obtain rfl := Loop.reading.inj (hloop.symm.trans hbefore)
    exact answering_readEof h hmsg hfits hloop
  | readError => exact absurd hbefore id
  | serve hloop hserve => exact (answering_serve h hloop hserve).1
  | write hloop _ hn => exact answering_write h hloop hn
  | writeAgain hloop =>
    have hstage := h.stage
    unfold Stage at hstage
    rw [hloop] at hstage
    refine answering_again h ?_
    rw [hloop]
    exact if_pos hstage.2.2.1
  | writeError => exact absurd hbefore id
  | sigint => exact absurd hbefore id
  | other hserve => exact ⟨h.running, serveStep_fits h.table hserve, h.stage⟩

/-! ## One answer -/

theorem gotData_loopLeft (total : Nat) (bytes : Str) :
    loopLeft (c.gotData total bytes).loop < bufferSize + 5 := by
  have hreading : ∀ n, loopLeft (.reading n) < bufferSize + 5 := by
    intro n
    cases n <;> simp [loopLeft]
  have hafter : ∀ b n, loopLeft (afterReading b n) < bufferSize + 5 := by
    intro b n
    unfold afterReading
    split_ifs <;> simp [loopLeft]
  unfold gotData readHead
  dsimp only
  split_ifs
  · exact hafter _ _
  · exact hafter _ _
  · exact hreading _

/-- Reading a byte makes up for all that can be left to do afterwards. -/
theorem left_gotData (hpos : 0 < n) (hunread : n ≤ c.unread.length) :
    (c.gotData total (c.unread.take n)).left < c.left := by
  have hlen : (c.gotData total (c.unread.take n)).unread.length = c.unread.length - n := by
    change (c.unread.drop (c.unread.take n).length).length = _
    rw [List.length_drop, List.length_take_of_le hunread]
  unfold left
  rw [hlen]
  calc (c.unread.length - n) * (bufferSize + 5) +
          loopLeft (c.gotData total (c.unread.take n)).loop
      < (c.unread.length - n) * (bufferSize + 5) + (bufferSize + 5) :=
        Nat.add_lt_add_left (gotData_loopLeft _ _) _
    _ = (c.unread.length - n + 1) * (bufferSize + 5) := (Nat.succ_mul _ _).symm
    _ ≤ c.unread.length * (bufferSize + 5) := Nat.mul_le_mul_right _ (by omega)
    _ ≤ c.unread.length * (bufferSize + 5) + loopLeft c.loop := Nat.le_add_right _ _

/-- A step that leaves the stream as it is gets further in the loop. -/
theorem left_of_loop (hunread : c'.unread = c.unread) (hloop : loopLeft c'.loop < loopLeft c.loop) :
    c'.left < c.left := by
  unfold left
  rw [hunread]
  exact Nat.add_lt_add_left hloop _

theorem Answering.nearer (h : Answering msg c₀ c) (hadvances : e.Advances)
    (hbefore : c.BeforeNext e) (hstep : Step c e c') : c'.left < c.left := by
  have hstage := h.stage
  unfold Stage at hstage
  cases hstep with
  | readData _ hpos hunread => exact left_gotData hpos hunread
  | readEof hloop =>
    obtain rfl := Loop.reading.inj (hloop.symm.trans hbefore)
    refine left_of_loop rfl ?_
    rw [hloop, afterReading_long (by decide)]
    exact Nat.lt_succ_self _
  | serve hloop hserve =>
    rw [hloop] at hstage
    obtain ⟨rfl, hresp⟩ := skvsServe_oversized h.table hstage.2.1 hserve
    refine left_of_loop rfl ?_
    rw [hresp, gotResponse_loop h.running (fits_gMsgs .invalid), hloop]
    exact (by decide : invalidLine.length < bufferSize + 3)
  | @write n written total hloop hpos hn =>
    rw [hloop] at hstage
    refine left_of_loop rfl ?_
    change loopLeft (writeHead c.shutdown (written + n) total) < _
    rw [hloop, h.running]
    by_cases hmore : written + n < total
    · rw [writeHead, if_pos hmore]
      exact Nat.sub_lt_sub_left hstage.2.2.1 (Nat.lt_add_of_pos_right hpos)
    · rw [writeHead, if_neg hmore]
      exact Nat.sub_pos_of_lt hstage.2.2.1
  | _ =>
    obtain hmoves | heof := hadvances
    · exact absurd hmoves id
    · exact absurd heof (by simp)

/-- The worker waits, or has a call to make. -/
theorem Answering.ready (h : Answering msg c₀ c) (hfits : msg.length ≤ bufferLen) :
    c.Idle ∨ ∃ e c', e.Advances ∧ c.BeforeNext e ∧ Step c e c' := by
  have hstage := h.stage
  unfold Stage at hstage
  cases hloop : c.loop with
  | closed => exact Or.inl (Or.inl hloop)
  | reading total =>
    rw [hloop] at hstage
    have htotal : total ≤ bufferLen - 1 := by
      obtain ⟨-, hne, got, hsplit, rfl, -⟩ | ⟨rfl, -⟩ := hstage
      · have hpos := List.length_pos_iff.mpr hne
        rw [hsplit, List.length_append] at hfits
        omega
      · exact Nat.zero_le _
    by_cases hnil : c.unread = []
    · obtain ⟨-, hne, -⟩ | ⟨rfl, -⟩ := hstage
      · exact absurd hnil hne
      · exact Or.inl (Or.inr ⟨hloop, hnil⟩)
    · have hpos := List.length_pos_iff.mpr hnil
      refine Or.inr ?_
      by_cases hroom : total < bufferLen - 1
      · exact ⟨.readData 1, _, Or.inl trivial, trivial,
          .readData hloop Nat.one_pos hpos (Nat.sub_pos_of_lt hroom)⟩
      · obtain rfl : total = bufferLen - 1 := Nat.le_antisymm htotal (Nat.le_of_not_lt hroom)
        exact ⟨.readEof, _, Or.inr rfl, hloop, .readEof hloop (Or.inr (Nat.sub_self _))⟩
  | serving total =>
    obtain ⟨buffer, resp, t', hserve⟩ :=
      serves h.table ⟨0, 0, bump, bump, bump⟩ c.buffer total none
    exact Or.inr ⟨.serve _ none, _, Or.inl trivial, trivial, .serve hloop hserve⟩
  | writing written total =>
    rw [hloop] at hstage
    exact Or.inr ⟨.write 1, _, Or.inl trivial, trivial,
      .write hloop Nat.one_pos (Nat.sub_pos_of_lt hstage.2.2.1)⟩

/-- The message was not served yet, or it was, and the answer is being written. -/
theorem Answering.shown (h : Answering msg c₀ c) :
    Unanswered c₀ c ∨ Refused c₀ c ∧ c.written <+: c₀.written ++ invalidLine := by
  have hstage := h.stage
  unfold Stage at hstage
  cases hloop : c.loop with
  | closed =>
    rw [hloop] at hstage
    exact Or.inr ⟨hstage.1, hstage.2.1 ▸ List.prefix_refl _⟩
  | writing =>
    rw [hloop] at hstage
    exact Or.inr ⟨hstage.1, hstage.2.2.2.2.2 ▸ List.prefix_append _ _⟩
  | serving =>
    rw [hloop] at hstage
    exact Or.inl hstage.1
  | reading =>
    rw [hloop] at hstage
    obtain ⟨hun, -⟩ | ⟨-, hrefused, hwritten, -⟩ := hstage
    · exact Or.inl hun
    · exact Or.inr ⟨hrefused, hwritten ▸ List.prefix_refl _⟩

theorem Answering.oneAnswer (h : Answering msg c₀ c) (hfits : msg.length ≤ bufferLen) :
    OneAnswer c₀ c := by
  have hstage := h.stage
  unfold Stage at hstage
  refine ⟨h.shown.imp And.left And.left, ?_, fun calls saved c' hstep => ?_, fun hidle => ?_,
    h.ready hfits, ?_, fun e c' hadvances hbefore hstep => h.nearer hadvances hbefore hstep⟩
  · obtain hun | ⟨-, hprefix⟩ := h.shown
    · exact hun.2 ▸ List.prefix_append _ _
    · exact hprefix
  · cases hstep with
    | serve hloop hserve => exact (answering_serve h hloop hserve).2
  · have hmore : Refused c₀ c → c.served ≠ c₀.served := by
      intro ⟨request, hserved⟩ hsame
      rw [hserved] at hsame
      exact absurd hsame (by simp)
    obtain hloop | ⟨hloop, hunread⟩ := hidle
    · rw [hloop] at hstage
      exact ⟨hmore hstage.1, hstage.2.1⟩
    · rw [hloop] at hstage
      obtain ⟨-, hne, -⟩ | ⟨-, hrefused, hwritten, -⟩ := hstage
      · exact absurd hunread hne
      · exact ⟨hmore hrefused, hwritten⟩
  · intro total hloop calls saved
    obtain ⟨buffer, resp, t', hserve⟩ := serves h.table calls c.buffer total saved
    exact ⟨_, .serve hloop hserve⟩

/-! ## Two answers -/

/-- Before the worker has read anything of the message. -/
theorem answering_send (hwaits : c₀.Waits) (htable : HoldsOnly Fits c₀.table) (hmsg : Oversized msg)
    (hsend : Step c₀ (.send msg) c₁) : Answering msg c₀ c₁ := by
  obtain ⟨hloop, hunread, hrunning⟩ := hwaits
  cases hsend with
  | send =>
    refine ⟨hrunning, htable, ?_⟩
    unfold Stage
    dsimp only
    rw [hloop, hunread, List.nil_append]
    have hpos := hmsg.length
    exact Or.inl ⟨⟨rfl, rfl⟩, List.length_pos_iff.mp (by omega), [], rfl, rfl, rfl⟩

/-- The worker reads what fits the buffer, and serves it, if that is more than a newline. -/
theorem reads_and_serves (hrunning : c.shutdown = false) (hloop : c.loop = .reading 0)
    (hline : c.unread = line ++ [newline]) (hnot : newline ∉ line) (hlong : 1 < c.unread.length) :
    ∃ es c' total, Run (Guarded BeforeNext Step) c es c' ∧ c'.loop = .serving total ∧
      total = min (bufferLen - 1) c.unread.length ∧ c'.buffer.take total = c.unread.take total ∧
      c'.unread = c.unread.drop total ∧ c'.shutdown = false ∧ c'.table = c.table ∧
      c'.served = c.served ∧ c'.written = c.written := by
  obtain ⟨total, htotal⟩ : ∃ n, n = min (bufferLen - 1) c.unread.length := ⟨_, rfl⟩
  have hroom : 1 < bufferLen - 1 := by decide
  have hin : total ≤ c.unread.length := by omega
  have hbytes : (c.unread.take total).length = total := List.length_take_of_le hin
  have hne : c.unread.take total ≠ [] := List.length_pos_iff.mp (by omega)
  have htake : (received c.buffer 0 (c.unread.take total)).take (0 + (c.unread.take total).length) =
      [] ++ c.unread.take total := received_take _ List.take_zero rfl
  have hloop₁ := gotData_loop (c := c) (List.take_zero) rfl hne
  rw [List.nil_append, hbytes, Nat.zero_add] at hloop₁ htake
  have hread : Step c (.readData total) (c.gotData 0 (c.unread.take total)) :=
    .readData hloop (by omega) hin (by omega)
  have hrun : Run (Guarded BeforeNext Step) c [.readData total] _ := Run.single ⟨trivial, hread⟩
  have hunread : (c.gotData 0 (c.unread.take total)).unread = c.unread.drop total :=
    congrArg (fun n => c.unread.drop n) hbytes
  have hlast := newline_last ((List.take_append_drop total c.unread).trans hline) hnot
  by_cases hrest : c.unread.drop total = []
  · rw [if_pos (hlast.mpr hrest), afterReading_long (by omega)] at hloop₁
    exact ⟨_, _, total, hrun, hloop₁, htotal, htake, hunread, hrunning, rfl, rfl, rfl⟩
  · -- the buffer is full
    have hfull : total = bufferLen - 1 := by
      have hless := mt List.drop_eq_nil_iff.mpr hrest
      omega
    rw [if_neg (mt hlast.mp hrest), hrunning] at hloop₁
    have heof := Step.readEof hloop₁ (Or.inr (Nat.sub_eq_zero_of_le (Nat.le_of_eq hfull.symm)))
    rw [afterReading_long (by omega)] at heof
    have hrun' := hrun.snoc ⟨hfull ▸ hloop₁, heof⟩
    exact ⟨_, _, total, hrun', rfl, htotal, htake, hunread, hrunning, rfl, rfl, rfl⟩

/-- A piece that is too long is refused, and the worker reads on. -/
theorem refuses_and_writes (htable : HoldsOnly Fits c.table) (hrunning : c.shutdown = false)
    (hloop : c.loop = .serving total) (hlong : bufferSize < total) :
    ∃ es c', Run (Guarded BeforeNext Step) c es c' ∧ c'.loop = .reading 0 ∧
      c'.unread = c.unread ∧ c'.shutdown = false ∧ c'.table = c.table ∧
      c'.served = c.served ++ [⟨c.buffer.take total, some (gMsgs .invalid)⟩] := by
  obtain ⟨buffer, resp, t', hserve⟩ :=
    serves htable ⟨0, 0, bump, bump, bump⟩ c.buffer total none
  have hstep : Step c (.serve ⟨0, 0, bump, bump, bump⟩ none) _ := .serve hloop hserve
  obtain ⟨rfl, hresp⟩ := skvsServe_oversized htable hlong hserve
  rw [hresp] at hstep
  have hwriting : (c.gotResponse total buffer (some (gMsgs .invalid)) c.table).loop =
      .writing 0 invalidLine.length := gotResponse_loop hrunning (fits_gMsgs .invalid)
  have hwrite : Step _ (.write invalidLine.length) _ :=
    .write hwriting invalidLine_pos (Nat.le_refl _)
  have hrun : Run (Guarded BeforeNext Step) c [.serve ⟨0, 0, bump, bump, bump⟩ none] _ :=
    Run.single ⟨trivial, hstep⟩
  have hrun' := Run.snoc (e := Event.write invalidLine.length) hrun ⟨trivial, hwrite⟩
  refine ⟨_, _, hrun', ?_, rfl, hrunning, rfl, rfl⟩
  change writeHead c.shutdown (0 + invalidLine.length) invalidLine.length = _
  rw [writeHead, if_neg (Nat.lt_irrefl _ <| Nat.zero_add _ ▸ ·), hrunning]
  rfl

/-- A longer message is served in two pieces at least. -/
theorem serves_again (hwaits : c₀.Waits) (htable : HoldsOnly Fits c₀.table) (hmsg : Oversized msg)
    (hlong : bufferLen < msg.length) (hsend : Step c₀ (.send msg) c₁) :
    ∃ es c response, Run (Guarded BeforeNext Step) c₁ es c ∧
      c.served = c₀.served ++ [⟨msg.take (bufferLen - 1), some (gMsgs .invalid)⟩,
        ⟨(msg.drop (bufferLen - 1)).take (bufferLen - 1), response⟩] := by
  obtain ⟨hloop₀, hunread₀, hrunning₀⟩ := hwaits
  obtain ⟨line, hline, hnot⟩ := hmsg.line
  have hone : 1 < bufferLen - 1 := by decide
  have hunread₁ : c₁.unread = msg := by
    cases hsend with
    | send =>
      change c₀.unread ++ msg = msg
      rw [hunread₀, List.nil_append]
  have hsame : c₁.loop = .reading 0 ∧ c₁.shutdown = false ∧ c₁.table = c₀.table ∧
      c₁.served = c₀.served := by
    cases hsend with
    | send => exact ⟨hloop₀, hrunning₀, rfl, rfl⟩
  obtain ⟨hloop₁, hrunning₁, htable₁, hserved₁⟩ := hsame
  -- the first piece is refused
  obtain ⟨es₂, c₂, total, hrun₂, hloop₂, htotal, htake₂, hunread₂, hrunning₂, htable₂,
    hserved₂, -⟩ :=
    reads_and_serves hrunning₁ hloop₁ (hunread₁.trans hline) hnot (by rw [hunread₁]; omega)
  rw [hunread₁] at htotal htake₂ hunread₂
  obtain rfl : total = bufferLen - 1 := by omega
  have hfits₂ : HoldsOnly Fits c₂.table := by rwa [htable₂, htable₁]
  obtain ⟨es₃, c₃, hrun₃, hloop₃, hunread₃, hrunning₃, htable₃, hserved₃⟩ :=
    refuses_and_writes hfits₂ hrunning₂ hloop₂ (by decide)
  rw [hunread₂] at hunread₃
  -- the second piece stands where the next message should
  have htail : msg.drop (bufferLen - 1) = line.drop (bufferLen - 1) ++ [newline] := by
    rw [hline, List.length_append, List.length_singleton] at hlong
    rw [hline, List.drop_append_of_le_length (by omega)]
  obtain ⟨es₄, c₄, total, hrun₄, hloop₄, htotal, htake₄, -, -, htable₄, hserved₄, -⟩ :=
    reads_and_serves hrunning₃ hloop₃ (hunread₃.trans htail)
      (fun h => hnot (List.mem_of_mem_drop h))
      (by rw [hunread₃, List.length_drop]; omega)
  have hfits₄ : HoldsOnly Fits c₄.table := by rwa [htable₄, htable₃]
  obtain ⟨buffer, resp, t', hserve⟩ :=
    serves hfits₄ ⟨0, 0, bump, bump, bump⟩ c₄.buffer total none
  have hstep : Step c₄ (.serve ⟨0, 0, bump, bump, bump⟩ none) _ := .serve hloop₄ hserve
  have hrun := Run.snoc (e := Event.serve ⟨0, 0, bump, bump, bump⟩ none)
    ((hrun₂.trans hrun₃).trans hrun₄) ⟨trivial, hstep⟩
  refine ⟨_, _, resp.text t', hrun, ?_⟩
  change c₄.served ++ [⟨c₄.buffer.take total, resp.text t'⟩] = _
  rw [hserved₄, hserved₃, hserved₂, hserved₁, htake₂, htake₄, htotal, ← List.take_eq_take_min,
    hunread₃, List.append_assoc]
  rfl

/-- **An oversized message, up to the length of the buffer.** A worker that waits for a message and
    gets one longer than `BUFFER_SIZE` answers it once, with `INVALID CMD`, and leaves the table as
    it is, however the message is cut into reads, if and only if the message is not longer than the
    buffer. -/
theorem handle_client_oversized (hn : 0 < n) (hn' : n ≤ 2 ^ 31 - 1)
    (hinit : hashInit initCalls heap n = some t₀) (hrun : Run Step (accepted buffer t₀) es₀ c₀)
    (hwaits : c₀.Waits) (hmsg : Oversized msg) (hsend : Step c₀ (.send msg) c₁) :
    (∀ es c, Run (Guarded BeforeNext Step) c₁ es c → OneAnswer c₀ c) ↔
      msg.length ≤ bufferLen := by
  have htable : HoldsOnly Fits c₀.table :=
    Run.preserves (P := fun c : Connection => HoldsOnly Fits c.table)
      (fun _ _ _ h hstep => fits_step h hstep) hrun (holdsOnly_init hn hn' hinit)
  constructor
  · intro hall
    by_contra hlong
    obtain ⟨es, c, response, hrun', hserved⟩ :=
      serves_again hwaits htable hmsg (Nat.lt_of_not_le hlong) hsend
    obtain hnone | ⟨request, hone⟩ := (hall es c hrun').calls
    · rw [hserved] at hnone
      exact absurd hnone (by simp)
    · rw [hserved, List.append_cancel_left_eq] at hone
      exact absurd hone (by simp)
  · intro hfits es c hrun'
    have hall : Answering msg c₀ c :=
      Run.preserves_of_steps (P := Answering msg c₀)
        (fun _ _ _ h hbefore hstep => answering_step h hmsg hfits hbefore hstep) hrun'
        (answering_send hwaits htable hmsg hsend)
    exact hall.oneAnswer hfits

theorem fresh_waits : fresh.Waits := ⟨rfl, rfl, rfl⟩

/-- A line of letters is refused. -/
def longLine (n : Nat) : Str := List.replicate n 97 ++ [newline]

theorem longLine_oversized (h : bufferSize ≤ n) : Oversized (longLine n) := by
  refine ⟨?_, List.replicate n 97, rfl, fun hin => ?_⟩
  · rw [longLine, List.length_append, List.length_replicate]
    exact Nat.lt_succ_of_le h
  · exact absurd (List.eq_of_mem_replicate hin) (by decide)

/-- One byte more than `BUFFER_SIZE`. -/
theorem handle_client_oversized_one : ∃ c₁, Step fresh (.send (longLine bufferSize)) c₁ ∧
    ∀ es c, Run (Guarded BeforeNext Step) c₁ es c → OneAnswer fresh c := by
  have hmsg := longLine_oversized (Nat.le_refl bufferSize)
  refine ⟨_, .send, (handle_client_oversized (by decide) (by decide) hashInit_one (Run.nil _)
    fresh_waits hmsg .send).mpr ?_⟩
  rw [longLine, List.length_append, List.length_replicate]
  decide

/-- A line whose end, from the first byte that does not fit the buffer on, is a request. -/
def deleteTail : Str := ascii ['D', 'E', 'L', 'E', 'T', 'E'] ++ [space, 107, newline]

/-- The end of a long line is served as a request. -/
theorem handle_client_oversized_tail :
    Oversized (List.replicate (bufferLen - 1) 97 ++ deleteTail) ∧
      0 ∉ List.replicate (bufferLen - 1) 97 ++ deleteTail ∧
      ∃ c₁ es c response, Step fresh (.send (List.replicate (bufferLen - 1) 97 ++ deleteTail)) c₁ ∧
        Run (Guarded BeforeNext Step) c₁ es c ∧
        c.served = [⟨List.replicate (bufferLen - 1) 97, some (gMsgs .invalid)⟩,
          ⟨deleteTail, response⟩] ∧
        ¬ OneAnswer fresh c := by
  have hlen : (List.replicate (bufferLen - 1) (97 : UInt8)).length = bufferLen - 1 :=
    List.length_replicate
  have hmsg : Oversized (List.replicate (bufferLen - 1) 97 ++ deleteTail) := by
    refine ⟨?_, List.replicate (bufferLen - 1) 97 ++ deleteTail.take 8, ?_, ?_⟩
    · rw [List.length_append, hlen]
      exact Nat.lt_of_lt_of_le (by decide) (Nat.le_add_right _ _)
    · rw [List.append_assoc]
      rfl
    · rw [List.mem_append, not_or]
      exact ⟨fun hin => absurd (List.eq_of_mem_replicate hin) (by decide), by decide⟩
  have hnul : 0 ∉ List.replicate (bufferLen - 1) 97 ++ deleteTail := by
    rw [List.mem_append, not_or]
    exact ⟨fun hin => absurd (List.eq_of_mem_replicate hin) (by decide), by decide⟩
  obtain ⟨es, c, response, hrun, hserved⟩ := serves_again fresh_waits
    (holdsOnly_init (by decide) (by decide) hashInit_one) hmsg
    (by rw [List.length_append, hlen]; decide) .send
  rw [List.take_left' hlen, List.drop_left' hlen, List.take_of_length_le (by decide)] at hserved
  refine ⟨hmsg, hnul, _, es, c, response, .send, hrun, hserved, fun hone => ?_⟩
  obtain hnone | ⟨request, hcall⟩ := hone.calls
  · rw [hserved] at hnone
    exact absurd hnone (by simp [fresh, accepted])
  · rw [hserved] at hcall
    exact absurd hcall (by simp [fresh, accepted])

end Connection

end SnuSysProg.Skvs
