import SnuSysProg.Skvs.Oversized

/-
  `handle_client` and the `NULL` of `skvs_serve`.

  The inner reading loop ends on a newline; but also on the end of the stream, on an error of
  `read` and on the shutdown, and the newline it ends on may stand behind a NUL. What was read until
  then goes to `skvs_serve` all the same, and the `NULL` that stands for an incomplete request is
  formatted like a string. `handle_client_incomplete`: it never is exactly when the bytes read since
  the last call are a complete request each time.
-/

namespace SnuSysProg.Skvs
open SnuSysProg.Lib

variable {t t' t₀ : Table} {calls : Calls} {rbuf buffer : Buffer} {rlen n total : Nat}
  {saved : Option (Pos Unit)} {resp : Response} {got : Str} {heap : Cells Cell}
  {initCalls : InitCalls}

/-- `skvs_serve` returns `NULL` for an incomplete request, and for nothing else. -/
theorem skvsServe_null (h : HoldsOnly Fits t) (hlen : rlen ≤ rbuf.length)
    (hserve : skvsServe calls rbuf rlen saved t = .ok ((buffer, resp), t')) :
    resp.text t' = none ↔ ¬ Complete (rbuf.take rlen) := by
  rw [← requestIn_incomplete hlen]
  constructor
  · intro hnone
    by_contra hcomplete
    obtain ⟨-, s, hs, -⟩ := skvsServe_responds h hcomplete hserve
    rw [hnone] at hs
    exact absurd hs (by simp)
  · intro hincomplete
    obtain ⟨B, m, hr, hm, -⟩ := h
    cases Returns.of_eq hserve (skvsServe_spec hr hm) with
    | incomplete => rfl
    | invalid _ hinvalid =>
      rw [hincomplete] at hinvalid
      exact absurd hinvalid (by simp)
    | request hrequest =>
      rw [hincomplete] at hrequest
      exact absurd hrequest (by simp)

namespace Connection

variable {c c' : Connection} {e : Event} {es : List Event}

/-- Every call of `skvs_serve` returned a string. -/
def NoNull (c : Connection) : Prop := ∀ s ∈ c.served, s.response ≠ none

/-! ## The bytes that were read are in the buffer -/

/-- What went over the connection: the bytes that are still to be read, and those that were read
    since the last call of `skvs_serve`. -/
structure Stream where
  unread : Str
  got : Str

def Stream.after (s : Stream) : Event → Stream
  | .send bytes => { s with unread := s.unread ++ bytes }
  | .readData n => ⟨s.unread.drop n, s.got ++ s.unread.take n⟩
  | .serve _ _ => { s with got := [] }
  | _ => s

def stream (es : List Event) : Stream := es.foldl Stream.after ⟨[], []⟩

theorem stream_snoc (es : List Event) (e : Event) : stream (es ++ [e]) = (stream es).after e :=
  List.foldl_append

/-- The worker has these bytes at the beginning of its buffer. -/
def Holds (got : Str) (buffer : Buffer) : Loop → Prop
  | .reading total => got.length = total ∧ buffer.take total = got
  | .serving total => got.length = total ∧ buffer.take total = got
  | .writing _ _ => got = []
  | .closed => True

theorem holds_afterReading (hlen : got.length = total) (htake : buffer.take total = got) :
    Holds got buffer (afterReading buffer total) := by
  unfold afterReading
  split_ifs
  · trivial
  · trivial
  · exact ⟨hlen, htake⟩

theorem holds_readHead (hlen : got.length = total) (htake : buffer.take total = got)
    (shutdown : Bool) : Holds got buffer (readHead shutdown buffer total) := by
  unfold readHead
  split
  · exact holds_afterReading hlen htake
  · exact ⟨hlen, htake⟩

theorem holds_requestHead (buffer : Buffer) (shutdown : Bool) :
    Holds [] buffer (requestHead shutdown) := by
  cases shutdown
  · exact ⟨rfl, rfl⟩
  · trivial

theorem holds_writeHead (buffer : Buffer) (shutdown : Bool) (written len : Nat) :
    Holds [] buffer (writeHead shutdown written len) := by
  unfold writeHead
  split
  · rfl
  · exact holds_requestHead buffer shutdown

theorem holds_gotData (hlen : got.length = total) (htake : c.buffer.take total = got)
    (bytes : Str) :
    Holds (got ++ bytes) (c.gotData total bytes).buffer (c.gotData total bytes).loop := by
  have hlen' : (got ++ bytes).length = total + bytes.length := by
    rw [List.length_append, hlen]
  have htake' := received_take bytes htake hlen
  unfold gotData
  dsimp only
  split
  · exact holds_afterReading hlen' htake'
  · exact holds_readHead hlen' htake' c.shutdown

/-- The invariant of any connection: what was read since the last call is in the buffer. -/
structure Sound (s : Stream) (c : Connection) : Prop where
  table : HoldsOnly Fits c.table
  unread : c.unread = s.unread
  holds : Holds s.got c.buffer c.loop

theorem sound_step {s : Stream} (h : Sound s c) (hstep : Step c e c') : Sound (s.after e) c' := by
  have htable := fits_step h.table hstep
  have hholds := h.holds
  cases hstep with
  | send => exact ⟨htable, congrArg (· ++ _) h.unread, hholds⟩
  | @readData n total hloop _ hunread =>
    rw [hloop] at hholds
    have hlen : (c.unread.take n).length = n := List.length_take_of_le hunread
    refine ⟨htable, ?_, ?_⟩
    · change c.unread.drop (c.unread.take n).length = s.unread.drop n
      rw [hlen, h.unread]
    · change Holds (s.got ++ s.unread.take n) _ _
      rw [← h.unread]
      exact holds_gotData hholds.1 hholds.2 _
  | readAgain hloop =>
    rw [hloop] at hholds
    exact ⟨htable, h.unread, holds_readHead hholds.1 hholds.2 c.shutdown⟩
  | readEof hloop | readError hloop =>
    rw [hloop] at hholds
    exact ⟨htable, h.unread, holds_afterReading hholds.1 hholds.2⟩
  | serve => exact ⟨htable, h.unread, holds_writeHead _ _ _ _⟩
  | write hloop | writeAgain hloop =>
    rw [hloop] at hholds
    have hnone : s.got = [] := hholds
    refine ⟨htable, h.unread, ?_⟩
    change Holds s.got _ _
    rw [hnone]
    exact holds_writeHead _ _ _ _
  | writeError hloop =>
    rw [hloop] at hholds
    have hnone : s.got = [] := hholds
    refine ⟨htable, h.unread, ?_⟩
    change Holds s.got _ _
    rw [hnone]
    exact holds_requestHead _ _
  | sigint | other => exact ⟨htable, h.unread, hholds⟩

theorem sound_start (buffer : Buffer) (h : HoldsOnly Fits t) :
    Sound (stream []) (accepted buffer t) :=
  ⟨h, rfl, rfl, rfl⟩

/-! ## What was served -/

/-- If `skvs_serve` is called, then on a complete request. -/
def Stream.OnComplete (s : Stream) : Event → Prop
  | .serve _ _ => Complete s.got
  | _ => True

/-- Each time `skvs_serve` is called, the bytes read since the last call are a complete request. -/
def OnComplete (es : List Event) : Prop :=
  ∀ before e, before ++ [e] <+: es → (stream before).OnComplete e

theorem onComplete_nil : OnComplete [] := fun _ _ hprefix =>
  absurd (List.prefix_nil.mp hprefix) (by simp)

theorem onComplete_snoc : OnComplete (es ++ [e]) ↔ OnComplete es ∧ (stream es).OnComplete e := by
  constructor
  · intro hall
    exact ⟨fun before f hbefore => hall before f (hbefore.trans (List.prefix_append _ _)),
      hall es e List.prefix_rfl⟩
  · rintro ⟨hall, hlast⟩ before f hbefore
    rcases List.prefix_concat_iff.mp hbefore with heq | hbefore
    · obtain ⟨rfl, hf⟩ := List.append_inj' heq rfl
      obtain rfl := List.singleton_inj.mp hf
      exact hlast
    · exact hall before f hbefore

/-- A call of `skvs_serve` returns a string if and only if it is on a complete request; the other
    steps call nothing. -/
theorem noNull_step {s : Stream} (h : Sound s c) (hstep : Step c e c') :
    c'.NoNull ↔ c.NoNull ∧ s.OnComplete e := by
  cases hstep with
  | @serve calls saved total buffer resp table hloop hserve =>
    have hholds := h.holds
    rw [hloop] at hholds
    obtain ⟨hlen, htake⟩ := hholds
    have hroom : total ≤ c.buffer.length := by
      rw [← hlen, ← htake]
      exact List.length_take_le' _ _
    have hnull : resp.text table = none ↔ ¬ Complete s.got :=
      htake ▸ skvsServe_null h.table hroom hserve
    have hlast : (c.gotResponse total buffer (resp.text table) table).NoNull ↔
        c.NoNull ∧ resp.text table ≠ none := by
      change (∀ s ∈ c.served ++ [(⟨c.buffer.take total, resp.text table⟩ : ServeCall)], _) ↔ _
      rw [List.forall_mem_append, List.forall_mem_singleton]
      rfl
    rw [hlast, Ne, hnull, not_not]
    rfl
  | _ => exact ⟨fun hnone => ⟨hnone, trivial⟩, fun hboth => hboth.1⟩

/-- **When no `NULL` is formatted.** Over every run of a connection, with any bytes in any pieces
    and the end of the stream, an error or the shutdown at any point, each call of `skvs_serve`
    returned a string if and only if each time the bytes read since the call before were a complete
    request. -/
theorem handle_client_incomplete (hn : 0 < n) (hn' : n ≤ 2 ^ 31 - 1)
    (hinit : hashInit initCalls heap n = some t₀) (hrun : Run Step (accepted buffer t₀) es c) :
    c.NoNull ↔ OnComplete es := by
  suffices h : Sound (stream es) c ∧ (c.NoNull ↔ OnComplete es) from h.2
  induction hrun with
  | nil =>
    exact ⟨sound_start buffer (holdsOnly_init hn hn' hinit),
      fun _ => onComplete_nil, fun _ _ hs => absurd hs List.not_mem_nil⟩
  | snoc _ hlast ih =>
    rw [noNull_step ih.1 hlast, ih.2, onComplete_snoc, stream_snoc]
    exact ⟨sound_step ih.1 hlast, Iff.rfl⟩

/-- A request that comes with its newline. -/
theorem handle_client_incomplete_read : ∃ es c, Run Step fresh es c ∧ c.served ≠ [] ∧ c.NoNull := by
  obtain ⟨buffer, resp, t', hserve⟩ :=
    serves (holdsOnly_init (by decide) (by decide) hashInit_one) ⟨0, 0, bump, bump, bump⟩
      (readLine 107) 7 none
  have hsend : Step fresh (.send ((readLine 107).take 7)) _ := .send
  have h1 := (Run.single hsend).snoc (.readData rfl (by decide) (by decide) (by decide) :
    Step _ (.readData 7) _)
  have h2 := h1.snoc (.serve rfl hserve)
  have hsent : (stream []).OnComplete (.send ((readLine 107).take 7)) := trivial
  have hread : OnComplete ([.send ((readLine 107).take 7)] ++ [.readData 7]) :=
    onComplete_snoc.mpr ⟨onComplete_snoc.mpr ⟨onComplete_nil, hsent⟩, trivial⟩
  have hgot : Complete (stream ([.send ((readLine 107).take 7)] ++ [.readData 7])).got :=
    Or.inr (by decide)
  exact ⟨_, _, h2, by simp [gotResponse],
    (handle_client_incomplete (by decide) (by decide) hashInit_one h2).mpr
      (onComplete_snoc.mpr ⟨hread, hgot⟩)⟩

/-- The stream ends within a request, and the client is sent the text of a null pointer. -/
theorem handle_client_sends_null : ∃ es c, Run Step fresh es c ∧
    c.served = [⟨(readLine 107).take 6, none⟩] ∧
    c.written = ascii ['(', 'n', 'u', 'l', 'l', ')'] ++ [newline] ∧ ¬ c.NoNull := by
  have hsend : Step fresh (.send ((readLine 107).take 6)) _ := .send
  have h1 := (Run.single hsend).snoc (.readData rfl (by decide) (by decide) (by decide) :
    Step _ (.readData 6) _)
  have h2 := h1.snoc (.readEof rfl (Or.inl rfl))
  have h3 := h2.snoc (.serve rfl rfl : Step _ (.serve ⟨0, 0, bump, bump, bump⟩ none) _)
  have h4 := h3.snoc (.write rfl (by decide) (by decide) : Step _ (.write 7) _)
  refine ⟨_, _, h4, rfl, rfl, fun hnone => ?_⟩
  exact hnone _ (List.mem_singleton_self _) rfl

end Connection

end SnuSysProg.Skvs
