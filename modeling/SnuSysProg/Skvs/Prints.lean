import SnuSysProg.Skvs.Session

/-
  What the client prints.

  `client_hears_service`: a session is a run of the service, if the requests of the other workers
  are carried out whole between the steps of this one, and it goes on to its end.
  `client_alone_prints`: alone, with calls that succeed, the client prints the answers to its lines.
-/

namespace SnuSysProg.Skvs.Session
open SnuSysProg.Lib

variable {c : Connection} {v : Service} {t : Table} {buffer : Buffer} {line tail : Str}
  {lines said : List Str} {s s' : Session} {e : Event}

/-! ## Getting on -/

/-- What the client has still to send of its line. -/
def pending (s : Session) : Str :=
  match s.loop with
  | .writing off len => (s.buffer.drop off).take (len - off)
  | _ => []

/-- What is left to do, at most. -/
def work (s : Session) : Nat :=
  (if s.loop = .returned 0 then 0 else 1) + s.stdin.length * (2 * bufferSize + 20) +
    s.pending.length + 2 * (s.server.ahead [] s.pending).work + s.coming.length

/-- An event that gets the session further, in which nobody else asks and nothing fails. -/
def Event.Plain (e : Event) : Prop := e.Moves ∧ ∀ l, e.label = some l → l.Alone

/-- The client is at its end, or the session can go on. -/
def Ready (s : Session) : Prop := s.Closed ∨ ∃ e s', e.Plain ∧ s.Reliable e ∧ Step s e s'

theorem plain_of_label (h : e.Moves) (hlabel : e.label = none) : e.Plain := by
  refine ⟨h, fun l hl => ?_⟩
  rw [hlabel] at hl
  exact absurd hl (by simp)

theorem allSucceed_not_fail : ¬ allSucceed.Fail := by
  rintro (h | h | ⟨g, h | h | h⟩)
  · exact absurd h (by decide)
  · exact absurd h (by decide)
  all_goals exact absurd h (by simp [allSucceed, bump])

/-- While the client waits for the worker, the worker can go on. -/
theorem Hearing.ready {off : Nat} {current : Str} (h : s.Hearing said line off current)
    (hback : Backed lines s.server v) (hcoming : s.coming = []) :
    ∃ e c, (Event.server e).Plain ∧ s.Reliable (.server e) ∧ s.FromClient e ∧
      Connection.Step s.server e c := by
  have hposition := h.conversing.position
  unfold Connection.Position at hposition
  have hunread : (s.server.ahead ((said ++ [line]).map message) []).unread = s.server.unread :=
    List.append_nil _
  have hsame : (s.server.ahead ((said ++ [line]).map message) []).loop = s.server.loop := rfl
  rw [hunread, hsame] at hposition
  cases hloop : s.server.loop with
  | reading total =>
    rw [hloop] at hposition
    have hroom := h.conversing.room hloop
    by_cases hnil : s.server.unread = []
    · obtain ⟨hwritten, ⟨rfl, -, hrequests⟩ | ⟨_, -, -, hne, -⟩⟩ := hposition
      · refine absurd ?_ h.more
        have hrequests : s.server.requests = (said ++ [line]).map message := hrequests
        have hwritten : s.server.written = s.server.replies := hwritten
        rcases h.answer with ⟨-, hold⟩ | ⟨x, -, rfl, -⟩
        · rw [hold, List.map_append] at hrequests
          exact absurd hrequests (by simp)
        · rw [Session.coming, List.drop_eq_nil_iff, hwritten, h.replies, h.taken,
            List.length_append] at hcoming
          rw [List.take_of_length_le (by omega)]
          exact List.mem_append_right _ (List.mem_singleton_self _)
      · exact absurd hnil hne
    · refine ⟨.readData 1, _, plain_of_label trivial rfl, trivial, trivial,
        .readData hloop Nat.one_pos (List.length_pos_of_ne_nil hnil) ?_⟩
      change 1 ≤ bufferSize + 10 - 1 - total
      omega
  | serving total =>
    obtain ⟨B, hr, hm⟩ := hback.table
    obtain ⟨⟨buffer, resp⟩, table, hserve, -⟩ :
      Returns (skvsServe allSucceed s.server.buffer total none) s.server.table _ :=
        skvsServe_spec hr hm
    refine ⟨.serve allSucceed none, _, ⟨trivial, fun l hl => ?_⟩, trivial, trivial,
      .serve hloop hserve⟩
    obtain rfl := Option.some.inj hl
    exact allSucceed_not_fail
  | writing written total =>
    rw [hloop] at hposition
    have hlt : written < total := hposition.2.2.1
    exact ⟨.write 1, _, plain_of_label trivial rfl, trivial, trivial,
      .write hloop Nat.one_pos (Nat.sub_pos_of_lt hlt)⟩
  | closed =>
    rw [hloop] at hposition
    exact hposition.elim

theorem Refines.ready (h : Refines lines tail s v) : s.Ready := by
  cases h.place with
  | line _ hloop => exact Or.inr ⟨.fgets, _, plain_of_label trivial rfl, trivial, .fgets hloop⟩
  | writing _ hloop _ hsending =>
    exact Or.inr ⟨.write 1, _, plain_of_label trivial rfl, trivial,
      .write hloop Nat.one_pos (Nat.sub_pos_of_lt hsending.lt)⟩
  | reading _ hloop _ hhearing =>
    by_cases hcoming : s.coming = []
    · obtain ⟨e, c, hplain, hreliable, hfrom, hstep⟩ := hhearing.ready h.backed hcoming
      exact Or.inr ⟨.server e, _, hplain, hreliable, .server hstep hfrom⟩
    · refine Or.inr ⟨.read 1, _, plain_of_label trivial rfl, trivial,
        .read hloop Nat.one_pos (List.length_pos_of_ne_nil hcoming) ?_⟩
      exact Nat.one_le_iff_ne_zero.mpr fun hfull => hhearing.not_eof (Or.inr hfull)
  | returned hloop => exact Or.inl ⟨0, hloop⟩

theorem Sending.pending {off : Nat} (h : s.Sending said line off)
    (hloop : s.loop = .writing off (message line).length) :
    s.pending = (message line).drop off := by
  unfold Session.pending
  rw [hloop]
  dsimp only
  rw [h.bytes le_rfl]
  exact List.take_of_length_le (List.length_drop ..).le

/-- `write` gives some of the bytes that are to be sent to the worker. -/
theorem work_wrote {off n : Nat} (h : s.Sending said line off)
    (hloop : s.loop = .writing off (message line).length) (hpos : 0 < n)
    (hn : n ≤ (message line).length - off) :
    (s.wrote off (message line).length n).work < s.work := by
  have hpending : (s.wrote off (message line).length n).pending =
      (message line).drop (off + n) := by
    by_cases hmore : off + n < (message line).length
    · have hloop' : (s.wrote off (message line).length n).loop =
          .writing (off + n) (message line).length := if_pos hmore
      unfold Session.pending
      rw [hloop']
      dsimp only
      change (s.buffer.drop (off + n)).take _ = _
      rw [← List.drop_take, h.buffer]
    · have hloop' : (s.wrote off (message line).length n).loop = .reading 0 := if_neg hmore
      unfold Session.pending
      rw [hloop', List.drop_of_length_le (Nat.le_of_not_lt hmore)]
  have hreturned : (s.wrote off (message line).length n).loop ≠ .returned 0 := by
    change writeHead _ _ ≠ _
    unfold writeHead
    split <;> simp
  unfold work
  rw [if_neg hreturned, if_neg (by rw [hloop]; simp), hpending, h.pending hloop, h.wrote hn,
    List.length_drop, List.length_drop]
  change _ + s.stdin.length * _ + _ + _ + s.coming.length < _
  omega

theorem work_gotData {off n : Nat} (hloop : s.loop = .reading off) (hpos : 0 < n)
    (hn : n ≤ s.coming.length) : (s.gotData off (s.coming.take n)).work < s.work := by
  have hlen : (s.coming.take n).length = n := List.length_take_of_le hn
  have hcoming : ((s.gotData off (s.coming.take n)).coming).length = s.coming.length - n := by
    unfold gotData Session.coming at *
    dsimp only
    rw [hlen]
    split <;>
      · dsimp only
        rw [← List.drop_drop, List.length_drop]
  have hrest : (s.gotData off (s.coming.take n)).loop ≠ .returned 0 ∧
      (s.gotData off (s.coming.take n)).pending = [] ∧
      (s.gotData off (s.coming.take n)).server = s.server ∧
      (s.gotData off (s.coming.take n)).stdin = s.stdin := by
    unfold gotData pending
    dsimp only
    split <;> simp
  obtain ⟨hreturned, hpending, hserver, hstdin⟩ := hrest
  have hnone : s.pending = [] := by
    unfold pending
    rw [hloop]
  unfold work
  rw [if_neg hreturned, if_neg (by rw [hloop]; simp), hcoming, hpending, hserver, hstdin, hnone]
  omega

/-- `fgets` takes a line from `stdin`, or ends the client. -/
theorem work_gotLine (h : Refines lines tail s v) (hlines : ∀ line ∈ lines, IsLine line)
    (htail : Ending tail) (hloop : s.loop = .line) :
    (s.gotLine (fgets bufferLen s.stdin)).work < s.work := by
  obtain ⟨said, rest, hsplit, hstdin, hserver, hidle⟩ := h.place.of_line hloop
  have hpending : s.pending = [] := by
    unfold pending
    rw [hloop]
  have hbefore : s.work = 1 + s.stdin.length * (2 * bufferSize + 20) + 0 +
      2 * (s.server.ahead [] []).work + s.coming.length := by
    unfold work
    rw [if_neg (by rw [hloop]; simp), hpending]
    rfl
  cases rest with
  | nil =>
    obtain ⟨buffer, stdin, hgot, hle⟩ := gotLine_ending htail hstdin
    rw [hgot, hbefore]
    change 0 + stdin.length * (2 * bufferSize + 20) + 0 + 2 * (s.server.ahead [] []).work +
      s.coming.length < _
    have hmul := Nat.mul_le_mul_right (2 * bufferSize + 20) hle
    omega
  | cons line rest =>
    have hline := hlines line (by rw [hsplit]; simp)
    rw [List.flatMap_cons, List.append_assoc] at hstdin
    have hlength := congrArg List.length hstdin
    rw [List.length_append, length_message] at hlength
    have hafter : (s.server.ahead [] (message line)).work =
        (message line).length + (bufferSize + 3) := by
      unfold Connection.work
      rw [show (s.server.ahead [] (message line)).loop = .reading 0 from hserver,
        show (s.server.ahead [] (message line)).unread = message line from
          congrArg (· ++ message line) hidle.unread]
      exact if_neg (message_ne line)
    have hpending' (rest : Buffer) : ((message line ++ rest).drop 0).take
        ((message line).length - 0) = message line := List.take_left
    rw [gotLine_line hline hstdin, hbefore]
    unfold work pending
    dsimp only
    rw [hpending', if_neg (by simp), hafter, length_message]
    change 1 + (rest.flatMap message ++ tail).length * (2 * 4096 + 20) + (line.length + 1) +
      2 * (line.length + 1 + (4096 + 3)) + s.coming.length <
        1 + s.stdin.length * (2 * 4096 + 20) + 0 + 2 * (s.server.ahead [] []).work +
          s.coming.length
    omega

/-- What the worker writes, the client has still to read. -/
theorem work_server {e : Connection.Event} {sent : List Str} (hmoves : e.Moves)
    (h : (s.server.ahead sent s.pending).Conversing) (hstep : Connection.Step s.server e c) :
    2 * (c.ahead [] s.pending).work + (c.written.drop s.taken).length <
      2 * (s.server.ahead [] s.pending).work + s.coming.length := by
  have hsend : ∀ bytes, e ≠ .send bytes := by
    rintro bytes rfl
    exact hmoves
  have heof : e ≠ .readEof := by
    rintro rfl
    exact hmoves
  have hless := h.work_lt hmoves (Connection.step_ahead sent s.pending hstep hsend heof)
  change (c.ahead [] s.pending).work < (s.server.ahead [] s.pending).work at hless
  cases hstep with
  | @write n written total hloop hpos hn =>
    have hposition := h.position
    unfold Connection.Position at hposition
    rw [show (s.server.ahead sent s.pending).loop = .writing written total from hloop] at hposition
    obtain ⟨-, hunread, hlt, -⟩ := hposition
    have hbefore : (s.server.ahead [] s.pending).work = total - written := by
      unfold Connection.work
      rw [show (s.server.ahead [] s.pending).loop = .writing written total from hloop]
    have hafter : ((s.server.wrote written total n).ahead [] s.pending).work =
        total - (written + n) := by
      by_cases hmore : written + n < total
      · have hloop' : ((s.server.wrote written total n).ahead [] s.pending).loop =
            .writing (written + n) total := if_pos hmore
        unfold Connection.work
        rw [hloop']
      · have hloop' : ((s.server.wrote written total n).ahead [] s.pending).loop =
            .reading 0 := by
          refine (if_neg hmore).trans ?_
          rw [show s.server.shutdown = false from h.running]
          rfl
        unfold Connection.work
        rw [hloop']
        exact (if_pos hunread).trans (Nat.sub_eq_zero_of_le (Nat.le_of_not_lt hmore)).symm
    have hbytes : ((s.server.wrote written total n).written.drop s.taken).length ≤
        s.coming.length + n := by
      change ((s.server.written ++ (s.server.buffer.drop written).take n).drop s.taken).length ≤ _
      unfold coming
      rw [List.length_drop, List.length_append, List.length_drop]
      have hn' := List.length_take_le n (s.server.buffer.drop written)
      omega
    rw [hbefore, hafter]
    omega
  | readData =>
    change _ + s.coming.length < _
    omega
  | serve =>
    change _ + s.coming.length < _
    omega
  | _ => exact hmoves.elim

theorem work_lt (h : Refines lines tail s v) (hlines : ∀ line ∈ lines, IsLine line)
    (htail : Ending tail) (hmoves : e.Moves) (hstep : Step s e s') : s'.work < s.work := by
  cases hstep with
  | fgets hloop => exact work_gotLine h hlines htail hloop
  | write hloop hpos hn =>
    obtain ⟨said, line, rest, -, rfl, -, hsending⟩ := h.place.of_writing hloop
    exact work_wrote hsending hloop hpos hn
  | read hloop hpos hn => exact work_gotData hloop hpos hn
  | @server e c hserver hfrom =>
    have hidle : s.server.unread = [] → s.server.loop = .reading 0 ∨ s.server.loop = .closed →
        False := by
      intro hunread hloop
      cases hserver with
      | readData _ hpos hle =>
        rw [hunread] at hle
        exact absurd hpos (Nat.not_lt.mpr hle)
      | serve hserving => rcases hloop with h | h <;> exact absurd (h.symm.trans hserving) (by simp)
      | write hwriting => rcases hloop with h | h <;> exact absurd (h.symm.trans hwriting) (by simp)
      | _ => exact hmoves.elim
    have hconv : ∃ sent, (s.server.ahead sent s.pending).Conversing := by
      cases h.place with
      | line _ _ _ hloop hidle' => exact (hidle hidle'.unread (Or.inl hloop)).elim
      | returned _ hidle' hloop => exact (hidle hidle'.unread hloop).elim
      | writing _ hloop _ hsending => exact ⟨_, hsending.pending hloop ▸ hsending.conversing⟩
      | reading _ hloop _ hhearing =>
        have hnone : s.pending = [] := by
          unfold pending
          rw [hloop]
        exact ⟨_, hnone ▸ hhearing.conversing⟩
    obtain ⟨sent, hconv⟩ := hconv
    have hless := work_server hmoves hconv hserver
    have hafter : ({ s with server := c } : Session).work =
        (if s.loop = .returned 0 then 0 else 1) + s.stdin.length * (2 * bufferSize + 20) +
          s.pending.length + 2 * (c.ahead [] s.pending).work +
            (c.written.drop s.taken).length := rfl
    rw [hafter]
    unfold work
    omega
  | _ => exact hmoves.elim

/-- The client comes to its end. -/
theorem Refines.finishes (h : Refines lines tail s v) (hlines : ∀ line ∈ lines, IsLine line)
    (htail : Ending tail) :
    ∃ es s', Run (Guarded Reliable Step) s es s' ∧ s'.Closed ∧ ∀ e ∈ es, e.Plain := by
  induction hwork : s.work using Nat.strong_induction_on generalizing s v with
  | _ n ih =>
    rcases h.ready with hclosed | ⟨e, s₁, hplain, hreliable, hstep⟩
    · exact ⟨[], s, Run.nil _, hclosed, fun _ he => absurd he List.not_mem_nil⟩
    · obtain ⟨v₁, -, h₁⟩ := refines_step hlines htail h hreliable hstep
      have hless := work_lt h hlines htail hplain.1 hstep
      obtain ⟨es, s', hrun, hclosed, hall⟩ := ih s₁.work (hwork ▸ hless) h₁ rfl
      refine ⟨e :: es, s', Run.cons ⟨hreliable, hstep⟩ hrun, hclosed, fun e' he' => ?_⟩
      rcases List.mem_cons.mp he' with rfl | he'
      · exact hplain
      · exact hall e' he'

/-! ## What the client prints -/

/-- The client has printed what it has heard from the service, and the table holds the map. -/
structure Hears (s : Session) (v : Service) : Prop where
  table : ∃ B, Represents s.server.table B ∧ Holds s.server.table B v.map
  printed : s.stdout <+: v.heard
  settled : s.loop = .line → s.stdout = v.heard
  returned : ∀ code, s.loop = .returned code → code = 0 ∧ v.lines = [] ∧ s.stdout = v.heard

theorem Refines.hears (h : Refines lines tail s v) : s.Hears v := by
  have hheard := h.backed.heard
  have hidle : ∀ {said}, s.Idle said → s.stdout = v.heard := fun hidle => by
    rw [hheard, ← hidle.written, hidle.out]
  cases h.place with
  | line _ hloop _ _ hidle' =>
    refine ⟨h.backed.table, hidle hidle' ▸ List.prefix_refl _, fun _ => hidle hidle', ?_⟩
    exact fun code hother => absurd (hloop.symm.trans hother) (by simp)
  | writing _ hloop _ hsending =>
    have hout : s.stdout = v.heard := by rw [hheard, ← hsending.written, hsending.out]
    refine ⟨h.backed.table, hout ▸ List.prefix_refl _, fun _ => hout, ?_⟩
    exact fun code hother => absurd (hloop.symm.trans hother) (by simp)
  | reading _ hloop _ hhearing =>
    refine ⟨h.backed.table, ?_, ?_, ?_⟩
    · rw [hheard, hhearing.replies]
      exact List.prefix_append _ _
    · exact fun hother => absurd (hloop.symm.trans hother) (by simp)
    · exact fun code hother => absurd (hloop.symm.trans hother) (by simp)
  | returned hloop hidle' =>
    refine ⟨h.backed.table, hidle hidle' ▸ List.prefix_refl _, fun _ => hidle hidle', ?_⟩
    intro code hcode
    obtain rfl := ClientLoop.returned.inj (hloop.symm.trans hcode)
    obtain ⟨said, hsplit, hrequests⟩ := h.backed.asked
    obtain rfl : lines = said := map_message_inj (hidle'.requests.symm.trans hrequests)
    exact ⟨rfl, List.self_eq_append_right.mp hsplit, hidle hidle'⟩

section Runs

variable {es : List Event} {serverBuffer : Buffer} {n : Nat} {heap : Cells Cell}
  {initCalls : InitCalls}

theorem refines_init (hn : 0 < n) (hn' : n ≤ 2 ^ 31 - 1)
    (hinit : hashInit initCalls heap n = some t) (lines : List Str) (tail : Str) :
    Refines lines tail (start serverBuffer buffer t (lines.flatMap message ++ tail))
      ⟨∅, lines, []⟩ :=
  refines_start (represents_init hn hn' hinit) holds_empty lines tail

/-- **The client hears the service.** Whatever the pieces in which bytes come and go, and whatever
    other workers do in between, a session is a run of the service in which each line of the client
    is answered once and in order; the client has printed what it heard, all of it between two
    lines and at its end. The session never gets stuck before that, and every event that gives
    something brings it nearer. -/
theorem client_hears_service (hn : 0 < n) (hn' : n ≤ 2 ^ 31 - 1)
    (hinit : hashInit initCalls heap n = some t) (hlines : ∀ line ∈ lines, IsLine line)
    (htail : Ending tail) (hrun : Run (Guarded Reliable Step)
      (start serverBuffer buffer t (lines.flatMap message ++ tail)) es s) :
    (∃ v, Run Service.Step ⟨∅, lines, []⟩ (es.filterMap Event.label) v ∧ s.Hears v) ∧ s.Ready ∧
      ∀ e s', e.Moves → Step s e s' → s'.work < s.work := by
  obtain ⟨v, hservice, h⟩ :=
    refines_run hlines htail (refines_init hn hn' hinit lines tail) hrun
  exact ⟨⟨v, hservice, h.hears⟩, h.ready, fun e s' hmoves hstep =>
    work_lt h hlines htail hmoves hstep⟩

/-- `READ k`. -/
def readK : Str := ascii ['R', 'E', 'A', 'D', ' ', 'k']

theorem isLine_readK : ∀ line ∈ [readK], IsLine line := by
  intro line hline
  obtain rfl := List.mem_singleton.mp hline
  exact ⟨by decide, by decide, by decide, by decide⟩

/-- A line that is sent in two pieces. -/
theorem client_hears_service_two_writes : ∃ es s,
    Run (Guarded Reliable Step) (start [] [] ⟨∅, fun _ => nullAddr, fun _ => 0, 0, 1⟩
      ([readK].flatMap message ++ [])) es s ∧ s.loop = .writing 3 7 ∧
    (∃ v, Run Service.Step ⟨∅, [readK], []⟩ (es.filterMap Event.label) v ∧ s.Hears v) ∧ s.Ready ∧
      ∀ e s', e.Moves → Step s e s' → s'.work < s.work := by
  have hstdin : (start [] [] ⟨∅, fun _ => nullAddr, fun _ => 0, 0, 1⟩
      ([readK].flatMap message ++ [])).stdin = message readK ++ [] := rfl
  have hgot := gotLine_line (isLine_readK readK (List.mem_singleton_self _)) hstdin
  have h1 : Run (Guarded Reliable Step) (start [] [] ⟨∅, fun _ => nullAddr, fun _ => 0, 0, 1⟩
      ([readK].flatMap message ++ [])) [.fgets] _ := Run.single ⟨trivial, .fgets rfl⟩
  rw [hgot] at h1
  have hwrite : ∀ (s : Session) n, s.Reliable (.write n) := fun _ _ => trivial
  have h2 := h1.snoc ⟨hwrite _ 3, .write rfl (by decide) (by decide)⟩
  exact ⟨_, _, h2, rfl,
    client_hears_service (by decide) (by decide) hashInit_one isLine_readK (Or.inl rfl) h2⟩

/-- **Alone, the client prints the answers.** Nobody else asks, and no lock call or allocation
    fails: at any time the client has printed a part of the answers that a map gives to its lines,
    one after the other, and when it has returned, with 0, it has printed them all. -/
theorem client_alone_prints (hn : 0 < n) (hn' : n ≤ 2 ^ 31 - 1)
    (hinit : hashInit initCalls heap n = some t) (hlines : ∀ line ∈ lines, IsLine line)
    (htail : Ending tail) (halone : ∀ e ∈ es, ∀ l, e.label = some l → l.Alone)
    (hrun : Run (Guarded Reliable Step)
      (start serverBuffer buffer t (lines.flatMap message ++ tail)) es s) :
    s.stdout <+: answers ∅ lines ∧
      ∀ code, s.loop = .returned code → code = 0 ∧ s.stdout = answers ∅ lines := by
  obtain ⟨v, hservice, h⟩ :=
    refines_run hlines htail (refines_init hn hn' hinit lines tail) hrun
  have hlabels : ∀ l ∈ es.filterMap Event.label, l.Alone := by
    intro l hl
    obtain ⟨e, he, hlabel⟩ := List.mem_filterMap.mp hl
    exact halone e he l hlabel
  have hanswers : v.heard ++ answers v.map v.lines = answers ∅ lines :=
    Service.answers_run hlabels hservice
  refine ⟨?_, fun code hcode => ?_⟩
  · rw [← hanswers]
    exact h.hears.printed.trans (List.prefix_append _ _)
  · obtain ⟨rfl, hnone, hprinted⟩ := h.hears.returned code hcode
    rw [hnone, answers, List.append_nil] at hanswers
    exact ⟨rfl, hprinted.trans hanswers⟩

/-- A client that asks for a key of an empty table, to its end. -/
theorem client_alone_prints_read : ∃ es s code,
    Run (Guarded Reliable Step) (start [] [] ⟨∅, fun _ => nullAddr, fun _ => 0, 0, 1⟩
      ([readK].flatMap message ++ [])) es s ∧ s.loop = .returned code ∧
    s.stdout <+: answers ∅ [readK] ∧
      ∀ code, s.loop = .returned code → code = 0 ∧ s.stdout = answers ∅ [readK] := by
  have hstart : Refines [readK] [] (start [] [] ⟨∅, fun _ => nullAddr, fun _ => 0, 0, 1⟩
      ([readK].flatMap message ++ [])) ⟨∅, [readK], []⟩ :=
    refines_init (by decide) (by decide) hashInit_one [readK] []
  obtain ⟨es, s, hrun, ⟨code, hcode⟩, hplain⟩ := hstart.finishes isLine_readK (Or.inl rfl)
  exact ⟨es, s, code, hrun, hcode, client_alone_prints (by decide) (by decide) hashInit_one
    isLine_readK (Or.inl rfl) (fun e he => (hplain e he).2) hrun⟩

end Runs

end SnuSysProg.Skvs.Session
