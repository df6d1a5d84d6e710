import SnuSysProg.Shell.TableBounds
import SnuSysProg.Shell.HandlerRun

/-
  The pipe of the notices: `check_bg_status` and the `write` of `sigzombie_handler`.

  The handler runs in the thread that empties the pipe. If its `write` had to wait for room, the
  shell would wait forever. `main` is here the loop of `Main` with `check_bg_status` in full, for
  `rounds` reads at most; between any two calls a child may end and the handler may write. The
  pipe never has more than `noticesMax` characters, so the handler does not wait
  (`handler_never_waits`). What it writes comes to the terminal once and in order, and at a prompt
  all is there that was written before the last `read` (`notices_shown`).

  A pipe holds at least `PIPE_BUF` characters, and a `write` of fewer waits until there is room for
  all of them. `pipe_fd[0]` does not block, `pipe_fd[1]` does.
-/

namespace SnuSysProg.Shell.Notices
open SnuSysProg.Lib

/-- What `read(pipe_fd[0], buffer, sizeof(buffer))` answers. -/
inductive ReadResult where
  | data (buffer : List Char)
  /-- -1, with `EAGAIN` or `EWOULDBLOCK`. -/
  | again
  | failed

inductive PipeCall where
  /-- A call of the other functions. -/
  | sys (c : Call)
  | readPipe
  | writeStdout (buffer : List Char)
  | writeStderr (msg : String)
  /-- The loop goes on, beyond the reads that are looked at. -/
  | goesOn

abbrev PipeCall.Ret : PipeCall → Type
  | .sys c => c.Ret
  | .readPipe => ReadResult
  | .writeStdout _ => Int
  | .writeStderr _ => Int
  | .goesOn => Empty

abbrev PipeM := Prog PipeCall.Ret

def readPipe : PipeM ReadResult := perform PipeCall.readPipe

def writeStdout (buffer : List Char) : PipeM Int := perform (PipeCall.writeStdout buffer)

def writeStderr (msg : String) : PipeM Int := perform (PipeCall.writeStderr msg)

def checkBgStatus : Nat → PipeM Unit
  | 0 => .call .goesOn Empty.elim
  | rounds + 1 => do
    match ← readPipe with
    | .data buffer =>
      if 0 < buffer.length then
        if (← writeStdout buffer) < 0 then
          let _ ← writeStderr "Error writing to stdout\n"
        checkBgStatus rounds
    | .again => return
    | .failed => let _ ← writeStderr "Error reading from pipe\n"

/-- A part of the shell that has nothing to do with the pipe. -/
def apart {α : Type} (p : ShellM α) : PipeM α := p.expand fun c => perform (PipeCall.sys c)

/-- The loop of `main`, for that many lines. -/
def main (lexLine : Str → LexResult × List Token) (rounds : Nat) : Nat → PipeM Unit
  | 0 => pure ()
  | n + 1 => do
    checkBgStatus rounds
    apart (printf "% ")
    match ← apart (sys .fgets) with
    | none => apart do
      printf "\n"
      exit exitSuccess
    | some line => apart (shellHelper lexLine line)
    main lexLine rounds n

/-! ## The shell and its pipe -/

/-- `sizeof(buffer)`, in `check_bg_status` and in the handler. -/
def bufferSize : Nat := 64

/-- The size of `temp` in `int_to_str`. -/
def tempSize : Nat := 16

/-- `PIPE_BUF`. -/
def pipeBuf : Nat := 4096

/-- The greatest `pid_t`. -/
def pidMax : Int := 2147483647

structure World where
  shell : Snush
  /-- What is in the pipe. -/
  pipe : List Char
  /-- What `check_bg_status` has written to the terminal. -/
  terminal : List Char

def World.initial : World := ⟨Snush.initial, [], []⟩

/-- A pid is a `pid_t`. -/
def FitsPid : (c : Call) → c.Ret → Prop
  | .fork _, r => r ≤ pidMax
  | _, _ => True

/-- The calls go on only when the handler does not run. -/
def worldCall (w : World) : (c : PipeCall) → c.Ret → World → Prop
  | .sys c, r, w' => FitsPid c r ∧ ∃ s, ShellCall w.shell c r s ∧ w' = { w with shell := s }
  | .readPipe, r, w' => w.shell.handling = false ∧
      r = (if w.pipe = [] then .again else .data (w.pipe.take bufferSize)) ∧
      w' = { w with pipe := w.pipe.drop bufferSize }
  | .writeStdout buffer, r, w' => w.shell.handling = false ∧ r ≤ (buffer.length : Int) ∧
      w' = { w with terminal := w.terminal ++ buffer.take r.toNat }
  | .writeStderr _, _, w' => w.shell.handling = false ∧ w' = w
  | .goesOn, r, _ => r.elim

/-- What the handler writes into the pipe. -/
def written : Event → List Char
  | .reap _ (some text) => text
  | _ => []

/-- What the handler writes has to fit. -/
def worldEvent (capacity : Nat) (w : World) (e : Event) (w' : World) : Prop :=
  w.pipe.length + (written e).length ≤ capacity ∧
    ∃ s, ShellEvent w.shell e s ∧ w' = { w with shell := s, pipe := w.pipe ++ written e }

/-- The runs of the shell with a pipe of this capacity. -/
abbrev WorldRun (capacity : Nat) (p : PipeM Unit) (w : World)
    (es : List (Happening PipeCall.Ret Event)) (p' : PipeM Unit) (w' : World) : Prop :=
  ProgRun worldCall (worldEvent capacity) (p, w) es (p', w')

/-! ## The discipline -/

/-- Where the main thread is. -/
inductive Moment where
  | reads
  /-- It has read this and not written it yet. -/
  | holds (buffer : List Char)
  /-- The pipe was found empty, and no line was read since. -/
  | empty
  /-- A line was read. `asked`: `bg_array_idx` was looked at, for `room` children more. -/
  | line (asked : Bool) (room : Nat)

def Moment.held : Moment → List Char
  | .holds buffer => buffer
  | _ => []

def Moment.room : Moment → Nat
  | .line _ room => room
  | _ => 0

def Moment.takeRoom : Moment → Moment
  | .line asked room => .line asked (room - 1)
  | m => m

/-- A line looks at `bg_array_idx` once, and registers no more children than there is room for. -/
def lineCalls : Discipline Call.Ret Moment where
  allowed := fun m c => match c with
    | .bgArrayIdx => ∃ room, m = .line false room
    | .storePid _ => 0 < m.room
    | .storePgid pgid => 0 < m.room ∧ pgid ≤ pidMax
    | .incIdx => 0 < m.room
    | .fgets => m = .empty
    | _ => True
  answer := fun _ c => match c with
    | .fork _ => fun r => r = -1 ∨ 0 < r ∧ r ≤ pidMax
    | _ => fun _ => True
  next := fun m c => match c with
    | .bgArrayIdx => fun r => .line true (maxBgPro - r).toNat
    | .incIdx => fun _ => m.takeRoom
    | .fgets => fun _ => .line false 0
    | _ => fun _ => m

/-- What was read is written at once. -/
def noticing : Discipline PipeCall.Ret Moment where
  allowed := fun m c => match c with
    | .sys c => m.held = [] ∧ lineCalls.allowed m c
    | .writeStdout buffer => m = .holds buffer
    | _ => m.held = []
  answer := fun m c => match c with
    | .sys c => lineCalls.answer m c
    | .readPipe => fun r => r = .again ∨ ∃ buffer, buffer ≠ [] ∧ r = .data buffer
    | _ => fun _ => True
  next := fun m c => match c with
    | .sys c => lineCalls.next m c
    | .readPipe => fun r => match r with
      | .data buffer => .holds buffer
      | .again => .empty
      | .failed => .reads
    | .writeStdout _ => fun _ => .reads
    | _ => fun _ => m

variable {α : Type} {m m' : Moment} {p p' : PipeM Unit} {rounds n : Nat} {w w' : World}
  {lexLine : Str → LexResult × List Token}

theorem lineCalls_apart : Apart lineCalls where
  pipe := fun _ => ⟨trivial, fun _ => rfl⟩
  close := fun _ _ => ⟨trivial, fun _ => rfl⟩
  errorPrint := fun _ _ _ => ⟨trivial, fun _ => rfl⟩
  perror := fun _ _ => ⟨trivial, fun _ => rfl⟩
  printf := fun _ _ => ⟨trivial, fun _ => rfl⟩
  getenvHome := fun _ => ⟨trivial, fun _ => rfl⟩
  chdir := fun _ _ => ⟨trivial, fun _ => rfl⟩
  checkBgStatus := fun _ => ⟨trivial, fun _ => rfl⟩
  exit := fun _ _ => trivial

theorem lineCalls_registering : Registering lineCalls Moment.room (· ≤ pidMax) where
  apart := lineCalls_apart
  sigBlock := fun _ => ⟨trivial, fun _ => rfl⟩
  sigSetmask := fun _ _ => ⟨trivial, fun _ => rfl⟩
  waitpid := fun _ _ => ⟨trivial, fun _ => rfl⟩
  fork := fun _ _ => ⟨trivial, fun _ hr => ⟨hr, rfl⟩⟩
  storePid := fun _ _ hpos => ⟨hpos, fun _ => rfl⟩
  storePgid := fun _ _ hpos hpgid => ⟨⟨hpos, hpgid⟩, fun _ => rfl⟩
  incIdx := fun m hpos => ⟨hpos, fun _ => by
    cases m with
    | line asked room => exact Nat.le_add_of_sub_le (Nat.le_refl (room - 1))
    | _ => exact Nat.zero_le _⟩

theorem lineCalls_held {c : Call} (r : c.Ret) (h : m.held = []) :
    (lineCalls.next m c r).held = [] := by
  cases c with
  | bgArrayIdx => rfl
  | fgets => rfl
  | incIdx => cases m <;> first | rfl | exact h
  | _ => exact h

/-- What the shell does apart from the pipe, under the discipline of the line. -/
theorem apart_obeys {Q : α → Moment → Prop} {q : ShellM α} (hheld : m.held = [])
    (h : Obeys lineCalls Q q m) :
    Obeys noticing (fun a m' => m'.held = [] ∧ Q a m') (apart q) m := by
  have hexpand : Obeys noticing (fun a m' => ∃ ψ, (ψ = m' ∧ m'.held = []) ∧ Q a ψ) (apart q) m :=
    Obeys.expand (L := fun φ φ' => φ = φ' ∧ φ'.held = []) (fun c φ φ' ⟨hL, hheld⟩ hallowed => by
      subst hL
      exact Obeys.call ⟨hheld, hallowed⟩ fun r hr => ⟨hr, rfl, lineCalls_held r hheld⟩)
      h ⟨rfl, hheld⟩
  exact hexpand.mono fun a m' ⟨ψ, ⟨hψ, hheld'⟩, hQ⟩ => ⟨hheld', hψ ▸ hQ⟩

theorem checkBgStatus_obeys (h : m.held = []) :
    Obeys noticing (fun _ m' => m' = .empty) (checkBgStatus rounds) m := by
  induction rounds generalizing m with
  | zero => exact Obeys.call h fun r => r.elim
  | succ rounds ih =>
    have hloop : Obeys noticing (fun _ m' => m' = .empty) (checkBgStatus rounds) .reads := ih rfl
    refine Obeys.perform h fun r hr => ?_
    rcases hr with hr | ⟨buffer, hne, hr⟩
    · obtain rfl : r = .again := hr
      exact Obeys.ret rfl
    · obtain rfl : r = .data buffer := hr
      refine Obeys.ite_pos (List.length_pos_iff.mpr hne) ?_
      refine Obeys.perform rfl fun r _ => ?_
      refine Obeys.ite (fun _ => ?_) fun _ => hloop
      exact Obeys.perform rfl fun _ _ => hloop

theorem shellHelper_line {line : Str} :
    Obeys lineCalls (fun _ _ => True) (shellHelper lexLine line) (.line false 0) :=
  shellHelper_ends lineCalls_apart (fun _ => executeExternal_registers lineCalls_registering
    ⟨0, rfl⟩ fun _ => Nat.le_refl _) trivial

theorem main_obeys (h : m.held = []) :
    Obeys noticing (fun _ m' => m'.held = []) (main lexLine rounds n) m := by
  induction n generalizing m with
  | zero => exact Obeys.ret h
  | succ n ih =>
    refine Obeys.bind (checkBgStatus_obeys h) fun _ m₁ hm₁ => ?_
    obtain rfl : m₁ = .empty := hm₁
    refine Obeys.bind (apart_obeys rfl (lineCalls_apart.printf "% ").obeys)
      fun _ m₂ ⟨_, hm₂⟩ => ?_
    obtain rfl : m₂ = .empty := hm₂
    have hfgets : Obeys lineCalls (fun _ m' => m' = .line false 0) (sys .fgets) .empty :=
      Obeys.call rfl fun _ _ => rfl
    refine Obeys.bind (apart_obeys rfl hfgets) fun line m₃ ⟨_, hm₃⟩ => ?_
    obtain rfl : m₃ = .line false 0 := hm₃
    cases line with
    | none =>
      have hexit : Obeys lineCalls (fun _ _ => True) (do
          printf "\n"
          exit exitSuccess) (.line false 0) :=
        printf_obeys lineCalls_apart (exit_obeys lineCalls_apart)
      exact Obeys.bind (apart_obeys rfl hexit) fun _ _ ⟨hheld, _⟩ => ih hheld
    | some line =>
      exact Obeys.bind (apart_obeys rfl shellHelper_line) fun _ _ ⟨hheld, _⟩ => ih hheld

/-! ## How much is in the pipe -/

theorem length_intToStr {pgid : Int} (h : pgid ≤ pidMax) :
    (intToStr pgid.toNat).length ≤ tempSize := by
  have hdigits := (doneMessage_length (Int.lt_of_le_of_lt h (by decide))).1
  unfold intToStr
  rwa [List.length_reverse]

theorem length_doneMessage {pgid : Int} (h : pgid ≤ pidMax) :
    (doneMessage pgid).length ≤ bufferSize :=
  (doneMessage_length (Int.lt_of_le_of_lt h (by decide))).2

/-- Every group in the array is a pid. -/
def Pids (t : Table) : Prop := ∀ i, (t.arr i).pgid ≤ pidMax

variable {t : Table} {pid pgid : Int} {s s' : Snush} {e : Event}

theorem Pids.initial : Pids Table.initial := fun _ => by
  change (0 : Int) ≤ pidMax
  decide

theorem Pids.store (h : Pids t) {entry : BgProcess} (hentry : entry.pgid ≤ pidMax) :
    Pids ⟨Function.update t.arr t.idx entry, t.idx⟩ := by
  intro i
  dsimp only
  by_cases hi : i = t.idx
  · subst hi
    rw [Function.update_self]
    exact hentry
  · rw [Function.update_of_ne hi]
    exact h i

theorem Pids.remove (h : Pids t) (found : Nat) : Pids (t.remove found) := by
  intro i
  unfold Table.remove
  dsimp only
  rw [shiftLoop_apply]
  by_cases hi : found ≤ i ∧ i < found + (t.idx - 1 - found)
  · rw [if_pos hi]
    exact h (i + 1)
  · rw [if_neg hi]
    exact h i

theorem Pids.handleChild (h : Pids t) : Pids (handleChild t pid).1 := by
  unfold Shell.handleChild
  cases t.findPid pid with
  | none => exact h
  | some found => exact h.remove found

/-- A notice takes an entry out of the table. -/
theorem handleChild_notice (h : Pids t) : ∀ text, (handleChild t pid).2 = some text →
    (handleChild t pid).1.idx + 1 = t.idx ∧ ∃ pgid ≤ pidMax, text = doneMessage pgid := by
  intro text htext
  unfold handleChild at htext ⊢
  cases hfound : t.findPid pid with
  | none =>
    rw [hfound] at htext
    exact absurd htext (by simp)
  | some found =>
    rw [hfound] at htext
    have hlt := Table.findPid_lt hfound
    have hidx : (t.remove found).idx + 1 = t.idx := Nat.sub_add_cancel (Nat.zero_lt_of_lt hlt)
    refine ⟨hidx, (t.arr found).pgid, h found, ?_⟩
    dsimp only at htext
    by_cases hhas : (t.remove found).hasPgid (t.arr found).pgid = true
    · rw [if_pos hhas] at htext
      exact absurd htext (by simp)
    · rw [if_neg hhas] at htext
      exact (Option.some.inj htext).symm

theorem notice_of_event {text : List Char} (h : Pids s.table) (hstep : ShellEvent s e s')
    (he : e = .reap pid (some text)) : ∃ pgid ≤ pidMax, text = doneMessage pgid := by
  cases hstep with
  | reap =>
    obtain ⟨rfl, htext⟩ := Event.reap.inj he
    exact (handleChild_notice h text htext).2
  | _ => exact absurd he (by simp)

/-- What the handler can still write, with what it writes now. -/
theorem written_le (h : Pids s.table) (hstep : ShellEvent s e s') :
    (written e).length + bufferSize * s'.table.idx ≤ bufferSize * s.table.idx := by
  cases hstep with
  | exits => exact Nat.le_of_eq (Nat.zero_add _)
  | deliver => exact Nat.le_of_eq (Nat.zero_add _)
  | finish => exact Nat.le_of_eq (Nat.zero_add _)
  | @reap pid hhandling hzombie =>
    change (written (.reap pid (handleChild s.table pid).2)).length +
      bufferSize * (handleChild s.table pid).1.idx ≤ _
    cases htext : (handleChild s.table pid).2 with
    | none =>
      change 0 + _ ≤ _
      rw [Nat.zero_add]
      exact Nat.mul_le_mul_left _ handleChild_idx
    | some text =>
      obtain ⟨hidx, pgid, hpgid, rfl⟩ := handleChild_notice h text htext
      have hlen := length_doneMessage hpgid
      change (doneMessage pgid).length + _ ≤ _
      rw [← hidx, Nat.mul_succ, Nat.add_comm]
      exact Nat.add_le_add_left hlen _

/-- Room for a notice of every entry that the array can have. -/
def arrayNotices : Nat := 16 * bufferSize

def noticesMax : Nat := 2 * arrayNotices

/-- What is in the pipe, with the notices to come of the entries and of the children to be
    registered. -/
def Moment.limit : Moment → Nat
  | .empty => arrayNotices
  | .line false _ => arrayNotices
  | _ => noticesMax

structure Flows (m : Moment) (w : World) : Prop where
  fits : Fits m.room w.shell
  filled : w.pipe.length + bufferSize * (w.shell.table.idx + m.room) ≤ m.limit
  pids : Pids w.shell.table

theorem Moment.limit_le : m.limit ≤ noticesMax := by
  have hone : arrayNotices ≤ noticesMax := by decide
  cases m with
  | empty => exact hone
  | line asked room =>
    cases asked with
    | false => exact hone
    | true => exact Nat.le_refl _
  | _ => exact Nat.le_refl _

theorem Flows.event {capacity : Nat} (h : Flows m w) (hstep : worldEvent capacity w e w') :
    Flows m w' := by
  obtain ⟨-, s, hshell, rfl⟩ := hstep
  have hwritten := written_le h.pids hshell
  have hfilled := h.filled
  refine ⟨h.fits.event hshell, ?_, ?_⟩
  · rw [Nat.mul_add] at hfilled ⊢
    dsimp only
    rw [List.length_append]
    omega
  · cases hshell with
    | reap => exact h.pids.handleChild
    | _ => exact h.pids

/-- Another moment with no more room and no lower limit, or with less in the pipe. -/
theorem Flows.moment (h : Flows m w) (hroom : m'.room = 0) (hlimit : m'.limit = noticesMax)
    (hshell : w'.shell = w.shell) (hpipe : w'.pipe.length ≤ w.pipe.length) : Flows m' w' := by
  have hfilled := h.filled
  have hle := Moment.limit_le (m := m)
  refine ⟨h.fits.mono (hroom ▸ Nat.zero_le _) (hshell ▸ rfl), ?_, hshell ▸ h.pids⟩
  rw [Nat.mul_add] at hfilled
  rw [hshell, hroom, hlimit, Nat.add_zero]
  omega

/-- With nothing in the pipe. -/
theorem Flows.drained (h : Flows m w) (hroom : m'.room = 0) (hlimit : arrayNotices ≤ m'.limit)
    (hshell : w'.shell = w.shell) (hpipe : w'.pipe = []) : Flows m' w' := by
  have hidx : w.shell.table.idx ≤ 16 := Nat.le_trans (Nat.le_add_right _ _) h.fits.idx_le
  refine ⟨h.fits.mono (hroom ▸ Nat.zero_le _) (hshell ▸ rfl), ?_, hshell ▸ h.pids⟩
  rw [hshell, hroom, hpipe, List.length_nil, Nat.zero_add, Nat.add_zero, Nat.mul_comm]
  exact Nat.le_trans (Nat.mul_le_mul_right _ hidx) hlimit

/-- A call of the shell that leaves the table. -/
theorem Flows.same (h : Flows m w) (hs : s.table = w.shell.table) :
    Flows m { w with shell := s } := by
  refine ⟨h.fits.mono (Nat.le_refl _) hs, ?_, ?_⟩
  · rw [hs]
    exact h.filled
  · rw [hs]
    exact h.pids

/-- `bg_array_idx` is looked at: there is room for the notices of a whole array more. -/
theorem Flows.asked {room : Nat} (h : Flows (.line false room) w) :
    Flows (.line true (maxBgPro - w.shell.table.idx).toNat) w := by
  have hfits := h.fits.asked
  have hpipe : w.pipe.length ≤ arrayNotices := Nat.le_trans (Nat.le_add_right _ _) h.filled
  have hcome := Nat.mul_le_mul_right bufferSize hfits.idx_le
  refine ⟨hfits, ?_, h.pids⟩
  change w.pipe.length + bufferSize * (w.shell.table.idx + _) ≤ 2 * arrayNotices
  rw [Nat.two_mul, Nat.mul_comm bufferSize]
  exact Nat.add_le_add hpipe hcome

/-- A child is registered. -/
theorem Flows.registered (h : Flows m w) (hpos : 0 < m.room) :
    Flows m.takeRoom { w with shell := w.shell.setTable w.shell.table.incIdx } := by
  cases m with
  | line asked room =>
    have hroom : 0 < room := hpos
    have hlimit : (Moment.line asked room).takeRoom.limit = (Moment.line asked room).limit := by
      cases asked <;> rfl
    have hsum : w.shell.table.idx + 1 + (room - 1) = w.shell.table.idx + room := by omega
    refine ⟨h.fits.registered hroom, ?_, h.pids⟩
    rw [hlimit]
    change w.pipe.length + bufferSize * (w.shell.table.idx + 1 + (room - 1)) ≤ _
    rw [hsum]
    exact h.filled
  | _ => exact absurd hpos (Nat.lt_irrefl 0)

theorem Flows.sys {c : Call} {r : c.Ret} (h : Flows m w) (hallowed : lineCalls.allowed m c)
    (hfit : FitsPid c r) (hstep : ShellCall w.shell c r s) :
    lineCalls.answer m c r ∧ Flows (lineCalls.next m c r) { w with shell := s } := by
  obtain ⟨-, hstep⟩ := hstep
  cases c with
  | fork child =>
    rcases hstep with ⟨hpos, -, rfl⟩ | ⟨hr, rfl⟩
    · exact ⟨Or.inr ⟨hpos, hfit⟩, h.same rfl⟩
    · exact ⟨Or.inl hr, h⟩
  | bgArrayIdx =>
    obtain ⟨rfl, rfl⟩ := hstep
    obtain ⟨room, rfl⟩ := hallowed
    exact ⟨trivial, h.asked⟩
  | storePid pid =>
    obtain rfl := hstep
    exact ⟨trivial, h.fits, h.filled, h.pids.store (h.pids _)⟩
  | storePgid pgid =>
    obtain rfl := hstep
    exact ⟨trivial, h.fits, h.filled, h.pids.store hallowed.2⟩
  | incIdx =>
    obtain rfl := hstep
    exact ⟨trivial, h.registered hallowed⟩
  | fgets =>
    obtain rfl := hstep
    obtain rfl : m = .empty := hallowed
    exact ⟨trivial, h.fits, h.filled, h.pids⟩
  | sigBlock =>
    obtain ⟨-, rfl⟩ := hstep
    exact ⟨trivial, h.same rfl⟩
  | sigSetmask oldset =>
    obtain ⟨-, rfl⟩ := hstep
    exact ⟨trivial, h.same rfl⟩
  | waitpid pid =>
    rcases hstep with ⟨-, -, rfl⟩ | ⟨-, -, rfl⟩
    · exact ⟨trivial, h.same rfl⟩
    · exact ⟨trivial, h⟩
  | _ =>
    obtain rfl := hstep
    exact ⟨trivial, h⟩

/-- The answer of a call, and what is left when it was made. -/
theorem Flows.call {c : PipeCall} {r : c.Ret} (h : Flows m w) (hallowed : noticing.allowed m c)
    (hstep : worldCall w c r w') :
    noticing.answer m c r ∧ Flows (noticing.next m c r) w' := by
  cases c with
  | sys c =>
    obtain ⟨hfit, s, hshell, rfl⟩ := hstep
    exact h.sys hallowed.2 hfit hshell
  | readPipe =>
    obtain ⟨-, hr, rfl⟩ := hstep
    by_cases hpipe : w.pipe = []
    · rw [if_pos hpipe] at hr
      obtain rfl : r = .again := hr
      refine ⟨Or.inl rfl, h.drained rfl (Nat.le_refl _) rfl ?_⟩
      dsimp only
      rw [hpipe, List.drop_nil]
    · rw [if_neg hpipe] at hr
      obtain rfl : r = .data (w.pipe.take bufferSize) := hr
      refine ⟨Or.inr ⟨_, ?_, rfl⟩, h.moment rfl rfl rfl ?_⟩
      · rw [ne_eq, List.take_eq_nil_iff, not_or]
        exact ⟨by decide, hpipe⟩
      · dsimp only
        rw [List.length_drop]
        exact Nat.sub_le _ _
  | writeStdout buffer =>
    obtain ⟨-, -, rfl⟩ := hstep
    exact ⟨trivial, h.moment rfl rfl rfl (Nat.le_refl _)⟩
  | writeStderr msg =>
    obtain ⟨-, rfl⟩ := hstep
    exact ⟨trivial, h⟩
  | goesOn => exact r.elim

theorem Flows.initial : Flows (.line false 0) World.initial where
  fits := show ((0 : Nat) : Int) ≤ maxBgPro by decide
  filled := show 0 + bufferSize * (0 + 0) ≤ arrayNotices by decide
  pids := Pids.initial

variable {capacity : Nat} {es : List (Happening PipeCall.Ret Event)}

/-- **The handler does not wait.** All along the shell, a notice fits into `buffer`, its digits
    into `temp`, and the notice into the pipe. -/
theorem handler_never_waits (hcapacity : pipeBuf ≤ capacity)
    (hrun : WorldRun capacity (main lexLine rounds n) World.initial es p w) :
    w.pipe.length ≤ noticesMax ∧ ∀ e s, ShellEvent w.shell e s →
      (∃ w', worldEvent capacity w e w') ∧ ∀ pid text, e = .reap pid (some text) →
        text.length ≤ bufferSize ∧
          ∃ pgid : Int, text = doneMessage pgid ∧ (intToStr pgid.toNat).length ≤ tempSize := by
  obtain ⟨hflows, -⟩ := Obeys.run_of_forall (I := fun _ => Flows)
    (fun _ _ _ _ _ _ h hallowed hstep => h.call hallowed hstep)
    (fun _ _ _ _ _ h hstep => h.event hstep) (main_obeys rfl) Flows.initial hrun
  generalize noticing.phase (.line false 0) es = m at hflows
  have hfilled := hflows.filled
  have hlimit := Moment.limit_le (m := m)
  have hmax : noticesMax ≤ pipeBuf := by decide
  rw [Nat.mul_add] at hfilled
  refine ⟨by omega, fun e s hstep => ⟨?_, ?_⟩⟩
  · have hwritten := written_le hflows.pids hstep
    exact ⟨_, by omega, s, hstep, rfl⟩
  · intro pid text he
    obtain ⟨pgid, hpgid, rfl⟩ := notice_of_event hflows.pids hstep he
    exact ⟨length_doneMessage hpgid, pgid, rfl, length_intToStr hpgid⟩

/-- `a &` is the first line, and its child ends before the shell says that it runs. -/
theorem background_run {lexer : Str → LexResult × List Token}
    (hlexer : lexer = fun _ => (.success, [.word [97], .bg])) :
    ∃ (u s : Snush) (fs : List (Happening PipeCall.Ret Event)),
      WorldRun pipeBuf (main lexer 2 2) World.initial fs
        (.call (.sys (.printf ("[" ++ toString (100 : Int) ++
          "] Background process group running\n"))) fun _ => main lexer 2 1) ⟨u, [], []⟩ ∧
      (∀ buffer (r : Int), .call (.writeStdout buffer) r ∉ fs) ∧
      ShellEvent u (.reap 100 (some (doneMessage 100))) s ∧ s.handling = true ∧
      ∀ pid, s.procs pid = none := by
  subst hlexer
  apply Exists.intro
  apply Exists.intro
  apply Exists.intro
  apply And.intro
  · apply ProgRun.called PipeCall.readPipe ReadResult.again rfl ⟨rfl, rfl, rfl⟩
    apply ProgRun.called (PipeCall.sys (.printf "% ")) () rfl ⟨trivial, _, ⟨rfl, rfl⟩, rfl⟩
    apply ProgRun.called (PipeCall.sys .fgets) (some [97, 32, 38, 10]) rfl
      ⟨trivial, _, ⟨rfl, rfl⟩, rfl⟩
    apply ProgRun.called (PipeCall.sys .bgArrayIdx) (0 : Int) rfl
      ⟨trivial, _, ⟨rfl, rfl, rfl⟩, rfl⟩
    apply ProgRun.called (PipeCall.sys (.fork ⟨true, none, true⟩)) (100 : Int) rfl
      ⟨show (100 : Int) ≤ pidMax by decide, _, ⟨rfl, Or.inl ⟨by decide, rfl, rfl⟩⟩, rfl⟩
    apply ProgRun.called (PipeCall.sys .sigBlock) (0, false) rfl
      ⟨trivial, _, ⟨rfl, rfl, rfl⟩, rfl⟩
    apply ProgRun.called (PipeCall.sys (.storePid 100)) () rfl ⟨trivial, _, ⟨rfl, rfl⟩, rfl⟩
    apply ProgRun.called (PipeCall.sys (.storePgid 100)) () rfl ⟨trivial, _, ⟨rfl, rfl⟩, rfl⟩
    apply ProgRun.called (PipeCall.sys .incIdx) () rfl ⟨trivial, _, ⟨rfl, rfl⟩, rfl⟩
    apply ProgRun.called (PipeCall.sys (.sigSetmask false)) (0 : Int) rfl
      ⟨trivial, _, ⟨rfl, rfl, rfl⟩, rfl⟩
    apply ProgRun.happened (Event.exits 100) ⟨by decide, _, ShellEvent.exits rfl rfl, rfl⟩
    apply ProgRun.happened Event.deliver ⟨by decide, _, ShellEvent.deliver rfl rfl rfl, rfl⟩
    exact Run.nil _
  · refine ⟨by simp, ShellEvent.reap rfl ⟨_, rfl, rfl⟩, rfl, fun pid => ?_⟩
    simp [Snush.setTable, Snush.setProc, Snush.setBlocked, World.initial, Snush.initial]

/-- Its notice fits. -/
theorem handler_never_waits_one : ∃ (q : PipeM Unit) (u v : World)
    (fs : List (Happening PipeCall.Ret Event)),
    WorldRun pipeBuf (main (fun _ => (.success, [.word [97], .bg])) 2 2) World.initial fs q u ∧
    worldEvent pipeBuf u (.reap 100 (some (doneMessage 100))) v := by
  obtain ⟨u, s, fs, hrun, -, hstep, -⟩ := background_run rfl
  obtain ⟨-, hfits⟩ := handler_never_waits (Nat.le_refl pipeBuf) hrun
  obtain ⟨⟨v, hv⟩, -⟩ := hfits _ s hstep
  exact ⟨_, _, v, fs, hrun, hv⟩

/-! ## What is shown -/

/-- All that the handler has written. -/
def notices (es : List (Happening PipeCall.Ret Event)) : List Char :=
  es.flatMap fun h => match h with
    | .env e => written e
    | .call _ _ => []

/-- Each `write` to the terminal has written all it was given. -/
def Complete (es : List (Happening PipeCall.Ret Event)) : Prop :=
  ∀ buffer (r : Int), .call (.writeStdout buffer) r ∈ es → r = buffer.length

/-- The pipe was found empty, and no line was read since; what was written before is shown. -/
def UpToDate (es : List (Happening PipeCall.Ret Event)) (terminal : List Char) : Prop :=
  ∃ es₁ es₂, es = es₁ ++ .call .readPipe .again :: es₂ ∧
    (∀ r, .call (.sys .fgets) r ∉ es₂) ∧ terminal = notices es₁

structure Shows (es : List (Happening PipeCall.Ret Event)) (m : Moment) (w : World) : Prop where
  order : w.terminal ++ m.held ++ w.pipe = notices es
  prompt : m = .empty → UpToDate es w.terminal

variable {h : Happening PipeCall.Ret Event}

theorem notices_snoc_call {c : PipeCall} {r : c.Ret} :
    notices (es ++ [.call c r]) = notices es := by
  unfold notices
  rw [List.flatMap_append, List.flatMap_singleton, List.append_nil]

theorem notices_snoc_env : notices (es ++ [.env e]) = notices es ++ written e := by
  unfold notices
  rw [List.flatMap_append, List.flatMap_singleton]

theorem Complete.of_snoc (hcomplete : Complete (es ++ [h])) : Complete es :=
  fun buffer r hmem => hcomplete buffer r (List.mem_append_left _ hmem)

theorem UpToDate.snoc {terminal : List Char} (hup : UpToDate es terminal)
    (hline : ∀ r, h ≠ .call (.sys .fgets) r) : UpToDate (es ++ [h]) terminal := by
  obtain ⟨es₁, es₂, rfl, hnone, hterminal⟩ := hup
  refine ⟨es₁, es₂ ++ [h], by rw [List.append_assoc, List.cons_append], fun r hmem => ?_, hterminal⟩
  rcases List.mem_append.mp hmem with hmem | hmem
  · exact hnone r hmem
  · exact hline r (List.mem_singleton.mp hmem).symm

theorem Shows.event {capacity : Nat} (hshows : Shows es m w)
    (hstep : worldEvent capacity w e w') : Shows (es ++ [.env e]) m w' := by
  obtain ⟨-, s, -, rfl⟩ := hstep
  refine ⟨?_, fun hm => (hshows.prompt hm).snoc (by simp)⟩
  rw [notices_snoc_env, ← hshows.order]
  exact (List.append_assoc _ _ _).symm

/-- In a line the pipe is not found empty. -/
theorem empty_of_next {c : Call} {r : c.Ret} (hallowed : lineCalls.allowed m c)
    (hnext : lineCalls.next m c r = .empty) : m = .empty ∧ c ≠ .fgets := by
  cases c with
  | bgArrayIdx => exact absurd hnext (by simp [lineCalls])
  | fgets => exact absurd hnext (by simp [lineCalls])
  | incIdx =>
    have hpos : 0 < m.room := hallowed
    cases m with
    | line asked room => exact absurd hnext (by simp [lineCalls, Moment.takeRoom])
    | _ => exact absurd hpos (Nat.lt_irrefl 0)
  | _ => exact ⟨hnext, by simp⟩

theorem Shows.call {c : PipeCall} {r : c.Ret} (hshows : Shows es m w)
    (hcomplete : Complete (es ++ [.call c r])) (hallowed : noticing.allowed m c)
    (hstep : worldCall w c r w') : Shows (es ++ [.call c r]) (noticing.next m c r) w' := by
  have horder := hshows.order
  cases c with
  | sys c =>
    obtain ⟨-, s, -, rfl⟩ := hstep
    obtain ⟨hheld, hallowed⟩ := hallowed
    refine ⟨?_, fun hempty => ?_⟩
    · have hheld' : (noticing.next m (.sys c) r).held = [] := lineCalls_held r hheld
      rw [notices_snoc_call, hheld', ← horder, hheld]
    · obtain ⟨hm, hc⟩ := empty_of_next hallowed hempty
      refine (hshows.prompt hm).snoc fun r' heq => hc ?_
      exact PipeCall.sys.inj (Happening.call.inj heq).1
  | readPipe =>
    obtain ⟨-, hr, rfl⟩ := hstep
    have hheld : m.held = [] := hallowed
    rw [hheld, List.append_nil] at horder
    by_cases hpipe : w.pipe = []
    · rw [if_pos hpipe] at hr
      obtain rfl : r = .again := hr
      rw [hpipe, List.append_nil] at horder
      refine ⟨?_, fun _ => ⟨es, [], rfl, fun _ => List.not_mem_nil, horder⟩⟩
      change w.terminal ++ [] ++ w.pipe.drop bufferSize = _
      rw [hpipe, List.drop_nil, List.append_nil, List.append_nil, notices_snoc_call, horder]
    · rw [if_neg hpipe] at hr
      obtain rfl : r = .data (w.pipe.take bufferSize) := hr
      refine ⟨?_, fun hempty => absurd hempty (by simp [noticing])⟩
      change w.terminal ++ w.pipe.take bufferSize ++ w.pipe.drop bufferSize = _
      rw [List.append_assoc, List.take_append_drop, notices_snoc_call, horder]
  | writeStdout buffer =>
    obtain ⟨-, -, rfl⟩ := hstep
    obtain rfl : m = .holds buffer := hallowed
    have hr : r = (buffer.length : Int) :=
      hcomplete buffer r (List.mem_append_right _ List.mem_cons_self)
    refine ⟨?_, fun hempty => absurd hempty (by simp [noticing])⟩
    change w.terminal ++ buffer.take (Int.toNat r) ++ [] ++ w.pipe = _
    rw [hr, Int.toNat_natCast, List.take_length, List.append_nil, notices_snoc_call, ← horder]
    rfl
  | writeStderr msg =>
    obtain ⟨-, rfl⟩ := hstep
    exact ⟨notices_snoc_call.symm ▸ horder, fun hm => (hshows.prompt hm).snoc (by simp)⟩
  | goesOn => exact r.elim

theorem Shows.initial : Shows [] (.line false 0) World.initial where
  order := rfl
  prompt := fun hm => absurd hm (by simp)

/-- **What is shown.** If the terminal takes what it is given, it has what the handler has written,
    in order, but for what `check_bg_status` is writing and what is in the pipe; and at a prompt it
    has all that the handler had written when the pipe was found empty after the line before. -/
theorem notices_shown (hcomplete : Complete es)
    (hrun : WorldRun capacity (main lexLine rounds n) World.initial es p w) :
    (∃ held, w.terminal ++ held ++ w.pipe = notices es ∧
      (held = [] ∨ p.next = some (.writeStdout held))) ∧
    (p.next = some (.sys .fgets) → UpToDate es w.terminal) := by
  have hcall : ∀ es m w c (r : c.Ret) w', (Flows m w ∧ (Complete es → Shows es m w)) →
      noticing.allowed m c → worldCall w c r w' → noticing.answer m c r ∧
        Flows (noticing.next m c r) w' ∧ (Complete (es ++ [.call c r]) →
          Shows (es ++ [.call c r]) (noticing.next m c r) w') := by
    intro es m w c r w' ⟨hflows, hshows⟩ hallowed hstep
    obtain ⟨hanswer, hflows'⟩ := hflows.call hallowed hstep
    exact ⟨hanswer, hflows', fun hall => (hshows hall.of_snoc).call hall hallowed hstep⟩
  have henv : ∀ es m w e w', (Flows m w ∧ (Complete es → Shows es m w)) →
      worldEvent capacity w e w' →
        Flows m w' ∧ (Complete (es ++ [.env e]) → Shows (es ++ [.env e]) m w') :=
    fun es m w e w' ⟨hflows, hshows⟩ hstep =>
      ⟨hflows.event hstep, fun hall => (hshows hall.of_snoc).event hstep⟩
  obtain ⟨⟨-, hshows⟩, hobeys⟩ := Obeys.run_of_forall
    (I := fun es m w => Flows m w ∧ (Complete es → Shows es m w)) hcall henv (main_obeys rfl)
    ⟨Flows.initial, fun _ => Shows.initial⟩ hrun
  replace hshows := hshows hcomplete
  generalize noticing.phase (.line false 0) es = m at hshows hobeys
  refine ⟨⟨m.held, hshows.order, ?_⟩, fun hnext => hshows.prompt ?_⟩
  · cases p with
    | ret a => exact Or.inl hobeys
    | call c k =>
      have hallowed : noticing.allowed m c := hobeys.1
      cases c with
      | writeStdout buffer =>
        obtain rfl : m = .holds buffer := hallowed
        exact Or.inr rfl
      | sys c => exact Or.inl hallowed.1
      | _ => exact Or.inl hallowed
  · cases p with
    | ret a => exact absurd hnext (by simp [Prog.next])
    | call c k =>
      obtain rfl : c = .sys .fgets := Option.some.inj hnext
      exact hobeys.1.2

/-- `check_bg_status` shows what is in the pipe, and the prompt follows. -/
theorem shown_run {s : Snush} {lexer : Str → LexResult × List Token} {text : List Char}
    (hhandling : s.handling = false) (hne : text ≠ []) (hlen : text.length ≤ bufferSize) :
    ∃ (q : PipeM Unit) (w : World) (fs : List (Happening PipeCall.Ret Event)),
      WorldRun pipeBuf (main lexer 2 1) ⟨s, text, []⟩ fs q w ∧ q.next = some (.sys .fgets) ∧
      ∀ buffer (r : Int), .call (.writeStdout buffer) r ∈ fs → r = buffer.length := by
  have hpos : 0 < text.length := List.length_pos_of_ne_nil hne
  have hread : worldCall ⟨s, text, []⟩ .readPipe (.data text) ⟨s, [], []⟩ :=
    ⟨hhandling, by rw [if_neg hne, List.take_of_length_le hlen],
      by rw [List.drop_eq_nil_of_le hlen]⟩
  have hwrite : worldCall ⟨s, [], []⟩ (.writeStdout text) (text.length : Int) ⟨s, [], text⟩ :=
    ⟨hhandling, Int.le_refl _, by rw [Int.toNat_natCast, List.take_length, List.nil_append]⟩
  have hempty : worldCall ⟨s, [], text⟩ .readPipe .again ⟨s, [], text⟩ := ⟨hhandling, rfl, rfl⟩
  have hprompt : worldCall ⟨s, [], text⟩ (.sys (.printf "% ")) () ⟨s, [], text⟩ :=
    ⟨trivial, s, ⟨hhandling, rfl⟩, rfl⟩
  apply Exists.intro
  apply Exists.intro
  apply Exists.intro
  apply And.intro
  · apply ProgRun.called PipeCall.readPipe (ReadResult.data text) rfl hread
    dsimp only [Prog.bind, bind]
    rw [if_pos hpos]
    apply ProgRun.called (PipeCall.writeStdout text) (text.length : Int) rfl hwrite
    apply ProgRun.called PipeCall.readPipe ReadResult.again rfl hempty
    apply ProgRun.called (PipeCall.sys (.printf "% ")) () rfl hprompt
    exact Run.nil _
  · exact ⟨rfl, by simp⟩

/-- The handler writes the notice of a child before the shell says that it runs. -/
theorem notice_run {u s : Snush} {lexer : Str → LexResult × List Token} {text : String}
    (hstep : ShellEvent u (.reap 100 (some (doneMessage 100))) s) (hhandling : s.handling = true)
    (hprocs : ∀ pid, s.procs pid = none) :
    ∃ v : Snush, v.handling = false ∧
      WorldRun pipeBuf (.call (.sys (.printf text)) fun _ => main lexer 2 1) ⟨u, [], []⟩
        [.env (.reap 100 (some (doneMessage 100))), .env .finish, .call (.sys (.printf text)) ()]
        (main lexer 2 1) ⟨v, doneMessage 100, []⟩ := by
  have hlen : (doneMessage 100).length ≤ pipeBuf :=
    Nat.le_trans (length_doneMessage (by decide)) (by decide)
  have hnozombie : ∀ pid, ¬ s.Zombie pid := fun pid ⟨p, hp, _⟩ =>
    absurd (hp.symm.trans (hprocs pid)) (by simp)
  have hreap : worldEvent pipeBuf ⟨u, [], []⟩ (.reap 100 (some (doneMessage 100)))
      ⟨s, doneMessage 100, []⟩ :=
    ⟨Nat.le_trans (Nat.le_of_eq (Nat.zero_add _)) hlen, s, hstep, rfl⟩
  have hfinish : worldEvent pipeBuf ⟨s, doneMessage 100, []⟩ .finish
      ⟨{ s with handling := false }, doneMessage 100, []⟩ :=
    ⟨hlen, _, ShellEvent.finish hhandling hnozombie,
      congrArg (fun pipe => World.mk _ pipe []) (List.append_nil _).symm⟩
  have hprint : worldCall ⟨{ s with handling := false }, doneMessage 100, []⟩ (.sys (.printf text))
      () ⟨{ s with handling := false }, doneMessage 100, []⟩ := ⟨trivial, _, ⟨rfl, rfl⟩, rfl⟩
  refine ⟨{ s with handling := false }, rfl, ?_⟩
  apply ProgRun.happened (Event.reap 100 (some (doneMessage 100))) hreap
  apply ProgRun.happened Event.finish hfinish
  exact Run.cons (.call hprint) (Run.nil _)

/-- The prompt after the notice of `a &`. -/
theorem notices_shown_one : ∃ (q : PipeM Unit) (u : World)
    (fs : List (Happening PipeCall.Ret Event)),
    WorldRun pipeBuf (main (fun _ => (.success, [.word [97], .bg])) 2 2) World.initial fs q u ∧
    .env (.reap 100 (some (doneMessage 100))) ∈ fs ∧ q.next = some (.sys .fgets) ∧
    UpToDate fs u.terminal := by
  obtain ⟨u, s, fs, hrun, hnone, hstep, hhandling, hprocs⟩ := background_run rfl
  obtain ⟨v, hv, hnotice⟩ := notice_run hstep hhandling hprocs
  obtain ⟨q, w, fs', hshow, hnext, hall⟩ :=
    shown_run hv (List.cons_ne_nil _ _) (length_doneMessage (show (100 : Int) ≤ pidMax by decide))
  have hwhole := Run.trans (Run.trans hrun hnotice) hshow
  refine ⟨q, w, _, hwhole, by simp, hnext, (notices_shown (fun buffer r hmem => ?_) hwhole).2 hnext⟩
  rcases List.mem_append.mp hmem with hmem | hmem
  · rcases List.mem_append.mp hmem with hmem | hmem
    · exact absurd hmem (hnone buffer r)
    · exact absurd hmem (by simp)
  · exact hall buffer r hmem

end SnuSysProg.Shell.Notices
