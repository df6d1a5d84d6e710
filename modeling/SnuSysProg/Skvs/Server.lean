import SnuSysProg.Skvs.Replies

/-
  The server: `main` and its workers.

  This is `handle_client` with its loop over the clients. A connection is one of `Connection`, but
  the table and `g_shutdown` are those that all workers see (`Server.see`). As there, `skvs_serve`
  and `snprintf` are one step, so two workers serve one after the other. `main` starts the
  workers, waits for `g_shutdown`, joins them and gives everything back. Where a worker cannot be
  started, it gives everything back at once. The set-up before the workers is left out.

  The sockets: each worker has at most one, and when `main` returns all are closed
  (`server_shutdown`). The table: no worker uses it after `skvs_destroy` unless a worker could not
  be started while others run, and then one can (`server_faults`).
-/

namespace SnuSysProg.Skvs
open SnuSysProg.Lib

/-- Where a worker is in `handle_client`. -/
inductive Worker where
  | notStarted
  /-- At the head of the loop over the clients. -/
  | ready
  | accepting
  /-- Before `set_nonblocking`. -/
  | accepted (fd : Int)
  | connected (fd : Int) (c : Connection)
  | returned

/-- Where `main` is. `failed` is the worker that could not be started, if there is one. -/
inductive Main where
  | starting (i : Nat)
  | waiting
  | joining (i : Nat)
  /-- Before `close(listen_fd)`. -/
  | closing (failed : Option Nat)
  /-- Before `skvs_destroy`. -/
  | destroying (failed : Option Nat)
  /-- Before `return 0` or `exit(EXIT_FAILURE)`. -/
  | exiting (failed : Option Nat)
  | exited (failed : Option Nat)

structure Server where
  numThreads : Nat
  listenFd : Int
  main : Main
  shutdown : Bool
  table : Table
  /-- `skvs_destroy` was called. -/
  destroyed : Bool
  /-- The sockets that are open. -/
  fds : Finset Int
  worker : Nat → Worker
  /-- `buffer` of each worker. -/
  buffer : Nat → Buffer
  /-- A worker has called `skvs_serve` after `skvs_destroy`. -/
  faulted : Bool

def Worker.fd? : Worker → Option Int
  | .accepted fd => some fd
  | .connected fd _ => some fd
  | _ => none

/-- Until `main` closes the socket, the server listens. -/
def Main.Listens : Main → Prop
  | .starting _ | .waiting | .joining _ | .closing _ => True
  | _ => False

/-- What happens to a connection other than by what all workers see. -/
def Connection.Event.Own : Connection.Event → Prop
  | .sigint => False
  | .other _ => False
  | _ => True

namespace Server

inductive Event where
  | create
  /-- `malloc` or `pthread_create` fails. -/
  | createFails
  /-- Another step of `main`. -/
  | main
  | sigint
  | accept (w : Nat) (fd : Int)
  | conn (w : Nat) (e : Connection.Event)
  | close (w : Nat) (fd : Int)
  /-- Another step of a worker. -/
  | worker (w : Nat)

/-- The worker that takes the step. -/
def Event.worker? : Event → Option Nat
  | .accept w _ => some w
  | .conn w _ => some w
  | .close w _ => some w
  | .worker w => some w
  | _ => none

def put (s : Server) (w : Nat) (p : Worker) : Server :=
  { s with worker := Function.update s.worker w p }

/-- A connection with what all workers see. -/
def see (s : Server) (c : Connection) : Connection :=
  { c with shutdown := s.shutdown, table := s.table }

/-- The connection of a worker at the head of the loop over the requests. -/
def connection (s : Server) (w : Nat) : Connection :=
  { Connection.accepted (s.buffer w) s.table with
    shutdown := s.shutdown
    loop := requestHead s.shutdown }

inductive Step (s : Server) : Event → Server → Prop
  | create {i : Nat} (hmain : s.main = .starting i) (hi : i < s.numThreads) :
      Step s .create { s.put i .ready with main := .starting (i + 1) }
  | createFails {i : Nat} (hmain : s.main = .starting i) (hi : i < s.numThreads) :
      Step s .createFails { s with main := .closing (some i) }
  | started (hmain : s.main = .starting s.numThreads) : Step s .main { s with main := .waiting }
  | wake (hmain : s.main = .waiting) (hshutdown : s.shutdown = true) :
      Step s .main { s with main := .joining 0 }
  | join {i : Nat} (hmain : s.main = .joining i) (hi : i < s.numThreads)
      (hreturned : s.worker i = .returned) : Step s .main { s with main := .joining (i + 1) }
  | joined (hmain : s.main = .joining s.numThreads) :
      Step s .main { s with main := .closing none }
  | closeListen {failed : Option Nat} (hmain : s.main = .closing failed) :
      Step s .main { s with main := .destroying failed, fds := s.fds.erase s.listenFd }
  | destroy {failed : Option Nat} (hmain : s.main = .destroying failed) :
      Step s .main { s with main := .exiting failed, destroyed := true }
  | exit {failed : Option Nat} (hmain : s.main = .exiting failed) :
      Step s .main { s with main := .exited failed }
  | sigint : Step s .sigint { s with shutdown := true }
  | head {w : Nat} (hw : s.worker w = .ready) :
      Step s (.worker w) (s.put w (if s.shutdown then .returned else .accepting))
  | accept {w : Nat} {fd : Int} (hw : s.worker w = .accepting) (hlisten : s.listenFd ∈ s.fds)
      (hfd : fd ∉ s.fds) :
      Step s (.accept w fd) { s.put w (.accepted fd) with fds := insert fd s.fds }
  -- the `break` after a signal is taken at the head of the loop
  | acceptFails {w : Nat} (hw : s.worker w = .accepting) : Step s (.worker w) (s.put w .ready)
  | nonblock {w : Nat} {fd : Int} (hw : s.worker w = .accepted fd) :
      Step s (.worker w) (s.put w (.connected fd (s.connection w)))
  | nonblockFails {w : Nat} {fd : Int} (hw : s.worker w = .accepted fd) :
      Step s (.close w fd) { s.put w .ready with fds := s.fds.erase fd }
  | conn {w : Nat} {fd : Int} {c c' : Connection} {e : Connection.Event}
      (hw : s.worker w = .connected fd c) (hown : e.Own)
      (hserve : ∀ calls saved, e = .serve calls saved → s.destroyed = false)
      (hstep : Connection.Step (s.see c) e c') :
      Step s (.conn w e) { s.put w (.connected fd c') with table := c'.table }
  | close {w : Nat} {fd : Int} {c : Connection} (hw : s.worker w = .connected fd c)
      (hloop : c.loop = .closed) :
      Step s (.close w fd) { s.put w .ready with
        fds := s.fds.erase fd
        buffer := Function.update s.buffer w c.buffer }
  | serveFreed {w : Nat} {fd : Int} {c : Connection} {total : Nat}
      (hw : s.worker w = .connected fd c) (hloop : c.loop = .serving total)
      (hdestroyed : s.destroyed = true) : Step s (.worker w) { s with faulted := true }

/-- The process has not ended. -/
def Running (s : Server) : Prop := ∀ failed, s.main ≠ .exited failed

/-- What the threads do until the process ends. -/
abbrev Live : Server → Event → Server → Prop := Guarded (fun s _ => s.Running) Step

/-- The server before it starts its workers. -/
def initial (numThreads : Nat) (listenFd : Int) (table : Table) (buffer : Nat → Buffer) :
    Server where
  numThreads := numThreads
  listenFd := listenFd
  main := .starting 0
  shutdown := false
  table := table
  destroyed := false
  fds := {listenFd}
  worker := fun _ => .notStarted
  buffer := buffer
  faulted := false

variable {s s' : Server} {e : Event} {es : List Event} {w v : Nat} {fd : Int} {p : Worker}

@[simp] theorem put_worker (s : Server) (w : Nat) (p : Worker) : (s.put w p).worker w = p :=
  Function.update_self ..

theorem put_of_ne (hv : v ≠ w) : (s.put w p).worker v = s.worker v := Function.update_of_ne hv ..

/-! ## The workers that run -/

/-- No worker runs. -/
def Quiet (s : Server) : Prop := ∀ w, s.worker w = .notStarted ∨ s.worker w = .returned

/-- The workers when `main` gives everything back: none runs, or only those before the one that
    could not be started. -/
def Left (s : Server) : Option Nat → Prop
  | none => s.Quiet
  | some i => i < s.numThreads ∧ ∀ w, i ≤ w → s.worker w = .notStarted

/-- Which workers `main` has started, and which have returned. -/
def Staffed (s : Server) : Prop :=
  match s.main with
  | .starting i => i ≤ s.numThreads ∧ ∀ w, i ≤ w → s.worker w = .notStarted
  | .waiting => ∀ w, s.numThreads ≤ w → s.worker w = .notStarted
  | .joining i => i ≤ s.numThreads ∧ (∀ w, s.numThreads ≤ w → s.worker w = .notStarted) ∧
      ∀ w < i, s.worker w = .returned
  | .closing failed | .destroying failed | .exiting failed | .exited failed => s.Left failed

theorem Staffed.left {failed : Option Nat} (h : s.Staffed)
    (hmain : s.main = .exiting failed ∨ s.main = .exited failed) : s.Left failed := by
  unfold Staffed at h
  rcases hmain with hmain | hmain
  · rw [hmain] at h
    exact h
  · rw [hmain] at h
    exact h

/-- The worker `w` runs, and only it has changed. -/
structure Moves (s : Server) (w : Nat) (s' : Server) : Prop where
  started : s.worker w ≠ .notStarted
  running : s.worker w ≠ .returned
  others : ∀ v, v ≠ w → s'.worker v = s.worker v
  main : s'.main = s.main
  numThreads : s'.numThreads = s.numThreads
  destroyed : s'.destroyed = s.destroyed

/-- A worker that has not started or has returned stays so. -/
theorem Moves.same (h : s.Moves w s') (hv : s.worker v = .notStarted ∨ s.worker v = .returned) :
    s'.worker v = s.worker v := by
  refine h.others v ?_
  rintro rfl
  exact hv.elim h.started h.running

theorem Moves.staffed (h : s.Moves w s') (hs : s.Staffed) : s'.Staffed := by
  have hfuture : ∀ i, (∀ v, i ≤ v → s.worker v = .notStarted) →
      ∀ v, i ≤ v → s'.worker v = .notStarted := fun i hi v hv =>
    (h.same (Or.inl (hi v hv))).trans (hi v hv)
  have hpast : ∀ i, (∀ v < i, s.worker v = .returned) → ∀ v < i, s'.worker v = .returned :=
    fun i hi v hv => (h.same (Or.inr (hi v hv))).trans (hi v hv)
  have hend : ∀ failed, s.Left failed → s'.Left failed := by
    intro failed hfailed
    cases failed with
    | none =>
      intro v
      rw [h.same (hfailed v)]
      exact hfailed v
    | some i => exact ⟨h.numThreads ▸ hfailed.1, hfuture i hfailed.2⟩
  unfold Staffed at hs ⊢
  rw [h.main]
  cases hmain : s.main with
  | starting i =>
    rw [hmain] at hs
    exact ⟨h.numThreads ▸ hs.1, hfuture i hs.2⟩
  | waiting =>
    rw [hmain] at hs
    exact h.numThreads ▸ hfuture _ hs
  | joining i =>
    rw [hmain] at hs
    exact ⟨h.numThreads ▸ hs.1, h.numThreads ▸ hfuture _ hs.2.1, hpast i hs.2.2⟩
  | closing failed | destroying failed | exiting failed | exited failed =>
    rw [hmain] at hs
    exact hend failed hs

theorem moves_of_step (hstep : Step s e s') (he : e.worker? = some w) : s.Moves w s' := by
  have hput : ∀ {p q : Worker}, s.worker w = q → q ≠ .notStarted → q ≠ .returned →
      s.Moves w (s.put w p) := fun hw hstarted hrunning =>
    ⟨hw ▸ hstarted, hw ▸ hrunning, fun v hv => put_of_ne hv, rfl, rfl, rfl⟩
  have hset : ∀ {s₁ s₂ : Server}, s.Moves w s₁ → s₂.worker = s₁.worker → s₂.main = s₁.main →
      s₂.numThreads = s₁.numThreads → s₂.destroyed = s₁.destroyed → s.Moves w s₂ :=
    fun h hworker hmain hn hd => ⟨h.started, h.running, fun v hv => hworker ▸ h.others v hv,
      hmain ▸ h.main, hn ▸ h.numThreads, hd ▸ h.destroyed⟩
  cases hstep with
  | create | createFails | started | wake | join | joined | closeListen | destroy | exit
  | sigint => cases he
  | head hw => cases he; exact hput hw (by simp) (by simp)
  | accept hw => cases he; exact hset (hput hw (by simp) (by simp)) rfl rfl rfl rfl
  | acceptFails hw => cases he; exact hput hw (by simp) (by simp)
  | nonblock hw => cases he; exact hput hw (by simp) (by simp)
  | nonblockFails hw => cases he; exact hset (hput hw (by simp) (by simp)) rfl rfl rfl rfl
  | conn hw => cases he; exact hset (hput hw (by simp) (by simp)) rfl rfl rfl rfl
  | close hw => cases he; exact hset (hput hw (by simp) (by simp)) rfl rfl rfl rfl
  | serveFreed hw =>
    cases he
    exact ⟨by rw [hw]; simp, by rw [hw]; simp, fun _ _ => rfl, rfl, rfl, rfl⟩

theorem staffed_step (hs : s.Staffed) (hstep : Step s e s') : s'.Staffed := by
  cases he : e.worker? with
  | some w => exact (moves_of_step hstep he).staffed hs
  | none =>
    cases hstep with
    | @create i hmain hi =>
      rw [Staffed, hmain] at hs
      exact ⟨hi, fun v hv => (put_of_ne (by omega)).trans (hs.2 v (by omega))⟩
    | @createFails i hmain hi =>
      rw [Staffed, hmain] at hs
      exact ⟨hi, hs.2⟩
    | started hmain =>
      rw [Staffed, hmain] at hs
      exact hs.2
    | wake hmain =>
      rw [Staffed, hmain] at hs
      exact ⟨Nat.zero_le _, hs, fun v hv => absurd hv (Nat.not_lt_zero v)⟩
    | @join i hmain hi hreturned =>
      rw [Staffed, hmain] at hs
      refine ⟨hi, hs.2.1, fun v hv => ?_⟩
      obtain hlt | rfl := Nat.lt_or_eq_of_le (Nat.le_of_lt_succ hv)
      · exact hs.2.2 v hlt
      · exact hreturned
    | joined hmain =>
      rw [Staffed, hmain] at hs
      intro v
      obtain hlt | hle := Nat.lt_or_ge v s.numThreads
      · exact Or.inr (hs.2.2 v hlt)
      · exact Or.inl (hs.2.1 v hle)
    | closeListen hmain | destroy hmain | exit hmain =>
      rw [Staffed, hmain] at hs
      exact hs
    | sigint => exact hs
    | head | accept | acceptFails | nonblock | nonblockFails | conn | close | serveFreed => cases he

/-! ## The sockets -/

/-- The sockets that are open are that of the server, while it listens, and those of the workers,
    each of which has its own. -/
structure Sockets (s : Server) : Prop where
  open_iff : ∀ fd, fd ∈ s.fds ↔
    fd = s.listenFd ∧ s.main.Listens ∨ ∃ w, (s.worker w).fd? = some fd
  own : ∀ w v fd, (s.worker w).fd? = some fd → (s.worker v).fd? = some fd → w = v
  apart : ∀ w, (s.worker w).fd? ≠ some s.listenFd

theorem fd_put (h : p.fd? = (s.worker w).fd?) (v : Nat) :
    ((s.put w p).worker v).fd? = (s.worker v).fd? := by
  by_cases hv : v = w
  · rw [hv, put_worker, h]
  · rw [put_of_ne hv]

theorem Sockets.frame (h : s.Sockets) (hfd : ∀ w, (s'.worker w).fd? = (s.worker w).fd?)
    (hfds : s'.fds = s.fds) (hlisten : s'.listenFd = s.listenFd)
    (hmain : s'.main.Listens ↔ s.main.Listens) : s'.Sockets where
  open_iff fd := by
    simp only [hfd, hfds, hlisten, hmain]
    exact h.open_iff fd
  own w v fd := by
    rw [hfd, hfd]
    exact h.own w v fd
  apart w := by
    rw [hfd, hlisten]
    exact h.apart w

/-- A worker gets a socket that was not open. -/
theorem Sockets.opens (h : s.Sockets) (hw : (s.worker w).fd? = none) (hfd : fd ∉ s.fds)
    (hlisten : s.listenFd ∈ s.fds) (hp : p.fd? = some fd) :
    Sockets { s.put w p with fds := insert fd s.fds } := by
  have hfree : ∀ v, (s.worker v).fd? ≠ some fd := fun v hv =>
    hfd ((h.open_iff fd).mpr (Or.inr ⟨v, hv⟩))
  have hself : ((s.put w p).worker w).fd? = some fd := by rw [put_worker, hp]
  have hother : ∀ v g, ((s.put w p).worker v).fd? = some g →
      v = w ∧ g = fd ∨ v ≠ w ∧ (s.worker v).fd? = some g := by
    intro v g hg
    by_cases hv : v = w
    · rw [hv, hself] at hg
      exact Or.inl ⟨hv, (Option.some.inj hg).symm⟩
    · rw [put_of_ne hv] at hg
      exact Or.inr ⟨hv, hg⟩
  have hback : ∀ v g, (s.worker v).fd? = some g → ((s.put w p).worker v).fd? = some g := by
    intro v g hg
    have hv : v ≠ w := by
      rintro rfl
      rw [hw] at hg
      cases hg
    rw [put_of_ne hv, hg]
  refine ⟨fun g => ?_, fun v u g hv hu => ?_, fun v hv => ?_⟩
  · rw [Finset.mem_insert, h.open_iff]
    constructor
    · rintro (rfl | hl | ⟨v, hv⟩)
      · exact Or.inr ⟨w, hself⟩
      · exact Or.inl hl
      · exact Or.inr ⟨v, hback v g hv⟩
    · rintro (hl | ⟨v, hv⟩)
      · exact Or.inr (Or.inl hl)
      · rcases hother v g hv with ⟨-, rfl⟩ | ⟨-, hold⟩
        · exact Or.inl rfl
        · exact Or.inr (Or.inr ⟨v, hold⟩)
  · rcases hother v g hv with ⟨rfl, rfl⟩ | ⟨-, hold⟩
    · rcases hother u g hu with ⟨rfl, -⟩ | ⟨-, hold⟩
      · rfl
      · exact absurd hold (hfree u)
    · rcases hother u g hu with ⟨-, rfl⟩ | ⟨-, hold'⟩
      · exact absurd hold (hfree v)
      · exact h.own v u g hold hold'
  · rcases hother v _ hv with ⟨-, hg⟩ | ⟨-, hold⟩
    · exact hfd (hg ▸ hlisten)
    · exact h.apart v hold

/-- A worker closes its socket. -/
theorem Sockets.closes (h : s.Sockets) (hw : (s.worker w).fd? = some fd) (hp : p.fd? = none)
    (buffer : Nat → Buffer) :
    Sockets { s.put w p with fds := s.fds.erase fd, buffer := buffer } := by
  have hself : ((s.put w p).worker w).fd? = none := by rw [put_worker, hp]
  have hother : ∀ v g, ((s.put w p).worker v).fd? = some g ↔ v ≠ w ∧ (s.worker v).fd? = some g := by
    intro v g
    by_cases hv : v = w
    · rw [hv, hself]
      exact ⟨fun hg => absurd hg (by simp), fun hg => absurd rfl hg.1⟩
    · rw [put_of_ne hv, and_iff_right hv]
  refine ⟨fun g => ?_, fun v u g hv hu => ?_, fun v hv => ?_⟩
  · rw [Finset.mem_erase, h.open_iff]
    constructor
    · rintro ⟨hg, hl | ⟨v, hv⟩⟩
      · exact Or.inl hl
      · refine Or.inr ⟨v, (hother v g).mpr ⟨?_, hv⟩⟩
        rintro rfl
        exact hg (Option.some.inj (hv.symm.trans hw))
    · rintro (hl | ⟨v, hv⟩)
      · refine ⟨?_, Or.inl hl⟩
        rintro rfl
        exact h.apart w (hl.1 ▸ hw)
      · obtain ⟨hne, hold⟩ := (hother v g).mp hv
        refine ⟨?_, Or.inr ⟨v, hold⟩⟩
        rintro rfl
        exact hne (h.own v w g hold hw)
  · exact h.own v u g ((hother v g).mp hv).2 ((hother u g).mp hu).2
  · exact h.apart v ((hother v _).mp hv).2

theorem Sockets.stopListening (h : s.Sockets) {m : Main} (hm : ¬ m.Listens) :
    Sockets { s with main := m, fds := s.fds.erase s.listenFd } := by
  refine ⟨fun g => ?_, h.own, h.apart⟩
  rw [Finset.mem_erase, h.open_iff]
  constructor
  · rintro ⟨hg, hl | hv⟩
    · exact absurd hl.1 hg
    · exact Or.inr hv
  · rintro (hl | ⟨v, hv⟩)
    · exact absurd hl.2 hm
    · refine ⟨?_, Or.inr ⟨v, hv⟩⟩
      rintro rfl
      exact h.apart v hv

theorem sockets_step (hs : s.Staffed) (h : s.Sockets) (hstep : Step s e s') : s'.Sockets := by
  have hmove : ∀ {w : Nat} {p q : Worker}, s.worker w = q → p.fd? = q.fd? →
      (s.put w p).Sockets := fun hw hp => h.frame (fd_put (hw ▸ hp)) rfl rfl Iff.rfl
  cases hstep with
  | @create i hmain hi =>
    rw [Staffed, hmain] at hs
    refine h.frame (fd_put (hs.2 i le_rfl ▸ rfl)) rfl rfl ?_
    rw [hmain]
    exact Iff.rfl
  | createFails hmain => exact h.frame (fun _ => rfl) rfl rfl (by rw [hmain]; exact Iff.rfl)
  | started hmain => exact h.frame (fun _ => rfl) rfl rfl (by rw [hmain]; exact Iff.rfl)
  | wake hmain => exact h.frame (fun _ => rfl) rfl rfl (by rw [hmain]; exact Iff.rfl)
  | join hmain => exact h.frame (fun _ => rfl) rfl rfl (by rw [hmain]; exact Iff.rfl)
  | joined hmain => exact h.frame (fun _ => rfl) rfl rfl (by rw [hmain]; exact Iff.rfl)
  | closeListen => exact h.stopListening id
  | destroy hmain => exact h.frame (fun _ => rfl) rfl rfl (by rw [hmain]; exact Iff.rfl)
  | exit hmain => exact h.frame (fun _ => rfl) rfl rfl (by rw [hmain]; exact Iff.rfl)
  | sigint => exact h.frame (fun _ => rfl) rfl rfl Iff.rfl
  | head hw =>
    refine hmove hw ?_
    cases s.shutdown <;> rfl
  | accept hw hlisten hfd => exact h.opens (hw ▸ rfl) hfd hlisten rfl
  | acceptFails hw => exact hmove hw rfl
  | nonblock hw => exact hmove hw rfl
  | nonblockFails hw => exact h.closes (hw ▸ rfl) rfl s.buffer
  | @conn w fd c c' e hw =>
    have hput : (s.put w (.connected fd c')).Sockets := hmove hw rfl
    exact hput.frame (fun _ => rfl) rfl rfl Iff.rfl
  | close hw => exact h.closes (hw ▸ rfl) rfl _
  | serveFreed => exact h.frame (fun _ => rfl) rfl rfl Iff.rfl

def Event.opens (fd : Int) : Event → Bool
  | .accept _ g => g = fd
  | _ => false

def Event.closes (fd : Int) : Event → Bool
  | .close _ g => g = fd
  | _ => false

/-- What a step opens and closes. -/
theorem fds_step (h : s.Sockets) (hstep : Step s e s') (hfd : fd ≠ s.listenFd) :
    (if fd ∈ s'.fds then 1 else 0) + (if e.closes fd then 1 else 0) =
      (if fd ∈ s.fds then 1 else 0) + (if e.opens fd then 1 else 0) := by
  have herase : ∀ {w : Nat} {g : Int}, (s.worker w).fd? = some g →
      (if fd ∈ s.fds.erase g then 1 else 0) + (if Event.closes fd (.close w g) then 1 else 0) =
        if fd ∈ s.fds then 1 else 0 := by
    intro w g hw
    by_cases hg : g = fd
    · have hopen : fd ∈ s.fds := (h.open_iff fd).mpr (Or.inr ⟨w, hg ▸ hw⟩)
      simp [Event.closes, hg, hopen]
    · simp [Event.closes, hg, Ne.symm hg]
  cases hstep with
  | closeListen => simp [Event.opens, Event.closes, hfd]
  | @accept w g hw _ hnew =>
    by_cases hg : g = fd
    · simp [Event.opens, Event.closes, hg, hg ▸ hnew]
    · simp [Event.opens, Event.closes, hg, Ne.symm hg]
  | nonblockFails hw => exact herase (hw ▸ rfl)
  | close hw => exact herase (hw ▸ rfl)
  | _ => rfl

/-! ## All runs -/

structure Orderly (s : Server) : Prop where
  staffed : s.Staffed
  sockets : s.Sockets
  destroyed : s.destroyed = true ↔ ∃ failed, s.main = .exiting failed ∨ s.main = .exited failed
  faulted : s.faulted = true →
    ∃ i, s.main = .exiting (some (i + 1)) ∨ s.main = .exited (some (i + 1))

/-- When a worker runs after `skvs_destroy`, one could not be started while others run. -/
theorem Orderly.failed (h : s.Orderly) (hdestroyed : s.destroyed = true)
    (hstarted : s.worker w ≠ .notStarted) (hrunning : s.worker w ≠ .returned) :
    ∃ i, s.main = .exiting (some (i + 1)) ∨ s.main = .exited (some (i + 1)) := by
  obtain ⟨failed, hmain⟩ := h.destroyed.mp hdestroyed
  have hstaffed : s.Left failed := h.staffed.left hmain
  match failed with
  | none => exact ((hstaffed w).elim hstarted hrunning).elim
  | some 0 => exact absurd (hstaffed.2 w (Nat.zero_le w)) hstarted
  | some (i + 1) => exact ⟨i, hmain⟩

theorem orderly_step (h : s.Orderly) (hstep : Step s e s') : s'.Orderly := by
  refine ⟨staffed_step h.staffed hstep, sockets_step h.staffed h.sockets hstep, ?_, ?_⟩
  · cases he : e.worker? with
    | some w =>
      have hmoves := moves_of_step hstep he
      rw [hmoves.destroyed, hmoves.main]
      exact h.destroyed
    | none =>
      have hd := h.destroyed
      cases hstep with
      | create hmain | createFails hmain | started hmain | wake hmain | join hmain | joined hmain
      | closeListen hmain =>
        rw [hmain] at hd
        exact hd.trans (by simp)
      | destroy hmain => exact iff_of_true rfl ⟨_, Or.inl rfl⟩
      | exit hmain => exact iff_of_true (hd.mpr ⟨_, Or.inl hmain⟩) ⟨_, Or.inr rfl⟩
      | sigint => exact hd
      | head | accept | acceptFails | nonblock | nonblockFails | conn | close
      | serveFreed => cases he
  · have hf := h.faulted
    cases hstep with
    | create hmain | createFails hmain | started hmain | wake hmain | join hmain | joined hmain
    | closeListen hmain | destroy hmain =>
      rw [hmain] at hf
      intro hfaulted
      exact absurd (hf hfaulted) (by simp)
    | exit hmain =>
      intro hfaulted
      obtain ⟨i, hi⟩ := hf hfaulted
      rw [hmain] at hi
      rcases hi with hi | hi
      · exact ⟨i, Or.inr (by cases hi; rfl)⟩
      · cases hi
    | sigint | head | accept | acceptFails | nonblock | nonblockFails | conn | close => exact hf
    | serveFreed hw _ hdestroyed =>
      exact fun _ => h.failed hdestroyed (by rw [hw]; simp) (by rw [hw]; simp)

theorem orderly_initial (numThreads : Nat) (listenFd : Int) (table : Table)
    (buffer : Nat → Buffer) : (initial numThreads listenFd table buffer).Orderly := by
  refine ⟨⟨Nat.zero_le _, fun _ _ => rfl⟩, ⟨fun fd => ?_, ?_, ?_⟩, ?_, ?_⟩
  · simp [initial, Main.Listens, Worker.fd?]
  · simp [initial, Worker.fd?]
  · simp [initial, Worker.fd?]
  · simp [initial]
  · simp [initial]

variable {numThreads : Nat} {listenFd : Int} {table : Table} {buffer : Nat → Buffer}

theorem orderly_run (hrun : Run Live (initial numThreads listenFd table buffer) es s) :
    s.Orderly :=
  Run.preserves (P := Orderly) (fun _ _ _ h hstep => orderly_step h hstep.2) hrun
    (orderly_initial ..)

theorem same_run (hrun : Run Live (initial numThreads listenFd table buffer) es s) :
    s.listenFd = listenFd ∧ s.numThreads = numThreads := by
  refine Run.preserves (P := fun s => s.listenFd = listenFd ∧ s.numThreads = numThreads)
    (fun s e s' h hstep => ?_) hrun ⟨rfl, rfl⟩
  cases hstep.2 <;> exact h

/-- The sockets that were accepted and not closed are open. -/
theorem balanced_run (hrun : Run Live (initial numThreads listenFd table buffer) es s)
    (hfd : fd ≠ listenFd) :
    es.countP (Event.opens fd) =
      es.countP (Event.closes fd) + if fd ∈ s.fds then 1 else 0 := by
  generalize hs₀ : initial numThreads listenFd table buffer = s₀ at hrun
  induction hrun with
  | nil =>
    rw [← hs₀]
    simp [initial, hfd]
  | @snoc t u es e hrun hlast ih =>
    have hrun' := hs₀ ▸ hrun
    have hstep := fds_step (orderly_run hrun').sockets hlast.2 ((same_run hrun').1 ▸ hfd)
    rw [List.countP_append, List.countP_append, List.countP_singleton, List.countP_singleton,
      ih]
    omega

/-- **The server.** When it has shut down, all workers have returned, every socket is closed, each
    of the clients' sockets as often as it was accepted, and no worker has used the table after
    `skvs_destroy`. -/
theorem server_shutdown (hrun : Run Live (initial numThreads listenFd table buffer) es s)
    (hexited : s.main = .exited none) :
    s.Quiet ∧ s.fds = ∅ ∧ s.destroyed = true ∧ s.faulted = false ∧
      ∀ fd, fd ≠ listenFd → es.countP (Event.opens fd) = es.countP (Event.closes fd) := by
  have h := orderly_run hrun
  have hquiet : s.Quiet := h.staffed.left (Or.inr hexited)
  have hnone : ∀ fd, fd ∉ s.fds := by
    intro fd hmem
    rcases (h.sockets.open_iff fd).mp hmem with ⟨-, hl⟩ | ⟨w, hw⟩
    · rw [hexited] at hl
      exact hl
    · rcases hquiet w with hw' | hw'
      · rw [hw'] at hw
        cases hw
      · rw [hw'] at hw
        cases hw
  refine ⟨hquiet, Finset.eq_empty_of_forall_notMem hnone, ?_, ?_, fun fd hfd => ?_⟩
  · exact h.destroyed.mpr ⟨none, Or.inr hexited⟩
  · refine Bool.eq_false_iff.mpr fun hfaulted => ?_
    obtain ⟨i, hi | hi⟩ := h.faulted hfaulted
    · rw [hexited] at hi
      cases hi
    · rw [hexited] at hi
      cases hi
  · rw [balanced_run hrun hfd, if_neg (hnone fd), Nat.add_zero]

/-- A client that connects and goes, and a signal. -/
theorem server_shutdown_one : ∃ es s,
    Run Live (initial 1 3 ⟨∅, fun _ => nullAddr, fun _ => 0, 0, 1⟩ fun _ => []) es s ∧
      s.Quiet ∧ s.fds = ∅ ∧ s.destroyed = true ∧ s.faulted = false ∧
      ∀ fd, fd ≠ 3 → es.countP (Event.opens fd) = es.countP (Event.closes fd) := by
  have h1 : Run Live (initial 1 3 ⟨∅, fun _ => nullAddr, fun _ => 0, 0, 1⟩ fun _ => []) _ _ :=
    Run.single ⟨nofun, .create rfl (by decide)⟩
  have h2 := h1.snoc ⟨nofun, .head (w := 0) rfl⟩
  have h3 := h2.snoc ⟨nofun, .started rfl⟩
  have h4 : Run Live _ (_ ++ [.accept 0 4]) _ :=
    h3.snoc ⟨nofun, .accept rfl (by decide) (by decide)⟩
  have h5 := h4.snoc ⟨nofun, .nonblock (w := 0) rfl⟩
  have h6 : Run Live _ (_ ++ [.conn 0 .readEof]) _ :=
    h5.snoc ⟨nofun, .conn rfl trivial (fun _ _ h => by cases h) (.readEof rfl (Or.inl rfl))⟩
  have h7 := h6.snoc ⟨nofun, .sigint⟩
  have h8 := h7.snoc ⟨nofun, .close (w := 0) rfl rfl⟩
  have h9 := h8.snoc ⟨nofun, .head (w := 0) rfl⟩
  have h10 := h9.snoc ⟨nofun, .wake rfl rfl⟩
  have h11 := h10.snoc ⟨nofun, .join rfl (by decide) rfl⟩
  have h12 := h11.snoc ⟨nofun, .joined rfl⟩
  have h13 := h12.snoc ⟨nofun, .closeListen rfl⟩
  have h14 := h13.snoc ⟨nofun, .destroy rfl⟩
  have h15 := h14.snoc ⟨nofun, .exit rfl⟩
  exact ⟨_, _, h15, server_shutdown h15 rfl⟩

/-- The second worker cannot be started while the first one has a request. -/
theorem faulted_run (hn : 1 < numThreads) (listenFd : Int) (table : Table)
    (buffer : Nat → Buffer) :
    ∃ es s, Run Live (initial numThreads listenFd table buffer) es s ∧ s.faulted = true := by
  have hnew : listenFd + 1 ∉ ({listenFd} : Finset Int) := by simp
  have h1 : Run Live (initial numThreads listenFd table buffer) _ _ :=
    Run.single ⟨nofun, .create rfl (Nat.lt_of_succ_lt hn)⟩
  have h2 := h1.snoc ⟨nofun, .head (w := 0) rfl⟩
  have h3 : Run Live _ (_ ++ [.accept 0 (listenFd + 1)]) _ :=
    h2.snoc ⟨nofun, .accept rfl (Finset.mem_singleton_self listenFd) hnew⟩
  have h4 := h3.snoc ⟨nofun, .nonblock (w := 0) rfl⟩
  have h5 : Run Live _ (_ ++ [.conn 0 (.send [97, newline])]) _ :=
    h4.snoc ⟨nofun, .conn rfl trivial (fun _ _ h => by cases h) .send⟩
  have h6 : Run Live _ (_ ++ [.conn 0 (.readData 2)]) _ :=
    h5.snoc ⟨nofun, .conn rfl trivial (fun _ _ h => by cases h)
      (.readData rfl (by decide) (Nat.le_refl 2) (by decide))⟩
  have h7 := h6.snoc ⟨nofun, .createFails rfl hn⟩
  have h8 := h7.snoc ⟨nofun, .closeListen rfl⟩
  have h9 := h8.snoc ⟨nofun, .destroy rfl⟩
  have h10 := h9.snoc ⟨nofun, .serveFreed (w := 0) rfl rfl rfl⟩
  exact ⟨_, _, h10, rfl⟩

end Server

end SnuSysProg.Skvs
