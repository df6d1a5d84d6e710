import SnuSysProg.Shell.Handler
import SnuSysProg.Shell.Main

/-
  The main thread among its children and `sigzombie_handler`.

  Between any two calls of the main thread a child may end, and while SIGCHLD is not blocked the
  handler may run: `deliver` starts it, `reap` is one round of its loop, `finish` its end. The main
  thread waits while it runs. `waitpid` of a child that runs does not answer; the handler is
  installed by `signal`, so it is restarted after it. A `fork` gives a pid that no running child
  and no zombie has, or fails. What the children do is `Descriptors`.
-/

namespace SnuSysProg.Shell
open SnuSysProg.Lib

/-- A child that has not been reaped. -/
structure Proc where
  running : Bool
  background : Bool
  /-- The pid of the first child of its command. -/
  group : Int
  deriving DecidableEq

/-- The shell and its children. -/
structure Snush where
  /-- SIGCHLD is blocked. -/
  blocked : Bool
  pending : Bool
  /-- `sigzombie_handler` runs. -/
  handling : Bool
  procs : Int → Option Proc
  table : Table

/-- When `main` enters its loop. -/
def Snush.initial : Snush := ⟨false, false, false, fun _ => none, Table.initial⟩

def Snush.setProc (s : Snush) (pid : Int) (p : Option Proc) : Snush :=
  { s with procs := Function.update s.procs pid p }

theorem Snush.procs_setProc_self (s : Snush) (pid : Int) (p : Option Proc) :
    (s.setProc pid p).procs pid = p := Function.update_self ..

theorem Snush.procs_setProc_ne {s : Snush} {pid x : Int} {p : Option Proc} (h : x ≠ pid) :
    (s.setProc pid p).procs x = s.procs x := Function.update_of_ne h ..

/-- A child that is there after one was waited for was there before. -/
theorem Snush.procs_of_gone {s : Snush} {pid x : Int} {p : Proc}
    (h : (s.setProc pid none).procs x = some p) : x ≠ pid ∧ s.procs x = some p := by
  by_cases hx : x = pid
  · subst hx
    exact absurd ((s.procs_setProc_self x none).symm.trans h) (by simp)
  · exact ⟨hx, (procs_setProc_ne hx).symm.trans h⟩

def Snush.setTable (s : Snush) (t : Table) : Snush := { s with table := t }

def Snush.setBlocked (s : Snush) (b : Bool) : Snush := { s with blocked := b }

inductive Event where
  /-- A child ends. -/
  | exits (pid : Int)
  | deliver
  /-- `waitpid` gives the handler this child, and it writes this text. -/
  | reap (pid : Int) (written : Option (List Char))
  | finish

def Snush.Zombie (s : Snush) (pid : Int) : Prop := ∃ p, s.procs pid = some p ∧ p.running = false

inductive ShellEvent : Snush → Event → Snush → Prop
  | exits {s : Snush} {pid : Int} {p : Proc} (hproc : s.procs pid = some p)
      (hrunning : p.running = true) : ShellEvent s (.exits pid)
        { s.setProc pid (some { p with running := false }) with pending := true }
  | deliver {s : Snush} (hpending : s.pending = true) (hblocked : s.blocked = false)
      (hhandling : s.handling = false) :
      ShellEvent s .deliver { s with pending := false, handling := true }
  | reap {s : Snush} {pid : Int} (hhandling : s.handling = true) (hzombie : s.Zombie pid) :
      ShellEvent s (.reap pid (handleChild s.table pid).2)
        ((s.setProc pid none).setTable (handleChild s.table pid).1)
  | finish {s : Snush} (hhandling : s.handling = true) (hnone : ∀ pid, ¬ s.Zombie pid) :
      ShellEvent s .finish { s with handling := false }

/-- A child that has just been forked. -/
def Child.proc (child : Child) (pid : Int) : Proc := ⟨true, child.background, child.group.getD pid⟩

/-- A call of the main thread. -/
def callStep (s : Snush) : (c : Call) → c.Ret → Snush → Prop
  | .fork child, r, s' =>
      (0 < r ∧ s.procs r = none ∧ s' = s.setProc r (some (child.proc r))) ∨ (r = -1 ∧ s' = s)
  | .sigBlock, r, s' => r = (0, s.blocked) ∧ s' = s.setBlocked true
  | .sigSetmask oldset, r, s' => r = 0 ∧ s' = s.setBlocked oldset
  | .waitpid pid, r, s' => (s.Zombie pid ∧ r.1 = pid ∧ s' = s.setProc pid none) ∨
      (s.procs pid = none ∧ r = (-1, .echild) ∧ s' = s)
  | .bgArrayIdx, r, s' => r = s.table.idx ∧ s' = s
  | .storePid pid, _, s' => s' = s.setTable (s.table.setPid pid)
  | .storePgid pgid, _, s' => s' = s.setTable (s.table.setPgid pgid)
  | .incIdx, _, s' => s' = s.setTable s.table.incIdx
  | _, _, s' => s' = s

/-- The main thread goes on only when the handler does not run. -/
def ShellCall (s : Snush) (c : Call) (r : c.Ret) (s' : Snush) : Prop :=
  s.handling = false ∧ callStep s c r s'

/-- The runs of a part of the main thread, among the events. -/
abbrev ShellRun {α : Type} (p : ShellM α) (s : Snush) (es : List (Happening Call.Ret Event))
    (p' : ShellM α) (s' : Snush) : Prop :=
  ProgRun ShellCall ShellEvent (p, s) es (p', s')

end SnuSysProg.Shell
