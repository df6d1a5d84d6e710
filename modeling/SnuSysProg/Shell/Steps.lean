import SnuSysProg.Shell.Launch

/-
  What one call of the main thread does to the children, the table and the mask.

  `Launches` lists it; the label is the group that the call starts. Every invariant of the shell is
  proved from this list and from the four events.
-/

namespace SnuSysProg.Shell
open SnuSysProg.Lib

inductive Launches : Phase → Snush → Option Int → Phase → Snush → Prop
  | quiet {φ : Phase} {s : Snush} : Launches φ s none φ s
  | failed {φ : Phase} {s : Snush} (hfresh : φ.stage.fresh = none)
      (hblocked : φ.stage.blocked = false) : Launches φ s none ⟨.idle, φ.waitable⟩ s
  | leader {w : List Int} {s : Snush} {r : Int} {more : Bool} (hpos : 0 < r)
      (hfree : s.procs r = none) :
      Launches ⟨.idle, w⟩ s (some r) ⟨.forked r r more, []⟩ (s.setProc r (some ⟨true, true, r⟩))
  | member {w : List Int} {s : Snush} {r group : Int} {more : Bool} (hpos : 0 < r)
      (hfree : s.procs r = none) : Launches ⟨.between group, w⟩ s none ⟨.forked r group more, []⟩
        (s.setProc r (some ⟨true, true, group⟩))
  | foreground {w : List Int} {s : Snush} {r group : Int} (hfree : s.procs r = none) :
      Launches ⟨.idle, w⟩ s none ⟨.idle, r :: w⟩ (s.setProc r (some ⟨true, false, group⟩))
  | mask {w : List Int} {s : Snush} :
      Launches ⟨.idle, w⟩ s none ⟨.masked, w⟩ (s.setBlocked true)
  | guard {w : List Int} {s : Snush} {pid group : Int} {more : Bool} :
      Launches ⟨.forked pid group more, w⟩ s none ⟨.guarded pid group more, w⟩ (s.setBlocked true)
  | storePid {w : List Int} {s : Snush} {pid group : Int} {more : Bool} :
      Launches ⟨.guarded pid group more, w⟩ s none ⟨.pidStored pid group more, w⟩
        (s.setTable (s.table.setPid pid))
  | storePgid {w : List Int} {s : Snush} {pid group : Int} {more : Bool} :
      Launches ⟨.pidStored pid group more, w⟩ s none ⟨.stored pid group more, w⟩
        (s.setTable (s.table.setPgid group))
  | count {w : List Int} {s : Snush} {pid group : Int} {more : Bool} :
      Launches ⟨.stored pid group more, w⟩ s none ⟨.counted group more, w⟩
        (s.setTable s.table.incIdx)
  | unmask {w : List Int} {s : Snush} :
      Launches ⟨.masked, w⟩ s none ⟨.idle, w⟩ (s.setBlocked false)
  | unguard {w : List Int} {s : Snush} {group : Int} {more : Bool} :
      Launches ⟨.counted group more, w⟩ s none ⟨if more then .between group else .idle, w⟩
        (s.setBlocked false)
  | waited {φ : Phase} {s : Snush} {pid : Int} (hmem : pid ∈ φ.waitable) :
      Launches φ s none φ (s.setProc pid none)

/-- The group that a fork starts. -/
def startsGroup : Happening Call.Ret Event → Option Int
  | .call (.fork child) r =>
    if 0 < r ∧ child.background = true ∧ child.group = none then some r else none
  | _ => none

/-- What the phase says about the mask and about the slot that is being filled. -/
structure Mask (φ : Phase) (s : Snush) : Prop where
  blocked : s.blocked = φ.stage.blocked
  /-- The handler does not run while SIGCHLD is blocked. -/
  handling : s.blocked = true → s.handling = false
  pidStored : ∀ {pid group more}, φ.stage = .pidStored pid group more →
    (s.table.arr s.table.idx).pid = pid
  stored : ∀ {pid group more}, φ.stage = .stored pid group more →
    s.table.arr s.table.idx = ⟨pid, group⟩

variable {φ φ' : Phase} {s s' : Snush} {c : Call} {g : Option Int} {e : Event}

/-- `idx++` adds the entry that was stored. -/
theorem Mask.entries_count {w : List Int} {pid group : Int} {more : Bool}
    (h : Mask ⟨.stored pid group more, w⟩ s) :
    (s.setTable s.table.incIdx).table.entries = s.table.entries ++ [⟨pid, group⟩] := by
  rw [← h.stored rfl]
  exact Table.entries_incIdx

theorem Mask.initial : Mask Phase.initial Snush.initial where
  blocked := rfl
  handling := fun _ => rfl
  pidStored := fun h => absurd h (by simp [Phase.initial])
  stored := fun h => absurd h (by simp [Phase.initial])

/-- A phase in which no slot is being filled. -/
theorem Mask.of_blocked (hblocked : s.blocked = φ.stage.blocked) (hhandling : s.handling = false)
    (hpid : ∀ {pid group more}, φ.stage ≠ .pidStored pid group more)
    (hstored : ∀ {pid group more}, φ.stage ≠ .stored pid group more) : Mask φ s where
  blocked := hblocked
  handling := fun _ => hhandling
  pidStored := fun h => absurd h hpid
  stored := fun h => absurd h hstored

theorem Mask.launches (h : Mask φ s) (hhandling : s.handling = false)
    (hstep : Launches φ s g φ' s') : Mask φ' s' := by
  cases hstep with
  | quiet => exact h
  | failed hfresh hblocked =>
    exact Mask.of_blocked (h.blocked.trans hblocked) hhandling (by simp) (by simp)
  | leader => exact Mask.of_blocked h.blocked hhandling (by simp) (by simp)
  | member => exact Mask.of_blocked h.blocked hhandling (by simp) (by simp)
  | foreground => exact Mask.of_blocked h.blocked hhandling (by simp) (by simp)
  | mask => exact Mask.of_blocked rfl hhandling (by simp) (by simp)
  | guard => exact Mask.of_blocked rfl hhandling (by simp) (by simp)
  | @storePid _ _ pid group more =>
    refine ⟨h.blocked, fun _ => hhandling, fun heq => ?_, fun heq => absurd heq (by simp)⟩
    obtain ⟨rfl, -, -⟩ := Stage.pidStored.inj heq
    have hslot : (s.table.setPid pid).arr s.table.idx =
        { s.table.arr s.table.idx with pid := pid } :=
      Function.update_self ..
    exact congrArg BgProcess.pid hslot
  | @storePgid _ _ pid group more =>
    refine ⟨h.blocked, fun _ => hhandling, fun heq => absurd heq (by simp), fun heq => ?_⟩
    obtain ⟨rfl, rfl, -⟩ := Stage.stored.inj heq
    have hslot : (s.table.setPgid group).arr s.table.idx =
        { s.table.arr s.table.idx with pgid := group } := Function.update_self ..
    rw [← h.pidStored rfl]
    exact hslot
  | count => exact Mask.of_blocked h.blocked hhandling (by simp) (by simp)
  | unmask => exact Mask.of_blocked rfl hhandling (by simp) (by simp)
  | @unguard _ _ group more =>
    cases more with
    | true => exact Mask.of_blocked rfl hhandling (by simp) (by simp)
    | false => exact Mask.of_blocked rfl hhandling (by simp) (by simp)
  | waited => exact ⟨h.blocked, h.handling, h.pidStored, h.stored⟩

theorem Mask.event (h : Mask φ s) (hstep : ShellEvent s e s') : Mask φ s' := by
  cases hstep with
  | exits => exact ⟨h.blocked, h.handling, h.pidStored, h.stored⟩
  | deliver hpending hblocked =>
    refine ⟨h.blocked, fun htrue => ?_, h.pidStored, h.stored⟩
    exact absurd (htrue.symm.trans hblocked) (by decide)
  | reap hhandling =>
    -- the handler runs, so no slot is being filled
    have hopen : φ.stage.blocked = false := by
      rw [← h.blocked]
      by_contra hblocked
      have hnot := h.handling (by simpa using hblocked)
      rw [hnot] at hhandling
      exact absurd hhandling (by decide)
    refine ⟨h.blocked, h.handling, fun heq => ?_, fun heq => ?_⟩
    · exact absurd (heq ▸ hopen) (by simp [Stage.blocked])
    · exact absurd (heq ▸ hopen) (by simp [Stage.blocked])
  | finish => exact ⟨h.blocked, fun _ => rfl, h.pidStored, h.stored⟩

theorem launches_fork {w : List Int} {stage : Stage} {child : Child} {r : Int} (hpos : 0 < r)
    (hfree : s.procs r = none) (hallowed : launchAllowed ⟨stage, w⟩ (.fork child)) :
    Launches ⟨stage, w⟩ s (startsGroup (.call (.fork child) r)) (Phase.fork ⟨stage, w⟩ child r)
      (s.setProc r (some (child.proc r))) := by
  obtain ⟨background, group, last⟩ := child
  rw [Phase.fork_pos hpos]
  cases stage with
  | idle =>
    cases background with
    | true =>
      obtain rfl : group = none := hallowed rfl
      have hstarts : startsGroup (.call (.fork ⟨true, none, last⟩) r) = some r :=
        if_pos ⟨hpos, rfl, rfl⟩
      rw [hstarts]
      exact .leader hpos hfree
    | false =>
      have hstarts : startsGroup (.call (.fork ⟨false, group, last⟩) r) = none := if_neg (by simp)
      rw [hstarts]
      exact .foreground hfree
  | between group' =>
    have hchild : background = true ∧ group = some group' := hallowed
    obtain ⟨rfl, rfl⟩ := hchild
    have hstarts : startsGroup (.call (.fork ⟨true, some group', last⟩) r) = none :=
      if_neg (by simp)
    rw [hstarts]
    exact .member hpos hfree
  | _ => exact hallowed.elim

/-- The calls that the discipline allows do what the list says. -/
theorem Launches.of_call {r : c.Ret} (hmask : Mask φ s) (hallowed : launching.allowed φ c)
    (hstep : ShellCall s c r s') : launching.answer φ c r ∧
      Launches φ s (startsGroup (.call c r)) (launching.next φ c r) s' := by
  obtain ⟨stage, w⟩ := φ
  obtain ⟨hhandling, hstep⟩ := hstep
  cases c with
  | fork child =>
    rcases hstep with ⟨hpos, hfree, rfl⟩ | ⟨hr, rfl⟩
    · exact ⟨Or.inr hpos, launches_fork hpos hfree hallowed⟩
    · refine ⟨Or.inl hr, ?_⟩
      obtain rfl : r = (-1 : Int) := hr
      cases stage with
      | idle => exact .failed rfl rfl
      | between group => exact .failed rfl rfl
      | _ => exact hallowed.elim
  | sigBlock =>
    obtain ⟨rfl, rfl⟩ := hstep
    refine ⟨congrArg (Prod.mk 0) hmask.blocked, ?_⟩
    rcases hallowed with rfl | ⟨pid, group, more, rfl⟩
    · exact .mask
    · exact .guard
  | sigSetmask oldset =>
    obtain ⟨hr, rfl⟩ := hstep
    refine ⟨hr, ?_⟩
    obtain ⟨rfl, rfl | ⟨group, more, rfl⟩⟩ := hallowed
    · exact .unmask
    · cases more with
      | true => exact .unguard
      | false => exact .unguard
  | storePid pid =>
    obtain rfl := hstep
    obtain ⟨group, more, rfl⟩ := hallowed
    exact ⟨trivial, .storePid⟩
  | storePgid pgid =>
    obtain rfl := hstep
    obtain ⟨pid, more, rfl⟩ := hallowed
    exact ⟨trivial, .storePgid⟩
  | incIdx =>
    obtain rfl := hstep
    obtain ⟨pid, group, more, rfl⟩ := hallowed
    exact ⟨trivial, .count⟩
  | waitpid pid =>
    refine ⟨trivial, ?_⟩
    rcases hstep with ⟨-, -, rfl⟩ | ⟨-, -, rfl⟩
    · exact .waited hallowed.2
    · exact .quiet
  | bgArrayIdx =>
    obtain ⟨-, rfl⟩ := hstep
    exact ⟨trivial, .quiet⟩
  | _ =>
    obtain rfl := hstep
    exact ⟨trivial, .quiet⟩

variable {lexLine : Str → LexResult × List Token} {n : Nat} {p : ShellM Unit}
  {es : List (Happening Call.Ret Event)} {Good : Phase → Snush → Event → Prop}

/-- What the listed steps and the events keep holds all along the main thread. At a prompt no
    command is being launched. -/
theorem mainLoop_invariant {I : List (Happening Call.Ret Event) → Phase → Snush → Prop}
    (hcall : ∀ es φ s c (r : c.Ret) φ' s', I es φ s → Mask φ s →
      Launches φ s (startsGroup (.call c r)) φ' s' → I (es ++ [.call c r]) φ' s')
    (hevent : ∀ es φ s e s', I es φ s → Good φ s e → ShellEvent s e s' → I (es ++ [.env e]) φ s')
    (hstart : I [] Phase.initial Snush.initial)
    (hrun : ShellRun (mainLoop lexLine n) Snush.initial es p s)
    (hgood : launching.Meets Phase.initial ShellCall ShellEvent Good
      (mainLoop lexLine n, Snush.initial) es) :
    I es (launching.phase Phase.initial es) s ∧
      (p.next = some .fgets → (launching.phase Phase.initial es).stage = .idle) := by
  have hall : (Mask (launching.phase Phase.initial es) s ∧
      I es (launching.phase Phase.initial es) s) ∧
      Obeys launching (fun _ φ => φ.stage = .idle) p (launching.phase Phase.initial es) := by
    refine Obeys.run (I := fun es φ s => Mask φ s ∧ I es φ s) ?_ ?_ (mainLoop_obeys rfl)
      ⟨Mask.initial, hstart⟩ hrun hgood
    · rintro es φ s c r s' ⟨hmask, hI⟩ hallowed hexec
      obtain ⟨hanswer, hstep⟩ := Launches.of_call hmask hallowed hexec
      exact ⟨hanswer, hmask.launches hexec.1 hstep, hcall _ _ _ _ _ _ _ hI hmask hstep⟩
    · rintro es φ s e s' ⟨hmask, hI⟩ hmeets hstep
      exact ⟨hmask.event hstep, hevent _ _ _ _ _ hI hmeets hstep⟩
  refine ⟨hall.1.2, fun hprompt => ?_⟩
  cases p with
  | ret => exact absurd hprompt (by simp [Prog.next])
  | call c k =>
    obtain rfl : c = .fgets := Option.some.inj hprompt
    exact hall.2.1

end SnuSysProg.Shell
