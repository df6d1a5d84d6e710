import Mathlib.Data.Set.Basic
import SnuSysProg.Shell.Calls
import SnuSysProg.Shell.Descriptors

/-
  The descriptors that the shell keeps after a pipeline.

  When `pipe` or `sigprocmask` fails, `iter_pipe_fork_exec` closes the pipes it has made; when
  `fork` fails it returns without closing them. So the shell has the same descriptors open as
  before if and only if no `fork` has failed (`pipeline_closes`).
-/

namespace SnuSysProg.Shell
open SnuSysProg.Lib

/-- A call of the parent, where `pipe` may fail. `fdStep` lets `fork` and `sigprocmask` fail. -/
def ParentStep (q : Process) (c : Call) (r : c.Ret) (q' : Process) : Prop :=
  match c, r with
  | .pipe, r => fdStep q .pipe r q' ∨ r = none ∧ q' = q
  | .fork child, r => r ≠ 0 ∧ fdStep q (.fork child) r q'
  | c, r => fdStep q c r q'

/-- The runs of the parent. -/
abbrev ParentRun {α : Type} (p : ShellM α) (q : Process) (es : List (Happening Call.Ret Empty))
    (p' : ShellM α) (q' : Process) : Prop :=
  ProgRun ParentStep noEvent (p, q) es (p', q')

def Process.openFds (q : Process) : Set Int := {fd | q.fds fd ≠ none}

def ForkFailed (es : List (Happening Call.Ret Empty)) : Prop :=
  ∃ child, .call (.fork child) (-1 : Int) ∈ es

/-! ## The calls of the parent -/

/-- The descriptors of the pipes that are open, and whether a fork has failed. -/
structure Opened where
  fds : List Int
  failed : Bool

def closing : Discipline Call.Ret Opened where
  allowed := fun φ c => match c with
    | .close fd => fd ∈ φ.fds
    | .openRead _ => False
    | .openWrite _ => False
    | .dup2 _ _ => False
    | .execvp _ => False
    | _ => True
  answer := fun _ c => match c with
    | .fork _ => fun r => r = -1 ∨ 0 < r
    | .close _ => fun r => r = 0
    | _ => fun _ => True
  next := fun φ c => match c with
    | .pipe => fun r => match r with
      | some (x, y) => { φ with fds := φ.fds ++ [x, y] }
      | none => φ
    | .fork _ => fun r => { φ with failed := φ.failed || r == -1 }
    | .close fd => fun _ => { φ with fds := φ.fds.erase fd }
    | _ => fun _ => φ

/-- The pipes stay open when a fork has failed, and only then. -/
def Kept (φ : Opened) : Prop := φ.failed = true ↔ φ.fds ≠ []

variable {α β : Type} {φ : Opened} {Q : α → Opened → Prop} {R : β → Opened → Prop} {pl : Pipeline}
  {isBackground failed : Bool} {pid pgid : Int} {pids : List Int} {n i pcount : Nat}
  {tokens : List Token} {pipeFds : List (Int × Int)}

theorem closing_errorPrint {input : Subject} {mode : PrintMode} {k : Unit → ShellM α}
    (hk : Obeys closing Q (k ()) φ) : Obeys closing Q (errorPrint input mode >>= k) φ :=
  Obeys.quiet (fun _ => ⟨trivial, fun _ => rfl⟩) fun _ => hk

theorem closeAllPipes_closing :
    Obeys closing (fun _ φ' => φ' = ⟨[], failed⟩) (closeAllPipes pipeFds)
      ⟨ends pipeFds, failed⟩ := by
  induction pipeFds with
  | nil => exact Obeys.ret rfl
  | cons p pipeFds ih =>
    have hends : ends (p :: pipeFds) = p.1 :: p.2 :: ends pipeFds := rfl
    rw [hends]
    refine Obeys.perform List.mem_cons_self fun r hr => ?_
    obtain rfl : r = (0 : Int) := hr
    have hfirst : closing.next ⟨p.1 :: p.2 :: ends pipeFds, failed⟩ (.close p.1) (0 : Int) =
        ⟨p.2 :: ends pipeFds, failed⟩ := by
      change Opened.mk ((p.1 :: p.2 :: ends pipeFds).erase p.1) failed = _
      rw [List.erase_cons_head]
    rw [hfirst]
    refine Obeys.ite_neg (by decide) ?_
    refine Obeys.perform List.mem_cons_self fun r hr => ?_
    obtain rfl : r = (0 : Int) := hr
    have hsecond : closing.next ⟨p.2 :: ends pipeFds, failed⟩ (.close p.2) (0 : Int) =
        ⟨ends pipeFds, failed⟩ := by
      change Opened.mk ((p.2 :: ends pipeFds).erase p.2) failed = _
      rw [List.erase_cons_head]
    rw [hsecond]
    exact Obeys.ite_neg (by decide) ih

theorem pipeLoop_closing (pipeFds : List (Int × Int)) : Obeys closing (fun r φ' => match r with
      | some fds => φ' = ⟨ends fds, false⟩ ∧ fds.length = pipeFds.length + n
      | none => φ' = ⟨[], false⟩) (pipeLoop n pipeFds) ⟨ends pipeFds, false⟩ := by
  induction n generalizing pipeFds with
  | zero => exact Obeys.ret ⟨rfl, rfl⟩
  | succ n ih =>
    refine Obeys.perform trivial fun r _ => ?_
    cases r with
    | some fds =>
      have hnext : closing.next ⟨ends pipeFds, false⟩ .pipe (some fds) =
          ⟨ends (pipeFds ++ [fds]), false⟩ := by
        change Opened.mk (ends pipeFds ++ [fds.1, fds.2]) false = _
        unfold ends
        rw [List.flatMap_append]
        rfl
      rw [hnext]
      refine (ih _).mono fun r φ' h => ?_
      cases r with
      | none => exact h
      | some fds' =>
        refine ⟨h.1, h.2.trans ?_⟩
        rw [List.length_append, List.length_singleton]
        omega
    | none =>
      refine Obeys.bind closeAllPipes_closing ?_
      rintro _ _ rfl
      exact closing_errorPrint (Obeys.ret rfl)

/-- A fork with the pipes open. -/
theorem fork_closing {child : Child} {f : Int → ShellM β} {fds : List Int} (hfds : fds ≠ [])
    (hfail : ∀ φ, Kept φ → Obeys closing R (f (-1)) φ)
    (hpid : ∀ pid, 0 < pid → Obeys closing R (f pid) ⟨fds, false⟩) :
    Obeys closing R (fork child >>= f) ⟨fds, false⟩ := by
  refine Obeys.perform trivial fun r hr => ?_
  rcases hr with hr | hr
  · obtain rfl : r = (-1 : Int) := hr
    exact hfail _ (iff_of_true rfl hfds)
  · have hne : (r == (-1 : Int)) = false := by
      have hr : (0 : Int) < r := hr
      exact beq_eq_false_iff_ne.mpr fun heq => absurd (heq ▸ hr) (by decide)
    have hnext : closing.next ⟨fds, false⟩ (.fork child) r = ⟨fds, false⟩ := by
      change Opened.mk fds (false || (r == (-1 : Int))) = _
      rw [hne]
      rfl
    rw [hnext]
    exact hpid r hr

theorem register_closing : Obeys closing (fun _ φ' => φ' = φ) (register pid pgid) φ := by
  refine Obeys.perform trivial fun _ _ => ?_
  refine Obeys.perform trivial fun _ _ => ?_
  exact Obeys.call trivial fun _ _ => rfl

theorem afterFork_closing : Obeys closing
    (fun goOn φ' => φ' = if goOn then ⟨ends pl.pipeFds, false⟩ else ⟨[], false⟩)
    (afterFork pl isBackground pid pgid) ⟨ends pl.pipeFds, false⟩ := by
  have hfail : ∀ text, Obeys closing
      (fun goOn φ' => φ' = if goOn then ⟨ends pl.pipeFds, false⟩ else ⟨[], false⟩) (do
        closeAllPipes pl.pipeFds
        errorPrint (.text text) .perror
        return false) ⟨ends pl.pipeFds, false⟩ := by
    intro text
    refine Obeys.bind closeAllPipes_closing ?_
    rintro _ _ rfl
    exact closing_errorPrint (Obeys.ret rfl)
  have hrest : ∀ oldset, Obeys closing
      (fun goOn φ' => φ' = if goOn then ⟨ends pl.pipeFds, false⟩ else ⟨[], false⟩) (do
        if (← sigSetmask oldset) < 0 then
          closeAllPipes pl.pipeFds
          errorPrint (.text "Failed to restore signal mask") .perror
          return false
        return true) ⟨ends pl.pipeFds, false⟩ := by
    intro oldset
    refine Obeys.perform trivial fun r _ => ?_
    exact Obeys.ite (fun _ => hfail _) fun _ => Obeys.ret rfl
  refine Obeys.perform trivial fun r _ => ?_
  refine Obeys.ite (fun _ => hfail _) fun _ => ?_
  refine Obeys.ite (fun _ => ?_) fun _ => hrest _
  refine Obeys.bind register_closing ?_
  rintro _ _ rfl
  exact hrest _

theorem kept_closed : Kept ⟨[], false⟩ := iff_of_false (by decide) fun hne => hne rfl

theorem middleLoop_closing (hfds : ends pl.pipeFds ≠ []) :
    Obeys closing (fun r φ' => match r with
        | some _ => φ' = ⟨ends pl.pipeFds, false⟩
        | none => Kept φ')
      (middleLoop pl isBackground pgid n i pids) ⟨ends pl.pipeFds, false⟩ := by
  induction n generalizing i pids with
  | zero => exact Obeys.ret rfl
  | succ n ih =>
    refine fork_closing hfds (fun φ hkept => ?_) fun pid hpid => ?_
    · refine Obeys.ite_pos (by decide) ?_
      exact closing_errorPrint (Obeys.ret hkept)
    · refine parent_obeys hpid ?_
      refine Obeys.bind afterFork_closing fun goOn φ' hφ' => ?_
      cases goOn with
      | true =>
        obtain rfl : φ' = ⟨ends pl.pipeFds, false⟩ := hφ'
        exact Obeys.ite_neg (fun hnot => absurd rfl hnot) ih
      | false =>
        obtain rfl : φ' = ⟨[], false⟩ := hφ'
        exact Obeys.ite_pos (by decide) (Obeys.ret kept_closed)

theorem waitLoop_closing : Obeys closing (fun _ φ' => φ' = φ) (waitLoop pids) φ := by
  induction pids with
  | nil => exact Obeys.ret rfl
  | cons pid pids ih =>
    refine Obeys.perform trivial fun r _ => ?_
    refine Obeys.ite (fun _ => ?_) fun _ => ih
    exact Obeys.ite (fun _ => closing_errorPrint (Obeys.ret rfl)) fun _ => ih

theorem otherChildren_closing (pl : Pipeline) (hfds : ends pl.pipeFds ≠ []) :
    Obeys closing (fun _ φ' => Kept φ')
      (otherChildren pl isBackground pcount pgid) ⟨ends pl.pipeFds, false⟩ := by
  refine Obeys.bind (middleLoop_closing hfds) fun r φ' hr => ?_
  cases r with
  | none => exact Obeys.ret hr
  | some pids =>
    obtain rfl : φ' = ⟨ends pl.pipeFds, false⟩ := hr
    refine fork_closing hfds (fun φ hkept => ?_) fun pid hpid => ?_
    · refine Obeys.ite_pos (by decide) ?_
      exact closing_errorPrint (Obeys.ret hkept)
    · refine parent_obeys hpid ?_
      refine Obeys.bind afterFork_closing fun goOn φ' hφ' => ?_
      cases goOn with
      | true =>
        obtain rfl : φ' = ⟨ends pl.pipeFds, false⟩ := hφ'
        refine Obeys.ite_neg (fun hnot => absurd rfl hnot) ?_
        refine Obeys.bind closeAllPipes_closing ?_
        rintro _ _ rfl
        refine Obeys.ite (fun _ => Obeys.ret kept_closed) fun _ => ?_
        refine Obeys.bind waitLoop_closing ?_
        rintro ok _ rfl
        exact Obeys.ite (fun _ => Obeys.ret kept_closed) fun _ => Obeys.ret kept_closed
      | false =>
        obtain rfl : φ' = ⟨[], false⟩ := hφ'
        exact Obeys.ite_pos (by decide) (Obeys.ret kept_closed)

theorem iterPipeForkExec_closing (hpos : 1 ≤ pcount) :
    Obeys closing (fun _ φ' => Kept φ') (iterPipeForkExec pcount tokens isBackground)
      ⟨[], false⟩ := by
  refine Obeys.bind (pipeLoop_closing []) fun r φ hr => ?_
  cases r with
  | none =>
    obtain rfl : φ = ⟨[], false⟩ := hr
    exact Obeys.ret kept_closed
  | some pipeFds =>
    obtain ⟨rfl, hlen⟩ := hr
    have hfds : ends pipeFds ≠ [] := by
      cases pipeFds with
      | nil =>
        rw [List.length_nil] at hlen
        omega
      | cons p pipeFds => exact List.cons_ne_nil _ _
    refine fork_closing hfds (fun φ hkept => ?_) fun pgid hpgid => ?_
    · refine Obeys.ite_pos (by decide) ?_
      exact closing_errorPrint (Obeys.ret hkept)
    · refine parent_obeys hpgid ?_
      refine Obeys.ite (fun _ => ?_) fun _ => otherChildren_closing ⟨tokens, pipeFds, _⟩ hfds
      refine Obeys.perform trivial fun r _ => ?_
      refine Obeys.bind register_closing ?_
      rintro _ _ rfl
      exact Obeys.perform trivial fun _ _ => otherChildren_closing ⟨tokens, pipeFds, _⟩ hfds

/-! ## The descriptors -/

variable {q₀ q q' : Process} {es : List (Happening Call.Ret Empty)} {c : Call} {fd : Int}

/-- The descriptors that are open: those of the shell, and the pipes. -/
structure Holds (q₀ : Process) (es : List (Happening Call.Ret Empty)) (φ : Opened) (q : Process) :
    Prop where
  nodup : φ.fds.Nodup
  fresh : ∀ fd ∈ φ.fds, fd ∉ q₀.openFds
  openFds : ∀ fd, fd ∈ q.openFds ↔ fd ∈ q₀.openFds ∨ fd ∈ φ.fds
  failed : φ.failed = true ↔ ForkFailed es

theorem forkFailed_other {h : Happening Call.Ret Empty}
    (hh : ∀ child, h ≠ .call (.fork child) (-1 : Int)) :
    ForkFailed (es ++ [h]) ↔ ForkFailed es := by
  constructor
  · rintro ⟨child, hmem⟩
    rcases List.mem_append.mp hmem with hmem | hmem
    · exact ⟨child, hmem⟩
    · exact absurd (List.mem_singleton.mp hmem).symm (hh child)
  · rintro ⟨child, hmem⟩
    exact ⟨child, List.mem_append_left _ hmem⟩

theorem Holds.other {r : c.Ret} (h : Holds q₀ es φ q) (hfds : q'.fds = q.fds)
    (hh : ∀ child, Happening.call c r ≠
    (.call (.fork child) (-1 : Int) : Happening Call.Ret Empty)) :
    Holds q₀ (es ++ [.call c r]) φ q' := by
  refine ⟨h.nodup, h.fresh, fun fd => ?_, h.failed.trans (forkFailed_other hh).symm⟩
  rw [← h.openFds]
  unfold Process.openFds
  rw [hfds]

theorem Holds.piped {x y : Int} {fx fy : File} (h : Holds q₀ es φ q) (hxy : x ≠ y)
    (hx : q.fds x = none) (hy : q.fds y = none)
    (hfds : q'.fds = Function.update (Function.update q.fds x (some fx)) y (some fy)) :
    Holds q₀ (es ++ [.call .pipe (some (x, y))]) { φ with fds := φ.fds ++ [x, y] } q' := by
  have hnot : ∀ fd, q.fds fd = none → fd ∉ q₀.openFds ∧ fd ∉ φ.fds := by
    intro fd hnone
    have hclosed : fd ∉ q.openFds := fun hopen => hopen hnone
    rw [h.openFds] at hclosed
    exact not_or.mp hclosed
  constructor
  · refine List.Nodup.append h.nodup ?_ ?_
    · simpa using hxy
    · simp [(hnot x hx).2, (hnot y hy).2]
  · intro fd hmem
    rcases List.mem_append.mp hmem with hmem | hmem
    · exact h.fresh fd hmem
    · rcases List.mem_pair.mp hmem with rfl | rfl
      · exact (hnot _ hx).1
      · exact (hnot _ hy).1
  · intro fd
    have hopen : fd ∈ q'.openFds ↔ fd ∈ q.openFds ∨ fd = x ∨ fd = y := by
      unfold Process.openFds
      rw [hfds]
      by_cases hfy : fd = y
      · subst hfy
        simp
      · by_cases hfx : fd = x
        · subst hfx
          simp [Function.update_of_ne hfy]
        · simp [hfx, hfy]
    rw [hopen, h.openFds, List.mem_append, List.mem_pair, or_assoc]
  · exact h.failed.trans (forkFailed_other (by simp)).symm

theorem Holds.closed {r : Int} (h : Holds q₀ es φ q) (hmem : fd ∈ φ.fds)
    (hfds : q'.fds = Function.update q.fds fd none) :
    Holds q₀ (es ++ [.call (.close fd) r]) { φ with fds := φ.fds.erase fd } q' := by
  constructor
  · exact h.nodup.erase fd
  · exact fun x hx => h.fresh x (List.mem_of_mem_erase hx)
  · intro x
    have hopen : x ∈ q'.openFds ↔ x ∈ q.openFds ∧ x ≠ fd := by
      unfold Process.openFds
      rw [hfds]
      by_cases hx : x = fd
      · subst hx
        simp
      · simp [hx]
    rw [hopen, h.openFds, h.nodup.mem_erase_iff]
    constructor
    · rintro ⟨hor, hne⟩
      exact hor.imp id fun hx => ⟨hne, hx⟩
    · rintro (hx | ⟨hne, hx⟩)
      · exact ⟨Or.inl hx, fun heq => h.fresh fd hmem (heq ▸ hx)⟩
      · exact ⟨Or.inr hx, hne⟩
  · exact h.failed.trans (forkFailed_other (by simp)).symm

theorem Holds.call {r : c.Ret} (h : Holds q₀ es φ q) (hallowed : closing.allowed φ c)
    (hstep : ParentStep q c r q') :
    closing.answer φ c r ∧ Holds q₀ (es ++ [.call c r]) (closing.next φ c r) q' := by
  cases c with
  | pipe =>
    refine ⟨trivial, ?_⟩
    rcases hstep with ⟨x, y, rfl, hxy, -, -, hx, hy, rfl⟩ | ⟨rfl, rfl⟩
    · exact h.piped hxy hx hy rfl
    · exact h.other rfl (by simp)
  | fork child =>
    obtain ⟨hzero, hstep⟩ := hstep
    rcases hstep with ⟨hr, -⟩ | ⟨hpos, rfl⟩ | ⟨hr, rfl⟩
    · exact absurd hr hzero
    · have hpos : (0 : Int) < r := hpos
      have hne : (r == (-1 : Int)) = false := beq_eq_false_iff_ne.mpr fun heq =>
        absurd (heq ▸ hpos) (by decide)
      have hnext : closing.next φ (.fork child) r = φ := by
        change Opened.mk φ.fds (φ.failed || (r == (-1 : Int))) = φ
        rw [hne, Bool.or_false]
      rw [hnext]
      refine ⟨Or.inr hpos, h.other rfl fun child' heq => ?_⟩
      obtain ⟨-, hr⟩ := Happening.call.inj heq
      exact beq_eq_false_iff_ne.mp hne (eq_of_heq hr)
    · refine ⟨Or.inl hr, h.nodup, h.fresh, h.openFds, ?_⟩
      obtain rfl : r = (-1 : Int) := hr
      exact iff_of_true (Bool.or_true _) ⟨child, by simp⟩
  | close fd =>
    have hopen : q.fds fd ≠ none := (h.openFds fd).mpr (Or.inr hallowed)
    rcases hstep with ⟨-, hr, rfl⟩ | ⟨hnone, -⟩
    · exact ⟨hr, h.closed hallowed rfl⟩
    · exact absurd hnone hopen
  | openRead => exact hallowed.elim
  | openWrite => exact hallowed.elim
  | dup2 => exact hallowed.elim
  | execvp => exact hallowed.elim
  | _ =>
    obtain rfl : q' = q := hstep
    exact ⟨trivial, h.other rfl (by simp)⟩

/-- The shell has the same descriptors open as before, if and only if no `fork` has failed. -/
theorem pipeline_closes {r : Int} (hpos : 1 ≤ pcount)
    (hrun : ParentRun (iterPipeForkExec pcount tokens isBackground) q₀ es (.ret r) q) :
    q.openFds = q₀.openFds ↔ ¬ ForkFailed es := by
  have hstart : Holds q₀ [] ⟨[], false⟩ q₀ := by
    refine ⟨List.nodup_nil, by simp, by simp, iff_of_false (by decide) ?_⟩
    rintro ⟨child, hmem⟩
    exact absurd hmem List.not_mem_nil
  obtain ⟨hholds, hkept⟩ := Obeys.run_of_forall (I := Holds q₀)
    (fun _ _ _ _ _ _ h hallowed hexec => h.call hallowed hexec)
    (fun _ _ _ e _ _ _ => e.elim) (iterPipeForkExec_closing hpos) hstart hrun
  generalize closing.phase ⟨[], false⟩ es = φ at hholds hkept
  have hkept : Kept φ := hkept
  constructor
  · intro hsame hforkFailed
    obtain ⟨fd, hfd⟩ := List.exists_mem_of_ne_nil _ (hkept.mp (hholds.failed.mpr hforkFailed))
    have hopen := (hholds.openFds fd).mpr (Or.inr hfd)
    exact hholds.fresh fd hfd (hsame ▸ hopen)
  · intro hnot
    have hnone : φ.fds = [] := by
      by_contra hne
      exact hnot (hholds.failed.mp (hkept.mpr hne))
    ext fd
    rw [hholds.openFds, hnone]
    simp

/-- `a | b`, with three descriptors open. -/
theorem pipeline_closes_two : ∃ (es : List (Happening Call.Ret Empty)) (q : Process),
    ParentRun (iterPipeForkExec 1 [.word [97], .pipe, .word [98]] true)
      (Process.initial fun fd => if 0 ≤ fd ∧ fd < 3 then some (.inherited fd) else none) es
      (.ret 100) q ∧
    q.openFds = (Process.initial fun fd =>
      if 0 ≤ fd ∧ fd < 3 then some (.inherited fd) else none).openFds := by
  have hrun : ∃ (es : List (Happening Call.Ret Empty)) (q : Process),
      ParentRun (iterPipeForkExec 1 [.word [97], .pipe, .word [98]] true)
        (Process.initial fun fd => if 0 ≤ fd ∧ fd < 3 then some (.inherited fd) else none) es
        (.ret 100) q ∧ ¬ ForkFailed es := by
    apply Exists.intro
    apply Exists.intro
    apply And.intro
    · apply ProgRun.called Call.pipe (some (3, 4)) rfl
        (Or.inl ⟨3, 4, rfl, by decide, by decide, by decide, rfl, rfl, rfl⟩)
      apply ProgRun.called (Call.fork ⟨true, none, false⟩) (100 : Int) rfl
        ⟨by decide, Or.inr (Or.inl ⟨by decide, rfl⟩)⟩
      apply ProgRun.called Call.sigBlock (0, false) rfl rfl
      apply ProgRun.called (Call.storePid 100) () rfl rfl
      apply ProgRun.called (Call.storePgid 100) () rfl rfl
      apply ProgRun.called Call.incIdx () rfl rfl
      apply ProgRun.called (Call.sigSetmask false) (0 : Int) rfl rfl
      apply ProgRun.called (Call.fork ⟨true, some 100, true⟩) (101 : Int) rfl
        ⟨by decide, Or.inr (Or.inl ⟨by decide, rfl⟩)⟩
      apply ProgRun.called Call.sigBlock (0, false) rfl rfl
      apply ProgRun.called (Call.storePid 101) () rfl rfl
      apply ProgRun.called (Call.storePgid 100) () rfl rfl
      apply ProgRun.called Call.incIdx () rfl rfl
      apply ProgRun.called (Call.sigSetmask false) (0 : Int) rfl rfl
      apply ProgRun.called (Call.close 3) (0 : Int) rfl (Or.inl ⟨by decide, rfl, rfl⟩)
      apply ProgRun.called (Call.close 4) (0 : Int) rfl (Or.inl ⟨by decide, rfl, rfl⟩)
      exact Run.nil _
    · rintro ⟨child, hmem⟩
      simp at hmem
  obtain ⟨es, q, hrun, hnot⟩ := hrun
  exact ⟨es, q, hrun, (pipeline_closes (Nat.le_refl 1) hrun).mpr hnot⟩

/-- `a | b`, where the first `fork` fails: the pipe stays open. -/
theorem pipeline_leaks : ¬ ∀ (pcount : Nat) (tokens : List Token) (isBackground : Bool)
    (q₀ : Process) (es : List (Happening Call.Ret Empty)) (r : Int) (q : Process), 1 ≤ pcount →
    ParentRun (iterPipeForkExec pcount tokens isBackground) q₀ es (.ret r) q →
      q.openFds = q₀.openFds := by
  intro hall
  have hrun : ∃ (es : List (Happening Call.Ret Empty)) (q : Process),
      ParentRun (iterPipeForkExec 1 [.word [97], .pipe, .word [98]] false)
        (Process.initial fun _ => none) es (.ret (-1)) q ∧ q.fds 3 ≠ none := by
    apply Exists.intro
    apply Exists.intro
    apply And.intro
    · apply ProgRun.called Call.pipe (some (3, 4)) rfl
        (Or.inl ⟨3, 4, rfl, by decide, by decide, by decide, rfl, rfl, rfl⟩)
      apply ProgRun.called (Call.fork ⟨false, none, false⟩) (-1 : Int) rfl
        ⟨by decide, Or.inr (Or.inr ⟨rfl, rfl⟩)⟩
      apply ProgRun.called (Call.errorPrint (.text "Fork failed") .perror) () rfl rfl
      exact Run.nil _
    · exact fun h => absurd h (Option.some_ne_none _)
  obtain ⟨es, q, hrun, hopen⟩ := hrun
  have hsame := hall 1 _ _ _ es (-1) q (Nat.le_refl 1) hrun
  have hmem : (3 : Int) ∈ q.openFds := hopen
  rw [hsame] at hmem
  exact hmem rfl

end SnuSysProg.Shell
