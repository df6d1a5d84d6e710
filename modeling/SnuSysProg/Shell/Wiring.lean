import SnuSysProg.Shell.Descriptors

/-
  How the children of a pipeline are connected.

  `pipeline_wired`: at its `execvp` the child `i` of an accepted pipeline reads from pipe `i - 1`,
  or from the `<` file, and writes to pipe `i`, or to the `>` file, and has no other descriptor of
  a pipe. After a successful return the shell has the descriptors it had.
-/

namespace SnuSysProg.Shell
open SnuSysProg.Lib

variable {α β : Type} {q q' : Process} {fds fds₀ : Fds} {A : List Str → Process → Prop}
  {pipeFds : List (Int × Int)} {i n pcount : Nat} {pl : Pipeline} {tokens : List Token}
  {isBackground : Bool} {pid pgid : Int} {pids : List Int} {fd : Int} {args : List Str}

/-- The descriptors of child `i` of a pipeline, where `fds₀` are those of the shell. -/
structure Wired (fds₀ : Fds) (tokens : List Token) (pcount i : Nat) (fds : Fds) : Prop where
  stdin : fds stdinFileno =
    if i = 0 then ((fileAfter .redin tokens).map File.input).or (fds₀ stdinFileno)
    else some (.readEnd (i - 1))
  stdout : fds stdoutFileno =
    if i = pcount then ((fileAfter .redout tokens).map File.output).or (fds₀ stdoutFileno)
    else some (.writeEnd i)
  others : ∀ fd, fd ≠ stdinFileno → fd ≠ stdoutFileno → fds fd = fds₀ fd

theorem std_ne : stdinFileno ≠ stdoutFileno := by decide

theorem Process.withFds_fds : (q.withFds fds).fds = fds := rfl

theorem withFile_apply {file : Str → File} {fname : Option Str} :
    withFile fd file fname fds fd = (fname.map file).or (fds fd) := by
  cases fname with
  | none => rfl
  | some fname => exact Function.update_self ..

theorem withFile_of_ne {fd' : Int} {file : Str → File} {fname : Option Str} (hne : fd' ≠ fd) :
    withFile fd file fname fds fd' = fds fd' := by
  cases fname with
  | none => rfl
  | some fname => exact Function.update_of_ne hne ..

/-! ## The way to `execvp` -/

theorem dupOrExit_follows {fd' : Int} {file : File} (hfd : q.fds fd = some file) (hfd' : 0 ≤ fd') :
    Follows A (fun _ q' => q' = q.withFds (Function.update q.fds fd' (some file)))
      (dupOrExit fd fd' pipeFds) q := by
  unfold dupOrExit
  refine Follows.call (c := .dup2 fd fd') (by simp) fun r q' hstep => ?_
  rcases hstep with ⟨-, hr, rfl⟩ | ⟨hnone, -, -⟩
  · refine Follows.ite (fun hneg => absurd (hr ▸ hneg) (by omega)) fun _ => Follows.ret ?_
    rw [hfd]
  · exact absurd (hfd.symm.trans hnone) (by simp)

/-- The child that has set up its descriptors goes to `execvp` and does not come back. -/
theorem execvp_follows {rest : ShellM Unit} (hA : A args q)
    (hrest : Follows A (fun _ _ => False) rest q) :
    Follows A (fun _ _ => False) (do if (← execvp args) < 0 then rest) q := by
  refine Follows.call (c := .execvp args) (fun args' hargs => ?_) fun r q' hstep => ?_
  · obtain rfl := Call.execvp.inj hargs
    exact hA
  · obtain ⟨hr, rfl⟩ := hstep
    have hneg : (-1 : Int) < 0 := by decide
    exact Follows.ite (fun _ => hrest) fun hnot => absurd (hr ▸ hneg) hnot

/-- The standard descriptors are none of the pipes'. -/
theorem Made.std_notMem (h : Made fds₀ pipeFds fds) (hopen : StdOpen fds₀) :
    stdinFileno ∉ ends pipeFds ∧ stdoutFileno ∉ ends pipeFds :=
  ⟨fun hin => hopen.stdin (h.fresh _ hin), fun hin => hopen.stdout (h.fresh _ hin)⟩

theorem Made.stdOpen (h : Made fds₀ pipeFds fds) (hopen : StdOpen fds₀) : StdOpen fds := by
  obtain ⟨hin, hout⟩ := h.std_notMem hopen
  constructor
  · rw [h.other _ hin]
    exact hopen.stdin
  · rw [h.other _ hout]
    exact hopen.stdout

/-- What the parent has prepared for the children. -/
structure Prepared (fds₀ : Fds) (pl : Pipeline) (pcount : Nat) : Prop where
  accepted : Accepted false false false pl.tokens
  count : countPipe pl.tokens = pcount
  pos : 1 ≤ pcount
  index : pl.pipeIndex = pipeIndices pl.tokens
  length : pl.pipeFds.length = pcount
  stdOpen : StdOpen fds₀

theorem Prepared.ends (h : Prepared fds₀ pl pcount) (hi : i < pcount)
    (hmade : Made fds₀ pl.pipeFds fds) :
    (pl.readEnd i ∈ ends pl.pipeFds ∧ fds (pl.readEnd i) = some (.readEnd i)) ∧
      pl.writeEnd i ∈ ends pl.pipeFds ∧ fds (pl.writeEnd i) = some (.writeEnd i) := by
  have hlt : i < pl.pipeFds.length := by
    rw [h.length]
    exact hi
  have hget : pl.pipeFds[i]? = some (pl.pipeFds.getD i (-1, -1)) := by
    rw [List.getElem?_eq_getElem hlt, List.getD_eq_getElem?_getD, List.getElem?_eq_getElem hlt]
    rfl
  exact ⟨⟨(mem_ends hget).1, hmade.read i _ hget⟩, (mem_ends hget).2, hmade.write i _ hget⟩

theorem Prepared.get (h : Prepared fds₀ pl pcount) (hi : i < pcount) :
    pl.tokens[pl.index i]? = some .pipe := by
  have hlt : i < pl.pipeIndex.length := by
    rw [h.index, pipeIndices_length, h.count]
    exact hi
  have hmem : pl.index i ∈ pipeIndices pl.tokens := by
    unfold Pipeline.index
    rw [List.getD_eq_getElem?_getD, List.getElem?_eq_getElem hlt, ← h.index]
    exact List.getElem_mem hlt
  exact mem_pipeIndices.mp hmem

/-- Pipe `i` of the line, with the tokens before and after it. -/
theorem Prepared.split (h : Prepared fds₀ pl pcount) (hi : i < pcount) :
    pl.tokens = pl.tokens.take (pl.index i) ++ .pipe :: pl.tokens.drop (pl.index i + 1) :=
  split_at_pipe (h.get hi)

theorem Prepared.sides (h : Prepared fds₀ pl pcount) (hi : i < pcount) :
    Token.redout ∉ pl.tokens.take (pl.index i) ∧ Token.redin ∉ pl.tokens.drop (pl.index i + 1) := by
  have hacc := h.accepted
  rw [h.split hi] at hacc
  exact hacc.pipe_sides

theorem Prepared.next_word (h : Prepared fds₀ pl pcount) {a b c d : List Token} {op : Token}
    (hop : op = .redin ∨ op = .redout) (hl : pl.tokens = c ++ (a ++ op :: b) ++ d)
    (hd : d = [] ∨ ∃ rest, d = .pipe :: rest) : nextIsWord b = true ∧ op ∉ b := by
  have hacc := h.accepted
  rw [hl, show c ++ (a ++ op :: b) ++ d = c ++ a ++ op :: (b ++ d) by simp] at hacc
  refine ⟨?_, fun hin => hacc.notMem_rest hop (List.mem_append_left _ hin)⟩
  have hnext := hacc.next_word hop
  cases b with
  | cons t b => cases t <;> exact hnext
  | nil =>
    rcases hd with rfl | ⟨rest, rfl⟩
    · exact hnext
    · exact absurd hnext (by simp [nextIsWord])

/-! ## The redirections of the stages -/

theorem Prepared.first (h : Prepared fds₀ pl pcount) :
    redirected false false (slice pl.tokens 0 (pl.index 0)) fds =
      withFile stdinFileno .input (fileAfter .redin pl.tokens) fds := by
  have hsplit := h.split h.pos
  have hacc := h.accepted
  rw [hsplit] at hacc
  have hfile : fileAfter .redin pl.tokens = fileAfter .redin (pl.tokens.take (pl.index 0)) := by
    conv => lhs; rw [hsplit, hacc.fileAfter_front]
  rw [hfile]
  refine redirected_in (h.sides h.pos).1 fun a b hl => ?_
  have hl' : pl.tokens.take (pl.index 0) = a ++ .redin :: b := hl
  rw [hl'] at hsplit
  exact h.next_word (c := []) (Or.inl rfl) hsplit (Or.inr ⟨_, rfl⟩)

theorem Prepared.middle (h : Prepared fds₀ pl pcount) (hi : i + 1 < pcount) :
    redirected false false (slice pl.tokens (pl.index i + 1) (pl.index (i + 1))) fds = fds := by
  refine redirected_none (fun hin => ?_) fun hout => ?_
  · have hdrop : Token.redin ∈ pl.tokens.drop (pl.index i + 1) :=
      ((List.take_sublist _ _).drop _).subset hin
    exact (h.sides (Nat.lt_of_succ_lt hi)).2 hdrop
  · exact (h.sides hi).1 (List.mem_of_mem_drop hout)

theorem Prepared.last (h : Prepared fds₀ pl pcount) :
    redirected false false (slice pl.tokens (pl.index (pcount - 1)) pl.tokens.length) fds =
      withFile stdoutFileno .output (fileAfter .redout pl.tokens) fds := by
  have hlt : pcount - 1 < pcount := Nat.sub_one_lt_of_lt h.pos
  have hsplit := h.split hlt
  have hacc := h.accepted
  rw [hsplit] at hacc
  have hslice : slice pl.tokens (pl.index (pcount - 1)) pl.tokens.length =
      .pipe :: pl.tokens.drop (pl.index (pcount - 1) + 1) := by
    obtain ⟨hidx, hget⟩ := List.getElem?_eq_some_iff.mp (h.get hlt)
    unfold slice
    rw [List.take_length, List.drop_eq_getElem_cons hidx, hget]
  have hfile : fileAfter .redout pl.tokens =
      fileAfter .redout (.pipe :: pl.tokens.drop (pl.index (pcount - 1) + 1)) := by
    conv => lhs; rw [hsplit, hacc.fileAfter_rest]
  rw [hslice, hfile]
  refine redirected_out (fun hin => ?_) fun a b hl => ?_
  · exact (h.sides hlt).2 (by simpa using hin)
  · rw [hl] at hsplit
    exact h.next_word (d := []) (Or.inr rfl) (by rw [List.append_nil]; exact hsplit) (Or.inl rfl)

/-! ## The children -/

/-- A descriptor table that is right but for the pipes, which are closed before `execvp`. -/
theorem Wired.of_closed {g : Fds} (hmade : Made fds₀ pipeFds fds) (hopen : StdOpen fds₀)
    (hin : g stdinFileno = if i = 0 then
      ((fileAfter .redin tokens).map File.input).or (fds stdinFileno) else some (.readEnd (i - 1)))
    (hout : g stdoutFileno = if i = pcount then
      ((fileAfter .redout tokens).map File.output).or (fds stdoutFileno) else some (.writeEnd i))
    (hrest : ∀ fd, fd ≠ stdinFileno → fd ≠ stdoutFileno → g fd = fds fd) :
    Wired fds₀ tokens pcount i (closed g (ends pipeFds)) := by
  obtain ⟨hstdin, hstdout⟩ := hmade.std_notMem hopen
  refine ⟨?_, ?_, fun fd h0 h1 => ?_⟩
  · unfold closed
    rw [if_neg hstdin, hin, hmade.other _ hstdin]
  · unfold closed
    rw [if_neg hstdout, hout, hmade.other _ hstdout]
  · unfold closed
    by_cases hfd : fd ∈ ends pipeFds
    · rw [if_pos hfd, hmade.fresh fd hfd]
    · rw [if_neg hfd, hrest fd h0 h1, hmade.other fd hfd]

/-- At `execvp` a child is wired as its stage says. -/
def AtExecvp (fds₀ : Fds) (tokens : List Token) (pcount : Nat) (_ : List Str) (q : Process) :
    Prop :=
  ∃ i ≤ pcount, q.stage = some i ∧ Wired fds₀ tokens pcount i q.fds

theorem signalDefault_follows {Q : Unit → Process → Prop} {x : ShellM Unit}
    (h : Follows A Q x q) :
    Follows A Q (do
      if ¬ isBackground then sys .signalDefault
      x) q := by
  refine Follows.ite (fun _ => ?_) fun _ => h
  exact Follows.quiet (c := .signalDefault) (by simp) (fun _ _ hstep => hstep) fun _ => h

theorem firstChild_follows (h : Prepared fds₀ pl pcount) (hmade : Made fds₀ pl.pipeFds q.fds)
    (hstage : q.stage = some 0) :
    Follows (AtExecvp fds₀ pl.tokens pcount) (fun _ _ => False) (firstChild pl isBackground) q := by
  unfold firstChild
  refine signalDefault_follows ?_
  refine Follows.bind (buildLoop_follows (hmade.stdOpen h.stdOpen)) fun args q₁ hq₁ => ?_
  rw [h.first] at hq₁
  obtain ⟨-, hmem, hwrite⟩ := h.ends h.pos hmade
  have hne : pl.writeEnd 0 ≠ stdinFileno := fun heq =>
    (hmade.std_notMem h.stdOpen).1 (heq ▸ hmem)
  have hfile : q₁.fds (pl.writeEnd 0) = some (.writeEnd 0) := by
    rw [hq₁]
    exact (withFile_of_ne hne).trans hwrite
  refine Follows.bind (dupOrExit_follows hfile (by decide)) fun _ q₂ hq₂ => ?_
  refine Follows.bind closeAllPipes_follows fun _ q₃ hq₃ => ?_
  have hwired : AtExecvp fds₀ pl.tokens pcount args q₃ := by
    subst hq₁ hq₂ hq₃
    refine ⟨0, Nat.zero_le _, hstage, Wired.of_closed hmade h.stdOpen ?_ ?_ ?_⟩
    · rw [if_pos rfl, Process.withFds_fds, Process.withFds_fds, Function.update_of_ne std_ne,
        withFile_apply]
    · rw [if_neg (Nat.ne_of_lt h.pos), Process.withFds_fds, Function.update_self]
    · intro fd h0 h1
      rw [Process.withFds_fds, Process.withFds_fds, Function.update_of_ne h1, withFile_of_ne h0]
  refine execvp_follows hwired ?_
  refine errorPrint_follows ?_
  exact Follows.bind closeAllPipes_follows fun _ _ _ => exit_follows

theorem middleChild_follows (h : Prepared fds₀ pl pcount) (hmade : Made fds₀ pl.pipeFds q.fds)
    (hi : i + 1 < pcount) (hstage : q.stage = some (i + 1)) :
    Follows (AtExecvp fds₀ pl.tokens pcount) (fun _ _ => False)
      (middleChild pl isBackground (i + 1)) q := by
  unfold middleChild
  refine signalDefault_follows ?_
  refine Follows.bind (buildLoop_follows (hmade.stdOpen h.stdOpen)) fun args q₁ hq₁ => ?_
  rw [Nat.add_sub_cancel, h.middle hi] at hq₁
  obtain ⟨hread, -⟩ := h.ends (Nat.lt_of_succ_lt hi) hmade
  obtain ⟨-, hwrite⟩ := h.ends hi hmade
  have hne : pl.writeEnd (i + 1) ≠ stdinFileno := fun heq =>
    (hmade.std_notMem h.stdOpen).1 (heq ▸ hwrite.1)
  have hfile : q₁.fds (pl.readEnd i) = some (.readEnd i) := by
    rw [hq₁]
    exact hread.2
  rw [Nat.add_sub_cancel]
  refine Follows.bind (dupOrExit_follows hfile (by decide)) fun _ q₂ hq₂ => ?_
  have hfile₂ : q₂.fds (pl.writeEnd (i + 1)) = some (.writeEnd (i + 1)) := by
    rw [hq₂, hq₁]
    exact (Function.update_of_ne hne _ _).trans hwrite.2
  refine Follows.bind (dupOrExit_follows hfile₂ (by decide)) fun _ q₃ hq₃ => ?_
  refine Follows.bind closeAllPipes_follows fun _ q₄ hq₄ => ?_
  have hwired : AtExecvp fds₀ pl.tokens pcount args q₄ := by
    subst hq₁ hq₂ hq₃ hq₄
    refine ⟨i + 1, Nat.le_of_lt hi, hstage, Wired.of_closed hmade h.stdOpen ?_ ?_ ?_⟩
    · rw [if_neg (Nat.succ_ne_zero i), Nat.add_sub_cancel, Process.withFds_fds,
        Function.update_of_ne std_ne, Process.withFds_fds, Function.update_self]
    · rw [if_neg (Nat.ne_of_lt hi), Process.withFds_fds, Function.update_self]
    · intro fd h0 h1
      rw [Process.withFds_fds, Function.update_of_ne h1, Process.withFds_fds,
        Function.update_of_ne h0, Process.withFds_fds]
  exact execvp_follows hwired (errorPrint_follows exit_follows)

theorem lastChild_follows (h : Prepared fds₀ pl pcount) (hmade : Made fds₀ pl.pipeFds q.fds)
    (hstage : q.stage = some pcount) :
    Follows (AtExecvp fds₀ pl.tokens pcount) (fun _ _ => False)
      (lastChild pl isBackground pcount) q := by
  have hlt : pcount - 1 < pcount := Nat.sub_one_lt_of_lt h.pos
  unfold lastChild
  refine signalDefault_follows ?_
  refine Follows.bind (buildLoop_follows (hmade.stdOpen h.stdOpen)) fun args q₁ hq₁ => ?_
  rw [h.last] at hq₁
  obtain ⟨⟨hmem, hread⟩, -⟩ := h.ends hlt hmade
  have hne : pl.readEnd (pcount - 1) ≠ stdoutFileno := fun heq =>
    (hmade.std_notMem h.stdOpen).2 (heq ▸ hmem)
  have hfile : q₁.fds (pl.readEnd (pcount - 1)) = some (.readEnd (pcount - 1)) := by
    rw [hq₁]
    exact (withFile_of_ne hne).trans hread
  refine Follows.bind (dupOrExit_follows hfile (by decide)) fun _ q₂ hq₂ => ?_
  refine Follows.bind closeAllPipes_follows fun _ q₃ hq₃ => ?_
  have hwired : AtExecvp fds₀ pl.tokens pcount args q₃ := by
    subst hq₁ hq₂ hq₃
    refine ⟨pcount, Nat.le_refl _, hstage, Wired.of_closed hmade h.stdOpen ?_ ?_ ?_⟩
    · rw [if_neg (Nat.ne_of_gt h.pos), Process.withFds_fds, Function.update_self]
    · rw [if_pos rfl, Process.withFds_fds, Process.withFds_fds,
        Function.update_of_ne (Ne.symm std_ne), withFile_apply]
    · intro fd h0 h1
      rw [Process.withFds_fds, Process.withFds_fds, Function.update_of_ne h0, withFile_of_ne h1]
  exact execvp_follows hwired (errorPrint_follows exit_follows)

/-! ## The parent -/

/-- What the parent does between two forks leaves its descriptors, if it goes on. -/
theorem afterFork_follows :
    Follows A (fun goOn q' => goOn = true → q' = q) (afterFork pl isBackground pid pgid) q := by
  unfold afterFork
  refine Follows.quiet (c := .sigBlock) (by simp) (fun _ _ hstep => hstep) fun r => ?_
  refine Follows.ite (fun _ => ?_) fun _ => ?_
  · refine Follows.bind closeAllPipes_follows fun _ q₁ _ => errorPrint_follows ?_
    exact Follows.ret fun h => absurd h (by simp)
  · have hrest : Follows A (fun goOn q' => goOn = true → q' = q) (do
        if (← sigSetmask r.2) < 0 then
          closeAllPipes pl.pipeFds
          errorPrint (.text "Failed to restore signal mask") .perror
          return false
        return true) q := by
      refine Follows.quiet (c := .sigSetmask r.2) (by simp) (fun _ _ hstep => hstep) fun r' => ?_
      refine Follows.ite (fun _ => ?_) fun _ => Follows.ret fun _ => rfl
      refine Follows.bind closeAllPipes_follows fun _ q₁ _ => errorPrint_follows ?_
      exact Follows.ret fun h => absurd h (by simp)
    refine Follows.ite (fun _ => ?_) fun _ => hrest
    exact Follows.quiet (c := .storePid pid) (by simp) (fun _ _ hstep => hstep) fun _ =>
      Follows.quiet (c := .storePgid pgid) (by simp) (fun _ _ hstep => hstep) fun _ =>
      Follows.quiet (c := .incIdx) (by simp) (fun _ _ hstep => hstep) fun _ => hrest

/-- What comes after a `fork`: in the child, in the parent, and when it fails. -/
theorem fork_follows {α : Type} {Q : α → Process → Prop} {child : Child}
    {failed inChild parent : Int → ShellM α}
    (hchild : Follows A Q (inChild 0) { q with stage := some q.forks })
    (hparent : ∀ pid, 0 < pid → Follows A Q (parent pid) { q with forks := q.forks + 1 })
    (hfailed : Follows A Q (failed (-1)) q) :
    Follows A Q (fork child >>= fun pid =>
      if pid < 0 then failed pid else if pid = 0 then inChild pid else parent pid) q := by
  refine Follows.call (c := .fork child) (by simp) fun pid q' hstep => ?_
  rcases hstep with ⟨hpid, rfl⟩ | ⟨hpid, rfl⟩ | ⟨hpid, rfl⟩
  · obtain rfl : pid = (0 : Int) := hpid
    exact hchild
  · exact Follows.ite (fun hneg => absurd hneg (Int.lt_asymm hpid)) fun _ =>
      Follows.ite (fun hzero => absurd hzero (Int.ne_of_gt hpid)) fun _ => hparent pid hpid
  · obtain rfl : pid = (-1 : Int) := hpid
    exact hfailed

/-- The loop of the children in the middle, from child `i + 1`. -/
theorem middleLoop_follows (h : Prepared fds₀ pl pcount) (hmade : Made fds₀ pl.pipeFds q.fds)
    (hstage : q.stage = none) (hforks : q.forks = i + 1) (hn : i + 1 + n = pcount) :
    Follows (AtExecvp fds₀ pl.tokens pcount)
      (fun r q' => r.isSome → q'.fds = q.fds ∧ q'.forks = pcount ∧ q'.stage = none)
      (middleLoop pl isBackground pgid n (i + 1) pids) q := by
  induction n generalizing i q pids with
  | zero => exact Follows.ret fun _ => ⟨rfl, hforks.trans hn, hstage⟩
  | succ n ih =>
    refine fork_follows ?_ (fun pid hpid => ?_) (errorPrint_follows (Follows.ret (by simp)))
    · have hchild : Follows (AtExecvp fds₀ pl.tokens pcount) (fun _ _ => False)
          (middleChild pl isBackground (i + 1)) { q with stage := some q.forks } :=
        middleChild_follows h hmade (by omega) (congrArg some hforks)
      exact Follows.bind hchild fun _ _ hfalse => hfalse.elim
    · refine Follows.bind afterFork_follows fun goOn q₁ hq₁ => ?_
      refine Follows.ite (fun _ => Follows.ret (by simp)) fun hgo => ?_
      obtain rfl := hq₁ (by simpa using hgo)
      exact ih hmade hstage (congrArg (· + 1) hforks) (by omega)

theorem waitLoop_follows : Follows A (fun _ q' => q' = q) (waitLoop pids) q := by
  induction pids with
  | nil => exact Follows.ret rfl
  | cons pid pids ih =>
    refine Follows.quiet (c := .waitpid pid) (by simp) (fun _ _ hstep => hstep) fun r => ?_
    refine Follows.ite (fun _ => ?_) fun _ => ih
    exact Follows.ite (fun _ => errorPrint_follows (Follows.ret rfl)) fun _ => ih

theorem lastFork_follows (h : Prepared fds₀ pl pcount) (hmade : Made fds₀ pl.pipeFds q.fds)
    (hforks : q.forks = pcount) :
    Follows (AtExecvp fds₀ pl.tokens pcount) (fun r q' => 0 < r → q'.fds = fds₀)
      (lastFork pl isBackground pcount pgid pids) q := by
  refine fork_follows ?_ (fun pid hpid => ?_) (errorPrint_follows (Follows.ret (by simp)))
  · have hchild : Follows (AtExecvp fds₀ pl.tokens pcount) (fun _ _ => False)
        (lastChild pl isBackground pcount) { q with stage := some q.forks } :=
      lastChild_follows h hmade (congrArg some hforks)
    exact Follows.bind hchild fun _ _ hfalse => hfalse.elim
  · refine Follows.bind afterFork_follows fun goOn q₁ hq₁ => ?_
    refine Follows.ite (fun _ => Follows.ret (by simp)) fun hgo => ?_
    obtain rfl := hq₁ (by simpa using hgo)
    refine Follows.bind closeAllPipes_follows fun _ q₂ hq₂ => ?_
    have hfds : q₂.fds = fds₀ := by
      rw [hq₂]
      exact hmade.closed_ends
    refine Follows.ite (fun _ => Follows.ret fun _ => hfds) fun _ => ?_
    refine Follows.bind waitLoop_follows fun _ q₃ hq₃ => ?_
    rw [← hq₃] at hfds
    exact Follows.ite (fun _ => Follows.ret (by simp)) fun _ => Follows.ret fun _ => hfds

theorem otherChildren_follows (isBackground : Bool) (pgid : Int) {q : Process}
    (h : Prepared fds₀ pl pcount) (hmade : Made fds₀ pl.pipeFds q.fds)
    (hstage : q.stage = none) (hforks : q.forks = 1) :
    Follows (AtExecvp fds₀ pl.tokens pcount) (fun r q' => 0 < r → q'.fds = fds₀)
      (otherChildren pl isBackground pcount pgid) q := by
  have hpos := h.pos
  refine Follows.bind (middleLoop_follows h hmade hstage hforks (by omega)) fun r q₁ hq₁ => ?_
  cases r with
  | none => exact Follows.ret (by simp)
  | some pids =>
    obtain ⟨hfds, hforks₁, -⟩ := hq₁ rfl
    rw [← hfds] at hmade
    exact lastFork_follows h hmade hforks₁

theorem iterPipeForkExec_follows (isBackground : Bool) (hopen : StdOpen fds₀)
    (hacc : Accepted false false false tokens)
    (hcount : countPipe tokens = pcount) (hpos : 1 ≤ pcount) :
    Follows (AtExecvp fds₀ tokens pcount) (fun r q' => 0 < r → q'.fds = fds₀)
      (iterPipeForkExec pcount tokens isBackground) (Process.initial fds₀) := by
  refine Follows.bind (pipeLoop_follows Made.nil rfl) fun r q hq => ?_
  obtain ⟨pipeFds, rfl, hlen, hmade, hforks, hstage⟩ := hq
  have h : Prepared fds₀ ⟨tokens, pipeFds, pipeIndices tokens⟩ pcount :=
    ⟨hacc, hcount, hpos, rfl, by rw [hlen]; exact Nat.zero_add _, hopen⟩
  refine fork_follows ?_ (fun pgid hpgid => ?_) (errorPrint_follows (Follows.ret (by simp)))
  · have hchild : Follows (AtExecvp fds₀ tokens pcount) (fun _ _ => False)
        (firstChild ⟨tokens, pipeFds, pipeIndices tokens⟩ isBackground)
        { q with stage := some q.forks } :=
      firstChild_follows h hmade (congrArg some hforks)
    exact Follows.bind hchild fun _ _ hfalse => hfalse.elim
  · have hmain := otherChildren_follows isBackground pgid (q := { q with forks := q.forks + 1 })
      h hmade hstage (congrArg (· + 1) hforks)
    refine Follows.ite (fun _ => ?_) fun _ => hmain
    exact Follows.quiet (c := .sigBlock) (by simp) (fun _ _ hstep => hstep) fun r =>
      Follows.quiet (c := .storePid pgid) (by simp) (fun _ _ hstep => hstep) fun _ =>
      Follows.quiet (c := .storePgid pgid) (by simp) (fun _ _ hstep => hstep) fun _ =>
      Follows.quiet (c := .incIdx) (by simp) (fun _ _ hstep => hstep) fun _ =>
      Follows.quiet (c := .sigSetmask r.2) (by simp) (fun _ _ hstep => hstep) fun _ => hmain

/-- The descriptors of the shell, by whether they are open. -/
def shellFds (opened : Int → Bool) : Fds :=
  fun fd => if opened fd then some (.inherited fd) else none

/-- A descriptor of a pipe of the pipeline. -/
def RefersToPipe (file : Option File) : Prop :=
  ∃ k, file = some (.readEnd k) ∨ file = some (.writeEnd k)

theorem shellFds_no_pipe {opened : Int → Bool} : ¬ RefersToPipe (shellFds opened fd) := by
  rintro ⟨k, hk⟩
  unfold shellFds at hk
  by_cases hopen : opened fd = true
  · simp [hopen] at hk
  · simp [hopen] at hk

theorem pipeline_wired {opened : Int → Bool} {es : List (Happening Call.Ret Empty)}
    {p : ShellM Int} (hpos : 1 ≤ pcount) (hcheck : syntaxCheck tokens = .success)
    (hcount : countPipe tokens = pcount) (hstdin : opened 0 = true) (hstdout : opened 1 = true)
    (hrun : ProgRun fdStep noEvent
      (iterPipeForkExec pcount tokens isBackground, Process.initial (shellFds opened)) es (p, q)) :
    (∀ args, p.next = some (.execvp args) → ∃ i ≤ pcount, q.stage = some i ∧
      q.fds 0 = (if i = 0 then ((fileAfter .redin tokens).map File.input).or (some (.inherited 0))
        else some (.readEnd (i - 1))) ∧
      q.fds 1 = (if i = pcount then
        ((fileAfter .redout tokens).map File.output).or (some (.inherited 1))
        else some (.writeEnd i)) ∧
      ∀ fd, fd ≠ 0 → fd ≠ 1 → ¬ RefersToPipe (q.fds fd)) ∧
    ∀ r, p = .ret r → 0 < r → ∀ fd, ¬ RefersToPipe (q.fds fd) := by
  have hin : shellFds opened stdinFileno = some (.inherited 0) := if_pos hstdin
  have hout : shellFds opened stdoutFileno = some (.inherited 1) := if_pos hstdout
  have hopen : StdOpen (shellFds opened) := ⟨by simp [hin], by simp [hout]⟩
  have hfollows := iterPipeForkExec_follows isBackground hopen (accepted_of_syntaxCheck hcheck)
    hcount hpos
  obtain ⟨hexec, hret⟩ := hfollows [] es p q hrun
  constructor
  · intro args hnext
    obtain ⟨i, hi, hstage, hwired⟩ := hexec args hnext
    refine ⟨i, hi, hstage, ?_, ?_, fun fd h0 h1 => ?_⟩
    · rw [← hin]
      exact hwired.stdin
    · rw [← hout]
      exact hwired.stdout
    · rw [hwired.others fd h0 h1]
      exact shellFds_no_pipe
  · intro r hr hpositive fd
    rw [hret r hr hpositive]
    exact shellFds_no_pipe

/-- The first child of `a | b`, at its `execvp`. -/
theorem pipeline_wired_first :
    ∃ (p : ShellM Int) (q : Process) (es : List (Happening Call.Ret Empty)),
    ProgRun fdStep noEvent (iterPipeForkExec 1 [.word [97], .pipe, .word [98]] true,
      Process.initial (shellFds fun fd => decide (fd = 0 ∨ fd = 1 ∨ fd = 2))) es (p, q) ∧
    p.next = some (.execvp [[97]]) ∧ ∃ i ≤ 1, q.stage = some i ∧
      q.fds 0 = (if i = 0 then some (.inherited 0) else some (.readEnd (i - 1))) ∧
      q.fds 1 = (if i = 1 then some (.inherited 1) else some (.writeEnd i)) ∧
      ∀ fd, fd ≠ 0 → fd ≠ 1 → ¬ RefersToPipe (q.fds fd) := by
  have hrun : ∃ (p : ShellM Int) (q : Process) (es : List (Happening Call.Ret Empty)),
      ProgRun fdStep noEvent (iterPipeForkExec 1 [.word [97], .pipe, .word [98]] true,
        Process.initial (shellFds fun fd => decide (fd = 0 ∨ fd = 1 ∨ fd = 2))) es (p, q) ∧
      p.next = some (.execvp [[97]]) := by
    apply Exists.intro
    apply Exists.intro
    apply Exists.intro
    apply And.intro
    · apply ProgRun.called Call.pipe (some (3, 4)) rfl
        ⟨3, 4, rfl, by decide, by decide, by decide, rfl, rfl, rfl⟩
      apply ProgRun.called (Call.fork _) (0 : Int) rfl (Or.inl ⟨rfl, rfl⟩)
      apply ProgRun.called (Call.dup2 4 1) (1 : Int) rfl (Or.inl ⟨by decide, rfl, rfl⟩)
      apply ProgRun.called (Call.close 3) (0 : Int) rfl (Or.inl ⟨by decide, rfl, rfl⟩)
      apply ProgRun.called (Call.close 4) (0 : Int) rfl (Or.inl ⟨by decide, rfl, rfl⟩)
      exact Run.nil _
    · rfl
  obtain ⟨p, q, es, hrun, hnext⟩ := hrun
  have hwired := pipeline_wired (by decide) (by decide) (by decide) (by decide) (by decide) hrun
  exact ⟨p, q, es, hrun, hnext, hwired.1 _ hnext⟩

end SnuSysProg.Shell
