import SnuSysProg.Shell.Program
import SnuSysProg.Shell.Syntax

/-
  The descriptors of a pipeline.

  A process has a table of open descriptors. We follow one process through its forks, into the
  child or on in the parent: that is every process there is. `pipe` and `open` give any descriptors
  that are not open, a `fork` may fail, an `execvp` that returns has failed.
-/

namespace SnuSysProg.Shell
open SnuSysProg.Lib

/-- What a descriptor refers to. -/
inductive File where
  /-- What it referred to in the shell before the command. -/
  | inherited (fd : Int)
  | readEnd (i : Nat)
  | writeEnd (i : Nat)
  /-- The file of a `<`. -/
  | input (fname : Str)
  /-- The file of a `>`. -/
  | output (fname : Str)
  deriving DecidableEq

abbrev Fds := Int → Option File

structure Process where
  fds : Fds
  /-- How many pipes the command has made. -/
  pipes : Nat
  /-- How many children it has forked. -/
  forks : Nat
  /-- In a child, how many were forked before it. -/
  stage : Option Nat

def Process.initial (fds : Fds) : Process := ⟨fds, 0, 0, none⟩

def Process.withFds (q : Process) (fds : Fds) : Process := { q with fds := fds }

/-- `open` gives a descriptor that is not open. -/
def Opens (q : Process) (file : File) (fd : Int) (q' : Process) : Prop :=
  0 ≤ fd ∧ q.fds fd = none ∧ q' = q.withFds (Function.update q.fds fd (some file))

/-- What a call does to the descriptors, and what it answers. -/
def fdStep (q : Process) : (c : Call) → c.Ret → Process → Prop
  | .pipe, r, q' => ∃ x y, r = some (x, y) ∧ x ≠ y ∧ 0 ≤ x ∧ 0 ≤ y ∧ q.fds x = none ∧
      q.fds y = none ∧ q' = { q with
        fds := Function.update (Function.update q.fds x (some (.readEnd q.pipes))) y
          (some (.writeEnd q.pipes))
        pipes := q.pipes + 1 }
  | .fork _, r, q' => (r = 0 ∧ q' = { q with stage := some q.forks }) ∨
      (0 < r ∧ q' = { q with forks := q.forks + 1 }) ∨ (r = -1 ∧ q' = q)
  | .openRead fname, r, q' => Opens q (.input fname) r q'
  | .openWrite fname, r, q' => Opens q (.output fname) r q'
  | .dup2 fd fd', r, q' =>
      (q.fds fd ≠ none ∧ r = fd' ∧ q' = q.withFds (Function.update q.fds fd' (q.fds fd))) ∨
      (q.fds fd = none ∧ r = -1 ∧ q' = q)
  | .close fd, r, q' =>
      (q.fds fd ≠ none ∧ r = 0 ∧ q' = q.withFds (Function.update q.fds fd none)) ∨
      (q.fds fd = none ∧ r = -1 ∧ q' = q)
  | .execvp _, r, q' => r = -1 ∧ q' = q
  | _, _, q' => q' = q

/-- Nothing else has to do with the descriptors. -/
def noEvent (_ : Process) (e : Empty) (_ : Process) : Prop := e.elim

variable {α β : Type} {q q' : Process} {fds fds₀ : Fds} {A : List Str → Process → Prop}
  {Q : α → Process → Prop} {R : β → Process → Prop} {x : ShellM α} {f : α → ShellM β}

/-- Along the program `A` holds at each `execvp`, and `Q` when it returns. -/
def Follows (A : List Str → Process → Prop) (Q : α → Process → Prop) (x : ShellM α)
    (q : Process) : Prop :=
  ∀ es, Safe fdStep noEvent (fun _ c q => ∀ args, c = some (.execvp args) → A args q)
    (fun a _ q => Q a q) x es q

theorem Follows.ret {a : α} (h : Q a q) : Follows A Q (pure a) q := by
  intro es
  refine Safe.ret (P := fun _ q' => q' = q) (fun _ _ e => e.elim) ?_ ?_ rfl
  · exact fun _ _ _ args hargs => absurd hargs (by simp)
  · rintro _ _ rfl
    exact h

theorem Follows.call {c : Call} {k : c.Ret → ShellM β} (hA : ∀ args, c = .execvp args → A args q)
    (h : ∀ r q', fdStep q c r q' → Follows A R (k r) q') : Follows A R (sys c >>= k) q := by
  intro es
  refine Safe.perform (P := fun _ q' => q' = q) (fun _ _ e => e.elim) ?_ ?_ rfl
  · rintro _ _ rfl args hargs
    exact hA args (Option.some.inj hargs)
  · rintro _ _ r q' rfl hstep
    exact h r q' hstep _

theorem Follows.one {c : Call} {Q : c.Ret → Process → Prop} (hA : ∀ args, c ≠ .execvp args)
    (h : ∀ r q', fdStep q c r q' → Q r q') : Follows A Q (sys c) q := by
  intro es
  refine Safe.call (P := fun _ q' => q' = q) (fun _ _ e => e.elim) ?_ ?_ rfl
  · rintro _ _ rfl args hargs
    exact absurd (Option.some.inj hargs) (hA args)
  · rintro es _ r q' rfl hstep
    exact (Follows.ret (A := A) (h r q' hstep)) _

theorem Follows.bind (h : Follows A Q x q) (hf : ∀ a q, Q a q → Follows A R (f a) q) :
    Follows A R (x >>= f) q :=
  fun es => (h es).bind fun a es q ha => hf a q ha es

theorem Follows.mono {Q' : α → Process → Prop} (h : Follows A Q x q)
    (hQ : ∀ a q, Q a q → Q' a q) : Follows A Q' x q :=
  fun es => (h es).mono (fun _ _ _ hj => hj) fun a _ q ha => hQ a q ha

theorem Follows.ite {c : Prop} [Decidable c] {y : ShellM α} (ht : c → Follows A Q x q)
    (he : ¬ c → Follows A Q y q) : Follows A Q (if c then x else y) q := by
  by_cases hc : c
  · rw [if_pos hc]
    exact ht hc
  · rw [if_neg hc]
    exact he hc

/-- A process that exits does not go on. -/
theorem exit_follows {status : Int} {Q : Unit → Process → Prop} : Follows A Q (exit status) q := by
  intro es
  refine Safe.call (P := fun _ _ => True) (fun _ _ e => e.elim) ?_ (fun _ _ r => r.elim) trivial
  exact fun _ _ _ args hargs => absurd hargs (by simp)

/-- A call that has nothing to do with the descriptors. -/
theorem Follows.quiet {c : Call} {k : c.Ret → ShellM β} (hA : ∀ args, c ≠ .execvp args)
    (hc : ∀ r q', fdStep q c r q' → q' = q) (h : ∀ r, Follows A R (k r) q) :
    Follows A R (sys c >>= k) q := by
  refine Follows.call (fun args hargs => absurd hargs (hA args)) fun r q' hstep => ?_
  rw [hc r q' hstep]
  exact h r

theorem perror_follows {m : String} {k : Unit → ShellM β} (h : Follows A R (k ()) q) :
    Follows A R (perror m >>= k) q :=
  Follows.quiet (c := .perror m) (by simp) (fun _ _ hstep => hstep) fun _ => h

theorem errorPrint_follows {input : Subject} {mode : PrintMode} {k : Unit → ShellM β}
    (h : Follows A R (k ()) q) : Follows A R (errorPrint input mode >>= k) q :=
  Follows.quiet (c := .errorPrint input mode) (by simp) (fun _ _ hstep => hstep) fun _ => h

/-! ## Redirections -/

/-- What the redirections of a range of tokens do to the descriptors. -/
def redirected (redin redout : Bool) : List Token → Fds → Fds
  | [], fds => fds
  | .word value :: rest, fds =>
    if redin then
      redirected false redout rest (Function.update fds stdinFileno (some (.input value)))
    else if redout then
      redirected redin false rest (Function.update fds stdoutFileno (some (.output value)))
    else redirected redin redout rest fds
  | .redin :: rest, fds => redirected true redout rest fds
  | .redout :: rest, fds => redirected redin true rest fds
  | .pipe :: rest, fds => redirected redin redout rest fds
  | .bg :: rest, fds => redirected redin redout rest fds

/-- A file moved to a descriptor, through one that was free. -/
theorem moved_eq {fd target : Int} {file : Option File} (hfile : fds fd = none)
    (hne : fd ≠ target) :
    Function.update (Function.update (Function.update fds fd file) target
      (Function.update fds fd file fd)) fd none = Function.update fds target file := by
  funext x
  by_cases hx : x = fd
  · rw [hx, Function.update_self, Function.update_of_ne hne, hfile]
  · by_cases hxt : x = target
    · rw [Function.update_of_ne hx, hxt, Function.update_self, Function.update_self,
        Function.update_self]
    · rw [Function.update_of_ne hx, Function.update_of_ne hxt, Function.update_of_ne hx,
        Function.update_of_ne hxt]

/-- An opened file takes the place of a standard descriptor. -/
theorem redirect_follows {fd target : Int} {file : File} (hfd : 0 ≤ fd) (htarget : 0 ≤ target)
    (hfile : q.fds fd = none) (hne : fd ≠ target) :
    Follows A (fun _ q' => q' = q.withFds (Function.update q.fds target (some file)))
      (redirect fd target) (q.withFds (Function.update q.fds fd (some file))) := by
  unfold redirect
  refine Follows.ite (fun hneg => absurd hneg (by omega)) fun _ => ?_
  refine Follows.call (by simp) fun r q₁ hdup => ?_
  rcases hdup with ⟨-, hr, rfl⟩ | ⟨hnone, -, -⟩
  · refine Follows.ite (fun hneg => absurd (hr ▸ hneg) (by omega)) fun _ => ?_
    refine Follows.call (by simp) fun r' q₂ hclose => ?_
    rcases hclose with ⟨-, hr', rfl⟩ | ⟨hnone, -, -⟩
    · refine Follows.ite (fun hneg => absurd (hr' ▸ hneg) (by omega)) fun _ => Follows.ret ?_
      exact congrArg q.withFds (moved_eq hfile hne)
    · simp [Process.withFds, hne] at hnone
  · simp [Process.withFds] at hnone

theorem redinHandler_follows {fname : Str} (hopen : q.fds stdinFileno ≠ none) :
    Follows A (fun _ q' => q' = q.withFds (Function.update q.fds stdinFileno (some (.input fname))))
      (redinHandler fname) q := by
  unfold redinHandler
  refine Follows.call (by simp) fun fd q' hstep => ?_
  obtain ⟨hfd, hfile, rfl⟩ := hstep
  exact redirect_follows hfd (by decide) hfile fun heq => hopen (heq ▸ hfile)

theorem redoutHandler_follows {fname : Str} (hopen : q.fds stdoutFileno ≠ none) :
    Follows A (fun _ q' => q' =
      q.withFds (Function.update q.fds stdoutFileno (some (.output fname))))
      (redoutHandler fname) q := by
  unfold redoutHandler
  refine Follows.call (by simp) fun fd q' hstep => ?_
  obtain ⟨hfd, hfile, rfl⟩ := hstep
  exact redirect_follows hfd (by decide) hfile fun heq => hopen (heq ▸ hfile)

/-- The standard descriptors are open. -/
structure StdOpen (fds : Fds) : Prop where
  stdin : fds stdinFileno ≠ none
  stdout : fds stdoutFileno ≠ none

theorem StdOpen.update {fd : Int} {file : File} (h : StdOpen fds) :
    StdOpen (Function.update fds fd (some file)) := by
  constructor
  · by_cases hfd : stdinFileno = fd
    · rw [← hfd, Function.update_self]
      simp
    · rw [Function.update_of_ne hfd]
      exact h.stdin
  · by_cases hfd : stdoutFileno = fd
    · rw [← hfd, Function.update_self]
      simp
    · rw [Function.update_of_ne hfd]
      exact h.stdout

theorem buildLoop_follows {redin redout : Bool} {args : List Str} {l : List Token}
    (hopen : StdOpen q.fds) :
    Follows A (fun _ q' => q' = q.withFds (redirected redin redout l q.fds))
      (buildLoop redin redout args l) q := by
  induction l generalizing q redin redout args with
  | nil => exact Follows.ret rfl
  | cons t l ih =>
    cases t with
    | word value =>
      unfold buildLoop redirected
      cases redin with
      | true =>
        refine Follows.bind (redinHandler_follows hopen.stdin) fun _ q' hq' => ?_
        subst hq'
        exact ih hopen.update
      | false =>
        cases redout with
        | true =>
          refine Follows.bind (redoutHandler_follows hopen.stdout) fun _ q' hq' => ?_
          subst hq'
          exact ih hopen.update
        | false => exact ih hopen
    | redin => exact ih hopen
    | redout => exact ih hopen
    | pipe => exact ih hopen
    | bg => exact ih hopen

/-! ## The pipes -/

def ends (pipeFds : List (Int × Int)) : List Int := pipeFds.flatMap fun p => [p.1, p.2]

/-- The descriptors without these. -/
def closed (fds : Fds) (l : List Int) : Fds := fun fd => if fd ∈ l then none else fds fd

theorem close_follows {fd : Int} :
    Follows A (fun _ q' => q' = q.withFds (closed q.fds [fd])) (close fd) q := by
  have hsingle : closed q.fds [fd] = Function.update q.fds fd none := by
    funext x
    by_cases hx : x = fd <;> simp [closed, hx]
  rw [hsingle]
  refine Follows.one (c := .close fd) (by simp) fun r q' hstep => ?_
  rcases hstep with ⟨-, -, rfl⟩ | ⟨hnone, -, rfl⟩
  · rfl
  · rw [← hnone, Function.update_eq_self]
    rfl

theorem closed_append {l l' : List Int} : closed (closed fds l) l' = closed fds (l ++ l') := by
  funext fd
  by_cases h : fd ∈ l <;> by_cases h' : fd ∈ l' <;> simp [closed, h, h']

/-- Closing all pipes leaves the other descriptors. -/
theorem closeAllPipes_follows {l : List (Int × Int)} :
    Follows A (fun _ q' => q' = q.withFds (closed q.fds (ends l))) (closeAllPipes l) q := by
  induction l generalizing q with
  | nil =>
    refine Follows.ret ?_
    have hsame : closed q.fds (ends []) = q.fds := by
      funext fd
      simp [closed, ends]
    rw [hsame]
    rfl
  | cons p l ih =>
    unfold closeAllPipes
    refine Follows.bind close_follows fun r q₁ hq₁ => ?_
    have hrest : Follows A (fun _ q' => q' = q.withFds (closed q.fds (ends (p :: l)))) (do
        if (← close p.2) < 0 then perror "close failed"
        closeAllPipes l) q₁ := by
      refine Follows.bind close_follows fun r q₂ hq₂ => ?_
      have hloop : Follows A (fun _ q' => q' = q.withFds (closed q.fds (ends (p :: l))))
          (closeAllPipes l) q₂ := by
        refine ih.mono fun _ q' hq' => ?_
        rw [hq', hq₂, hq₁]
        change q.withFds (closed (closed (closed q.fds [p.1]) [p.2]) (ends l)) = _
        rw [closed_append, closed_append]
        rfl
      exact Follows.ite (fun _ => perror_follows hloop) fun _ => hloop
    exact Follows.ite (fun _ => perror_follows hrest) fun _ => hrest

/-! ## The redirections of a stage -/

theorem redirected_skip {a b : List Token} (hin : Token.redin ∉ a) (hout : Token.redout ∉ a) :
    redirected false false (a ++ b) fds = redirected false false b fds := by
  induction a with
  | nil => rfl
  | cons t a ih =>
    obtain ⟨hti, hai⟩ := List.ne_and_not_mem_of_not_mem_cons hin
    obtain ⟨hto, hao⟩ := List.ne_and_not_mem_of_not_mem_cons hout
    cases t with
    | redin => exact absurd rfl hti
    | redout => exact absurd rfl hto
    | _ => exact ih hai hao

theorem redirected_none {l : List Token} (hin : Token.redin ∉ l) (hout : Token.redout ∉ l) :
    redirected false false l fds = fds := by
  have hskip : redirected false false (l ++ []) fds = fds := redirected_skip hin hout
  rwa [List.append_nil] at hskip

/-- The descriptors after a redirection, if there is one. -/
def withFile (fd : Int) (file : Str → File) (fname : Option Str) (fds : Fds) : Fds :=
  match fname with
  | some fname => Function.update fds fd (some (file fname))
  | none => fds

/-- A stage with no `>` and at most one `<`. -/
theorem redirected_in {l : List Token} (hout : Token.redout ∉ l)
    (hnext : ∀ a b, l = a ++ .redin :: b → nextIsWord b = true ∧ Token.redin ∉ b) :
    redirected false false l fds = withFile stdinFileno .input (fileAfter .redin l) fds := by
  by_cases hin : Token.redin ∈ l
  · obtain ⟨a, b, rfl, ha⟩ := List.eq_append_cons_of_mem hin
    obtain ⟨hword, hrest⟩ := hnext a b rfl
    obtain ⟨value, b, rfl⟩ := word_of_nextIsWord hword
    rw [fileAfter_word ha, redirected_skip ha fun h => hout (List.mem_append_left _ h)]
    exact redirected_none (fun h => hrest (List.mem_cons_of_mem _ h)) fun h => hout (by simp [h])
  · rw [fileAfter_none hin]
    exact redirected_none hin hout

/-- A stage with no `<` and at most one `>`. -/
theorem redirected_out {l : List Token} (hin : Token.redin ∉ l)
    (hnext : ∀ a b, l = a ++ .redout :: b → nextIsWord b = true ∧ Token.redout ∉ b) :
    redirected false false l fds = withFile stdoutFileno .output (fileAfter .redout l) fds := by
  by_cases hout : Token.redout ∈ l
  · obtain ⟨a, b, rfl, ha⟩ := List.eq_append_cons_of_mem hout
    obtain ⟨hword, hrest⟩ := hnext a b rfl
    obtain ⟨value, b, rfl⟩ := word_of_nextIsWord hword
    rw [fileAfter_word ha, redirected_skip (fun h => hin (List.mem_append_left _ h)) ha]
    exact redirected_none (fun h => hin (by simp [h])) fun h => hrest (List.mem_cons_of_mem _ h)
  · rw [fileAfter_none hout]
    exact redirected_none hin hout

/-! ## The pipes of a pipeline -/

/-- The pipes are made, and the other descriptors are as before. -/
structure Made (fds₀ : Fds) (pipeFds : List (Int × Int)) (fds : Fds) : Prop where
  read : ∀ i p, pipeFds[i]? = some p → fds p.1 = some (.readEnd i)
  write : ∀ i p, pipeFds[i]? = some p → fds p.2 = some (.writeEnd i)
  fresh : ∀ fd ∈ ends pipeFds, fds₀ fd = none
  other : ∀ fd, fd ∉ ends pipeFds → fds fd = fds₀ fd

variable {pipeFds : List (Int × Int)} {i n pcount : Nat} {pl : Pipeline} {tokens : List Token}
  {isBackground : Bool} {pid pgid : Int} {pids : List Int}

theorem mem_ends {p : Int × Int} (hp : pipeFds[i]? = some p) :
    p.1 ∈ ends pipeFds ∧ p.2 ∈ ends pipeFds := by
  have hmem : p ∈ pipeFds := List.mem_of_getElem? hp
  exact ⟨List.mem_flatMap.mpr ⟨p, hmem, by simp⟩, List.mem_flatMap.mpr ⟨p, hmem, by simp⟩⟩

theorem Made.nil : Made fds₀ [] fds₀ where
  read := fun _ _ hp => absurd hp (by simp)
  write := fun _ _ hp => absurd hp (by simp)
  fresh := fun _ hfd => absurd hfd (by simp [ends])
  other := fun _ _ => rfl

theorem Made.snoc {x y : Int} (h : Made fds₀ pipeFds fds) (hxy : x ≠ y) (hx : fds x = none)
    (hy : fds y = none) : Made fds₀ (pipeFds ++ [(x, y)])
      (Function.update (Function.update fds x (some (.readEnd pipeFds.length))) y
        (some (.writeEnd pipeFds.length))) := by
  have hends : ends (pipeFds ++ [(x, y)]) = ends pipeFds ++ [x, y] := by simp [ends]
  have hold : ∀ fd ∈ ends pipeFds, fd ≠ x ∧ fd ≠ y := by
    intro fd hfd
    obtain ⟨p, hp, hfd⟩ := List.mem_flatMap.mp hfd
    obtain ⟨i, hi⟩ := List.getElem?_of_mem hp
    have hsome : fds fd ≠ none := by
      rcases List.mem_cons.mp hfd with rfl | hfd
      · simp [h.read i p hi]
      · rw [List.mem_singleton.mp hfd]
        simp [h.write i p hi]
    exact ⟨fun heq => hsome (heq ▸ hx), fun heq => hsome (heq ▸ hy)⟩
  have hlast : ∀ i p, (pipeFds ++ [(x, y)])[i]? = some p →
      pipeFds[i]? = some p ∨ (i = pipeFds.length ∧ p = (x, y)) := by
    intro i p hp
    rcases Nat.lt_or_ge i pipeFds.length with hlt | hge
    · rw [List.getElem?_append_left hlt] at hp
      exact Or.inl hp
    · have hi : i < (pipeFds ++ [(x, y)]).length := (List.getElem?_eq_some_iff.mp hp).1
      rw [List.length_append, List.length_singleton] at hi
      obtain rfl : i = pipeFds.length := by omega
      rw [List.getElem?_concat_length] at hp
      exact Or.inr ⟨rfl, (Option.some.inj hp).symm⟩
  refine ⟨fun i p hp => ?_, fun i p hp => ?_, fun fd hfd => ?_, fun fd hfd => ?_⟩
  · rcases hlast i p hp with hp | ⟨rfl, rfl⟩
    · obtain ⟨hpx, hpy⟩ := hold p.1 (mem_ends hp).1
      rw [Function.update_of_ne hpy, Function.update_of_ne hpx, h.read i p hp]
    · rw [Function.update_of_ne hxy, Function.update_self]
  · rcases hlast i p hp with hp | ⟨rfl, rfl⟩
    · obtain ⟨hpx, hpy⟩ := hold p.2 (mem_ends hp).2
      rw [Function.update_of_ne hpy, Function.update_of_ne hpx, h.write i p hp]
    · exact Function.update_self ..
  · rw [hends] at hfd
    have hnew : ∀ fd, fds fd = none → fd ∉ ends pipeFds → fds₀ fd = none := by
      intro fd hnone hnot
      rw [← h.other fd hnot, hnone]
    rcases List.mem_append.mp hfd with hfd | hfd
    · exact h.fresh fd hfd
    · rcases List.mem_cons.mp hfd with rfl | hfd
      · exact hnew fd hx fun hin => (hold fd hin).1 rfl
      · obtain rfl := List.mem_singleton.mp hfd
        exact hnew fd hy fun hin => (hold fd hin).2 rfl
  · rw [hends] at hfd
    have hnot : fd ∉ ends pipeFds ∧ fd ≠ x ∧ fd ≠ y := by simpa using hfd
    rw [Function.update_of_ne hnot.2.2, Function.update_of_ne hnot.2.1, h.other fd hnot.1]

/-- When the pipes are closed, the descriptors are what they were. -/
theorem Made.closed_ends (h : Made fds₀ pipeFds fds) : closed fds (ends pipeFds) = fds₀ := by
  funext fd
  unfold closed
  by_cases hfd : fd ∈ ends pipeFds
  · rw [if_pos hfd, h.fresh fd hfd]
  · rw [if_neg hfd, h.other fd hfd]

theorem pipeLoop_follows (h : Made fds₀ pipeFds q.fds) (hpipes : q.pipes = pipeFds.length) :
    Follows A (fun r q' => ∃ pipeFds', r = some pipeFds' ∧ pipeFds'.length = pipeFds.length + n ∧
        Made fds₀ pipeFds' q'.fds ∧ q'.forks = q.forks ∧ q'.stage = q.stage)
      (pipeLoop n pipeFds) q := by
  induction n generalizing q pipeFds with
  | zero => exact Follows.ret ⟨pipeFds, rfl, rfl, h, rfl, rfl⟩
  | succ n ih =>
    refine Follows.call (c := .pipe) (by simp) fun r q' hstep => ?_
    obtain ⟨x, y, rfl, hxy, -, -, hx, hy, rfl⟩ := hstep
    have hmade := h.snoc hxy hx hy
    rw [← hpipes] at hmade
    refine (ih hmade ?_).mono fun r q' hq' => ?_
    · rw [List.length_append]
      exact congrArg (· + 1) hpipes
    · obtain ⟨pipeFds', rfl, hlen, hrest⟩ := hq'
      refine ⟨pipeFds', rfl, ?_, hrest⟩
      rw [hlen, List.length_append, List.length_singleton]
      omega

end SnuSysProg.Shell
