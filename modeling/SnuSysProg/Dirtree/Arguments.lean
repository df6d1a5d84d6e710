import SnuSysProg.Dirtree.Main

/-
  The command line.

  `main` reads its arguments from left to right, and an option it does not know ends it at once.
  If there is none, what it does depends on which options there are and on the other arguments in
  their order (`parseArgs_known`): options can stand anywhere, and an option that is
  given twice counts once (`main_options`). After 64 directories the others are only named in a
  warning.
-/

namespace SnuSysProg.Dirtree

/-- An argument that begins with a dash. -/
def isOption (arg : Str) : Bool := arg.head? = some 45

/-- The options other than `-h`. -/
def options : List Str := [ascii "-t", ascii "-s", ascii "-v"]

/-- Every option is one of these. -/
def Known (argv : List Str) : Prop := ∀ arg ∈ argv, isOption arg → arg ∈ options

instance : DecidablePred Known := fun argv =>
  inferInstanceAs (Decidable (∀ arg ∈ argv, isOption arg → arg ∈ options))

/-- A flag that one of the options turns on. -/
def flagIf (option : Str) (flag : Flags) (argv : List Str) : Flags :=
  if option ∈ argv then flag else 0

def flagsOf (argv : List Str) : Flags :=
  flagIf (ascii "-t") fTree argv ||| flagIf (ascii "-s") fSummary argv |||
    flagIf (ascii "-v") fVerbose argv

/-- The arguments that are not options. -/
def rootsOf (argv : List Str) : List Str := argv.filter fun arg => !isOption arg

/-- For a directory behind the first 64. -/
def warning (arg : Str) : Str :=
  ascii "Warning: maximum number of directories exceeded, ignoring '" ++ arg ++ ascii "'.\n"

/-- The directories that `main` goes over. -/
def directoriesOf (argv : List Str) : List Str :=
  if rootsOf argv = [] then [ascii "."] else (rootsOf argv).take maxDir

def warningsOf (argv : List Str) : Str := ((rootsOf argv).drop maxDir).flatMap warning

variable {P : Type} {env : Env P} {fuel : Nat} {argv argv' : List Str} {args : Args} {arg : Str}

/-! ## One argument -/

theorem flagIf_cons (option : Str) (flag : Flags) (arg : Str) (argv : List Str) :
    flagIf option flag (arg :: argv) = flagIf option flag [arg] ||| flagIf option flag argv := by
  unfold flagIf
  by_cases harg : option = arg
  · rw [if_pos (harg ▸ List.mem_cons_self), if_pos (List.mem_singleton.mpr harg)]
    by_cases hmem : option ∈ argv
    · rw [if_pos hmem, UInt32.or_self]
    · rw [if_neg hmem, UInt32.or_zero]
  · have hcons : option ∈ arg :: argv ↔ option ∈ argv := by simp [harg]
    rw [if_neg (fun h => harg (List.mem_singleton.mp h)), UInt32.zero_or]
    exact if_congr hcons rfl rfl

theorem flagsOf_cons (arg : Str) (argv : List Str) :
    flagsOf (arg :: argv) = flagsOf [arg] ||| flagsOf argv := by
  unfold flagsOf
  rw [flagIf_cons _ _ arg argv, flagIf_cons _ _ arg argv, flagIf_cons _ _ arg argv]
  ac_rfl

theorem parseArg_option (harg : arg ∈ options) :
    parseArg args arg = .ok { args with flags := args.flags ||| flagsOf [arg] } := by
  obtain rfl | rfl | rfl : arg = ascii "-t" ∨ arg = ascii "-s" ∨ arg = ascii "-v" := by
    simpa [options] using harg
  all_goals rfl

/-- An option that is not known ends the program. -/
theorem parseArg_unknown (hoption : isOption arg = true) (harg : arg ∉ options) :
    parseArg args arg =
      .error (args.out ++ if arg = ascii "-h" then [] else ascii "\n\n") := by
  have hknown : arg ≠ ascii "-t" ∧ arg ≠ ascii "-s" ∧ arg ≠ ascii "-v" := by
    simpa [options] using harg
  obtain ⟨ht, hs, hv⟩ := hknown
  rw [parseArg, if_pos (of_decide_eq_true hoption), if_neg (fun h => ht (strcmp_eq_zero.mp h)),
    if_neg (fun h => hs (strcmp_eq_zero.mp h)), if_neg (fun h => hv (strcmp_eq_zero.mp h))]
  by_cases hh : arg = ascii "-h"
  · rw [if_pos (strcmp_eq_zero.mpr hh), if_pos hh, List.append_nil]
  · rw [if_neg (fun h => hh (strcmp_eq_zero.mp h)), if_neg hh]

/-- A directory, or a warning that there are too many. -/
theorem parseArg_root (hroot : isOption arg = false) :
    parseArg args arg =
      .ok (if args.directories.length < maxDir then
        { args with directories := args.directories ++ [arg] }
      else { args with out := args.out ++ warning arg }) := by
  rw [parseArg, if_neg (of_decide_eq_false hroot)]
  by_cases hroom : args.directories.length < maxDir
  · rw [if_pos hroom, if_pos hroom]
  · rw [if_neg hroom, if_neg hroom]
    rfl

/-! ## All arguments -/

/-- What `main` has read, by options and directories. -/
theorem parseArgs_known (hknown : Known argv) (hroom : args.directories.length ≤ maxDir) :
    argv.foldlM parseArg args = .ok
      ⟨args.flags ||| flagsOf argv, (args.directories ++ rootsOf argv).take maxDir,
        args.out ++ ((rootsOf argv).drop (maxDir - args.directories.length)).flatMap warning⟩ := by
  induction argv generalizing args with
  | nil =>
    have hflags : flagsOf [] = 0 := rfl
    rw [hflags, UInt32.or_zero, rootsOf, List.filter_nil, List.append_nil,
      List.take_of_length_le hroom, List.drop_nil, List.flatMap_nil, List.append_nil]
    rfl
  | cons arg argv ih =>
    have hrest : Known argv := fun a ha => hknown a (List.mem_cons_of_mem _ ha)
    have hnext := fun (args : Args) (h : args.directories.length ≤ maxDir) => ih hrest h
    rw [List.foldlM_cons]
    cases hoption : isOption arg with
    | true =>
      have hroots : rootsOf (arg :: argv) = rootsOf argv := by
        rw [rootsOf, List.filter_cons, hoption]
        rfl
      rw [parseArg_option (hknown arg List.mem_cons_self hoption), hroots, flagsOf_cons arg argv,
        ← UInt32.or_assoc]
      exact hnext _ hroom
    | false =>
      have hroots : rootsOf (arg :: argv) = arg :: rootsOf argv := by
        rw [rootsOf, List.filter_cons, hoption]
        rfl
      have hflag : flagsOf [arg] = 0 := by
        have hdiff : ∀ option : Str, isOption option = true → option ∉ [arg] := by
          intro option hyes hmem
          rw [List.mem_singleton.mp hmem, hoption] at hyes
          exact absurd hyes (by decide)
        simp [flagsOf, flagIf, hdiff (ascii "-t") rfl, hdiff (ascii "-s") rfl,
          hdiff (ascii "-v") rfl]
      rw [parseArg_root hoption, hroots, flagsOf_cons, hflag, UInt32.zero_or]
      by_cases hless : args.directories.length < maxDir
      · rw [if_pos hless]
        refine (hnext { args with directories := args.directories ++ [arg] } ?_).trans ?_
        · rw [List.length_append]
          exact hless
        · have hleft : maxDir - args.directories.length =
              maxDir - (args.directories.length + 1) + 1 := by omega
          rw [hleft, List.drop_succ_cons, List.length_append, List.length_singleton,
            List.append_assoc, List.singleton_append]
      · have hfull : maxDir - args.directories.length = 0 := by omega
        rw [if_neg hless]
        refine (hnext { args with out := args.out ++ warning arg } hroom).trans ?_
        rw [hfull, List.drop_zero, List.drop_zero, List.flatMap_cons, List.append_assoc,
          List.take_append_of_le_length (Nat.le_of_not_lt hless),
          List.take_append_of_le_length (Nat.le_of_not_lt hless)]

/-- Where there is an option that is not known, there is a first one. -/
theorem first_unknown (h : ¬ Known argv) :
    ∃ pre arg post, argv = pre ++ arg :: post ∧ Known pre ∧ isOption arg = true ∧
      arg ∉ options := by
  induction argv with
  | nil => exact absurd (fun _ ha => absurd ha List.not_mem_nil) h
  | cons arg argv ih =>
    by_cases hfirst : isOption arg = true ∧ arg ∉ options
    · exact ⟨[], arg, argv, rfl, fun _ ha => absurd ha List.not_mem_nil, hfirst⟩
    · have hthis : isOption arg = true → arg ∈ options := fun hoption =>
        Classical.byContradiction fun hnot => hfirst ⟨hoption, hnot⟩
      obtain ⟨pre, bad, post, rfl, hpre, hbad⟩ := ih fun hrest =>
        h (List.forall_mem_cons.mpr ⟨hthis, hrest⟩)
      exact ⟨arg :: pre, bad, post, rfl, List.forall_mem_cons.mpr ⟨hthis, hpre⟩, hbad⟩

/-! ## `main` -/

/-- What `main` does after it has read its arguments. -/
def analyse (env : Env P) (fuel : Nat) (flags : Flags) (directories : List Str) (out : Str) :
    Except Stop Exit := do
  let (_, g) ← processDirs env flags fuel directories ⟨out, Summary.zero, 0⟩
  let out :=
    if has flags fSummary && 1 < directories.length then
      g.out ++ grandTotal flags directories.length g.tstats
    else g.out
  return ⟨out, 0⟩

theorem main_known (env : Env P) (fuel : Nat) (hknown : Known argv) :
    main env fuel argv =
      analyse env fuel (flagsOf argv) (directoriesOf argv) (warningsOf argv) := by
  have hdirectories : (if ((rootsOf argv).take maxDir).length = 0 then [ascii "."]
      else (rootsOf argv).take maxDir) = directoriesOf argv := by
    unfold directoriesOf
    refine if_congr ?_ rfl rfl
    rw [List.length_eq_zero_iff, List.take_eq_nil_iff]
    exact or_iff_right (by decide)
  unfold main analyse
  rw [parseArgs_known hknown (Nat.zero_le _)]
  dsimp only
  rw [List.nil_append, List.nil_append, UInt32.zero_or, hdirectories]
  rfl

/-- With an unknown option `main` opens no directory. -/
theorem main_unknown (hunknown : ¬ Known argv) :
    ∃ out, ∀ (env : Env P) (fuel : Nat), main env fuel argv = .ok ⟨out, 1⟩ := by
  obtain ⟨pre, arg, post, rfl, hpre, hoption, harg⟩ := first_unknown hunknown
  have hargs : ∃ out, (pre ++ arg :: post).foldlM parseArg ⟨0, [], []⟩ = .error out := by
    rw [List.foldlM_append, parseArgs_known hpre (Nat.zero_le _)]
    change ∃ out, (arg :: post).foldlM parseArg _ = .error out
    rw [List.foldlM_cons, parseArg_unknown hoption harg]
    exact ⟨_, rfl⟩
  obtain ⟨out, hout⟩ := hargs
  refine ⟨out, fun env fuel => ?_⟩
  rw [main, hout]

theorem analyse_code {flags : Flags} {directories : List Str} {out : Str} {exit : Exit}
    (h : analyse env fuel flags directories out = .ok exit) : exit.code = 0 := by
  unfold analyse at h
  cases hrun : processDirs env flags fuel directories ⟨out, Summary.zero, 0⟩ with
  | error stop =>
    rw [hrun] at h
    cases h
  | ok r =>
    rw [hrun] at h
    cases h
    rfl

theorem flagsOf_congr (hsame : ∀ arg, isOption arg = true → (arg ∈ argv ↔ arg ∈ argv')) :
    flagsOf argv = flagsOf argv' := by
  have hflag : ∀ option flag, isOption option = true →
      flagIf option flag argv = flagIf option flag argv' := fun option flag hoption =>
    if_congr (hsame option hoption) rfl rfl
  unfold flagsOf
  rw [hflag _ _ rfl, hflag _ _ rfl, hflag _ _ rfl]

/-- **The command line.** The exit code says whether all options are known; if one is not, nothing
    of what `main` finds matters. Otherwise it does the same on all command lines with the same
    options, in any order and number, and the same other arguments. -/
theorem main_options (env : Env P) (fuel : Nat) (argv : List Str) :
    (∀ exit, main env fuel argv = .ok exit → exit.code = if Known argv then 0 else 1) ∧
      (¬ Known argv → ∃ out, ∀ (env : Env P) (fuel : Nat), main env fuel argv = .ok ⟨out, 1⟩) ∧
      (Known argv → ∀ argv', (∀ arg, isOption arg = true → (arg ∈ argv ↔ arg ∈ argv')) →
        rootsOf argv = rootsOf argv' → main env fuel argv' = main env fuel argv) := by
  refine ⟨fun exit hexit => ?_, main_unknown, fun hknown argv' hsame hroots => ?_⟩
  · by_cases hknown : Known argv
    · rw [main_known env fuel hknown] at hexit
      rw [if_pos hknown]
      exact analyse_code hexit
    · obtain ⟨out, hout⟩ := main_unknown (P := P) hknown
      rw [hout] at hexit
      cases hexit
      rw [if_neg hknown]
  · have hknown' : Known argv' := fun arg harg hoption =>
      hknown arg ((hsame arg hoption).mpr harg) hoption
    rw [main_known env fuel hknown, main_known env fuel hknown', flagsOf_congr hsame]
    unfold directoriesOf warningsOf
    rw [hroots]

/-- The options behind the directory, and one of them twice. -/
example (env : Env P) : main env 9 [ascii "-t", ascii "-s", ascii "demo"] =
    main env 9 [ascii "demo", ascii "-s", ascii "-t", ascii "-s"] := by
  rw [main_known env 9 (by decide), main_known env 9 (by decide)]
  rfl

end SnuSysProg.Dirtree
