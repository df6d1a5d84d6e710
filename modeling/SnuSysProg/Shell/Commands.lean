import Mathlib.Data.List.Range
import Mathlib.Data.List.Sort
import SnuSysProg.Shell.Program
import SnuSysProg.Shell.Syntax

/-
  The commands that are built from an accepted line.

  `build_command_partial` goes through the tokens of one stage. The words that do not follow a
  `<` or a `>` become the arguments, with a NULL after them, and the others are opened. In an
  accepted line every stage has an argument, only the first stage has a `<`, only the last a `>`,
  and each word is used exactly once (`commands_well_formed`).
-/

namespace SnuSysProg.Shell
open SnuSysProg.Lib

/-! ## The array -/

/-- The loop of `build_command_partial` with its array: `args[cnt++] = value`, and
    `args[cnt] = NULL` after it. -/
def argvLoop (redin redout : Bool) (cnt : Nat) (args : Nat → Option Str) :
    List Token → ShellM (Nat → Option Str)
  | [] => pure (Function.update args cnt none)
  | .word value :: rest =>
    if redin then do
      redinHandler value
      argvLoop false redout cnt args rest
    else if redout then do
      redoutHandler value
      argvLoop redin false cnt args rest
    else argvLoop redin redout (cnt + 1) (Function.update args cnt (some value)) rest
  | .redin :: rest => argvLoop true redout cnt args rest
  | .redout :: rest => argvLoop redin true cnt args rest
  | .pipe :: rest => argvLoop redin redout cnt args rest
  | .bg :: rest => argvLoop redin redout cnt args rest

/-- `build_command_partial`; `args` is what the array holds before. -/
def buildArgv (tokens : List Token) (start stop : Nat) (args : Nat → Option Str) :
    ShellM (Nat → Option Str) :=
  argvLoop false false 0 args (slice tokens start stop)

/-- The array with these arguments in front. -/
def filled (l : List Str) (args : Nat → Option Str) (i : Nat) : Option Str :=
  if i < l.length then l[i]? else args i

/-- The arguments and a NULL. -/
def argv (l : List Str) (args : Nat → Option Str) : Nat → Option Str :=
  Function.update (filled l args) l.length none

variable {tokens : List Token} {redin redout : Bool} {l : List Str} {args : Nat → Option Str}
  {value : Str} {i j n start k : Nat}

theorem filled_snoc : Function.update (filled l args) l.length (some value) =
    filled (l ++ [value]) args := by
  funext i
  unfold filled
  rw [List.length_append, List.length_singleton]
  by_cases hi : i = l.length
  · rw [hi, Function.update_self, if_pos (Nat.lt_succ_self _), List.getElem?_concat_length]
  · rw [Function.update_of_ne hi]
    by_cases hlt : i < l.length
    · rw [if_pos hlt, if_pos (by omega), List.getElem?_append_left hlt]
    · rw [if_neg hlt, if_neg (by omega)]

theorem argv_lt (h : i < l.length) : argv l args i = l[i]? := by
  unfold argv filled
  rw [Function.update_of_ne (Nat.ne_of_lt h), if_pos h]

theorem argv_length : argv l args l.length = none := Function.update_self ..

/-- The array is the list of the arguments. -/
theorem argvLoop_eq {rest : List Token} : argvLoop redin redout l.length (filled l args) rest =
    (do let l' ← buildLoop redin redout l rest; pure (argv l' args)) := by
  induction rest generalizing redin redout l with
  | nil => rfl
  | cons t rest ih =>
    cases t with
    | word value =>
      cases redin with
      | true =>
        simp only [argvLoop, buildLoop, if_true]
        rw [Prog.bind_assoc]
        exact congrArg _ (funext fun _ => ih)
      | false =>
        cases redout with
        | true =>
          simp only [argvLoop, buildLoop, Bool.false_eq_true, if_false, if_true]
          rw [Prog.bind_assoc]
          exact congrArg _ (funext fun _ => ih)
        | false =>
          simp only [argvLoop, buildLoop, Bool.false_eq_true, if_false]
          have hlen : l.length + 1 = (l ++ [value]).length := by
            rw [List.length_append, List.length_singleton]
          rw [filled_snoc, hlen]
          exact ih
    | redin => exact ih
    | redout => exact ih
    | pipe => exact ih
    | bg => exact ih

theorem buildArgv_eq {stop : Nat} : buildArgv tokens start stop args =
    (do let l ← buildCommandPartial tokens start stop; pure (argv l args)) := by
  have hnil : filled [] args = args := by
    funext i
    exact if_neg (Nat.not_lt_zero i)
  have hloop : argvLoop false false ([] : List Str).length (filled [] args)
      (slice tokens start stop) =
      (do let l ← buildLoop false false [] (slice tokens start stop); pure (argv l args)) :=
    argvLoop_eq
  rw [hnil] at hloop
  exact hloop

/-! ## The words of a stage -/

/-- The word at a position. -/
def wordOf (tokens : List Token) (j : Nat) : Option Str :=
  match tokens[j]? with
  | some (.word value) => some value
  | _ => none

/-- The token before a position. -/
def before (tokens : List Token) : Nat → Option Token
  | 0 => none
  | j + 1 => tokens[j]?

def isWord (tokens : List Token) (j : Nat) : Bool := (wordOf tokens j).isSome

/-- A word that follows `op`. -/
def isFile (op : Token) (tokens : List Token) (j : Nat) : Bool :=
  isWord tokens j && before tokens j = some op

/-- A word that does not follow `<` or `>`. -/
def isArgument (tokens : List Token) (j : Nat) : Bool :=
  isWord tokens j && !(before tokens j = some .redin || before tokens j = some .redout)

/-- The file of a redirection is opened. -/
def handleFile (tokens : List Token) (j : Nat) : ShellM Unit :=
  match before tokens j, wordOf tokens j with
  | some .redin, some value => redinHandler value
  | some .redout, some value => redoutHandler value
  | _, _ => pure ()

def handleFiles (tokens : List Token) : List Nat → ShellM Unit
  | [] => pure ()
  | j :: js => do
    handleFile tokens j
    handleFiles tokens js

/-- The positions of the files of a stage, in order. -/
def files (tokens : List Token) (positions : List Nat) : List Nat :=
  positions.filter fun j => isFile .redin tokens j || isFile .redout tokens j

def arguments (tokens : List Token) (positions : List Nat) : List Nat :=
  positions.filter (isArgument tokens)

/-- Every redirection has a word after it. -/
def Paired (tokens : List Token) : Prop :=
  ∀ j, before tokens j = some .redin ∨ before tokens j = some .redout → isWord tokens j = true

theorem slice_cons (h : start < tokens.length) (hn : start + n + 1 ≤ tokens.length) :
    slice tokens start (start + (n + 1)) =
      tokens[start] :: slice tokens (start + 1) (start + 1 + n) := by
  unfold slice
  have hlen : start < (tokens.take (start + (n + 1))).length := by
    rw [List.length_take]
    omega
  rw [List.drop_eq_getElem_cons hlen, List.getElem_take, Nat.add_assoc, Nat.add_comm 1 n]

theorem slice_self : slice tokens start start = [] := by
  unfold slice
  exact List.drop_eq_nil_of_le (List.length_take_le _ _)

/-- What the loop does with the words at these positions: the files are opened, and the arguments
    come after `l`. -/
def stageWords (tokens : List Token) (l : List Str) (positions : List Nat) : ShellM (List Str) := do
  handleFiles tokens (files tokens positions)
  pure (l ++ (arguments tokens positions).filterMap (wordOf tokens))

theorem isWord_of_wordOf (h : wordOf tokens j = some value) : isWord tokens j = true := by
  unfold isWord
  rw [h]
  rfl

theorem stageWords_skip (positions : List Nat) (h : isWord tokens j = false) :
    stageWords tokens l (j :: positions) = stageWords tokens l positions := by
  have hfiles : files tokens (j :: positions) = files tokens positions :=
    List.filter_cons_of_neg (by simp [isFile, h])
  have hargs : arguments tokens (j :: positions) = arguments tokens positions :=
    List.filter_cons_of_neg (by simp [isArgument, h])
  unfold stageWords
  rw [hfiles, hargs]

/-- A file is opened before the rest. -/
theorem stageWords_file (positions : List Nat) (h : wordOf tokens j = some value)
    (hbefore : before tokens j = some .redin ∨ before tokens j = some .redout) :
    stageWords tokens l (j :: positions) = (do
      handleFile tokens j
      stageWords tokens l positions) := by
  have hfiles : files tokens (j :: positions) = j :: files tokens positions :=
    List.filter_cons_of_pos (by simpa [isFile, isWord_of_wordOf h] using hbefore)
  have hargs : arguments tokens (j :: positions) = arguments tokens positions := by
    refine List.filter_cons_of_neg ?_
    rcases hbefore with hbefore | hbefore
    · simp [isArgument, hbefore]
    · simp [isArgument, hbefore]
  unfold stageWords
  rw [hfiles, hargs, handleFiles, Prog.bind_assoc]

theorem stageWords_argument (positions : List Nat) (h : wordOf tokens j = some value)
    (hin : before tokens j ≠ some .redin) (hout : before tokens j ≠ some .redout) :
    stageWords tokens l (j :: positions) = stageWords tokens (l ++ [value]) positions := by
  have hfiles : files tokens (j :: positions) = files tokens positions :=
    List.filter_cons_of_neg (by simp [isFile, hin, hout])
  have hargs : arguments tokens (j :: positions) = j :: arguments tokens positions :=
    List.filter_cons_of_pos (by simp [isArgument, isWord_of_wordOf h, hin, hout])
  unfold stageWords
  rw [hfiles, hargs, List.filterMap_cons_some h, List.append_cons]

/-- What the loop does with the positions from `start`. -/
theorem buildLoop_range (hpaired : Paired tokens) (hn : start + n ≤ tokens.length) :
    buildLoop (before tokens start = some .redin) (before tokens start = some .redout) l
        (slice tokens start (start + n)) =
      stageWords tokens l (List.range' start n) := by
  induction n generalizing start l with
  | zero =>
    have hnone : stageWords tokens l [] = pure (l ++ []) := rfl
    rw [Nat.add_zero, slice_self, List.range'_zero, hnone, List.append_nil]
    rfl
  | succ n ih =>
    have hlt : start < tokens.length := by omega
    have hget : tokens[start]? = some tokens[start] := List.getElem?_eq_getElem hlt
    have hnext : before tokens (start + 1) = some tokens[start] := hget
    have hrest : ∀ l : List Str, buildLoop (decide (some tokens[start] = some .redin))
        (decide (some tokens[start] = some .redout)) l (slice tokens (start + 1) (start + 1 + n)) =
        stageWords tokens l (List.range' (start + 1) n) := by
      intro l
      rw [← hnext]
      exact ih (by omega)
    rw [slice_cons hlt (by omega), List.range'_succ]
    generalize tokens[start] = t at hget hnext hrest
    -- a token that is not a word is not used, and does not follow a redirection
    have hskip : (∀ value, t ≠ .word value) →
        stageWords tokens l (start :: List.range' (start + 1) n) =
          stageWords tokens l (List.range' (start + 1) n) ∧
        decide (before tokens start = some .redin) = false ∧
          decide (before tokens start = some .redout) = false := by
      intro hne
      have hword : isWord tokens start = false := by
        unfold isWord wordOf
        rw [hget]
        cases t with
        | word value => exact absurd rfl (hne value)
        | _ => rfl
      refine ⟨stageWords_skip _ hword, decide_eq_false fun heq => ?_, decide_eq_false fun heq => ?_⟩
      · exact absurd (hpaired start (Or.inl heq)) (by simp [hword])
      · exact absurd (hpaired start (Or.inr heq)) (by simp [hword])
    cases t with
    | word value =>
      have hvalue : wordOf tokens start = some value := by
        unfold wordOf
        rw [hget]
      by_cases hin : before tokens start = some .redin
      · have hhandle : handleFile tokens start = redinHandler value := by
          unfold handleFile
          rw [hin, hvalue]
        rw [stageWords_file _ hvalue (Or.inl hin), hhandle, hin]
        exact congrArg (fun k => redinHandler value >>= k) (funext fun _ => hrest l)
      · by_cases hout : before tokens start = some .redout
        · have hhandle : handleFile tokens start = redoutHandler value := by
            unfold handleFile
            rw [hout, hvalue]
          rw [stageWords_file _ hvalue (Or.inr hout), hhandle, hout]
          exact congrArg (fun k => redoutHandler value >>= k) (funext fun _ => hrest l)
        · rw [stageWords_argument _ hvalue hin hout, decide_eq_false hin, decide_eq_false hout]
          exact hrest (l ++ [value])
    | redin =>
      obtain ⟨hwords, hin, hout⟩ := hskip (by simp)
      rw [hwords, hin, hout]
      exact hrest l
    | redout =>
      obtain ⟨hwords, hin, hout⟩ := hskip (by simp)
      rw [hwords, hin, hout]
      exact hrest l
    | pipe =>
      obtain ⟨hwords, hin, hout⟩ := hskip (by simp)
      rw [hwords, hin, hout]
      exact hrest l
    | bg =>
      obtain ⟨hwords, hin, hout⟩ := hskip (by simp)
      rw [hwords, hin, hout]
      exact hrest l

/-! ## The stages -/

/-- `pipe_index[i]`. -/
def pipeAt (tokens : List Token) (i : Nat) : Nat :=
  (Pipeline.mk tokens [] (pipeIndices tokens)).index i

/-- The tokens of stage `i` that `fork_exec`, when there is no pipe, and the children of
    `iter_pipe_fork_exec` pass to `build_command_partial`. -/
def stageRange (tokens : List Token) (i : Nat) : Nat × Nat :=
  if countPipe tokens = 0 then (0, tokens.length)
  else if i = 0 then (0, pipeAt tokens 0)
  else if i < countPipe tokens then (pipeAt tokens (i - 1) + 1, pipeAt tokens i)
  else (pipeAt tokens (countPipe tokens - 1), tokens.length)

def stagePositions (tokens : List Token) (i : Nat) : List Nat :=
  List.range' (stageRange tokens i).1 ((stageRange tokens i).2 - (stageRange tokens i).1)

variable {ri ro p : Bool} {op : Token}

theorem pipeAt_eq (h : i < countPipe tokens) :
    (pipeIndices tokens)[i]? = some (pipeAt tokens i) := by
  have hlt : i < (pipeIndices tokens).length := by
    rwa [pipeIndices_length]
  have hget : pipeAt tokens i = (pipeIndices tokens)[i] := by
    change (pipeIndices tokens).getD i 0 = _
    rw [List.getD_eq_getElem?_getD, List.getElem?_eq_getElem hlt]
    rfl
  rw [List.getElem?_eq_getElem hlt, hget]

theorem pipeAt_get (h : i < countPipe tokens) : tokens[pipeAt tokens i]? = some .pipe :=
  mem_pipeIndices.mp (List.mem_of_getElem? (pipeAt_eq h))

/-- The pipes are numbered from left to right. -/
theorem pipeAt_lt (hij : i < j) (hj : j < countPipe tokens) :
    pipeAt tokens i < pipeAt tokens j := by
  have hsorted : (pipeIndices tokens).Pairwise (· < ·) := List.pairwise_lt_range.filter _
  obtain ⟨hi', hgeti⟩ := List.getElem?_eq_some_iff.mp (pipeAt_eq (Nat.lt_trans hij hj))
  obtain ⟨hj', hgetj⟩ := List.getElem?_eq_some_iff.mp (pipeAt_eq hj)
  rw [← hgeti, ← hgetj]
  exact List.pairwise_iff_getElem.mp hsorted i j hi' hj' hij

theorem pipeAt_lt_length (h : i < countPipe tokens) : pipeAt tokens i < tokens.length :=
  (List.getElem?_eq_some_iff.mp (pipeAt_get h)).1

theorem isWord_of_get (h : tokens[j]? = some (.word value)) : isWord tokens j = true := by
  have hvalue : wordOf tokens j = some value := by
    unfold wordOf
    rw [h]
  exact isWord_of_wordOf hvalue

theorem get_of_isWord (h : isWord tokens j = true) : ∃ value, tokens[j]? = some (.word value) := by
  unfold isWord wordOf at h
  split at h
  · next value hget => exact ⟨value, hget⟩
  · exact absurd h (by decide)

/-- After a redirection or a pipe there is a word. -/
theorem Accepted.isWord_after (h : Accepted ri ro p tokens) (hget : tokens[j]? = some op)
    (hop : op = .redin ∨ op = .redout ∨ op = .pipe) : isWord tokens (j + 1) = true := by
  rw [split_at_token hget] at h
  obtain ⟨value, rest, hdrop⟩ := word_of_nextIsWord (h.word_after hop)
  have hzero : (tokens.drop (j + 1))[0]? = some (.word value) := by
    rw [hdrop]
    rfl
  rw [List.getElem?_drop, Nat.add_zero] at hzero
  exact isWord_of_get hzero

theorem Accepted.paired (h : Accepted ri ro p tokens) : Paired tokens := by
  intro j hbefore
  cases j with
  | zero => exact absurd hbefore (by simp [before])
  | succ j =>
    rcases hbefore with hbefore | hbefore
    · exact h.isWord_after hbefore (Or.inl rfl)
    · exact h.isWord_after hbefore (Or.inr (Or.inl rfl))

/-- A `<` is before every pipe. -/
theorem Accepted.redin_le (h : Accepted ri ro p tokens) (hi : i < countPipe tokens)
    (hbefore : before tokens j = some .redin) : j ≤ pipeAt tokens i := by
  cases j with
  | zero => exact absurd hbefore (by simp [before])
  | succ j =>
    have hget : tokens[j]? = some .redin := hbefore
    have hpipe := pipeAt_get hi
    rw [split_at_pipe hpipe] at h
    by_contra hlate
    have hne : j ≠ pipeAt tokens i := by
      rintro rfl
      exact absurd (hget.symm.trans hpipe) (by simp)
    have hmem : (tokens.drop (pipeAt tokens i + 1))[j - (pipeAt tokens i + 1)]? = some .redin := by
      rw [List.getElem?_drop, ← hget]
      congr 1
      omega
    exact h.pipe_sides.2 (List.mem_of_getElem? hmem)

/-- A `>` is after every pipe. -/
theorem Accepted.redout_gt (h : Accepted ri ro p tokens) (hi : i < countPipe tokens)
    (hbefore : before tokens j = some .redout) : pipeAt tokens i < j := by
  cases j with
  | zero => exact absurd hbefore (by simp [before])
  | succ j =>
    have hget : tokens[j]? = some .redout := hbefore
    have hpipe := pipeAt_get hi
    rw [split_at_pipe hpipe] at h
    by_contra hearly
    have hmem : (tokens.take (pipeAt tokens i))[j]? = some .redout := by
      rw [List.getElem?_take_of_lt (by omega), hget]
    exact h.pipe_sides.1 (List.mem_of_getElem? hmem)

/-- A redirection comes once. -/
theorem Accepted.before_inj (h : Accepted ri ro p tokens) (hop : op = .redin ∨ op = .redout)
    (hi : before tokens i = some op) (hj : before tokens j = some op) : i = j := by
  have hlt : ∀ {a b : Nat}, tokens[a]? = some op → tokens[b]? = some op → ¬ a < b := by
    intro a b ha hb hab
    have hmem : (tokens.drop (a + 1))[b - (a + 1)]? = some op := by
      rw [List.getElem?_drop, ← hb]
      congr 1
      omega
    have hacc := h
    rw [split_at_token ha] at hacc
    exact hacc.notMem_rest hop (List.mem_of_getElem? hmem)
  cases i with
  | zero => exact absurd hi (by simp [before])
  | succ i =>
    cases j with
    | zero => exact absurd hj (by simp [before])
    | succ j =>
      have hij := hlt hi hj
      have hji := hlt hj hi
      omega

/-! ## What a stage has -/

theorem stageRange_single (h : countPipe tokens = 0) : stageRange tokens i = (0, tokens.length) :=
  if_pos h

theorem stageRange_first (h : 0 < countPipe tokens) :
    stageRange tokens 0 = (0, pipeAt tokens 0) := by
  unfold stageRange
  rw [if_neg (by omega), if_pos rfl]

theorem stageRange_middle (hpos : 0 < i) (hi : i < countPipe tokens) :
    stageRange tokens i = (pipeAt tokens (i - 1) + 1, pipeAt tokens i) := by
  unfold stageRange
  rw [if_neg (by omega), if_neg (by omega), if_pos hi]

theorem stageRange_last (h : 0 < countPipe tokens) : stageRange tokens (countPipe tokens) =
    (pipeAt tokens (countPipe tokens - 1), tokens.length) := by
  unfold stageRange
  rw [if_neg (by omega), if_neg (by omega), if_neg (Nat.lt_irrefl _)]

/-- Where a stage is: the only one, the first, one in the middle, or the last. -/
inductive StagePlace (tokens : List Token) : Nat → Nat × Nat → Prop
  | single (h : countPipe tokens = 0) : StagePlace tokens 0 (0, tokens.length)
  | first (h : 0 < countPipe tokens) : StagePlace tokens 0 (0, pipeAt tokens 0)
  | middle {k : Nat} (h : k + 1 < countPipe tokens) :
      StagePlace tokens (k + 1) (pipeAt tokens k + 1, pipeAt tokens (k + 1))
  | last {k : Nat} (h : countPipe tokens = k + 1) :
      StagePlace tokens (k + 1) (pipeAt tokens k, tokens.length)

theorem stagePlace (hi : i ≤ countPipe tokens) : StagePlace tokens i (stageRange tokens i) := by
  cases i with
  | zero =>
    rcases Nat.eq_zero_or_pos (countPipe tokens) with hnone | hpos
    · rw [stageRange_single hnone]
      exact .single hnone
    · rw [stageRange_first hpos]
      exact .first hpos
  | succ k =>
    rcases Nat.lt_or_eq_of_le hi with hlt | heq
    · rw [stageRange_middle (Nat.succ_pos k) hlt]
      exact .middle hlt
    · have hlast : stageRange tokens (countPipe tokens) =
          (pipeAt tokens (countPipe tokens - 1), tokens.length) := stageRange_last (by omega)
      rw [← heq] at hlast
      rw [hlast]
      exact .last heq.symm

theorem mem_stagePositions : j ∈ stagePositions tokens i ↔
    (stageRange tokens i).1 ≤ j ∧ j < (stageRange tokens i).2 := by
  unfold stagePositions
  rw [List.mem_range'_1]
  omega

/-- An accepted line that is not empty starts with a word. -/
theorem isWord_zero (hne : tokens ≠ []) (h : syntaxCheck tokens = .success) :
    isWord tokens 0 = true := by
  cases tokens with
  | nil => exact absurd rfl hne
  | cons t l =>
    cases t with
    | word value => rfl
    | _ => exact absurd h (by simp [syntaxCheck, syntaxLoop])

theorem not_isWord_pipe (h : i < countPipe tokens) : isWord tokens (pipeAt tokens i) = false := by
  unfold isWord wordOf
  rw [pipeAt_get h]
  rfl

/-- A stage has a word in front. -/
theorem stage_has_argument (hne : tokens ≠ []) (h : syntaxCheck tokens = .success)
    (hi : i ≤ countPipe tokens) : arguments tokens (stagePositions tokens i) ≠ [] := by
  have hzero := isWord_zero hne h
  have hacc := accepted_of_syntaxCheck h
  have hlen : 0 < tokens.length := List.length_pos_of_ne_nil hne
  -- the word after a pipe
  have hafter : ∀ {j}, j < countPipe tokens → isArgument tokens (pipeAt tokens j + 1) = true := by
    intro j hj
    have hword := hacc.isWord_after (pipeAt_get hj) (Or.inr (Or.inr rfl))
    have hbefore : before tokens (pipeAt tokens j + 1) = some .pipe := pipeAt_get hj
    simp [isArgument, hword, hbefore]
  have hfirst : isArgument tokens 0 = true := by
    simp [isArgument, hzero, before]
  have hmem : ∃ j, ((stageRange tokens i).1 ≤ j ∧ j < (stageRange tokens i).2) ∧
      isArgument tokens j = true := by
    have hplace := stagePlace hi
    generalize stageRange tokens i = range at hplace ⊢
    cases hplace with
    | single hnone => exact ⟨0, ⟨Nat.le_refl 0, hlen⟩, hfirst⟩
    | first hpos =>
      refine ⟨0, ⟨Nat.le_refl 0, Nat.pos_of_ne_zero fun heq => ?_⟩, hfirst⟩
      have hpipe := not_isWord_pipe hpos
      have heq : pipeAt tokens 0 = 0 := heq
      rw [heq, hzero] at hpipe
      exact absurd hpipe (by decide)
    | @middle k hlt =>
      have hword := hacc.isWord_after (pipeAt_get (Nat.lt_of_succ_lt hlt)) (Or.inr (Or.inr rfl))
      refine ⟨pipeAt tokens k + 1, ⟨Nat.le_refl _, ?_⟩, hafter (Nat.lt_of_succ_lt hlt)⟩
      refine Nat.lt_of_le_of_ne (pipeAt_lt (Nat.lt_succ_self k) hlt) fun heq => ?_
      rw [heq, not_isWord_pipe hlt] at hword
      exact absurd hword (by decide)
    | @last k heq =>
      have hlt : k < countPipe tokens := by omega
      have hword := hacc.isWord_after (pipeAt_get hlt) (Or.inr (Or.inr rfl))
      obtain ⟨value, hget⟩ := get_of_isWord hword
      exact ⟨pipeAt tokens k + 1, ⟨Nat.le_succ _, (List.getElem?_eq_some_iff.mp hget).1⟩,
        hafter hlt⟩
  obtain ⟨j, hj, harg⟩ := hmem
  exact List.ne_nil_of_mem (List.mem_filter.mpr ⟨mem_stagePositions.mpr hj, harg⟩)

/-- Only the first stage has a `<`. -/
theorem redin_first (hacc : Accepted ri ro p tokens) (hi : i ≤ countPipe tokens)
    (hmem : j ∈ stagePositions tokens i) (hfile : isFile .redin tokens j = true) : i = 0 := by
  have hsplit : isWord tokens j = true ∧ before tokens j = some .redin := by
    simpa [isFile] using hfile
  obtain ⟨hword, hbefore⟩ := hsplit
  obtain ⟨hstart, -⟩ := mem_stagePositions.mp hmem
  have hplace := stagePlace hi
  generalize stageRange tokens i = range at hplace hstart
  cases hplace with
  | single _ => rfl
  | first _ => rfl
  | @middle k hlt =>
    have hle := hacc.redin_le (Nat.lt_of_succ_lt hlt) hbefore
    exact absurd hstart (Nat.not_le_of_lt (Nat.lt_succ_of_le hle))
  | @last k heq =>
    have hlt : k < countPipe tokens := by omega
    have hle := hacc.redin_le hlt hbefore
    obtain rfl : pipeAt tokens k = j := Nat.le_antisymm hstart hle
    rw [not_isWord_pipe hlt] at hword
    exact absurd hword (by decide)

/-- Only the last stage has a `>`. -/
theorem redout_last (hacc : Accepted ri ro p tokens) (hi : i ≤ countPipe tokens)
    (hmem : j ∈ stagePositions tokens i) (hfile : isFile .redout tokens j = true) :
    i = countPipe tokens := by
  have hsplit : isWord tokens j = true ∧ before tokens j = some .redout := by
    simpa [isFile] using hfile
  obtain ⟨-, hstop⟩ := mem_stagePositions.mp hmem
  have hplace := stagePlace hi
  generalize stageRange tokens i = range at hplace hstop
  cases hplace with
  | single hnone => exact hnone.symm
  | first hpos => exact absurd (hacc.redout_gt hpos hsplit.2) (Nat.lt_asymm hstop)
  | middle hlt => exact absurd (hacc.redout_gt hlt hsplit.2) (Nat.lt_asymm hstop)
  | last heq => exact heq.symm

theorem filter_length_le_one {l : List Nat} {q : Nat → Bool} (hl : l.Nodup)
    (hq : ∀ a b, q a = true → q b = true → a = b) : (l.filter q).length ≤ 1 := by
  have hnodup : (l.filter q).Nodup := hl.filter q
  match hfilter : l.filter q with
  | [] => exact Nat.zero_le 1
  | [a] => exact Nat.le_refl 1
  | a :: b :: rest =>
    have ha : a ∈ l.filter q := hfilter ▸ List.mem_cons_self
    have hb : b ∈ l.filter q := hfilter ▸ List.mem_cons_of_mem _ List.mem_cons_self
    rw [hfilter] at hnodup
    have hab := hq a b (List.mem_filter.mp ha).2 (List.mem_filter.mp hb).2
    exact absurd (hab ▸ List.mem_cons_self) (List.nodup_cons.mp hnodup).1

theorem file_once (hacc : Accepted ri ro p tokens) (hop : op = .redin ∨ op = .redout) :
    ((stagePositions tokens i).filter (isFile op tokens)).length ≤ 1 := by
  refine filter_length_le_one List.nodup_range' fun a b ha hb => ?_
  have ha' : isWord tokens a = true ∧ before tokens a = some op := by simpa [isFile] using ha
  have hb' : isWord tokens b = true ∧ before tokens b = some op := by simpa [isFile] using hb
  exact hacc.before_inj hop ha'.2 hb'.2

/-! ## The words of all stages -/

theorem range_split {a b : Nat} (h : a < b) :
    List.range b = List.range a ++ a :: List.range' (a + 1) (b - (a + 1)) := by
  have hb : b = a + (b - (a + 1) + 1) := by omega
  have happend := List.range'_append_1 (s := 0) (m := a) (n := b - (a + 1) + 1)
  rw [List.range_eq_range', List.range_eq_range', ← List.range'_succ]
  conv_lhs => rw [hb, ← happend, Nat.zero_add]

/-- The words of the first stages are those up to a pipe. -/
theorem stages_words (hk : k < countPipe tokens) :
    ((List.range (k + 1)).flatMap fun i => (stagePositions tokens i).filter (isWord tokens)) =
      (List.range (pipeAt tokens k)).filter (isWord tokens) := by
  induction k with
  | zero =>
    have hstage : stagePositions tokens 0 = List.range (pipeAt tokens 0) := by
      unfold stagePositions
      rw [stageRange_first hk, List.range_eq_range']
      rfl
    rw [Nat.zero_add, List.range_one, List.flatMap_singleton, hstage]
  | succ k ih =>
    have hstage : stagePositions tokens (k + 1) = List.range' (pipeAt tokens k + 1)
        (pipeAt tokens (k + 1) - (pipeAt tokens k + 1)) := by
      unfold stagePositions
      rw [stageRange_middle (Nat.succ_pos k) hk]
      rfl
    rw [List.range_succ, List.flatMap_append, List.flatMap_singleton, ih (by omega), hstage,
      range_split (pipeAt_lt (Nat.lt_succ_self k) hk), List.filter_append,
      List.filter_cons_of_neg (by simp [not_isWord_pipe (Nat.lt_of_succ_lt hk)])]

theorem all_words : ((List.range (countPipe tokens + 1)).flatMap fun i =>
      (stagePositions tokens i).filter (isWord tokens)) =
    (List.range tokens.length).filter (isWord tokens) := by
  by_cases hnone : countPipe tokens = 0
  · have hstage : stagePositions tokens 0 = List.range tokens.length := by
      unfold stagePositions
      rw [stageRange_single hnone, List.range_eq_range']
      rfl
    rw [hnone, Nat.zero_add, List.range_one, List.flatMap_singleton, hstage]
  · obtain ⟨k, hk⟩ := Nat.exists_eq_succ_of_ne_zero hnone
    have hlt : k < countPipe tokens := by omega
    have hstage : stagePositions tokens (k + 1) =
        List.range' (pipeAt tokens k) (tokens.length - pipeAt tokens k) := by
      have hlast := stageRange_last (Nat.zero_lt_of_lt hlt)
      rw [hk] at hlast
      unfold stagePositions
      rw [hlast]
      rfl
    have hlen := pipeAt_lt_length hlt
    have hcons : List.range' (pipeAt tokens k) (tokens.length - pipeAt tokens k) =
        pipeAt tokens k ::
        List.range' (pipeAt tokens k + 1) (tokens.length - (pipeAt tokens k + 1)) := by
      rw [← List.range'_succ]
      congr 1
      omega
    rw [hk, List.range_succ, List.flatMap_append, List.flatMap_singleton, stages_words hlt, hstage,
      hcons, range_split hlen, List.filter_append]

/-- A word of a stage is an argument or a file. -/
theorem stage_words : (arguments tokens (stagePositions tokens i) ++
    files tokens (stagePositions tokens i)).Perm
      ((stagePositions tokens i).filter (isWord tokens)) := by
  have hperm := List.filter_append_perm (isArgument tokens)
      ((stagePositions tokens i).filter (isWord tokens))
  rw [List.filter_filter, List.filter_filter] at hperm
  refine List.Perm.trans (List.Perm.of_eq ?_) hperm
  congr 1
  · unfold arguments
    refine List.filter_congr fun j _ => ?_
    cases hword : isWord tokens j <;> simp [isArgument, hword]
  · unfold files
    refine List.filter_congr fun j _ => ?_
    cases hword : isWord tokens j <;> simp [isArgument, isFile, hword]

/-! ## The commands -/

/-- The arguments of a stage. -/
def stageArguments (tokens : List Token) (i : Nat) : List Str :=
  (arguments tokens (stagePositions tokens i)).filterMap (wordOf tokens)

/-- An argument is the word at its position. -/
theorem stageArguments_map : (stageArguments tokens i).map some =
    (arguments tokens (stagePositions tokens i)).map (wordOf tokens) := by
  have hall : ∀ j ∈ arguments tokens (stagePositions tokens i),
      (wordOf tokens j).isSome = true := by
    intro j hj
    have harg : isArgument tokens j = true := (List.mem_filter.mp hj).2
    unfold isArgument at harg
    exact (Bool.and_eq_true_iff.mp harg).1
  unfold stageArguments
  generalize arguments tokens (stagePositions tokens i) = positions at hall
  induction positions with
  | nil => rfl
  | cons j js ih =>
    obtain ⟨value, hvalue⟩ := Option.isSome_iff_exists.mp (hall j List.mem_cons_self)
    rw [List.filterMap_cons_some hvalue, List.map_cons, List.map_cons, hvalue,
      ih fun j' hj' => hall j' (List.mem_cons_of_mem _ hj')]

/-- The range of a stage does not start after a redirection. -/
theorem stageRange_bounds (hacc : Accepted ri ro p tokens) (hi : i ≤ countPipe tokens) :
    ((stageRange tokens i).1 ≤ (stageRange tokens i).2 ∧
      (stageRange tokens i).2 ≤ tokens.length) ∧
    before tokens (stageRange tokens i).1 ≠ some .redin ∧
      before tokens (stageRange tokens i).1 ≠ some .redout := by
  have hzero : ∀ op, before tokens 0 ≠ some op := fun op => by simp [before]
  have hplace := stagePlace hi
  generalize stageRange tokens i = range at hplace ⊢
  cases hplace with
  | single _ => exact ⟨⟨Nat.zero_le _, Nat.le_refl _⟩, hzero _, hzero _⟩
  | first hpos => exact ⟨⟨Nat.zero_le _, Nat.le_of_lt (pipeAt_lt_length hpos)⟩, hzero _, hzero _⟩
  | @middle k hlt =>
    have hbefore : before tokens (pipeAt tokens k + 1) = some .pipe :=
      pipeAt_get (Nat.lt_of_succ_lt hlt)
    refine ⟨⟨pipeAt_lt (Nat.lt_succ_self k) hlt, Nat.le_of_lt (pipeAt_lt_length hlt)⟩, ?_, ?_⟩
    · rw [hbefore]
      simp
    · rw [hbefore]
      simp
  | @last k heq =>
    have hlt : k < countPipe tokens := by omega
    have hword := not_isWord_pipe hlt
    refine ⟨⟨Nat.le_of_lt (pipeAt_lt_length hlt), Nat.le_refl _⟩, fun hin => ?_, fun hout => ?_⟩
    · exact absurd (hacc.paired _ (Or.inl hin)) (by simp [hword])
    · exact absurd (hacc.paired _ (Or.inr hout)) (by simp [hword])

/-- The files of a stage are opened, and its arguments are stored with a NULL after them. -/
theorem buildArgv_stage (hacc : Accepted ri ro p tokens) (hi : i ≤ countPipe tokens) :
    buildArgv tokens (stageRange tokens i).1 (stageRange tokens i).2 args =
      (do
        handleFiles tokens (files tokens (stagePositions tokens i))
        pure (argv (stageArguments tokens i) args)) := by
  obtain ⟨⟨hle, hlen⟩, hin, hout⟩ := stageRange_bounds hacc hi
  have hstop : (stageRange tokens i).1 + ((stageRange tokens i).2 - (stageRange tokens i).1) =
      (stageRange tokens i).2 := Nat.add_sub_cancel' hle
  have hloop := buildLoop_range (l := []) hacc.paired (hstop ▸ hlen)
  rw [hstop, decide_eq_false hin, decide_eq_false hout] at hloop
  rw [buildArgv_eq]
  unfold buildCommandPartial
  rw [hloop, stageWords, List.nil_append, Prog.bind_assoc]
  rfl

/-- The commands of an accepted line. -/
theorem commands_well_formed (hne : tokens ≠ []) (h : syntaxCheck tokens = .success) :
    (∀ i ≤ countPipe tokens,
      (∀ args, buildArgv tokens (stageRange tokens i).1 (stageRange tokens i).2 args =
          (do
            handleFiles tokens (files tokens (stagePositions tokens i))
            pure (argv (stageArguments tokens i) args)) ∧
        (∀ j < (stageArguments tokens i).length,
          argv (stageArguments tokens i) args j = (stageArguments tokens i)[j]?) ∧
        argv (stageArguments tokens i) args (stageArguments tokens i).length = none) ∧
      stageArguments tokens i ≠ [] ∧
      ((stagePositions tokens i).filter (isFile .redin tokens)).length ≤ (if i = 0 then 1 else 0) ∧
      ((stagePositions tokens i).filter (isFile .redout tokens)).length ≤
        if i = countPipe tokens then 1 else 0) ∧
    ((List.range (countPipe tokens + 1)).flatMap fun i =>
        arguments tokens (stagePositions tokens i) ++ files tokens (stagePositions tokens i)).Perm
      ((List.range tokens.length).filter (isWord tokens)) := by
  have hacc := accepted_of_syntaxCheck h
  refine ⟨fun i hi => ⟨fun args => ?_, fun hnil => ?_, ?_, ?_⟩, ?_⟩
  · exact ⟨buildArgv_stage hacc hi, fun j hj => argv_lt hj, argv_length⟩
  · have hmap : (arguments tokens (stagePositions tokens i)).map (wordOf tokens) = [] := by
      rw [← stageArguments_map, hnil]
      rfl
    exact stage_has_argument hne h hi (List.map_eq_nil_iff.mp hmap)
  · by_cases hi0 : i = 0
    · rw [if_pos hi0]
      exact file_once hacc (Or.inl rfl)
    · rw [if_neg hi0, Nat.le_zero, List.length_eq_zero_iff, List.filter_eq_nil_iff]
      exact fun j hj hfile => hi0 (redin_first hacc hi hj hfile)
  · by_cases hlast : i = countPipe tokens
    · rw [if_pos hlast]
      exact file_once hacc (Or.inr rfl)
    · rw [if_neg hlast, Nat.le_zero, List.length_eq_zero_iff, List.filter_eq_nil_iff]
      exact fun j hj hfile => hlast (redout_last hacc hi hj hfile)
  · rw [← all_words]
    exact List.Perm.flatMap_left _ fun i _ => stage_words

/-- `a < f | b`. -/
theorem commands_well_formed_two :
    stageArguments [.word [97], .redin, .word [102], .pipe, .word [98]] 0 = [[97]] ∧
    ((List.range 2).flatMap fun i =>
      arguments [.word [97], .redin, .word [102], .pipe, .word [98]]
        (stagePositions [.word [97], .redin, .word [102], .pipe, .word [98]] i) ++
      files [.word [97], .redin, .word [102], .pipe, .word [98]]
        (stagePositions [.word [97], .redin, .word [102], .pipe, .word [98]] i)).Perm [0, 2, 4] :=
  ⟨by decide, (commands_well_formed (by decide) (by decide)).2⟩

end SnuSysProg.Shell
