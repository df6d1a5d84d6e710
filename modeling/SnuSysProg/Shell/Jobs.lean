import SnuSysProg.Shell.Grammar
import SnuSysProg.Shell.Program

/-
  Jobs: what a line asks for, without tokens and their positions.

  A `Job` is a pipeline of stages, where only the first may read a file and only the last may
  write one. The ranges of tokens that `fork_exec` and `iter_pipe_fork_exec` give to
  `build_command_partial` are the tokens of the stages, with a pipe in front of the last and a `&`
  behind it; so each child opens the files of its own stage and gets its own words
  (`firstChild_build`, `middleChild_build`, `lastChild_build`, `buildCommand_build`).
-/

namespace SnuSysProg.Shell
open SnuSysProg.Lib

/-! ## Stages -/

def Item.argument : Item → Option Str
  | .word value => some value
  | _ => none

def Item.input : Item → Option Str
  | .redin value => some value
  | _ => none

def Item.output : Item → Option Str
  | .redout value => some value
  | _ => none

/-- What the stage is executed with. -/
def Command.words (stage : Command) : List Str :=
  stage.name :: stage.items.filterMap Item.argument

def Command.inputs (stage : Command) : List Str := stage.items.filterMap Item.input

def Command.outputs (stage : Command) : List Str := stage.items.filterMap Item.output

/-- The files are opened in the order in which they stand in the stage. -/
def openFiles : List Item → ShellM Unit
  | [] => pure ()
  | .word _ :: items => openFiles items
  | .redin value :: items => do
    redinHandler value
    openFiles items
  | .redout value :: items => do
    redoutHandler value
    openFiles items

/-- What a child does to get its arguments. -/
def Command.build (stage : Command) : ShellM (List Str) := do
  openFiles stage.items
  pure stage.words

/-- A pipeline as it is meant: at most one file to read, for the first stage, and at most one to
    write, for the last. -/
structure Job where
  first : Command
  later : List Command
  background : Bool
  inputs_first : first.inputs.length ≤ 1
  inputs_later : ∀ stage ∈ later, stage.inputs = []
  outputs_front : ∀ stage ∈ (first :: later).dropLast, stage.outputs = []
  outputs_last : ((first :: later).flatMap Command.outputs).length ≤ 1

def Job.stages (job : Job) : List Command := job.first :: job.later

def Job.tokens (job : Job) : List Token := commandLine job.stages job.background

/-- The file of the `<`. -/
def Job.input (job : Job) : Option Str := job.first.inputs.head?

/-- The file of the `>`. -/
def Job.output (job : Job) : Option Str := (job.stages.flatMap Command.outputs).head?

variable {job : Job} {stage : Command} {items : List Item} {stages front : List Command}
  {args : List Str} {l tokens : List Token} {bg : Bool} {op : Token}

/-! ## The tokens of a job -/

theorem count_redin_items :
    (itemTokens items).count .redin = (items.filterMap Item.input).length := by
  induction items with
  | nil => rfl
  | cons item items ih =>
    rw [itemTokens, List.flatMap_cons, List.count_append, ← itemTokens, ih]
    cases item with
    | word value => exact Nat.zero_add _
    | redin value => exact Nat.add_comm 1 _
    | redout value => exact Nat.zero_add _

theorem count_redout_items :
    (itemTokens items).count .redout = (items.filterMap Item.output).length := by
  induction items with
  | nil => rfl
  | cons item items ih =>
    rw [itemTokens, List.flatMap_cons, List.count_append, ← itemTokens, ih]
    cases item with
    | word value => exact Nat.zero_add _
    | redin value => exact Nat.zero_add _
    | redout value => exact Nat.add_comm 1 _

theorem count_pipe_items : (itemTokens items).count .pipe = 0 := by
  induction items with
  | nil => rfl
  | cons item items ih =>
    rw [itemTokens, List.flatMap_cons, List.count_append, ← itemTokens, ih]
    cases item <;> rfl

theorem count_redin_stage : stage.tokens.count .redin = stage.inputs.length := count_redin_items

theorem count_redout_stage : stage.tokens.count .redout = stage.outputs.length := count_redout_items

theorem count_pipe_stage : stage.tokens.count .pipe = 0 := count_pipe_items

theorem redin_notMem_stage (h : stage.inputs = []) : Token.redin ∉ stage.tokens := by
  rw [← List.count_eq_zero, count_redin_stage, h, List.length_nil]

theorem redout_notMem_stage (h : stage.outputs = []) : Token.redout ∉ stage.tokens := by
  rw [← List.count_eq_zero, count_redout_stage, h, List.length_nil]

theorem notMem_laterStages (hop : op ≠ .pipe) (h : ∀ stage ∈ stages, op ∉ stage.tokens) :
    op ∉ laterStages stages := by
  intro hmem
  obtain ⟨stage, hstage, hmem⟩ := List.mem_flatMap.mp hmem
  exact (List.mem_cons.mp hmem).elim hop (h stage hstage)

theorem count_redout_laterStages :
    (laterStages stages).count .redout = (stages.flatMap Command.outputs).length := by
  induction stages with
  | nil => rfl
  | cons stage stages ih =>
    rw [laterStages_cons, List.count_cons_of_ne (by simp), List.count_append, ih,
      count_redout_stage, List.flatMap_cons, List.length_append]

theorem count_pipe_laterStages : (laterStages stages).count .pipe = stages.length := by
  induction stages with
  | nil => rfl
  | cons stage stages ih =>
    rw [laterStages_cons, List.count_cons_self, List.count_append, count_pipe_stage, ih,
      Nat.zero_add, List.length_cons]

theorem Job.countPipe_tokens : countPipe job.tokens = job.later.length := by
  unfold countPipe Job.tokens Job.stages
  rw [count_commandLine (by simp), count_pipe_stage, count_pipe_laterStages, Nat.zero_add]

theorem Job.accepted : syntaxCheck job.tokens = .success := by
  refine Grammar.accepted ?_ (fun s hs => redin_notMem_stage (job.inputs_later s hs)) ?_
    fun s hs => redout_notMem_stage (job.outputs_front s hs)
  · have hlater : Token.redin ∉ laterStages job.later :=
      notMem_laterStages (by simp) fun s hs => redin_notMem_stage (job.inputs_later s hs)
    rw [count_commandLine (by simp), List.count_eq_zero_of_not_mem hlater, count_redin_stage]
    exact job.inputs_first
  · have houtputs := job.outputs_last
    rw [List.flatMap_cons, List.length_append] at houtputs
    rw [count_commandLine (by simp), count_redout_laterStages, count_redout_stage]
    exact houtputs

theorem bg_notMem_stage : Token.bg ∉ stage.tokens := by
  intro hmem
  obtain heq | hmem := List.mem_cons.mp hmem
  · exact absurd heq (by simp)
  · obtain ⟨item, -, hitem⟩ := List.mem_flatMap.mp hmem
    cases item <;> simp [Item.tokens] at hitem

theorem Job.checkBg_tokens : checkBg job.tokens = job.background := by
  have hlater : Token.bg ∉ laterStages job.later :=
    notMem_laterStages (by simp) fun _ _ => bg_notMem_stage
  unfold checkBg Job.tokens Job.stages
  rw [commandLine_cons, Bool.eq_iff_iff, List.contains_iff_mem, List.mem_append, List.mem_append]
  unfold Shell.background
  constructor
  · rintro ((hmem | hmem) | hmem)
    · exact absurd hmem bg_notMem_stage
    · exact absurd hmem hlater
    · by_contra hbg
      rw [if_neg hbg] at hmem
      exact absurd hmem List.not_mem_nil
  · intro hbg
    rw [if_pos hbg]
    exact Or.inr List.mem_cons_self

/-! ## What `build_command_partial` makes of them -/

theorem buildLoop_items : buildLoop false false args (itemTokens items ++ l) =
    (do
      openFiles items
      buildLoop false false (args ++ items.filterMap Item.argument) l) := by
  induction items generalizing args with
  | nil =>
    rw [List.filterMap_nil, List.append_nil]
    rfl
  | cons item items ih =>
    cases item with
    | word value =>
      rw [List.filterMap_cons_some (rfl : (Item.word value).argument = some value),
        List.append_cons]
      exact ih
    | redin value =>
      rw [List.filterMap_cons_none (rfl : (Item.redin value).argument = none), openFiles,
        Prog.bind_assoc, ← ih]
      rfl
    | redout value =>
      rw [List.filterMap_cons_none (rfl : (Item.redout value).argument = none), openFiles,
        Prog.bind_assoc, ← ih]
      rfl

theorem buildLoop_stage (bg : Bool) : buildLoop false false [] (stage.tokens ++ background bg) =
    stage.build := by
  have hend : ∀ args : List Str, buildLoop false false args (background bg) = pure args := by
    intro args
    cases bg <;> rfl
  have hname : buildLoop false false [] (stage.tokens ++ background bg) =
      buildLoop false false [stage.name] (itemTokens stage.items ++ background bg) := rfl
  rw [hname, buildLoop_items, hend]
  rfl

theorem slice_middle {a b c : List Token} :
    slice (a ++ b ++ c) a.length (a ++ b).length = b := by
  unfold slice
  rw [List.take_left, List.drop_left]

theorem pipeIndices_append {a b : List Token} :
    pipeIndices (a ++ b) = pipeIndices a ++ (pipeIndices b).map (a.length + ·) := by
  unfold pipeIndices
  rw [List.length_append, List.range_add, List.filter_append, List.filter_map]
  congr 1
  · refine List.filter_congr fun i hi => ?_
    rw [List.getElem?_append_left (List.mem_range.mp hi)]
  · congr 1
    refine List.filter_congr fun i _ => ?_
    rw [Function.comp_apply, List.getElem?_append_right (Nat.le_add_right _ _),
      Nat.add_sub_cancel_left]

/-- The pipe after as many pipes as there are before it. -/
theorem index_pipe {a b : List Token} {pipeFds : List (Int × Int)} {i : Nat}
    (hi : countPipe a = i) :
    (Pipeline.mk (a ++ .pipe :: b) pipeFds (pipeIndices (a ++ .pipe :: b))).index i = a.length := by
  unfold Pipeline.index
  have hfirst : pipeIndices (.pipe :: b) = 0 :: (pipeIndices b).map (1 + ·) :=
    pipeIndices_append (a := [.pipe])
  have hlen : (pipeIndices a).length = i := pipeIndices_length.trans hi
  rw [pipeIndices_append, hfirst, List.map_cons, List.getD_eq_getElem?_getD,
    List.getElem?_append_right (Nat.le_of_eq hlen), hlen, Nat.sub_self]
  rfl

/-! ## Where the stages are -/

/-- The stages in front of another one. -/
def frontStages (stages : List Command) : List Token :=
  stages.flatMap fun stage => stage.tokens ++ [.pipe]

theorem frontStages_snoc :
    frontStages (front ++ [stage]) = frontStages front ++ stage.tokens ++ [.pipe] := by
  unfold frontStages
  rw [List.flatMap_append, List.flatMap_singleton, List.append_assoc]

theorem count_pipe_frontStages : countPipe (frontStages front) = front.length := by
  unfold countPipe
  induction front with
  | nil => rfl
  | cons stage front ih =>
    rw [frontStages, List.flatMap_cons, List.count_append, ← frontStages, ih, List.count_append,
      count_pipe_stage, List.length_cons, Nat.zero_add, List.count_singleton_self, Nat.add_comm]

theorem commandLine_split : commandLine (front ++ stage :: stages) bg =
    frontStages front ++ stage.tokens ++ (laterStages stages ++ background bg) := by
  induction front with
  | nil =>
    rw [List.nil_append, commandLine_cons, List.append_assoc]
    rfl
  | cons s front ih =>
    obtain ⟨next, rest, hrest⟩ : ∃ next rest, front ++ stage :: stages = next :: rest := by
      cases front with
      | nil => exact ⟨stage, stages, rfl⟩
      | cons next front => exact ⟨next, front ++ stage :: stages, rfl⟩
    rw [hrest, commandLine_cons] at ih
    rw [List.cons_append, hrest, commandLine_cons, laterStages_cons, frontStages,
      List.flatMap_cons, ← frontStages, List.append_assoc, List.cons_append, ih]
    simp only [List.append_assoc, List.cons_append, List.nil_append]

/-! ## The tokens of each child -/

/-- The arrays of the pipeline. -/
def Job.pipeline (job : Job) (pipeFds : List (Int × Int)) : Pipeline :=
  ⟨job.tokens, pipeFds, pipeIndices job.tokens⟩

variable {pipeFds : List (Int × Int)} {next before : Command}

/-- The pipe behind a stage that is not the last. -/
theorem Job.index_behind (h : job.stages = front ++ stage :: next :: stages) :
    (job.pipeline pipeFds).index front.length = (frontStages front ++ stage.tokens).length := by
  have htokens : job.tokens = frontStages front ++ stage.tokens ++
      .pipe :: (next.tokens ++ laterStages stages ++ Shell.background job.background) := by
    unfold Job.tokens
    rw [h, commandLine_split, laterStages_cons, List.cons_append]
  have hcount : countPipe (frontStages front ++ stage.tokens) = front.length := by
    have hfront : (frontStages front).count .pipe = front.length := count_pipe_frontStages
    unfold countPipe
    rw [List.count_append, hfront, count_pipe_stage, Nat.add_zero]
  unfold Job.pipeline
  rw [htokens]
  exact index_pipe hcount

/-- The first child of a pipeline. -/
theorem firstChild_build (h : job.stages = stage :: next :: stages) :
    buildCommandPartial job.tokens 0 ((job.pipeline pipeFds).index 0) = stage.build := by
  have hindex : (job.pipeline pipeFds).index ([] : List Command).length =
      (frontStages [] ++ stage.tokens).length := Job.index_behind h
  have hslice : slice job.tokens 0 stage.tokens.length = stage.tokens := by
    unfold Job.tokens
    rw [h, commandLine_cons, List.append_assoc]
    exact slice_middle (a := [])
  unfold buildCommandPartial
  rw [show (job.pipeline pipeFds).index 0 = stage.tokens.length from hindex, hslice]
  exact (congrArg _ (List.append_nil _)).symm.trans (buildLoop_stage false)

/-- A child between the first and the last. -/
theorem middleChild_build (h : job.stages = front ++ before :: stage :: next :: stages) :
    buildCommandPartial job.tokens ((job.pipeline pipeFds).index front.length + 1)
      ((job.pipeline pipeFds).index (front.length + 1)) = stage.build := by
  have hbefore : (job.pipeline pipeFds).index front.length =
      (frontStages front ++ before.tokens).length := Job.index_behind h
  have hfront : job.stages = (front ++ [before]) ++ stage :: next :: stages := by
    rw [h, List.append_cons]
  have hbehind : (job.pipeline pipeFds).index (front ++ [before]).length =
      (frontStages (front ++ [before]) ++ stage.tokens).length := Job.index_behind hfront
  rw [List.length_append, List.length_singleton] at hbehind
  have hstart : (frontStages (front ++ [before])).length =
      (frontStages front ++ before.tokens).length + 1 := by
    rw [frontStages_snoc]
    exact List.length_append
  have hslice : slice job.tokens (frontStages (front ++ [before])).length
      (frontStages (front ++ [before]) ++ stage.tokens).length = stage.tokens := by
    unfold Job.tokens
    rw [hfront, commandLine_split]
    exact slice_middle
  unfold buildCommandPartial
  rw [hbefore, hbehind, ← hstart, hslice]
  exact (congrArg _ (List.append_nil _)).symm.trans (buildLoop_stage false)

/-- The last child, from the pipe in front of it. -/
theorem lastChild_build (h : job.stages = front ++ [before, stage]) :
    buildCommandPartial job.tokens ((job.pipeline pipeFds).index front.length) job.tokens.length =
      stage.build := by
  have hbefore : (job.pipeline pipeFds).index front.length =
      (frontStages front ++ before.tokens).length := Job.index_behind h
  have htokens : job.tokens = frontStages front ++ before.tokens ++
      .pipe :: (stage.tokens ++ Shell.background job.background) := by
    unfold Job.tokens
    rw [h, List.append_cons, commandLine_split, frontStages_snoc]
    simp only [laterStages, List.flatMap_nil, List.nil_append, List.append_assoc,
      List.cons_append]
  have hslice : slice job.tokens (frontStages front ++ before.tokens).length job.tokens.length =
      .pipe :: (stage.tokens ++ Shell.background job.background) := by
    unfold slice
    rw [List.take_length, htokens, List.drop_left]
  unfold buildCommandPartial
  rw [hbefore, hslice]
  exact buildLoop_stage _

/-- The child of a command without pipes. -/
theorem buildCommand_build (h : job.stages = [stage]) : buildCommand job.tokens = stage.build := by
  have htokens : job.tokens = stage.tokens ++ Shell.background job.background := by
    unfold Job.tokens
    rw [h, commandLine_cons, laterStages, List.flatMap_nil, List.append_nil]
  unfold buildCommand buildCommandPartial slice
  rw [List.take_length, List.drop_zero, htokens]
  exact buildLoop_stage _

end SnuSysProg.Shell
