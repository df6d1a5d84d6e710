import SnuSysProg.Decomment.Correct

/-
  `main` on its own output.

  A second run over what a first run printed stays in step with it (`again_step`): it is in the
  state of the first run, except that it is in `normalState` while the first run holds back a slash
  or reads a comment, and it prints what it reads. So it prints the text it was given and never
  enters a comment (`main_idempotent`).
-/

namespace SnuSysProg.Decomment

/-- Inside a comment of either kind. -/
def State.inComment : State → Bool
  | .insideOneLineComment => true
  | st => st.inBlockComment

/-- The state of the second run, from the state of the first. -/
def again : State → State
  | .slashReceiveInitially => .normalState
  | .insideOneLineComment => .normalState
  | .insideMultiLineComment => .normalState
  | .asteriskReceivedInitiallyInComment => .normalState
  | st => st

theorem again_inComment (st : State) : (again st).inComment = false := by
  cases st <;> rfl

/-- What a run does on a text that it prints unchanged, comment-free. -/
structure Echoes (st : State) (s : List Char) (st' : State) : Prop where
  printed : printed st s = s
  finalState : finalState st s = st'
  quiet : ∀ p, p <+: s → (Decomment.finalState st p).inComment = false

theorem Echoes.nil {st : State} (h : st.inComment = false) : Echoes st [] st := by
  refine ⟨rfl, rfl, fun p hp => ?_⟩
  rw [List.prefix_nil.mp hp]
  exact h

theorem Echoes.single {st : State} {c : Char} (hprint : executeAction st c = [c])
    (h : st.inComment = false) (h' : (transitionState st c).inComment = false) :
    Echoes st [c] (transitionState st c) := by
  refine ⟨?_, rfl, fun p hp => ?_⟩
  · change executeAction st c ++ [] = [c]
    rw [hprint]
    rfl
  · rcases List.prefix_cons_iff.mp hp with rfl | ⟨q, rfl, hq⟩
    · exact h
    · rw [List.prefix_nil.mp hq]
      exact h'

theorem Echoes.append {st st' st'' : State} {s t : List Char} (hs : Echoes st s st')
    (ht : Echoes st' t st'') : Echoes st (s ++ t) st'' := by
  refine ⟨?_, ?_, fun p hp => ?_⟩
  · rw [printed_append, hs.printed, hs.finalState, ht.printed]
  · rw [finalState_append, hs.finalState, ht.finalState]
  · rcases List.prefix_or_prefix_of_prefix hp (List.prefix_append s t) with hp' | ⟨q, rfl⟩
    · exact hs.quiet p hp'
    · rw [finalState_append, hs.finalState]
      exact ht.quiet q ((List.prefix_append_right_inj s).mp hp)

/-- A character that opens nothing is printed from `normalState`. -/
theorem echoes_normal {c : Char} (h : c ≠ '/') :
    Echoes .normalState [c] (transitionFromNormalState c) := by
  have hprint : executeAction .normalState c = [c] := by
    change executeActionFromNormalState c = [c]
    unfold executeActionFromNormalState
    rw [if_neg h]
    rfl
  refine Echoes.single hprint rfl ?_
  change (transitionFromNormalState c).inComment = false
  unfold transitionFromNormalState
  rw [if_neg h]
  split
  · rfl
  · split <;> rfl

/-- A held-back slash that opens no comment. -/
theorem slash_passes {c : Char} (hslash : c ≠ '/') (hstar : c ≠ '*') :
    executeAction .slashReceiveInitially c = ['/', c] ∧
      transitionState .slashReceiveInitially c = .normalState := by
  change executeActionFromSlashReceiveInitially c = _ ∧ transitionFromSlashReceiveInitially c = _
  unfold executeActionFromSlashReceiveInitially transitionFromSlashReceiveInitially
  rw [if_neg hslash, if_neg hstar, if_neg hslash, if_neg hstar]
  exact ⟨rfl, rfl⟩

/-- A slash and the next character, when they open no comment. -/
theorem echoes_slash {c : Char} (hslash : c ≠ '/') (hstar : c ≠ '*') :
    Echoes .normalState ['/', c] .normalState := by
  obtain ⟨hprint, hnext⟩ := slash_passes hslash hstar
  refine ⟨?_, hnext, fun p hp => ?_⟩
  · change [] ++ (executeAction .slashReceiveInitially c ++ []) = _
    rw [hprint]
    rfl
  · rcases List.prefix_cons_iff.mp hp with rfl | ⟨q, rfl, hq⟩
    · rfl
    · rcases List.prefix_cons_iff.mp hq with rfl | ⟨r, rfl, hr⟩
      · rfl
      · rw [List.prefix_nil.mp hr]
        change (transitionState .slashReceiveInitially c).inComment = false
        rw [hnext]
        rfl

/-- Where the first run is in a literal, both runs are, and print what they read. -/
theorem echoes_literal {st : State} (hst : again st = st) (hnormal : st ≠ .normalState) (c : Char) :
    Echoes st (executeAction st c) (again (transitionState st c)) := by
  have hcopy : executeAction st c = [c] ∧ again (transitionState st c) = transitionState st c := by
    cases st with
    | normalState => exact absurd rfl hnormal
    | slashReceiveInitially => exact absurd hst (by decide)
    | insideOneLineComment => exact absurd hst (by decide)
    | insideMultiLineComment => exact absurd hst (by decide)
    | asteriskReceivedInitiallyInComment => exact absurd hst (by decide)
    | insideSingleQuote =>
      refine ⟨rfl, ?_⟩
      change again (transitionFromInsideSingleQuote c) = transitionFromInsideSingleQuote c
      unfold transitionFromInsideSingleQuote
      split
      · rfl
      · split <;> rfl
    | insideDoubleQuote =>
      refine ⟨rfl, ?_⟩
      change again (transitionFromInsideDoubleQuote c) = transitionFromInsideDoubleQuote c
      unfold transitionFromInsideDoubleQuote
      split
      · rfl
      · split <;> rfl
    | escapeSeqInSingleQuote => exact ⟨rfl, rfl⟩
    | escapeSeqInDoubleQuote => exact ⟨rfl, rfl⟩
  obtain ⟨hprint, hagain⟩ := hcopy
  rw [hprint, hagain]
  have hfree := again_inComment (transitionState st c)
  rw [hagain] at hfree
  exact Echoes.single hprint (hst ▸ again_inComment st) hfree

/-- Inside a comment only newlines are printed, and the second run stays in `normalState`. -/
theorem echoes_comment {st : State} {c : Char}
    (hprint : executeAction st c = if c = '\n' then ['\n'] else [])
    (hnext : again (transitionState st c) = .normalState) :
    Echoes .normalState (executeAction st c) (again (transitionState st c)) := by
  rw [hprint, hnext]
  split
  · exact echoes_normal (by decide)
  · exact Echoes.nil rfl

/-- **The two runs stay in step**: what the first run prints for a character takes the second run
    from its state to its state, and is printed again. -/
theorem again_step (st : State) (c : Char) :
    Echoes (again st) (executeAction st c) (again (transitionState st c)) := by
  cases st with
  | normalState =>
    by_cases hslash : c = '/'
    · subst hslash
      exact Echoes.nil rfl
    · have hprint : executeAction .normalState c = [c] := if_neg hslash
      have hagain : again (transitionState .normalState c) = transitionFromNormalState c := by
        change again (transitionFromNormalState c) = _
        unfold transitionFromNormalState
        rw [if_neg hslash]
        split
        · rfl
        · split <;> rfl
      rw [hprint, hagain]
      exact echoes_normal hslash
  | slashReceiveInitially =>
    by_cases hslash : c = '/'
    · subst hslash
      exact echoes_normal (by decide)
    · by_cases hstar : c = '*'
      · subst hstar
        exact echoes_normal (by decide)
      · obtain ⟨hprint, hnext⟩ := slash_passes hslash hstar
        rw [hprint, hnext]
        exact echoes_slash hslash hstar
  | insideOneLineComment =>
    refine echoes_comment rfl ?_
    change again (transitionFromInsideOneLineComment c) = _
    unfold transitionFromInsideOneLineComment
    split <;> rfl
  | insideMultiLineComment =>
    refine echoes_comment rfl ?_
    change again (transitionFromInsideMultiLineComment c) = _
    unfold transitionFromInsideMultiLineComment
    split <;> rfl
  | asteriskReceivedInitiallyInComment =>
    refine echoes_comment rfl ?_
    change again (transitionFromAsteriskReceivedInitiallyInComment c) = _
    unfold transitionFromAsteriskReceivedInitiallyInComment
    split
    · rfl
    · split <;> rfl
  | insideSingleQuote => exact echoes_literal rfl (by decide) c
  | insideDoubleQuote => exact echoes_literal rfl (by decide) c
  | escapeSeqInSingleQuote => exact echoes_literal rfl (by decide) c
  | escapeSeqInDoubleQuote => exact echoes_literal rfl (by decide) c

/-- Over a whole text. -/
theorem again_run (st : State) (s : List Char) :
    Echoes (again st) (printed st s) (again (finalState st s)) := by
  induction s generalizing st with
  | nil => exact Echoes.nil (again_inComment st)
  | cons c s ih =>
    rw [printed, finalState_cons]
    exact (again_step st c).append (ih (transitionState st c))

/-- A second run writes the text again, succeeds, and is never inside a comment. -/
theorem main_idempotent (input : List Char) :
    (main (main input).stdout).stdout = (main input).stdout ∧
      (main (main input).stdout).exitCode = exitSuccess ∧
      ∀ p, p <+: (main input).stdout → (finalState .normalState p).inComment = false := by
  have hrun : Echoes .normalState (main input).stdout (again (finalState .normalState input)) := by
    rw [main_stdout]
    exact again_run .normalState input
  refine ⟨?_, ?_, hrun.quiet⟩
  · rw [main_stdout (main input).stdout, hrun.printed]
  · refine (main_succeeds ?_).1
    rw [hrun.finalState]
    cases finalState .normalState input <;> rfl

end SnuSysProg.Decomment
