import Mathlib.Data.List.Basic
import SnuSysProg.Decomment.Counters
import SnuSysProg.Decomment.Rules

/-
  What `main` writes, against the comment rules of the readme.

  `main` reads its input as `reading true` does (`printed_eq_reading`): after a slash that opens
  no comment the DFA goes back to `normalState` whatever the next character is, so a quote right
  after such a slash opens no literal. Hence `main` follows the readme exactly on the texts where
  that makes no difference to the comments, but for a comment that is open at the end and on
  whose line the counter has wrapped around to -1 (`main_follows_rules_iff`).
-/

namespace SnuSysProg.Decomment

/-! ## Comments -/

/-- A text that is empty or ends with a newline. -/
def NewlineEnded (s : List Char) : Prop := s = [] ∨ ∃ l, s = l ++ ['\n']

theorem NewlineEnded.suffix {s t : List Char} (h : NewlineEnded s) (ht : t <:+ s) :
    NewlineEnded t := by
  rcases h with rfl | ⟨l, rfl⟩
  · exact Or.inl (List.suffix_nil.mp ht)
  · rcases List.eq_nil_or_concat t with rfl | ⟨k, c, rfl⟩
    · exact Or.inl rfl
    · obtain ⟨p, hp⟩ := ht
      rw [List.concat_eq_append, ← List.append_assoc] at hp
      have hc := List.append_inj_right' hp rfl
      rw [List.concat_eq_append, hc]
      exact Or.inr ⟨k, rfl⟩

/-- A `//` comment prints nothing up to the next newline. -/
theorem printed_oneLine (s : List Char) :
    printed .insideOneLineComment s = printed .normalState (afterLine s) ∧
      ((finalState .insideOneLineComment s).inBlockComment =
        (finalState .normalState (afterLine s)).inBlockComment) := by
  induction s with
  | nil => exact ⟨rfl, rfl⟩
  | cons c s ih =>
    unfold afterLine
    by_cases hc : c = '\n'
    · subst hc
      exact ⟨rfl, rfl⟩
    · have ht : transitionState .insideOneLineComment c = .insideOneLineComment := if_neg hc
      have ha : executeAction .insideOneLineComment c = [] := if_neg hc
      rw [if_neg hc, printed, finalState_cons, ht, ha]
      exact ih

/-- Unless a slash follows, an asterisk inside a comment changes nothing. -/
theorem printed_asterisk {d : Char} (hd : d ≠ '/') (s : List Char) :
    printed .asteriskReceivedInitiallyInComment (d :: s) =
        printed .insideMultiLineComment (d :: s) ∧
      finalState .asteriskReceivedInitiallyInComment (d :: s) =
        finalState .insideMultiLineComment (d :: s) := by
  have ht : transitionState .asteriskReceivedInitiallyInComment d =
      transitionState .insideMultiLineComment d := by
    simp [transitionState, transitionFromAsteriskReceivedInitiallyInComment,
      transitionFromInsideMultiLineComment, hd]
  have ha : executeAction .asteriskReceivedInitiallyInComment d =
      executeAction .insideMultiLineComment d := rfl
  rw [printed, printed, finalState_cons, finalState_cons, ht, ha]
  exact ⟨rfl, rfl⟩

theorem newlines_cons (c : Char) (s : List Char) :
    newlines (c :: s) = executeAction .insideMultiLineComment c ++ newlines s := by
  by_cases hc : c = '\n'
  · subst hc
    rfl
  · have : executeAction .insideMultiLineComment c = [] := if_neg hc
    rw [this]
    simp [newlines, hc]

/-- Inside a `/*` comment, one character that does not start its end. -/
theorem printed_block_step {c d : Char} (h : ¬ (c = '*' ∧ d = '/')) (s : List Char) :
    printed .insideMultiLineComment (c :: d :: s) =
        executeAction .insideMultiLineComment c ++ printed .insideMultiLineComment (d :: s) ∧
      finalState .insideMultiLineComment (c :: d :: s) =
        finalState .insideMultiLineComment (d :: s) := by
  rw [printed, finalState_cons]
  by_cases hc : c = '*'
  · subst hc
    have hd : d ≠ '/' := fun he => h ⟨rfl, he⟩
    have ht : transitionState .insideMultiLineComment '*' =
        .asteriskReceivedInitiallyInComment := rfl
    rw [ht, (printed_asterisk hd s).1, (printed_asterisk hd s).2]
    exact ⟨rfl, rfl⟩
  · have ht : transitionState .insideMultiLineComment c = .insideMultiLineComment := if_neg hc
    rw [ht]
    exact ⟨rfl, rfl⟩

/-- A `/*` comment prints its newlines; the text after its `*/` is read from `normalState`. -/
theorem printed_block (s : List Char) :
    (∀ body rest, afterBlock s = some (body, rest) →
        printed .insideMultiLineComment s = newlines body ++ printed .normalState rest ∧
          finalState .insideMultiLineComment s = finalState .normalState rest) ∧
      (afterBlock s = none →
        printed .insideMultiLineComment s = newlines s ∧
          (finalState .insideMultiLineComment s).inBlockComment = true) := by
  fun_induction afterBlock s with
  | case1 => exact ⟨(fun _ _ h => by cases h), fun _ => ⟨rfl, rfl⟩⟩
  | case2 c =>
    refine ⟨(fun _ _ h => by cases h), fun _ => ?_⟩
    rw [newlines_cons]
    refine ⟨rfl, ?_⟩
    rw [finalState_cons]
    by_cases hc : c = '*'
    · subst hc
      rfl
    · have ht : transitionState .insideMultiLineComment c = .insideMultiLineComment := if_neg hc
      rw [ht]
      rfl
  | case3 c d s hcd =>
    obtain ⟨rfl, rfl⟩ := hcd
    refine ⟨fun body rest h => ?_, fun h => by cases h⟩
    cases h
    exact ⟨rfl, rfl⟩
  | case4 c d s hcd ih =>
    obtain ⟨hp, hf⟩ := printed_block_step hcd s
    rw [hp, hf]
    refine ⟨fun body rest h => ?_, fun h => ?_⟩
    · obtain ⟨⟨body', rest'⟩, hb, he⟩ := Option.map_eq_some_iff.mp h
      cases he
      obtain ⟨h1, h2⟩ := ih.1 body' rest' hb
      rw [h1, newlines_cons, List.append_assoc]
      exact ⟨rfl, h2⟩
    · obtain ⟨h1, h2⟩ := ih.2 (Option.map_eq_none_iff.mp h)
      rw [h1, newlines_cons c]
      exact ⟨rfl, h2⟩

/-! ## main reads with the slash rule -/

/-- The DFA state of a reader outside comments, with no slash held back. -/
inductive Stands : State → Mode → Prop
  | normal : Stands .normalState .outside
  | single : Stands .insideSingleQuote (.inLiteral '\'')
  | double : Stands .insideDoubleQuote (.inLiteral '"')
  | escapedSingle : Stands .escapeSeqInSingleQuote (.escaped '\'')
  | escapedDouble : Stands .escapeSeqInDoubleQuote (.escaped '"')

/-- Every character that does not start a comment or a held-back slash is printed at once, and
    the DFA and the reading move on together. -/
theorem stands_step {st : State} {m : Mode} (h : Stands st m) {c : Char}
    (hc : m = .outside → c ≠ '/') :
    executeAction st c = [c] ∧ Stands (transitionState st c) (m.next true c) := by
  cases h with
  | normal =>
    have hslash := hc rfl
    refine ⟨if_neg hslash, ?_⟩
    simp only [transitionState, transitionFromNormalState, Mode.next, isQuote, if_neg hslash]
    by_cases h1 : c = '\''
    · subst h1
      exact Stands.single
    · by_cases h2 : c = '"'
      · subst h2
        exact Stands.double
      · simpa [h1, h2] using Stands.normal
  | single =>
    refine ⟨rfl, ?_⟩
    simp only [transitionState, transitionFromInsideSingleQuote, Mode.next]
    split
    · exact Stands.normal
    · split
      · exact Stands.escapedSingle
      · exact Stands.single
  | double =>
    refine ⟨rfl, ?_⟩
    simp only [transitionState, transitionFromInsideDoubleQuote, Mode.next]
    split
    · exact Stands.normal
    · split
      · exact Stands.escapedDouble
      · exact Stands.double
  | escapedSingle => exact ⟨rfl, Stands.single⟩
  | escapedDouble => exact ⟨rfl, Stands.double⟩

/-- A comment seen from `normalState`: the DFA prints what replaces it and goes on after it. -/
theorem printed_comment {c : Char} {s : List Char} (h : opensComment (c :: s) = true) :
    (∀ rest, (commentAt (c :: s)).2 = some rest →
        printed .normalState (c :: s) = (commentAt (c :: s)).1 ++ printed .normalState rest ∧
          (finalState .normalState (c :: s)).inBlockComment =
            (finalState .normalState rest).inBlockComment) ∧
      ((commentAt (c :: s)).2 = none →
        printed .normalState (c :: s) = (commentAt (c :: s)).1 ∧
          (finalState .normalState (c :: s)).inBlockComment = true) := by
  cases s with
  | nil => cases h
  | cons d s =>
    simp only [opensComment, Bool.and_eq_true, Bool.or_eq_true, decide_eq_true_eq] at h
    obtain ⟨rfl, rfl | rfl⟩ := h
    · obtain ⟨hp, hf⟩ := printed_oneLine s
      refine ⟨fun rest hr => ?_, fun hr => by cases hr⟩
      cases hr
      exact ⟨congrArg (' ' :: ·) hp, hf⟩
    · obtain ⟨hsome, hnone⟩ := printed_block s
      have hnext : ('*' : Char) ≠ '/' := by decide
      simp only [commentAt, if_neg hnext]
      cases hb : afterBlock s with
      | none =>
        obtain ⟨hp, hf⟩ := hnone hb
        exact ⟨(fun rest hr => by cases hr), fun _ => ⟨congrArg (' ' :: ·) hp, hf⟩⟩
      | some p =>
        obtain ⟨hp, hf⟩ := hsome p.1 p.2 hb
        refine ⟨fun rest hr => ?_, fun hr => by cases hr⟩
        cases hr
        exact ⟨congrArg (' ' :: ·) hp, congrArg State.inBlockComment hf⟩

theorem suffix_cons_of (c : Char) {s t : List Char} (h : s <:+ t) : s <:+ c :: t :=
  h.trans (List.suffix_cons c t)

theorem afterLine_suffix (s : List Char) : afterLine s <:+ s := by
  induction s with
  | nil => exact List.suffix_refl _
  | cons c s ih =>
    unfold afterLine
    split
    · exact List.suffix_refl _
    · exact suffix_cons_of c ih

theorem afterBlock_suffix {s body rest : List Char} (h : afterBlock s = some (body, rest)) :
    rest <:+ s := by
  fun_induction afterBlock s generalizing body rest with
  | case1 => cases h
  | case2 => cases h
  | case3 c d s hcd =>
    cases h
    exact suffix_cons_of c (List.suffix_cons d _)
  | case4 c d s hcd ih =>
    obtain ⟨p, hp, he⟩ := Option.map_eq_some_iff.mp h
    cases he
    exact suffix_cons_of c (ih hp)

theorem commentAt_suffix {s rest : List Char} (h : (commentAt s).2 = some rest) : rest <:+ s := by
  match s with
  | [] => cases h
  | [_] => cases h
  | c :: d :: s =>
    refine suffix_cons_of c (suffix_cons_of d ?_)
    simp only [commentAt] at h
    by_cases hd : d = '/'
    · rw [if_pos hd] at h
      cases h
      exact afterLine_suffix s
    · rw [if_neg hd] at h
      cases hb : afterBlock s with
      | none =>
        rw [hb] at h
        cases h
      | some p =>
        rw [hb] at h
        cases h
        exact afterBlock_suffix hb

/-- On a newline-ended text the DFA prints what the reading with the slash rule writes, and ends
    in a `/*` comment exactly when the reading does. -/
theorem printed_eq_reading {st : State} {m : Mode} (h : Stands st m) {s : List Char}
    (hs : NewlineEnded s) :
    printed st s = (reading true m s).text ∧
      (finalState st s).inBlockComment = (reading true m s).unterminated := by
  induction hn : s.length using Nat.strongRecOn generalizing st m s with
  | _ n ih =>
    subst hn
    cases s with
    | nil =>
      rw [reading_nil]
      cases h <;> exact ⟨rfl, rfl⟩
    | cons c s =>
      cases hsees : m.sees (c :: s) with
      | true =>
        -- only a reader outside literals sees a comment
        have hopen := (sees_head hsees).2
        have hm : st = .normalState := by cases h <;> first | rfl | cases hsees
        subst hm
        obtain ⟨hsome, hnone⟩ := printed_comment hopen
        cases hr : (commentAt (c :: s)).2 with
        | none =>
          rw [reading_open hsees hr]
          exact hnone hr
        | some rest =>
          obtain ⟨hp, hf⟩ := hsome rest hr
          obtain ⟨ihp, ihf⟩ := ih rest.length (commentAt_length hr) Stands.normal
            (hs.suffix (commentAt_suffix hr)) rfl
          rw [reading_comment hsees hr, hp, hf, ihp, ihf]
          exact ⟨rfl, rfl⟩
      | false =>
        rw [reading_copy hsees]
        by_cases hslash : m = .outside ∧ c = '/'
        · -- a slash is held back, and printed with the next character
          obtain ⟨rfl, rfl⟩ := hslash
          cases h
          cases s with
          | nil =>
            rcases hs with hs | ⟨l, hs⟩
            · cases hs
            · have := congrArg List.getLast? hs
              simp at this
          | cons d s =>
            have hd : d ≠ '/' ∧ d ≠ '*' := by simpa [opensComment] using hsees
            have hd' : transitionState .slashReceiveInitially d = .normalState := by
              simp [transitionState, transitionFromSlashReceiveInitially, hd]
            have ha : executeAction .slashReceiveInitially d = ['/', d] := by
              simp [executeAction, executeActionFromSlashReceiveInitially, printToStdout, hd]
            obtain ⟨ihp, ihf⟩ := ih s.length (by simp only [List.length_cons]; omega)
              Stands.normal (hs.suffix (suffix_cons_of '/' (List.suffix_cons d s))) rfl
            have ht : transitionState .normalState '/' = .slashReceiveInitially := rfl
            have hn : Mode.outside.next true '/' = .taken := rfl
            rw [printed, finalState_cons, ht, printed, finalState_cons, hd', ha, hn,
              reading_copy rfl, ihp, ihf]
            exact ⟨rfl, rfl⟩
        · obtain ⟨ha, hstands⟩ := stands_step h (c := c) fun hm he => hslash ⟨hm, he⟩
          obtain ⟨ihp, ihf⟩ := ih s.length (Nat.lt_succ_self _) hstands
            (hs.suffix (List.suffix_cons c s)) rfl
          rw [printed, finalState_cons, ha, ihp, ihf]
          exact ⟨rfl, rfl⟩

/-! ## main and the readme -/

/-- `main` does on `input` what the readme's rules say: it writes the reference text and fails
    exactly when the reference ends inside a `/*` comment. -/
def FollowsRules (input : List Char) : Prop :=
  (main input).stdout = (reference input).text ∧
    ((main input).exitCode = exitFailure ↔ (reference input).unterminated = true)

/-- Where the comments of a text open, for a reader that takes the character after a slash along
    unread (`true`), or does not (`false`). -/
def commentOpenings (slashTakesNext : Bool) (s : List Char) : List Nat :=
  (reading slashTakesNext .outside s).openings

/-- The comment that is still open at the end has the line -1, the mark that none is open. -/
def LosesComment (input : List Char) : Prop :=
  ∃ q body, OpenedAt input q body ∧ lineOf (q.count '\n') = commentClosed ∧ OnlyStars body

/-- `main` fails exactly when the DFA ends inside a `/*` comment and its line is not the mark. -/
theorem main_fails_iff (input : List Char) :
    (main input).exitCode = exitFailure ↔
      (finalState .normalState input).inBlockComment = true ∧ ¬ LosesComment input := by
  by_cases hin : (finalState .normalState input).inBlockComment = true
  · obtain ⟨q, body, hopened⟩ := exists_openedAt hin
    rw [(main_reports hopened).1, and_iff_right hin]
    refine not_congr ⟨fun hcom => ⟨q, body, hopened, comLine_eq_closed.mp hcom⟩, ?_⟩
    rintro ⟨q', body', hopened', hlost⟩
    have hcounts := counts_foldl input
    rw [← hcounts.inside q body hopened, hcounts.inside q' body' hopened']
    exact comLine_eq_closed.mpr hlost
  · rw [(main_succeeds (Bool.eq_false_iff.mpr hin)).1]
    exact iff_of_false (by decide) fun h => hin h.1

/-- **When `main` follows the readme.** On a text that is empty or ends with a newline, it does
    so exactly when taking the character after a slash along unread leaves all comments where
    they were, and the line of a comment that is still open at the end is not -1. -/
theorem main_follows_rules_iff {input : List Char} (h : NewlineEnded input) :
    FollowsRules input ↔
      commentOpenings true input = commentOpenings false input ∧ ¬ LosesComment input := by
  obtain ⟨hp, hf⟩ := printed_eq_reading Stands.normal h
  obtain ⟨htext, hend⟩ := reading_text_eq_iff true false .outside .outside input
  have hlost : LosesComment input → (finalState .normalState input).inBlockComment = true :=
    fun ⟨_, _, hopened, _⟩ => hopened.inBlockComment
  unfold FollowsRules commentOpenings
  rw [main_stdout, main_fails_iff, hp, ← reading_eq_reference, htext]
  refine and_congr_right fun hsame => ?_
  rw [← hend hsame, ← hf]
  constructor
  · intro hfails hloses
    exact (hfails.mpr (hlost hloses)).2 hloses
  · intro hkeeps
    exact ⟨And.left, fun hin => ⟨hin, hkeeps⟩⟩

/-- A block comment with a newline in it, between two words. -/
theorem main_follows_rules_block : FollowsRules "a/*b\n*/c\n".toList := by
  refine (main_follows_rules_iff (Or.inr ⟨"a/*b\n*/c".toList, by decide⟩)).mpr ⟨?_, ?_⟩
  · simp [commentOpenings, reading, commentAt, Mode.next, opensComment, isQuote, afterBlock,
      Reading.comment, Reading.copy, Reading.empty]
  · rintro ⟨q, body, hopened, -⟩
    exact absurd hopened.inBlockComment (by decide)

/-- A quote after a slash that opens no comment: by the readme it opens a literal, and the slashes
    in it are no comment. -/
theorem main_slash_quote_diverges : ¬ FollowsRules "/\"//\"\n".toList := by
  have hmain : (main "/\"//\"\n".toList).stdout = "/\" \n".toList := by decide
  have href : (reference "/\"//\"\n".toList).text = "/\"//\"\n".toList := by
    simp [reference, opensComment, isQuote, literal, Reading.copy, Reading.empty]
  intro h
  have := hmain.symm.trans (h.1.trans href)
  exact absurd this (by decide)

end SnuSysProg.Decomment
