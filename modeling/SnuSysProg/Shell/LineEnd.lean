import Mathlib.Data.List.TakeWhile
import SnuSysProg.Shell.Lexer

/-
  What `lex_line` reads of a line, and what it answers.

  A line is a string with its end in it, or `MAX_LINE_SIZE` characters at least. Its body is what
  stands before the end, and whether a quote is open there is a fold of its own over the body.
  `lexLine_classifies`: the answer comes within `maxLineSize + 1` rounds, without an access outside
  of the line or of `c_value`; it is the same for the line cut off after the characters that were
  read, and these two things, the end and the open quote, decide what it is.
-/

namespace SnuSysProg.Shell

/-- The characters before the end of the line. -/
def lineBody (line : List UInt8) : List UInt8 :=
  (line.take maxLineSize).takeWhile fun c => !isTerminator c

/-- The line ends within `MAX_LINE_SIZE` characters. -/
def LineEnds (line : List UInt8) : Prop := ∃ c ∈ line.take maxLineSize, isTerminator c = true

/-- The quote that is open after one more character. -/
def quoteAfter : Option UInt8 → UInt8 → Option UInt8
  | none, c => if c = dquoteChar ∨ c = quoteChar then some c else none
  | some q, c => if c = q then none else some q

/-- The quote that is open after these characters. -/
def openQuote (l : List UInt8) : Option UInt8 := l.foldl quoteAfter none

/-! ## Where the line ends -/

theorem lineBody_not_terminator (line : List UInt8) :
    ∀ c ∈ lineBody line, isTerminator c = false := by
  intro c hc
  simpa using List.mem_takeWhile_imp hc

/-- What stands before the first end of a line, and the rest. -/
theorem terminator_split {l : List UInt8} (h : ∃ c ∈ l, isTerminator c = true) :
    ∃ t rest, isTerminator t = true ∧
      (l.takeWhile fun c => !isTerminator c) ++ t :: rest = l := by
  obtain ⟨c, hc, hterm⟩ := h
  have hcut := List.takeWhile_append_dropWhile (p := fun c => !isTerminator c) (l := l)
  cases hdrop : l.dropWhile fun c => !isTerminator c with
  | nil =>
    have hall := List.dropWhile_eq_nil_iff.mp hdrop c hc
    simp [hterm] at hall
  | cons t rest =>
    have hne : (l.dropWhile fun c => !isTerminator c) ≠ [] := by
      rw [hdrop]
      exact List.cons_ne_nil t rest
    have ht := List.head_dropWhile_not (fun c => !isTerminator c) hne
    refine ⟨t, rest, by simpa [hdrop] using ht, ?_⟩
    rwa [hdrop] at hcut

/-- A line with an end is its body, the end, and the rest. -/
theorem LineEnds.split {line : List UInt8} (h : LineEnds line) :
    ∃ t rest, isTerminator t = true ∧ line = lineBody line ++ t :: rest ∧
      (lineBody line).length < maxLineSize := by
  obtain ⟨t, rest, ht, hcut⟩ := terminator_split h
  have hlen := congrArg List.length hcut
  rw [List.length_append, List.length_cons, List.length_take] at hlen
  refine ⟨t, rest ++ line.drop maxLineSize, ht, ?_, by rw [lineBody]; omega⟩
  calc line = line.take maxLineSize ++ line.drop maxLineSize :=
        (List.take_append_drop maxLineSize line).symm
    _ = lineBody line ++ t :: rest ++ line.drop maxLineSize := by rw [← hcut, lineBody, hcut]
    _ = lineBody line ++ t :: (rest ++ line.drop maxLineSize) := by
        rw [List.append_assoc, List.cons_append]

/-- Without an end in them, `q` are fewer characters than the line may have. -/
theorem LineEnds.length_lt {q rest : List UInt8} (h : LineEnds (q ++ rest))
    (hq : ∀ c ∈ q, isTerminator c = false) : q.length < maxLineSize := by
  obtain ⟨c, hc, hterm⟩ := h
  by_contra hlong
  rw [List.take_append_of_le_length (by omega)] at hc
  exact absurd hterm (by rw [hq c (List.mem_of_mem_take hc)]; exact Bool.false_ne_true)

/-- A line without an end is body as far as it is read. -/
theorem lineBody_of_not_lineEnds {line : List UInt8} (h : ¬ LineEnds line) :
    lineBody line = line.take maxLineSize := by
  apply List.takeWhile_eq_self_iff.mpr
  intro c hc
  have hterm : isTerminator c ≠ true := fun ht => h ⟨c, hc, ht⟩
  simpa using hterm

/-! ## Open quotes -/

/-- The quote that the lexer is in. -/
def LexState.quote : LexState → Option UInt8
  | .start => none
  | .inWord => none
  | .inDquote => some dquoteChar
  | .inQuote => some quoteChar

section
variable {m : Scan} {c q : UInt8}

theorem outside_quotes (hm : m.state.quote = none) : m.state = .start ∨ m.state = .inWord := by
  cases h : m.state with
  | start => exact Or.inl rfl
  | inWord => exact Or.inr rfl
  | _ => simp [h, LexState.quote] at hm

theorem char_inside (hm : m.state.quote = none) (hsp : isspace c = false)
    (ho : operator c = none) : m.char c = m.inside c := by
  rcases outside_quotes hm with h | h <;>
    simp only [Scan.char, h, hsp, ho, Bool.false_eq_true, if_false]

/-- A space or an operator. -/
theorem char_between (hm : m.state.quote = none)
    (hc : isspace c = true ∨ ∃ t, operator c = some t) : (m.char c).state.quote = none := by
  cases hsp : isspace c with
  | true => rcases outside_quotes hm with h | h <;> simp [Scan.char, h, hsp, LexState.quote]
  | false =>
    obtain ⟨t, ho⟩ := hc.resolve_left (by simp [hsp])
    rcases outside_quotes hm with h | h <;> simp [Scan.char, h, hsp, ho, LexState.quote]

theorem char_quoted (hm : m.state.quote = some q) (hc : c ≠ q) :
    m.char c = { m with word := m.word ++ [c] } := by
  cases h : m.state <;> simp only [h, LexState.quote, Option.some.injEq, reduceCtorEq] at hm
  · simp only [Scan.char, h, hm, if_neg hc]
  · simp only [Scan.char, h, hm, if_neg hc]

theorem char_closes (hm : m.state.quote = some q) : m.char q = { m with state := .inWord } := by
  cases h : m.state <;> simp only [h, LexState.quote, Option.some.injEq, reduceCtorEq] at hm
  · simp only [Scan.char, h, hm, if_true]
  · simp only [Scan.char, h, hm, if_true]

theorem quote_inside : (m.inside c).state.quote = quoteAfter none c := by
  have hquotes : quoteChar ≠ dquoteChar := by decide
  rw [Scan.inside, quoteAfter]
  by_cases hd : c = dquoteChar
  · simp [hd, LexState.quote]
  by_cases hq : c = quoteChar
  · simp only [hq, if_neg hquotes, if_true, or_true]
    rfl
  · simp [hd, hq, LexState.quote]

/-- A quote is neither a space nor an operator. -/
theorem not_quote_between (hc : isspace c = true ∨ ∃ t, operator c = some t) :
    quoteAfter none c = none := by
  rcases hc with hsp | ⟨t, ho⟩
  · have hd : c ≠ dquoteChar := by
      rintro rfl
      exact absurd hsp (by decide)
    have hq : c ≠ quoteChar := by
      rintro rfl
      exact absurd hsp (by decide)
    simp [quoteAfter, hd, hq]
  · rcases operator_cases ho with ⟨rfl, -⟩ | ⟨rfl, -⟩ | ⟨rfl, -⟩ | ⟨rfl, -⟩ <;> rfl

/-- The lexer and the fold agree on the quote that is open. -/
theorem quote_char (m : Scan) (c : UInt8) :
    (m.char c).state.quote = quoteAfter m.state.quote c := by
  cases hm : m.state.quote with
  | some q =>
    by_cases hc : c = q
    · subst hc
      rw [char_closes hm, quoteAfter, if_pos rfl]
      rfl
    · rw [char_quoted hm hc, quoteAfter, if_neg hc]
      exact hm
  | none =>
    by_cases hc : isspace c = true ∨ ∃ t, operator c = some t
    · rw [char_between hm hc, not_quote_between hc]
    · have hsp : isspace c = false := by simpa using fun h => hc (Or.inl h)
      have ho : operator c = none := by
        rw [Option.eq_none_iff_forall_ne_some]
        exact fun t ht => hc (Or.inr ⟨t, ht⟩)
      rw [char_inside hm hsp ho, quote_inside]

end

theorem quote_scan (l : List UInt8) : (scan l).state.quote = openQuote l := by
  rw [scan, openQuote]
  exact (List.foldl_hom (fun m : Scan => m.state.quote) fun m c => (quote_char m c).symm).symm

theorem finish_answer (m : Scan) :
    m.finish.1 = if m.state.quote = none then LexResult.success else LexResult.qerror := by
  cases hm : m.state <;> simp [Scan.finish, hm, LexState.quote]

/-! ## The answer -/

/-- How many characters of the line are read. -/
def charsRead (line : List UInt8) : Nat := min maxLineSize ((lineBody line).length + 1)

/-- A string with its end in it, or a full buffer. -/
def IsLine (line : List UInt8) : Prop :=
  (∃ c ∈ line, isTerminator c = true) ∨ maxLineSize ≤ line.length

theorem IsLine.length_of_not_lineEnds {line : List UInt8} (h : IsLine line)
    (hends : ¬ LineEnds line) : maxLineSize ≤ line.length := by
  rcases h with ⟨c, hc, hterm⟩ | hlen
  · by_contra hshort
    have hall : line.take maxLineSize = line := List.take_of_length_le (by omega)
    exact hends ⟨c, by rwa [hall], hterm⟩
  · exact hlen

theorem lexLine_classifies {add : Nat → Bool} (hadd : ∀ n, add n = true) (value : Nat → UInt8)
    {line : List UInt8} (hline : IsLine line) :
    ∃ r s, lexLine add value line = .returns r s ∧
      lexLine add value (line.take (charsRead line)) = .returns r s ∧
      s.index = charsRead line ∧ s.tokens.length ≤ charsRead line ∧
      (r = .long ↔ ¬ LineEnds line) ∧
      (r = .qerror ↔ LineEnds line ∧ openQuote (lineBody line) ≠ none) ∧
      (r = .success ↔ LineEnds line ∧ openQuote (lineBody line) = none) := by
  have hp := lineBody_not_terminator line
  by_cases hends : LineEnds line
  · obtain ⟨t, rest, ht, hsplit, hlen⟩ := hends.split
    have hread : charsRead line = (lineBody line).length + 1 := Nat.min_eq_right hlen
    obtain ⟨r, s, hlex, htokens, hindex, hcount⟩ := lexLine_terminated hadd value hp ht hlen
    have hall : lexLine add value line = .returns r s :=
      (congrArg (lexLine add value) hsplit).trans (hlex rest)
    have hcut : lexLine add value (line.take (charsRead line)) = .returns r s := by
      have htake : line.take (charsRead line) = lineBody line ++ [t] := by
        rw [hread]
        calc line.take ((lineBody line).length + 1)
            = (lineBody line ++ t :: rest).take ((lineBody line).length + 1) :=
              congrArg (List.take _) hsplit
          _ = lineBody line ++ [t] := by
              rw [List.take_length_add_append, List.take_succ_cons, List.take_zero]
      rw [htake]
      exact hlex []
    have hr : r = if openQuote (lineBody line) = none then .success else .qerror := by
      rw [← quote_scan, ← finish_answer, ← htokens]
    refine ⟨r, s, hall, hcut, by rw [hindex, hread], by omega, ?_⟩
    by_cases hopen : openQuote (lineBody line) = none <;> simp [hr, hopen, hends]
  · have hbody := lineBody_of_not_lineEnds hends
    have hlen : (lineBody line).length = maxLineSize := by
      rw [hbody, List.length_take, Nat.min_eq_left (hline.length_of_not_lineEnds hends)]
    have hread : charsRead line = maxLineSize := by rw [charsRead, hlen, Nat.min_eq_left (by omega)]
    obtain ⟨s, hlex, hindex, hcount⟩ := lexLine_long hadd value hp hlen
    refine ⟨.long, s, ?_, ?_, by rw [hindex, hread], by omega, ?_⟩
    · rw [← hlex (line.drop maxLineSize), hbody, List.take_append_drop]
    · rw [hread, ← hbody, ← hlex [], List.append_nil]
    · simp [hends]

/-- `lex_line` returns, and an accepted line has fewer tokens than it may have characters. -/
theorem lexLine_returns (hadd : ∀ n, add n = true) (value : Nat → UInt8) {line : List UInt8}
    (hline : IsLine line) : ∃ r s, lexLine add value line = .returns r s ∧
      (r = .success → s.tokens.length < maxLineSize) := by
  have hp := lineBody_not_terminator line
  by_cases hends : LineEnds line
  · obtain ⟨t, rest, ht, hsplit, hlen⟩ := hends.split
    obtain ⟨r, s, hlex, -, -, hcount⟩ := lexLine_terminated hadd value hp ht hlen
    exact ⟨r, s, (congrArg (lexLine add value) hsplit).trans (hlex rest),
      fun _ => Nat.lt_of_le_of_lt hcount hlen⟩
  · have hbody := lineBody_of_not_lineEnds hends
    have hlen : (lineBody line).length = maxLineSize := by
      rw [hbody, List.length_take, Nat.min_eq_left (hline.length_of_not_lineEnds hends)]
    obtain ⟨s, hlex, -⟩ := lexLine_long hadd value hp hlen
    refine ⟨.long, s, ?_, fun h => absurd h (by simp)⟩
    rw [← hlex (line.drop maxLineSize), hbody, List.take_append_drop]

/-- `"a` and a newline, and what comes after is not read. -/
theorem lexLine_classifies_open :
    ∃ s, lexLine (fun _ => true) (fun _ => 0) [dquoteChar, 97, newlineChar, 98] =
        .returns .qerror s ∧ s.index = 3 ∧ s.tokens.length ≤ 3 := by
  have hend : isTerminator newlineChar = true := rfl
  have hline : IsLine [dquoteChar, 97, newlineChar, 98] := Or.inl ⟨newlineChar, by simp, hend⟩
  have hends : LineEnds [dquoteChar, 97, newlineChar, 98] :=
    ⟨newlineChar, by simp [maxLineSize], hend⟩
  obtain ⟨r, s, hlex, -, hindex, hcount, -, hqerror, -⟩ :=
    lexLine_classifies (fun _ => rfl) (fun _ => 0) hline
  have hread : charsRead [dquoteChar, 97, newlineChar, 98] = 3 := by decide
  have hr : r = .qerror := hqerror.mpr ⟨hends, by decide⟩
  rw [hr] at hlex
  exact ⟨s, hlex, by rw [hindex, hread], by rwa [hread] at hcount⟩

end SnuSysProg.Shell
