import Mathlib.Data.List.Induction
import SnuSysProg.Decomment.Idempotent

/-
  Line numbers.

  In every state the action for a newline prints one, and no action prints another. So the output
  has as many newlines as the input at every point, and a character that is copied stands on the
  line it came from; for a slash, which is printed with the next character, this rests on the slash
  being no newline (`main_keeps_lines`).

  The line in the error message is that of the `/*` that opened the comment, as long as an `int`
  can hold the lines of the text that comments open on (`main_reports_line_iff`).
-/

namespace SnuSysProg.Decomment

/-! ## Where the output comes from -/

/-- For each character that the action for the `i`-th character of a text prints, the position in
    the text of the character it is a copy of. The blank for a comment is a copy of none. -/
def origins (currentState : State) (i : Nat) (input : Char) : List (Option Nat) :=
  match currentState with
  | .normalState => if input = '/' then [] else [some i]
  | .slashReceiveInitially =>
    if input = '/' ∨ input = '*' then [none] else [some (i - 1), some i]
  | .insideOneLineComment => if input = '\n' then [some i] else []
  | .insideMultiLineComment => if input = '\n' then [some i] else []
  | .asteriskReceivedInitiallyInComment => if input = '\n' then [some i] else []
  | .insideSingleQuote => [some i]
  | .insideDoubleQuote => [some i]
  | .escapeSeqInSingleQuote => [some i]
  | .escapeSeqInDoubleQuote => [some i]

/-- The origins of what is printed from a state, for a text whose first character is the `i`-th. -/
def originsFrom : State → Nat → List Char → List (Option Nat)
  | _, _, [] => []
  | st, i, c :: s => origins st i c ++ originsFrom (transitionState st c) (i + 1) s

theorem originsFrom_append (st : State) (i : Nat) (s t : List Char) :
    originsFrom st i (s ++ t) =
      originsFrom st i s ++ originsFrom (finalState st s) (i + s.length) t := by
  induction s generalizing st i with
  | nil => rfl
  | cons c s ih =>
    rw [List.cons_append, originsFrom, ih, originsFrom, List.append_assoc, finalState_cons,
      List.length_cons, Nat.add_right_comm, Nat.add_assoc]

/-- What the action for one character may do. -/
inductive Acts (st : State) (c : Char) (i : Nat) : List Char → List (Option Nat) → Prop
  | copy (hst : st ≠ .slashReceiveInitially) : Acts st c i [c] [some i]
  | drop (hc : c ≠ '\n') (hst : st ≠ .slashReceiveInitially)
      (hwhy : st.inComment = true ∨ transitionState st c = .slashReceiveInitially) :
      Acts st c i [] []
  | blank (hc : c ≠ '\n') (hst : st = .slashReceiveInitially)
      (hopens : (transitionState st c).inComment = true) : Acts st c i [' '] [none]
  | release (hst : st = .slashReceiveInitially) : Acts st c i ['/', c] [some (i - 1), some i]

theorem acts_comment {st : State} {c : Char} {i : Nat} (hst : st ≠ .slashReceiveInitially)
    (hin : st.inComment = true) :
    Acts st c i (if c = '\n' then ['\n'] else []) (if c = '\n' then [some i] else []) := by
  by_cases hc : c = '\n'
  · subst hc
    exact .copy hst
  · rw [if_neg hc, if_neg hc]
    exact .drop hc hst (Or.inl hin)

theorem acts (st : State) (c : Char) (i : Nat) :
    Acts st c i (executeAction st c) (origins st i c) := by
  cases st with
  | normalState =>
    by_cases hc : c = '/'
    · subst hc
      exact .drop (by decide) (by decide) (Or.inr rfl)
    · have ha : executeAction .normalState c = [c] := if_neg hc
      have ho : origins .normalState i c = [some i] := if_neg hc
      rw [ha, ho]
      exact .copy (by decide)
  | slashReceiveInitially =>
    by_cases hopens : c = '/' ∨ c = '*'
    · have ho : origins .slashReceiveInitially i c = [none] := if_pos hopens
      rw [ho]
      obtain rfl | rfl := hopens
      · exact .blank (by decide) rfl rfl
      · exact .blank (by decide) rfl rfl
    · have ho : origins .slashReceiveInitially i c = [some (i - 1), some i] := if_neg hopens
      obtain ⟨hslash, hstar⟩ := not_or.mp hopens
      rw [ho, (slash_passes hslash hstar).1]
      exact .release rfl
  | insideOneLineComment => exact acts_comment (by decide) rfl
  | insideMultiLineComment => exact acts_comment (by decide) rfl
  | asteriskReceivedInitiallyInComment => exact acts_comment (by decide) rfl
  | insideSingleQuote => exact .copy (by decide)
  | insideDoubleQuote => exact .copy (by decide)
  | escapeSeqInSingleQuote => exact .copy (by decide)
  | escapeSeqInDoubleQuote => exact .copy (by decide)

/-! ## Lines of the output -/

/-- The line that position `i` of a text is on, the first being 0. -/
def newlinesBefore (s : List Char) (i : Nat) : Nat := (s.take i).count '\n'

/-- The character at `i` belongs to a comment: it is inside one, or it takes the DFA into one, or
    it is the slash before the character that does. -/
def InComment (s : List Char) (i : Nat) : Prop :=
  (finalState .normalState (s.take i)).inComment = true ∨
    (finalState .normalState (s.take (i + 1))).inComment = true ∨
    finalState .normalState (s.take (i + 1)) = .slashReceiveInitially ∧
      (finalState .normalState (s.take (i + 2))).inComment = true

/-- The character at `i` is the last one, a slash that may still open a comment. -/
def HeldBack (s : List Char) (i : Nat) : Prop :=
  i + 1 = s.length ∧ finalState .normalState s = .slashReceiveInitially

/-- The output `out` of the text `s`, with the origins of its characters. -/
structure KeepsLines (s out : List Char) (origins : List (Option Nat)) : Prop where
  newlines : out.count '\n' = s.count '\n'
  length : origins.length = out.length
  copies : ∀ k i, origins[k]? = some (some i) →
    i < s.length ∧ out[k]? = s[i]? ∧ newlinesBefore out k = newlinesBefore s i
  complete : ∀ i < s.length, InComment s i ∨ HeldBack s i ∨ ∃ k : Nat, origins[k]? = some (some i)

theorem newlinesBefore_append {s : List Char} {i : Nat} (t : List Char) (h : i ≤ s.length) :
    newlinesBefore (s ++ t) i = newlinesBefore s i := by
  unfold newlinesBefore
  rw [List.take_append_of_le_length h]

theorem newlinesBefore_length (s t : List Char) :
    newlinesBefore (s ++ t) s.length = s.count '\n' := by
  unfold newlinesBefore
  rw [List.take_left]

/-- What belongs to a comment still does when the text goes on. -/
theorem InComment.append {s : List Char} {i : Nat} (h : InComment s i) (hi : i < s.length)
    (t : List Char) : InComment (s ++ t) i := by
  unfold InComment
  rw [List.take_append_of_le_length (Nat.le_of_lt hi), List.take_append_of_le_length hi]
  obtain hbefore | hafter | ⟨hslash, hopened⟩ := h
  · exact Or.inl hbefore
  · exact Or.inr (Or.inl hafter)
  · by_cases hlast : i + 2 ≤ s.length
    · rw [List.take_append_of_le_length hlast]
      exact Or.inr (Or.inr ⟨hslash, hopened⟩)
    · -- the slash is the last character, and opened nothing yet
      rw [List.take_of_length_le (by omega)] at hslash hopened
      rw [hslash] at hopened
      exact absurd hopened (by decide)

/-- A character that is written at the end of the output as a copy of the last of the text, or of
    the slash before it. -/
theorem KeepsLines.copies_append {s out new : List Char} {os fresh : List (Option Nat)} {c : Char}
    (h : KeepsLines s out os)
    (hfresh : ∀ j i, fresh[j]? = some (some i) → i < (s ++ [c]).length ∧
      new[j]? = (s ++ [c])[i]? ∧ newlinesBefore (out ++ new) (out.length + j) =
        newlinesBefore (s ++ [c]) i) :
    ∀ k i, (os ++ fresh)[k]? = some (some i) → i < (s ++ [c]).length ∧
      (out ++ new)[k]? = (s ++ [c])[i]? ∧ newlinesBefore (out ++ new) k =
        newlinesBefore (s ++ [c]) i := by
  intro k i hk
  by_cases hold : k < os.length
  · rw [List.getElem?_append_left hold] at hk
    obtain ⟨hi, hchar, hline⟩ := h.copies k i hk
    have hout : k < out.length := h.length ▸ hold
    rw [List.getElem?_append_left hout, List.getElem?_append_left hi,
      newlinesBefore_append new (Nat.le_of_lt hout), newlinesBefore_append [c] (Nat.le_of_lt hi)]
    refine ⟨?_, hchar, hline⟩
    rw [List.length_append]
    exact Nat.lt_add_right _ hi
  · have hle : out.length ≤ k := h.length ▸ Nat.le_of_not_lt hold
    obtain ⟨j, rfl⟩ := Nat.exists_eq_add_of_le hle
    rw [List.getElem?_append_right (by omega), h.length, Nat.add_sub_cancel_left] at hk
    rw [List.getElem?_append_right (Nat.le_add_right _ _), Nat.add_sub_cancel_left]
    exact hfresh j i hk

theorem KeepsLines.complete_append {s out : List Char} {os fresh : List (Option Nat)} {c : Char}
    (h : KeepsLines s out os)
    (hheld : ∀ i, HeldBack s i → InComment (s ++ [c]) i ∨ ∃ j : Nat, fresh[j]? = some (some i))
    (hlast : InComment (s ++ [c]) s.length ∨ HeldBack (s ++ [c]) s.length ∨
      ∃ j : Nat, fresh[j]? = some (some s.length)) :
    ∀ i < (s ++ [c]).length, InComment (s ++ [c]) i ∨ HeldBack (s ++ [c]) i ∨
      ∃ k : Nat, (os ++ fresh)[k]? = some (some i) := by
  have hnew : ∀ i, (∃ j : Nat, fresh[j]? = some (some i)) →
      ∃ k : Nat, (os ++ fresh)[k]? = some (some i) := by
    intro i ⟨j, hj⟩
    refine ⟨os.length + j, ?_⟩
    rw [List.getElem?_append_right (Nat.le_add_right _ _), Nat.add_sub_cancel_left, hj]
  intro i hi
  by_cases hold : i < s.length
  · obtain hin | hback | ⟨k, hk⟩ := h.complete i hold
    · exact Or.inl (hin.append hold [c])
    · exact (hheld i hback).imp_right fun hj => Or.inr (hnew i hj)
    · refine Or.inr (Or.inr ⟨k, ?_⟩)
      rw [List.getElem?_append_left (List.getElem?_eq_some_iff.mp hk).1, hk]
  · obtain rfl : i = s.length := by
      rw [List.length_append, List.length_singleton] at hi
      omega
    exact hlast.imp_right fun hrest => hrest.imp_right (hnew _)

/-- The last character of a text, when the character before it leads to the state `st`. -/
theorem inComment_last {s : List Char} {c : Char} {st : State}
    (hst : finalState .normalState s = st)
    (h : st.inComment = true ∨ (transitionState st c).inComment = true) :
    InComment (s ++ [c]) s.length := by
  subst hst
  obtain hbefore | hafter := h
  · refine Or.inl ?_
    rwa [List.take_left]
  · refine Or.inr (Or.inl ?_)
    rwa [List.take_of_length_le (by simp), finalState_snoc]

/-- The end of the output and the end of the text are on the same line. -/
theorem KeepsLines.last_line {s out : List Char} {os : List (Option Nat)} (h : KeepsLines s out os)
    (new : List Char) (c : Char) :
    newlinesBefore (out ++ new) out.length = newlinesBefore (s ++ [c]) s.length := by
  rw [newlinesBefore_length, newlinesBefore_length, h.newlines]

/-- A slash that was held back, and the next character. -/
theorem KeepsLines.release {s out : List Char} {os : List (Option Nat)} {c : Char}
    (h : KeepsLines s out os) (hslash : finalState .normalState s = .slashReceiveInitially)
    (j i : Nat) (hj : [some (s.length - 1), some s.length][j]? = some (some i)) :
    i < (s ++ [c]).length ∧ ['/', c][j]? = (s ++ [c])[i]? ∧
      newlinesBefore (out ++ ['/', c]) (out.length + j) = newlinesBefore (s ++ [c]) i := by
  obtain ⟨q, rfl⟩ := ends_in_slash hslash
  have hcount : (q ++ ['/']).count '\n' = q.count '\n' := by
    rw [List.count_append]
    rfl
  match j with
  | 0 =>
    obtain rfl : q.length = i := by simpa using hj
    refine ⟨by simp, by simp, ?_⟩
    rw [List.append_assoc q, newlinesBefore_length, Nat.add_zero, newlinesBefore_length, h.newlines,
      hcount]
  | 1 =>
    obtain rfl : (q ++ ['/']).length = i := by simpa using hj
    refine ⟨by simp, List.getElem?_concat_length.symm, ?_⟩
    have hout : (out ++ ['/']).count '\n' = out.count '\n' := by
      rw [List.count_append]
      rfl
    have hlen : out.length + 1 = (out ++ ['/']).length := by simp
    rw [List.append_cons out, hlen, newlinesBefore_length, newlinesBefore_length, hout, h.newlines]
  | j + 2 => exact absurd hj (by simp)

/-- One more character keeps the lines. -/
theorem keepsLines_snoc {s out : List Char} {os : List (Option Nat)} (h : KeepsLines s out os)
    (c : Char) :
    KeepsLines (s ++ [c]) (out ++ executeAction (finalState .normalState s) c)
      (os ++ origins (finalState .normalState s) s.length c) := by
  obtain ⟨st, hst⟩ : ∃ st, finalState .normalState s = st := ⟨_, rfl⟩
  rw [hst]
  have hnotHeld : st ≠ .slashReceiveInitially → ∀ i, ¬ HeldBack s i :=
    fun hne i hback => hne (hst.symm.trans hback.2)
  have hacts := acts st c s.length
  generalize executeAction st c = new at hacts ⊢
  generalize origins st s.length c = fresh at hacts ⊢
  cases hacts with
  | copy hne =>
    refine ⟨?_, ?_, h.copies_append fun j i hj => ?_, h.complete_append
      (fun i hback => absurd hback (hnotHeld hne i)) (Or.inr (Or.inr ⟨0, rfl⟩))⟩
    · rw [List.count_append, List.count_append, h.newlines]
    · rw [List.length_append, List.length_append, h.length]
      rfl
    · match j with
      | 0 =>
        obtain rfl : s.length = i := by simpa using hj
        exact ⟨by simp, List.getElem?_concat_length.symm, h.last_line [c] c⟩
      | j + 1 => exact absurd hj (by simp)
  | drop hc hne hwhy =>
    refine ⟨?_, ?_, h.copies_append fun j i hj => absurd hj (by simp), h.complete_append
      (fun i hback => absurd hback (hnotHeld hne i)) ?_⟩
    · rw [List.append_nil, List.count_append, List.count_singleton, if_neg (by simpa using hc),
        h.newlines, Nat.add_zero]
    · rw [List.append_nil, List.append_nil, h.length]
    · obtain hin | hslash := hwhy
      · exact Or.inl (inComment_last hst (Or.inl hin))
      · refine Or.inr (Or.inl ⟨by simp, ?_⟩)
        rw [finalState_snoc, hst, hslash]
  | blank hc hslash hopens =>
    refine ⟨?_, ?_, h.copies_append fun j i hj => ?_, h.complete_append (fun i hback => Or.inl ?_)
      (Or.inl (inComment_last hst (Or.inr hopens)))⟩
    · rw [List.count_append, List.count_append, h.newlines, List.count_singleton,
        List.count_singleton, if_neg (by decide), if_neg (by simpa using hc)]
    · rw [List.length_append, List.length_append, h.length]
      rfl
    · match j with
      | 0 => exact absurd hj (by simp)
      | j + 1 => exact absurd hj (by simp)
    · -- the slash before it
      refine Or.inr (Or.inr ⟨?_, ?_⟩)
      · rw [hback.1, List.take_left]
        exact hback.2
      · have hall : i + 2 = (s ++ [c]).length := by
          rw [List.length_append, ← hback.1]
          rfl
        rwa [hall, List.take_length, finalState_snoc, hst]
  | release hslash =>
    refine ⟨?_, ?_, h.copies_append fun j i hj => h.release (hst.trans hslash) j i hj,
      h.complete_append (fun i hback => Or.inr ⟨0, ?_⟩) (Or.inr (Or.inr ⟨1, rfl⟩))⟩
    · rw [List.count_append, List.count_append, h.newlines]
      rfl
    · rw [List.length_append, List.length_append, h.length]
      rfl
    · rw [← hback.1]
      rfl

theorem keepsLines_printed (s : List Char) :
    KeepsLines s (printed .normalState s) (originsFrom .normalState 0 s) := by
  induction s using List.reverseRecOn with
  | nil =>
    refine ⟨rfl, rfl, fun k i hk => ?_, fun i hi => absurd hi (Nat.not_lt_zero i)⟩
    exact absurd hk (by simp [originsFrom])
  | append_singleton s c ih =>
    have hstep := keepsLines_snoc ih c
    rw [printed_append, originsFrom_append, Nat.zero_add]
    simpa [printed, originsFrom] using hstep

/-- **Line numbers are preserved.** After any part of any text, as many newlines were written as
    were read, every character of the output that is a copy is on the line of the one it is a copy
    of, and every character that does not belong to a comment has its copy in the output, but for
    a slash that is still held back. -/
theorem main_keeps_lines (input : List Char) (n : Nat) :
    KeepsLines (input.take n) ((input.take n).foldl loopBody initVars).stdout
      (originsFrom .normalState 0 (input.take n)) := by
  rw [(foldl_loopBody (input.take n) initVars).2]
  exact keepsLines_printed (input.take n)

/-! ## The line in the error message -/

/-- What the variables of `main` have to say after the text `s`. -/
structure Reports (s : List Char) (v : Vars) : Prop where
  state : v.state = finalState .normalState s
  isOpen : v.lineCom ≠ commentClosed ↔ v.state.inBlockComment = true
  lineCom : v.state.inBlockComment = true →
    ∃ q body, OpenedAt s q body ∧ v.lineCom = 1 + q.count '\n'

/-- The report of an unterminated comment: after each character `lineCom` is the line of the `/*`
    that opened the comment the DFA is in, and `COMMENT_CLOSED` outside such comments; at the end
    `main` fails exactly inside one, with its line in the message. -/
structure ReportsLine (input : List Char) : Prop where
  along : ∀ n, Reports (input.take n) ((input.take n).foldl loopBody initVars)
  fails : (main input).exitCode = exitFailure ↔
    (finalState .normalState input).inBlockComment = true
  message : (main input).exitCode = exitFailure → ∃ q body, OpenedAt input q body ∧
    (main input).stderr = printErrorLog (1 + q.count '\n')
  succeeds : (main input).exitCode ≠ exitFailure →
    (main input).exitCode = exitSuccess ∧ (main input).stderr = ""

/-- Every `/*` that opens a comment is on a line that an `int` can hold. -/
def LinesFit (input : List Char) : Prop :=
  ∀ q, q ++ ['/', '*'] <+: input →
    finalState .normalState (q ++ ['/']) = .slashReceiveInitially →
      1 + (q.count '\n' : Int) ≤ intMax

theorem LinesFit.part {s input : List Char} (h : LinesFit input) (hs : s <+: input) :
    LinesFit s := fun q hq => h q (hq.trans hs)

theorem LinesFit.comLine {input q body : List Char} (h : LinesFit input)
    (hopened : OpenedAt input q body) :
    comLine q body = 1 + q.count '\n' ∧ comLine q body ≠ commentClosed := by
  have hline : lineOf (q.count '\n') = 1 + q.count '\n' := by
    refine lineOf_eq (h q ?_ hopened.slash)
    rw [hopened.text]
    exact List.prefix_append _ _
  have hne : lineOf (q.count '\n') ≠ commentClosed := by
    rw [hline]
    unfold commentClosed
    omega
  rw [comLine_of_ne hne]
  exact ⟨hline, hne⟩

theorem LinesFit.reports {s : List Char} (h : LinesFit s) :
    Reports s (s.foldl loopBody initVars) := by
  have hcounts := counts_foldl s
  refine ⟨hcounts.state, ⟨fun hopen => ?_, fun hin => ?_⟩, fun hin => ?_⟩
  · by_contra hout
    exact hopen (hcounts.outside (Bool.eq_false_iff.mpr hout))
  · obtain ⟨q, body, hopened⟩ := exists_openedAt (hcounts.state ▸ hin)
    rw [hcounts.inside q body hopened]
    exact (h.comLine hopened).2
  · obtain ⟨q, body, hopened⟩ := exists_openedAt (hcounts.state ▸ hin)
    exact ⟨q, body, hopened, (hcounts.inside q body hopened).trans (h.comLine hopened).1⟩

theorem LinesFit.reportsLine {input : List Char} (h : LinesFit input) : ReportsLine input := by
  by_cases hin : (finalState .normalState input).inBlockComment = true
  · obtain ⟨q, body, hopened⟩ := exists_openedAt hin
    obtain ⟨hfails, hmessage⟩ := main_reports hopened
    obtain ⟨hline, hne⟩ := h.comLine hopened
    refine ⟨fun n => (h.part (List.take_prefix n input)).reports, ?_, fun hf => ?_, fun hf => ?_⟩
    · exact iff_of_true (hfails.mpr hne) hin
    · exact ⟨q, body, hopened, hline ▸ hmessage hf⟩
    · exact absurd (hfails.mpr hne) hf
  · have hsucceeds := main_succeeds (Bool.eq_false_iff.mpr hin)
    have hnot : (main input).exitCode ≠ exitFailure := by
      rw [hsucceeds.1]
      decide
    exact ⟨fun n => (h.part (List.take_prefix n input)).reports, iff_of_false hnot hin,
      fun hf => absurd hf hnot, fun _ => hsucceeds⟩

/-- A `/*` on a later line gets another one. -/
theorem ReportsLine.linesFit {input : List Char} (h : ReportsLine input) : LinesFit input := by
  intro q hq hslash
  obtain ⟨rest, rfl⟩ := hq
  have hopens := openedAt_nil hslash
  have hreports := h.along (q ++ ['/', '*']).length
  rw [List.take_left] at hreports
  have hcounts := counts_foldl (q ++ ['/', '*'])
  obtain ⟨q', body', hopened', hline⟩ :=
    hreports.lineCom (hcounts.state ▸ hopens.inBlockComment)
  obtain rfl : q' = q := by
    rw [List.append_cons] at hopened'
    obtain ⟨-, -, hsame⟩ | ⟨b, -, hearlier⟩ := hopened'.of_snoc
    · exact (List.append_inj' hsame rfl).1.symm
    · exact absurd (hslash ▸ hearlier.inBlockComment) (by decide)
  rw [hcounts.inside _ _ hopens, comLine_of_onlyStars _ onlyStars_nil] at hline
  rw [← hline]
  exact lineOf_le _

/-- **When the line is reported.** Exactly when every `/*` that opens a comment is on a line that
    an `int` can hold. -/
theorem main_reports_line_iff (input : List Char) : ReportsLine input ↔ LinesFit input :=
  ⟨ReportsLine.linesFit, LinesFit.reportsLine⟩

theorem finalState_newlines (n : Nat) :
    finalState .normalState (List.replicate n '\n') = .normalState := by
  induction n with
  | zero => rfl
  | succ n ih => exact ih

theorem not_linesFit {n : Nat} (h : intMax ≤ n) :
    ¬ LinesFit (List.replicate n '\n' ++ ['/', '*']) := by
  intro hfit
  have hslash : finalState .normalState (List.replicate n '\n' ++ ['/']) =
      .slashReceiveInitially := by
    rw [finalState_snoc, finalState_newlines]
    rfl
  have hline := hfit _ (List.prefix_refl _) hslash
  rw [List.count_replicate_self] at hline
  omega

/-- As many newlines as the greatest `int`, and a comment. -/
theorem main_line_overflows : ¬ ReportsLine (List.replicate 2147483647 '\n' ++ ['/', '*']) :=
  fun h => not_linesFit (Int.le_refl _) h.linesFit

end SnuSysProg.Decomment
