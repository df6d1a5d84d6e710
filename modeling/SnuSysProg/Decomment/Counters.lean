import Mathlib.Data.List.Induction
import SnuSysProg.Decomment.Basic

/-
  The loop of `main`, and its line counters.

  `lineCom` is set and cleared outside the DFA, by the new state alone. While the DFA is in a `/*`
  comment it is the line of that `/*`, as the `int` after so many increments (`counts_foldl`).
  With 2^32 - 2 newlines before the `/*` this is -1, the mark that no comment is open. Then the
  loop sets `lineCom` again and again, until the line has changed.
-/

namespace SnuSysProg.Decomment

/-! ## The loop of main -/

/-- What the loop prints from a DFA state. -/
def printed : State → List Char → List Char
  | _, [] => []
  | st, c :: s => executeAction st c ++ printed (transitionState st c) s

def finalState (st : State) (s : List Char) : State := s.foldl transitionState st

theorem finalState_cons (st : State) (c : Char) (s : List Char) :
    finalState st (c :: s) = finalState (transitionState st c) s := rfl

theorem finalState_append (st : State) (s t : List Char) :
    finalState st (s ++ t) = finalState (finalState st s) t :=
  List.foldl_append

theorem finalState_snoc (st : State) (s : List Char) (c : Char) :
    finalState st (s ++ [c]) = transitionState (finalState st s) c := finalState_append st s [c]

theorem printed_append (st : State) (s t : List Char) :
    printed st (s ++ t) = printed st s ++ printed (finalState st s) t := by
  induction s generalizing st with
  | nil => rfl
  | cons c s ih => rw [List.cons_append, printed, ih, printed, List.append_assoc, finalState_cons]

theorem foldl_loopBody (s : List Char) (v : Vars) :
    (s.foldl loopBody v).state = finalState v.state s ∧
      (s.foldl loopBody v).stdout = v.stdout ++ printed v.state s := by
  induction s generalizing v with
  | nil => exact ⟨rfl, (List.append_nil _).symm⟩
  | cons c s ih =>
    obtain ⟨h1, h2⟩ := ih (loopBody v c)
    refine ⟨h1, ?_⟩
    rw [List.foldl_cons, h2, printed, ← List.append_assoc]
    rfl

theorem main_stdout (input : List Char) : (main input).stdout = printed .normalState input := by
  have h := (foldl_loopBody input initVars).2
  unfold main
  dsimp only
  split <;> exact h

/-! ## The comment that is open -/

/-- Inside a `/*` comment. -/
def State.inBlockComment : State → Bool
  | .insideMultiLineComment => true
  | .asteriskReceivedInitiallyInComment => true
  | _ => false

/-- The only edge into `slashReceiveInitially`. -/
theorem transitionState_slash {st : State} {c : Char}
    (h : transitionState st c = .slashReceiveInitially) : st = .normalState ∧ c = '/' := by
  cases st <;>
    simp only [transitionState, transitionFromNormalState, transitionFromSlashReceiveInitially,
      transitionFromInsideOneLineComment, transitionFromInsideMultiLineComment,
      transitionFromAsteriskReceivedInitiallyInComment, transitionFromInsideSingleQuote,
      transitionFromInsideDoubleQuote, transitionFromEscapeSeqInSingleQuote,
      transitionFromEscapeSeqInDoubleQuote] at h <;>
    grind

/-- A slash that is held back is the last character. -/
theorem ends_in_slash {s : List Char} (h : finalState .normalState s = .slashReceiveInitially) :
    ∃ q, s = q ++ ['/'] := by
  induction s using List.reverseRecOn with
  | nil => exact absurd h (by decide)
  | append_singleton q c =>
    rw [finalState_snoc] at h
    obtain ⟨-, rfl⟩ := transitionState_slash h
    exact ⟨q, rfl⟩

/-- The only edge into a `/*` comment. -/
theorem transitionState_opens {st : State} {c : Char}
    (hin : (transitionState st c).inBlockComment = true) (hout : ¬ st.inBlockComment = true) :
    st = .slashReceiveInitially ∧ c = '*' := by
  cases st <;>
    simp only [transitionState, transitionFromNormalState, transitionFromSlashReceiveInitially,
      transitionFromInsideOneLineComment, transitionFromInsideSingleQuote,
      transitionFromInsideDoubleQuote, transitionFromEscapeSeqInSingleQuote,
      transitionFromEscapeSeqInDoubleQuote] at hin ⊢ <;>
    grind [State.inBlockComment]

/-- The only edges out of one. -/
theorem transitionState_closes {st : State} {c : Char} (hin : st.inBlockComment = true)
    (hout : ¬ (transitionState st c).inBlockComment = true) :
    transitionState st c = .normalState := by
  cases st <;>
    simp only [transitionState, transitionFromInsideMultiLineComment,
      transitionFromAsteriskReceivedInitiallyInComment] at hin hout ⊢ <;>
    grind [State.inBlockComment]

/-- Inside one only an asterisk leads to the other state. -/
theorem transitionState_inside {st : State} {c : Char} (hin : st.inBlockComment = true)
    (hin' : (transitionState st c).inBlockComment = true) :
    transitionState st c = .insideMultiLineComment ↔ c ≠ '*' := by
  cases st <;>
    simp only [transitionState, transitionFromInsideMultiLineComment,
      transitionFromAsteriskReceivedInitiallyInComment] at hin hin' ⊢ <;>
    grind [State.inBlockComment]

/-- After `s` the DFA is in the comment that the `/*` between `q` and `body` opened: the slash was
    held back, and no prefix of `body` left the comment. -/
structure OpenedAt (s q body : List Char) : Prop where
  text : s = q ++ ['/', '*'] ++ body
  slash : finalState .normalState (q ++ ['/']) = .slashReceiveInitially
  inside : ∀ b, b <+: body → (finalState .normalState (q ++ ['/', '*'] ++ b)).inBlockComment = true

section Opened

variable {s q body : List Char} {c : Char}

theorem OpenedAt.inBlockComment (h : OpenedAt s q body) :
    (finalState .normalState s).inBlockComment = true := by
  rw [h.text]
  exact h.inside body (List.prefix_refl _)

theorem openedAt_nil (h : finalState .normalState (q ++ ['/']) = .slashReceiveInitially) :
    OpenedAt (q ++ ['/', '*']) q [] := by
  refine ⟨(List.append_nil _).symm, h, fun b hb => ?_⟩
  rw [List.prefix_nil.mp hb, List.append_nil, List.append_cons, finalState_snoc, h]
  rfl

theorem OpenedAt.snoc (h : OpenedAt s q body)
    (hin : (finalState .normalState (s ++ [c])).inBlockComment = true) :
    OpenedAt (s ++ [c]) q (body ++ [c]) := by
  refine ⟨?_, h.slash, fun b hb => ?_⟩
  · rw [h.text, List.append_assoc]
  · obtain rfl | hb := List.prefix_concat_iff.mp hb
    · rwa [← List.append_assoc, ← h.text]
    · exact h.inside b hb

/-- The character before: the comment was open already, or it is the asterisk that opens it. -/
theorem OpenedAt.of_snoc (h : OpenedAt (s ++ [c]) q body) :
    body = [] ∧ c = '*' ∧ s = q ++ ['/'] ∨ ∃ b, body = b ++ [c] ∧ OpenedAt s q b := by
  have htext := h.text
  obtain rfl | ⟨b, d, rfl⟩ := List.eq_nil_or_concat body
  · rw [List.append_nil, List.append_cons q] at htext
    obtain ⟨hs, hc⟩ := List.append_inj' htext rfl
    exact Or.inl ⟨rfl, (List.cons.inj hc).1, hs⟩
  · rw [List.concat_eq_append, ← List.append_assoc] at htext
    obtain ⟨hs, hc⟩ := List.append_inj' htext rfl
    obtain rfl : c = d := (List.cons.inj hc).1
    refine Or.inr ⟨b, List.concat_eq_append, hs, h.slash, fun a ha => h.inside a ?_⟩
    rw [List.concat_eq_append]
    exact ha.trans (List.prefix_append _ _)

theorem exists_openedAt (h : (finalState .normalState s).inBlockComment = true) :
    ∃ q body, OpenedAt s q body := by
  induction s using List.reverseRecOn with
  | nil => exact absurd h (by decide)
  | append_singleton s c ih =>
    by_cases hwas : (finalState .normalState s).inBlockComment = true
    · obtain ⟨q, body, hopened⟩ := ih hwas
      exact ⟨q, body ++ [c], hopened.snoc h⟩
    · obtain ⟨hslash, rfl⟩ := transitionState_opens (finalState_snoc _ _ _ ▸ h) hwas
      obtain ⟨q, rfl⟩ := ends_in_slash hslash
      refine ⟨q, [], ?_⟩
      rw [List.append_assoc]
      exact openedAt_nil hslash

end Opened

/-! ## The counters -/

/-- The line after `n` newlines, in an `int`. -/
def lineOf (n : Nat) : Int := (1 + (n : Int)).bmod 4294967296

theorem lineOf_succ (n : Nat) : lineOf (n + 1) = incInt (lineOf n) := by
  unfold incInt lineOf
  rw [Int.bmod_add_bmod, Int.natCast_succ, Int.add_assoc]

theorem lineOf_le (n : Nat) : lineOf n ≤ intMax := by
  have h : lineOf n < (4294967296 + 1) / 2 := Int.bmod_lt (by decide)
  exact Int.le_of_lt_add_one h

/-- Up to `intMax` lines the counter is right. -/
theorem lineOf_eq {n : Nat} (h : 1 + (n : Int) ≤ intMax) : lineOf n = 1 + n := by
  unfold intMax at h
  exact Int.bmod_eq_of_le (by omega) (by omega)

/-- What a comment holds after its first newline. -/
def laterLines (body : List Char) : List Char := (body.dropWhile (· ≠ '\n')).tail

/-- Nothing but asterisks: nothing there takes the DFA to `insideMultiLineComment`. -/
def OnlyStars (body : List Char) : Prop := ∀ c ∈ laterLines body, c = '*'

instance (body : List Char) : Decidable (OnlyStars body) :=
  inferInstanceAs (Decidable (∀ c ∈ laterLines body, c = '*'))

section OnlyStars

variable {body : List Char} {c : Char}

theorem laterLines_of_notMem (h : '\n' ∉ body) : laterLines (body ++ [c]) = [] := by
  have hall : ∀ d ∈ body, decide (d ≠ '\n') = true := fun d hd =>
    decide_eq_true fun he => h (he ▸ hd)
  unfold laterLines
  rw [List.dropWhile_append_of_pos hall, List.dropWhile_cons]
  split <;> rfl

theorem laterLines_eq {a r : List Char} (h : '\n' ∉ a) : laterLines (a ++ '\n' :: r) = r := by
  have hall : ∀ d ∈ a, decide (d ≠ '\n') = true := fun d hd =>
    decide_eq_true fun he => h (he ▸ hd)
  unfold laterLines
  rw [List.dropWhile_append_of_pos hall]
  rfl

theorem onlyStars_nil : OnlyStars [] := fun _ hd => absurd hd List.not_mem_nil

theorem onlyStars_of_notMem (h : '\n' ∉ body) : OnlyStars (body ++ [c]) := by
  unfold OnlyStars
  rw [laterLines_of_notMem h]
  exact fun _ hd => absurd hd List.not_mem_nil

theorem onlyStars_snoc (h : '\n' ∈ body) : OnlyStars (body ++ [c]) ↔ OnlyStars body ∧ c = '*' := by
  obtain ⟨a, r, rfl, ha⟩ := List.eq_append_cons_of_mem h
  unfold OnlyStars
  rw [List.append_assoc, List.cons_append, laterLines_eq ha, laterLines_eq ha]
  exact List.forall_mem_append.trans (and_congr_right fun _ => List.forall_mem_singleton)

theorem OnlyStars.of_snoc (h : OnlyStars (body ++ [c])) : OnlyStars body := by
  by_cases hmem : '\n' ∈ body
  · exact ((onlyStars_snoc hmem).mp h).1
  · obtain rfl | ⟨b, d, rfl⟩ := List.eq_nil_or_concat body
    · exact onlyStars_nil
    · rw [List.concat_eq_append] at hmem ⊢
      exact onlyStars_of_notMem fun hin => hmem (List.mem_append_left _ hin)

/-- Then there is one newline at most. -/
theorem OnlyStars.count (h : OnlyStars body) (hmem : '\n' ∈ body) : body.count '\n' = 1 := by
  obtain ⟨a, r, rfl, ha⟩ := List.eq_append_cons_of_mem hmem
  have hr : '\n' ∉ r := by
    intro hin
    rw [← laterLines_eq (r := r) ha] at hin
    exact absurd (h '\n' hin) (by decide)
  rw [List.count_append, List.count_cons_self, List.count_eq_zero_of_not_mem ha,
    List.count_eq_zero_of_not_mem hr]

end OnlyStars

/-- What `lineCom` is in a comment that `q` stands before, after its text `body`. -/
def comLine (q body : List Char) : Int :=
  if lineOf (q.count '\n') = commentClosed ∧ ¬ OnlyStars body then 0 else lineOf (q.count '\n')

theorem comLine_of_ne {q : List Char} (h : lineOf (q.count '\n') ≠ commentClosed)
    (body : List Char) : comLine q body = lineOf (q.count '\n') :=
  if_neg fun hc => h hc.1

theorem comLine_of_onlyStars (q : List Char) {body : List Char} (h : OnlyStars body) :
    comLine q body = lineOf (q.count '\n') := if_neg fun hc => hc.2 h

theorem comLine_eq_closed {q body : List Char} : comLine q body = commentClosed ↔
    lineOf (q.count '\n') = commentClosed ∧ OnlyStars body := by
  unfold comLine
  by_cases hmark : lineOf (q.count '\n') = commentClosed
  · by_cases hstars : OnlyStars body
    · rw [if_neg fun h => h.2 hstars]
      exact iff_of_true hmark ⟨hmark, hstars⟩
    · rw [if_pos ⟨hmark, hstars⟩]
      exact iff_of_false (by decide) fun h => hstars h.2
  · rw [if_neg fun h => hmark h.1]
    exact iff_of_false hmark fun h => hmark h.1

/-- The assignment to `lineCom` for the next character of the comment. -/
theorem comLine_snoc (q body : List Char) (c : Char) :
    comLine q (body ++ [c]) =
      if c ≠ '*' ∧ comLine q body = commentClosed then lineOf (q.count '\n' + body.count '\n')
      else comLine q body := by
  by_cases hset : comLine q body = commentClosed
  · obtain ⟨hmark, hstars⟩ := comLine_eq_closed.mp hset
    by_cases hmem : '\n' ∈ body
    · by_cases hc : c = '*'
      · have hstars' : OnlyStars (body ++ [c]) := (onlyStars_snoc hmem).mpr ⟨hstars, hc⟩
        rw [if_neg fun h => h.1 hc, comLine_of_onlyStars q hstars', hset, hmark]
      · -- the line after -1
        have hstars' : ¬ OnlyStars (body ++ [c]) := fun h => hc ((onlyStars_snoc hmem).mp h).2
        rw [if_pos ⟨hc, hset⟩, hstars.count hmem, lineOf_succ, hmark, comLine,
          if_pos ⟨hmark, hstars'⟩]
        rfl
    · rw [List.count_eq_zero_of_not_mem hmem, Nat.add_zero, hset, hmark, ite_self,
        comLine_of_onlyStars q (onlyStars_of_notMem hmem), hmark]
  · rw [if_neg fun h => hset h.2]
    by_cases hmark : lineOf (q.count '\n') = commentClosed
    · have hstars : ¬ OnlyStars body := fun h => hset (comLine_eq_closed.mpr ⟨hmark, h⟩)
      have hstars' : ¬ OnlyStars (body ++ [c]) := fun h => hstars h.of_snoc
      rw [comLine, if_pos ⟨hmark, hstars'⟩, comLine, if_pos ⟨hmark, hstars⟩]
    · rw [comLine_of_ne hmark, comLine_of_ne hmark]

/-- What the variables of `main` are after the text `s`. -/
structure Counts (s : List Char) (v : Vars) : Prop where
  state : v.state = finalState .normalState s
  lineCur : v.lineCur = lineOf (s.count '\n')
  outside : v.state.inBlockComment = false → v.lineCom = commentClosed
  inside : ∀ q body, OpenedAt s q body → v.lineCom = comLine q body

/-- The assignments to `lineCom` in the loop. -/
theorem loopBody_lineCom (v : Vars) (c : Char) :
    (loopBody v c).lineCom =
      if transitionState v.state c = .normalState then commentClosed
      else if transitionState v.state c = .insideMultiLineComment ∧ v.lineCom = commentClosed
        then v.lineCur
      else v.lineCom := by
  by_cases hnormal : transitionState v.state c = .normalState
  · simp only [loopBody, handleStateTransition, hnormal, reduceCtorEq, false_and, true_and, if_true,
      if_false]
    split
    · rfl
    · rename_i hcom
      exact not_not.mp hcom
  · simp only [loopBody, handleStateTransition, hnormal, false_and, if_false]
    rfl

theorem counts_step {s : List Char} {v : Vars} (h : Counts s v) (c : Char) :
    Counts (s ++ [c]) (loopBody v c) := by
  have hstate : (loopBody v c).state = transitionState v.state c := rfl
  have hfinal : (loopBody v c).state = finalState .normalState (s ++ [c]) := by
    rw [hstate, finalState_snoc, h.state]
  refine ⟨hfinal, ?_, fun hout => ?_, fun q body hopened => ?_⟩
  · change (if c = '\n' then incInt v.lineCur else v.lineCur) = _
    rw [List.count_append, List.count_singleton, h.lineCur]
    by_cases hc : c = '\n'
    · rw [if_pos hc, if_pos (by simpa using hc), lineOf_succ]
    · rw [if_neg hc, if_neg (by simpa using hc), Nat.add_zero]
  · rw [hstate] at hout
    rw [loopBody_lineCom]
    by_cases hwas : v.state.inBlockComment = true
    · rw [if_pos (transitionState_closes hwas (Bool.eq_false_iff.mp hout))]
    · have hnot : ¬ transitionState v.state c = .insideMultiLineComment := by
        intro hin
        rw [hin] at hout
        exact absurd hout (by decide)
      rw [h.outside (Bool.eq_false_iff.mpr hwas)]
      simp only [hnot, false_and, if_false, ite_self]
  · have hin : (transitionState v.state c).inBlockComment = true := by
      rw [← hstate, hfinal]
      exact hopened.inBlockComment
    have hnormal : transitionState v.state c ≠ .normalState := by
      intro hn
      rw [hn] at hin
      exact absurd hin (by decide)
    rw [loopBody_lineCom, if_neg hnormal]
    obtain ⟨rfl, rfl, rfl⟩ | ⟨b, rfl, hopened'⟩ := hopened.of_snoc
    · -- the comment opens with this character, on the current line
      have hslash : v.state = .slashReceiveInitially := h.state.trans hopened.slash
      rw [hslash, h.outside (by rw [hslash]; rfl), if_pos ⟨rfl, rfl⟩, h.lineCur,
        comLine_of_onlyStars q onlyStars_nil, List.count_append]
      rfl
    · have hwas : v.state.inBlockComment = true := h.state ▸ hopened'.inBlockComment
      have hcount : s.count '\n' = q.count '\n' + b.count '\n' := by
        rw [hopened'.text, List.count_append, List.count_append]
        rfl
      rw [comLine_snoc, h.inside q b hopened', h.lineCur, hcount]
      simp only [transitionState_inside hwas hin]

theorem counts_foldl (s : List Char) : Counts s (s.foldl loopBody initVars) := by
  induction s using List.reverseRecOn with
  | nil =>
    refine ⟨rfl, rfl, fun _ => rfl, fun q body hopened => ?_⟩
    exact absurd hopened.inBlockComment (by decide)
  | append_singleton s c ih =>
    rw [List.foldl_append]
    exact counts_step ih c

/-- Outside `/*` comments, `main` succeeds. -/
theorem main_succeeds {input : List Char}
    (h : (finalState .normalState input).inBlockComment = false) :
    (main input).exitCode = exitSuccess ∧ (main input).stderr = "" := by
  have hcounts := counts_foldl input
  have hclosed := hcounts.outside (hcounts.state ▸ h)
  unfold main
  dsimp only
  rw [if_neg fun hne => hne hclosed]
  exact ⟨rfl, rfl⟩

/-- Inside one it reports the line that it has for it, unless that is the mark. -/
theorem main_reports {input q body : List Char} (h : OpenedAt input q body) :
    ((main input).exitCode = exitFailure ↔ comLine q body ≠ commentClosed) ∧
      ((main input).exitCode = exitFailure →
        (main input).stderr = printErrorLog (comLine q body)) := by
  have hcom := (counts_foldl input).inside q body h
  unfold main
  dsimp only
  rw [hcom]
  by_cases hclosed : comLine q body = commentClosed
  · have hends : exitSuccess ≠ exitFailure := by decide
    rw [if_neg fun hne => hne hclosed]
    exact ⟨iff_of_false hends fun hne => hne hclosed, fun hfails => absurd hfails hends⟩
  · rw [if_pos hclosed]
    exact ⟨iff_of_true rfl hclosed, fun _ => rfl⟩

end SnuSysProg.Decomment
