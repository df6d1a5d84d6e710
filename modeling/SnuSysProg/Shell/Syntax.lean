import Mathlib.Data.List.Induction
import SnuSysProg.Shell.Tokens

/-
  What `syntax_check` lets through.

  In an accepted line a `<` comes before every pipe and a `>` after every pipe, each at most once
  and in front of a word. So the first stage of a pipeline has the `<` of the line, the last one
  the `>`, and the stages between them have no redirection.
-/

namespace SnuSysProg.Shell

variable {tokens l a b front rest : List Token} {t op : Token} {ri ro p : Bool} {i j : Nat}
  {value : Str}

/-- The rests of accepted lines, with the flags `riExist`, `roExist` and `pExist` in front of
    them. -/
inductive Accepted : Bool → Bool → Bool → List Token → Prop
  | nil {ri ro p : Bool} : Accepted ri ro p []
  | word {ri ro p : Bool} {l : List Token} {value : Str} (h : Accepted ri ro p l) :
      Accepted ri ro p (.word value :: l)
  | pipe {ri p : Bool} {l : List Token} (hnext : nextIsWord l = true)
      (h : Accepted ri false true l) :
      Accepted ri false p (.pipe :: l)
  | bg {ri ro p : Bool} : Accepted ri ro p [.bg]
  | redin {ro : Bool} {l : List Token} (hnext : nextIsWord l = true)
      (h : Accepted true ro false l) :
      Accepted false ro false (.redin :: l)
  | redout {ri p : Bool} {l : List Token} (hnext : nextIsWord l = true) (h : Accepted ri true p l) :
      Accepted ri false p (.redout :: l)

theorem accepted_of_success (h : syntaxLoop false ri ro p l = .success) : Accepted ri ro p l := by
  induction l generalizing ri ro p with
  | nil => exact .nil
  | cons t l ih =>
    cases t with
    | word value => exact .word (ih h)
    | pipe =>
      simp only [syntaxLoop, Bool.false_eq_true, if_false] at h
      split at h
      · exact absurd h (by simp)
      · next hro =>
        split at h
        · exact absurd h (by simp)
        · next hnext =>
          obtain rfl : ro = false := by simpa using hro
          exact .pipe (by simpa using hnext) (ih h)
    | bg =>
      simp only [syntaxLoop, Bool.false_eq_true, if_false] at h
      split at h
      · exact absurd h (by simp)
      · next hlast =>
        obtain rfl : l = [] := by simpa using hlast
        exact .bg
    | redin =>
      simp only [syntaxLoop, Bool.false_eq_true, if_false] at h
      split at h
      · exact absurd h (by simp)
      · next hflags =>
        split at h
        · exact absurd h (by simp)
        · next hnext =>
          obtain ⟨rfl, rfl⟩ : p = false ∧ ri = false := by simpa using hflags
          exact .redin (by simpa using hnext) (ih h)
    | redout =>
      simp only [syntaxLoop, Bool.false_eq_true, if_false] at h
      split at h
      · exact absurd h (by simp)
      · next hro =>
        split at h
        · exact absurd h (by simp)
        · next hnext =>
          obtain rfl : ro = false := by simpa using hro
          exact .redout (by simpa using hnext) (ih h)

/-- An accepted line is empty or starts with a word. -/
theorem accepted_of_syntaxCheck (h : syntaxCheck tokens = .success) :
    Accepted false false false tokens := by
  cases tokens with
  | nil => exact .nil
  | cons t l =>
    cases t with
    | word value => exact .word (accepted_of_success h)
    | _ => exact absurd h (by simp [syntaxCheck, syntaxLoop])

/-! ## Where the redirections are -/

/-- After a `<` or a pipe there is no `<`. -/
theorem Accepted.redin_notMem (h : Accepted ri ro p l) (hflag : ri = true ∨ p = true) :
    Token.redin ∉ l := by
  induction h with
  | nil => simp
  | word h ih => simpa using ih hflag
  | pipe hnext h ih => simpa using ih (Or.inr rfl)
  | bg => simp
  | redin hnext h ih => simp at hflag
  | redout hnext h ih => simpa using ih hflag

/-- After a `>` there is no `>`, and no pipe. -/
theorem Accepted.redout_notMem (h : Accepted ri ro p l) (hflag : ro = true) :
    Token.redout ∉ l ∧ Token.pipe ∉ l := by
  induction h with
  | nil => simp
  | word h ih => simpa using ih hflag
  | pipe => exact absurd hflag (by simp)
  | bg => simp
  | redin hnext h ih => simpa using ih hflag
  | redout => exact absurd hflag (by simp)

/-- On the two sides of a pipe: no `>` before it, and no `<` after it. -/
theorem Accepted.pipe_sides (h : Accepted ri ro p (front ++ .pipe :: rest)) :
    Token.redout ∉ front ∧ Token.redin ∉ rest := by
  induction front generalizing ri ro p with
  | nil =>
    cases h with
    | pipe hnext h => exact ⟨by simp, h.redin_notMem (Or.inr rfl)⟩
  | cons t front ih =>
    rw [List.cons_append] at h
    generalize hl : front ++ Token.pipe :: rest = l at h
    cases h with
    | word h => simpa using ih (hl ▸ h)
    | pipe _ h => simpa using ih (hl ▸ h)
    | bg => simp at hl
    | redin _ h => simpa using ih (hl ▸ h)
    | redout _ h =>
      have hpipe := (h.redout_notMem rfl).2
      rw [← hl] at hpipe
      simp at hpipe

/-- A redirection or a pipe is followed by a word. -/
theorem Accepted.word_after (h : Accepted ri ro p (a ++ op :: b))
    (hop : op = .redin ∨ op = .redout ∨ op = .pipe) : nextIsWord b = true := by
  induction a generalizing ri ro p with
  | nil =>
    cases h with
    | redin hnext => exact hnext
    | redout hnext => exact hnext
    | pipe hnext => exact hnext
    | _ => simp at hop
  | cons t a ih =>
    rw [List.cons_append] at h
    generalize hl : a ++ op :: b = l at h
    cases h with
    | word h => exact ih (hl ▸ h)
    | pipe _ h => exact ih (hl ▸ h)
    | bg => simp at hl
    | redin _ h => exact ih (hl ▸ h)
    | redout _ h => exact ih (hl ▸ h)

theorem Accepted.next_word (h : Accepted ri ro p (a ++ op :: b))
    (hop : op = .redin ∨ op = .redout) : nextIsWord b = true :=
  h.word_after (hop.imp id Or.inl)

/-- A redirection comes at most once. -/
theorem Accepted.notMem_rest (h : Accepted ri ro p (a ++ op :: b))
    (hop : op = .redin ∨ op = .redout) : op ∉ b := by
  induction a generalizing ri ro p with
  | nil =>
    cases h with
    | redin _ h => exact h.redin_notMem (Or.inl rfl)
    | redout _ h => exact (h.redout_notMem rfl).1
    | _ => simp at hop
  | cons t a ih =>
    rw [List.cons_append] at h
    generalize hl : a ++ op :: b = l at h
    cases h with
    | word h => exact ih (hl ▸ h)
    | pipe _ h => exact ih (hl ▸ h)
    | bg => simp at hl
    | redin _ h => exact ih (hl ▸ h)
    | redout _ h => exact ih (hl ▸ h)

/-! ## The file of a redirection -/

def wordAt : List Token → Option Str
  | .word value :: _ => some value
  | _ => none

/-- The word after the first `op`. -/
def fileAfter (op : Token) : List Token → Option Str
  | [] => none
  | t :: rest => if t = op then wordAt rest else fileAfter op rest

theorem fileAfter_skip (h : op ∉ a) : fileAfter op (a ++ b) = fileAfter op b := by
  induction a with
  | nil => rfl
  | cons t a ih =>
    obtain ⟨ht, ha⟩ := List.ne_and_not_mem_of_not_mem_cons h
    rw [List.cons_append, fileAfter, if_neg (Ne.symm ht), ih ha]

theorem fileAfter_none (h : op ∉ l) : fileAfter op l = none := by
  have hskip : fileAfter op (l ++ []) = none := fileAfter_skip h
  rwa [List.append_nil] at hskip

theorem word_of_nextIsWord (h : nextIsWord l = true) : ∃ value rest, l = .word value :: rest := by
  cases l with
  | nil => exact absurd h (by simp [nextIsWord])
  | cons t rest =>
    cases t with
    | word value => exact ⟨value, rest, rfl⟩
    | _ => exact absurd h (by simp [nextIsWord])

theorem fileAfter_word (h : op ∉ a) : fileAfter op (a ++ op :: .word value :: b) = some value := by
  rw [fileAfter_skip h, fileAfter, if_pos rfl]
  rfl

/-- The `<` of an accepted pipeline is in front of any of its pipes. -/
theorem Accepted.fileAfter_front (h : Accepted ri ro p (front ++ .pipe :: rest)) :
    fileAfter .redin (front ++ .pipe :: rest) = fileAfter .redin front := by
  by_cases hin : Token.redin ∈ front
  · obtain ⟨a, b, rfl, ha⟩ := List.eq_append_cons_of_mem hin
    rw [List.append_assoc, List.cons_append] at h ⊢
    have hnext := h.next_word (Or.inl rfl)
    cases b with
    | nil => exact absurd hnext (by simp [nextIsWord])
    | cons t b =>
      obtain ⟨value, rest', heq⟩ := word_of_nextIsWord hnext
      obtain ⟨rfl, -⟩ := List.cons.inj heq
      rw [List.cons_append, fileAfter_word ha, fileAfter_word ha]
  · rw [fileAfter_skip hin, fileAfter_none hin]
    exact fileAfter_none fun hmem => h.pipe_sides.2 (by simpa using hmem)

/-- Its `>` is after all of them. -/
theorem Accepted.fileAfter_rest (h : Accepted ri ro p (front ++ .pipe :: rest)) :
    fileAfter .redout (front ++ .pipe :: rest) = fileAfter .redout (.pipe :: rest) :=
  fileAfter_skip h.pipe_sides.1

/-! ## The pipes -/

theorem mem_pipeIndices : i ∈ pipeIndices tokens ↔ tokens[i]? = some .pipe := by
  unfold pipeIndices
  rw [List.mem_filter, List.mem_range, decide_eq_true_eq]
  constructor
  · exact fun h => h.2
  · exact fun h => ⟨(List.getElem?_eq_some_iff.mp h).1, h⟩

theorem pipeIndices_length : (pipeIndices tokens).length = countPipe tokens := by
  unfold pipeIndices countPipe
  induction tokens using List.reverseRecOn with
  | nil => rfl
  | append_singleton l t ih =>
    rw [List.length_append, List.length_singleton, List.range_succ, List.filter_append,
      List.length_append, List.count_append]
    congr 1
    · rw [← ih]
      congr 1
      refine List.filter_congr fun i hi => ?_
      rw [List.getElem?_append_left (List.mem_range.mp hi)]
    · by_cases ht : t = .pipe <;> simp [ht]

/-- A token cuts the line in two. -/
theorem split_at_token (h : tokens[i]? = some t) :
    tokens = tokens.take i ++ t :: tokens.drop (i + 1) := by
  obtain ⟨hi, heq⟩ := List.getElem?_eq_some_iff.mp h
  rw [← heq, ← List.drop_eq_getElem_cons hi, List.take_append_drop]

theorem split_at_pipe (h : tokens[i]? = some .pipe) :
    tokens = tokens.take i ++ .pipe :: tokens.drop (i + 1) :=
  split_at_token h

end SnuSysProg.Shell
