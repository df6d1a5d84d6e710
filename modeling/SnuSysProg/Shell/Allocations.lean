import Mathlib.Data.List.Infix
import SnuSysProg.Shell.Lexer

/-
  `lex_line` when an allocation fails.

  The lexer goes on as if allocations never failed until one does; then it returns `LEX_NOMEM` with
  the tokens it has. So what it returns is a function of what it would return otherwise and of the
  first allocation that fails (`lexLine_outcome`).
-/

namespace SnuSysProg.Shell

/-- The first of the allocations `a` to `b` that fails. -/
def firstFailure (add : Nat → Bool) (a b : Nat) : Option Nat :=
  (List.range' a (b - a)).find? fun k => !add k

/-- What is returned in place of `r` and `tokens`. -/
def outcome (add : Nat → Bool) (r : LexResult) (tokens : List Token) : LexResult × List Token :=
  match firstFailure add 0 tokens.length with
  | none => (r, tokens)
  | some k => (.nomem, tokens.take k)

section
variable {add : Nat → Bool} {a b c k : Nat}

theorem firstFailure_self : firstFailure add a a = none := by
  rw [firstFailure, Nat.sub_self]
  rfl

theorem firstFailure_succ : firstFailure add a (a + 1) = if add a then none else some a := by
  rw [firstFailure, Nat.add_sub_cancel_left, List.range'_one, List.find?_singleton]
  cases add a <;> rfl

theorem firstFailure_trans (hab : a ≤ b) (hbc : b ≤ c) :
    firstFailure add a c = (firstFailure add a b).or (firstFailure add b c) := by
  have hrange : List.range' a (c - a) = List.range' a (b - a) ++ List.range' b (c - b) := by
    have happend := List.range'_append_1 (s := a) (m := b - a) (n := c - b)
    rw [Nat.add_sub_cancel' hab] at happend
    rw [happend]
    congr 1
    omega
  rw [firstFailure, hrange, List.find?_append]
  rfl

theorem firstFailure_lt (h : firstFailure add a b = some k) : k < b := by
  have hmem := List.mem_range'_1.mp (List.mem_of_find?_eq_some h)
  omega

theorem firstFailure_none (h : ∀ k < b, add k = true) : firstFailure add a b = none := by
  refine List.find?_eq_none.mpr fun k hk => ?_
  have hmem := List.mem_range'_1.mp hk
  rw [h k (by omega)]
  exact Bool.false_ne_true

end

/-! ## One character -/

def Round.tokens? : Round → Option (List Token)
  | .next s => some s.tokens
  | .returns _ s => some s.tokens
  | .fault => none

/-- From the tokens `before` on, `x` is `y` cut off at the first failure. -/
def Cut (add : Nat → Bool) (before : List Token) (x y : Round) : Prop :=
  ∀ tokens, y.tokens? = some tokens → before <+: tokens ∧
    match firstFailure add before.length tokens.length with
    | none => x = y
    | some k => ∃ s, x = .returns .nomem s ∧ s.tokens = tokens.take k

section
variable {add : Nat → Bool} {before : List Token} {x y x' y' : Round} {s : Lex} {k k' : Lex → Round}

theorem Cut.same (h : ∀ tokens, y.tokens? = some tokens → tokens = before) :
    Cut add before y y := by
  intro tokens htokens
  obtain rfl := h tokens htokens
  rw [firstFailure_self]
  exact ⟨List.prefix_refl _, rfl⟩

theorem Cut.next (h : s.tokens = before) : Cut add before (.next s) (.next s) :=
  Cut.same fun _ htokens => (Option.some.inj htokens).symm.trans h

theorem Cut.returns {r : LexResult} (h : s.tokens = before) :
    Cut add before (.returns r s) (.returns r s) :=
  Cut.same fun _ htokens => (Option.some.inj htokens).symm.trans h

theorem Cut.fault : Cut add before .fault .fault :=
  Cut.same fun _ htokens => absurd htokens (by simp [Round.tokens?])

theorem Cut.ite {p : Prop} [Decidable p] (ht : Cut add before x y) (he : Cut add before x' y') :
    Cut add before (if p then x else x') (if p then y else y') := by
  by_cases hp : p
  · rwa [if_pos hp, if_pos hp]
  · rwa [if_neg hp, if_neg hp]

theorem addToTokenArray_cut {t : Token}
    (h : Cut add (s.tokens ++ [t]) (k { s with tokens := s.tokens ++ [t] })
      (k' { s with tokens := s.tokens ++ [t] })) :
    Cut add s.tokens (addToTokenArray add s t k) (addToTokenArray (fun _ => true) s t k') := by
  intro tokens htokens
  rw [addToTokenArray, if_pos rfl] at htokens
  obtain ⟨hpre, hrest⟩ := h tokens htokens
  have hbefore : s.tokens <+: tokens := (List.prefix_append _ _).trans hpre
  have hle := hpre.length_le
  rw [List.length_append, List.length_singleton] at hle hrest
  rw [firstFailure_trans (Nat.le_succ _) hle, firstFailure_succ, addToTokenArray, addToTokenArray,
    if_pos (rfl : true = true)]
  refine ⟨hbefore, ?_⟩
  by_cases hadd : add s.tokens.length = true
  · rw [if_pos hadd, if_pos hadd, Option.none_or]
    exact hrest
  · rw [if_neg hadd, if_neg hadd, Option.some_or]
    exact ⟨s, rfl, List.prefix_iff_eq_take.mp hbefore⟩

theorem addWord_cut (h : ∀ s, Cut add s.tokens (k s) (k' s)) :
    Cut add s.tokens (addWord add s k) (addWord (fun _ => true) s k') := by
  unfold addWord storeValue
  refine Cut.ite ?_ Cut.fault
  dsimp only
  generalize readString _ maxLineSize 0 = w
  cases w with
  | none => exact Cut.fault
  | some w => exact addToTokenArray_cut (h _)

theorem pushValue_cut {c : UInt8} (h : ∀ s, Cut add s.tokens (k s) (k s)) :
    Cut add s.tokens (pushValue s c k) (pushValue s c k) := by
  unfold pushValue storeValue
  exact Cut.ite (h _) Cut.fault

/-- The branches of the source, in its order. -/
theorem lexChar_cut (c : UInt8) (s : Lex) :
    Cut add s.tokens (lexChar add c s) (lexChar (fun _ => true) c s) := by
  cases hs : s.state with
  | start =>
    simp only [lexChar, hs]
    refine Cut.ite (Cut.returns rfl) (Cut.ite (Cut.next rfl) ?_)
    refine Cut.ite (addToTokenArray_cut (Cut.next rfl)) ?_
    refine Cut.ite (addToTokenArray_cut (Cut.next rfl)) ?_
    refine Cut.ite (addToTokenArray_cut (Cut.next rfl)) ?_
    refine Cut.ite (addToTokenArray_cut (Cut.next rfl)) ?_
    refine Cut.ite (Cut.next rfl) (Cut.ite (Cut.next rfl) ?_)
    exact pushValue_cut fun _ => Cut.next rfl
  | inWord =>
    have hoperator : ∀ t s, Cut add s.tokens
        (addToTokenArray add s t fun s => .next { s with valueIndex := 0, state := .start })
        (addToTokenArray (fun _ => true) s t fun s =>
          .next { s with valueIndex := 0, state := .start }) :=
      fun _ _ => addToTokenArray_cut (Cut.next rfl)
    simp only [lexChar, hs]
    refine Cut.ite (addWord_cut fun _ => Cut.returns rfl) ?_
    refine Cut.ite (addWord_cut fun _ => Cut.next rfl) ?_
    refine Cut.ite (addWord_cut (hoperator .pipe)) (Cut.ite (addWord_cut (hoperator .redout)) ?_)
    refine Cut.ite (addWord_cut (hoperator .redin)) (Cut.ite (addWord_cut (hoperator .bg)) ?_)
    refine Cut.ite (Cut.next rfl) (Cut.ite (Cut.next rfl) ?_)
    exact pushValue_cut fun _ => Cut.next rfl
  | inDquote =>
    simp only [lexChar, hs]
    exact Cut.ite (Cut.next rfl)
      (Cut.ite (Cut.returns rfl) (pushValue_cut fun _ => Cut.next rfl))
  | inQuote =>
    simp only [lexChar, hs]
    exact Cut.ite (Cut.next rfl)
      (Cut.ite (Cut.returns rfl) (pushValue_cut fun _ => Cut.next rfl))

end

/-! ## The loop -/

/-- What comes after a round, if the loop goes on. -/
def Round.andThen (x : Round) (f : Lex → Round) : Round :=
  match x with
  | .next s => f s
  | .returns r s => .returns r s
  | .fault => .fault

section
variable {add : Nat → Bool} {cLine : List UInt8}

theorem lexLoop_succ (n : Nat) (s : Lex) :
    lexLoop add cLine (n + 1) s = (lexStep add cLine s).andThen (lexLoop add cLine n) := by
  rw [lexLoop]
  cases lexStep add cLine s <;> rfl

theorem Cut.andThen {before : List Token} {x y : Round} {f g : Lex → Round}
    (h : Cut add before x y) (hrest : ∀ s, Cut add s.tokens (f s) (g s)) :
    Cut add before (x.andThen f) (y.andThen g) := by
  intro tokens htokens
  cases y with
  | fault => exact absurd htokens (by simp [Round.andThen, Round.tokens?])
  | returns r s =>
    obtain ⟨hpre, hcut⟩ := h tokens htokens
    refine ⟨hpre, ?_⟩
    cases hfail : firstFailure add before.length tokens.length with
    | none =>
      rw [hfail] at hcut
      rw [hcut]
      rfl
    | some k =>
      rw [hfail] at hcut
      obtain ⟨u, rfl, hu⟩ := hcut
      exact ⟨u, rfl, hu⟩
  | next s =>
    obtain ⟨hpre, hcut⟩ := h s.tokens rfl
    obtain ⟨hpre', hcut'⟩ := hrest s tokens htokens
    refine ⟨hpre.trans hpre', ?_⟩
    rw [firstFailure_trans hpre.length_le hpre'.length_le]
    cases hfail : firstFailure add before.length s.tokens.length with
    | none =>
      rw [hfail] at hcut
      rw [hcut, Option.none_or]
      exact hcut'
    | some k =>
      rw [hfail] at hcut
      obtain ⟨u, rfl, hu⟩ := hcut
      refine ⟨u, rfl, ?_⟩
      -- the tokens cut off are among those of the first round
      obtain ⟨more, rfl⟩ := hpre'
      rw [hu, List.take_append_of_le_length (Nat.le_of_lt (firstFailure_lt hfail))]

theorem lexStep_cut (s : Lex) :
    Cut add s.tokens (lexStep add cLine s) (lexStep (fun _ => true) cLine s) := by
  unfold lexStep
  refine Cut.ite (Cut.returns rfl) ?_
  cases cLine[s.index]? with
  | none => exact Cut.fault
  | some c => exact lexChar_cut c { s with index := s.index + 1 }

theorem lexLoop_cut (add : Nat → Bool) (n : Nat) (s : Lex) :
    Cut add s.tokens (lexLoop add cLine n s) (lexLoop (fun _ => true) cLine n s) := by
  induction n generalizing s with
  | zero => exact Cut.next rfl
  | succ n ih =>
    rw [lexLoop_succ, lexLoop_succ]
    exact (lexStep_cut s).andThen ih

/-- What `lex_line` returns, from what it returns when no allocation fails. -/
theorem lexLine_outcome (add : Nat → Bool) {value : Nat → UInt8} {r : LexResult} {s : Lex}
    (h : lexLine (fun _ => true) value cLine = .returns r s) :
    ∃ r' s', lexLine add value cLine = .returns r' s' ∧
      (r', s'.tokens) = outcome add r s.tokens := by
  have htokens : (lexLoop (fun _ => true) cLine (maxLineSize + 1) (Lex.initial value)).tokens? =
      some s.tokens := by
    rw [← lexLine, h]
    rfl
  obtain ⟨-, hcut⟩ := lexLoop_cut add (maxLineSize + 1) (Lex.initial value) s.tokens htokens
  rw [← lexLine, ← lexLine, h] at hcut
  have hzero : (Lex.initial value).tokens.length = 0 := rfl
  rw [hzero] at hcut
  unfold outcome
  cases hfail : firstFailure add 0 s.tokens.length with
  | none =>
    rw [hfail] at hcut
    exact ⟨r, s, hcut, rfl⟩
  | some k =>
    rw [hfail] at hcut
    obtain ⟨u, hu, htok⟩ := hcut
    exact ⟨.nomem, u, hu, by rw [htok]⟩

end

end SnuSysProg.Shell
