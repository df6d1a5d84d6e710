import Mathlib.Logic.Function.Basic
import SnuSysProg.Shell.Main

/-
  `lex_line` of `lexsyn.c`.

  The line is the memory from `c_line` on, and `c_value` an array that may hold anything. A read
  or a write outside of them is a `fault`. `add n` says whether the allocations for the token after
  `n` tokens succeed. Seen from the characters of the line the lexer is `scan`, which has the word
  so far in place of the array and its index; `lexLine_terminated` and `lexLine_long` say that this
  is what `lex_line` does.
-/

namespace SnuSysProg.Shell

def maxLineSize : Nat := 1024

def newlineChar : UInt8 := 10

def pipeChar : UInt8 := 124

def bgChar : UInt8 := 38

def redoutChar : UInt8 := 62

def redinChar : UInt8 := 60

def dquoteChar : UInt8 := 34

def quoteChar : UInt8 := 39

/-- `isspace` in the C locale. -/
def isspace (c : UInt8) : Bool := c = 32 || (9 ≤ c && c ≤ 13)

inductive LexState where
  | start
  | inWord
  | inDquote
  | inQuote
  deriving DecidableEq

/-- The variables of `lex_line`, and `oTokens`. -/
structure Lex where
  state : LexState
  /-- `command_line_index`. -/
  index : Nat
  valueIndex : Nat
  /-- `c_value`. -/
  value : Nat → UInt8
  tokens : List Token

def Lex.initial (value : Nat → UInt8) : Lex := ⟨.start, 0, 0, value, []⟩

/-- What one round of the loop comes to. -/
inductive Round where
  | next (s : Lex)
  | returns (r : LexResult) (s : Lex)
  | fault

def addToTokenArray (add : Nat → Bool) (s : Lex) (t : Token) (k : Lex → Round) : Round :=
  if add s.tokens.length then k { s with tokens := s.tokens ++ [t] } else .returns .nomem s

/-- The string that `make_one_token` copies, from `i`, where the array has `n` more elements. -/
def readString (value : Nat → UInt8) : Nat → Nat → Option Str
  | 0, _ => none
  | n + 1, i =>
    if value i = 0 then some [] else (readString value n (i + 1)).map fun w => value i :: w

/-- `c_value[value_index] = c`. -/
def storeValue (s : Lex) (c : UInt8) (k : Lex → Round) : Round :=
  if s.valueIndex < maxLineSize then
    k { s with value := Function.update s.value s.valueIndex c }
  else .fault

/-- `c_value[value_index++] = c`. -/
def pushValue (s : Lex) (c : UInt8) (k : Lex → Round) : Round :=
  storeValue s c fun s => k { s with valueIndex := s.valueIndex + 1 }

/-- `c_value[value_index] = '\0'`, and a WORD token. -/
def addWord (add : Nat → Bool) (s : Lex) (k : Lex → Round) : Round :=
  storeValue s 0 fun s =>
    match readString s.value maxLineSize 0 with
    | some w => addToTokenArray add s (.word w) k
    | none => .fault

/-- What a round does with the character it has read. -/
def lexChar (add : Nat → Bool) (c : UInt8) (s : Lex) : Round :=
  match s.state with
  | .start =>
    if c = newlineChar ∨ c = 0 then .returns .success s
    else if isspace c then .next { s with state := .start }
    else if c = pipeChar then
      addToTokenArray add s .pipe fun s => .next { s with state := .start }
    else if c = bgChar then addToTokenArray add s .bg fun s => .next { s with state := .start }
    else if c = redoutChar then
      addToTokenArray add s .redout fun s => .next { s with state := .start }
    else if c = redinChar then
      addToTokenArray add s .redin fun s => .next { s with state := .start }
    else if c = dquoteChar then .next { s with state := .inDquote }
    else if c = quoteChar then .next { s with state := .inQuote }
    else pushValue s c fun s => .next { s with state := .inWord }
  | .inWord =>
    if c = newlineChar ∨ c = 0 then
      addWord add s fun s => .returns .success { s with valueIndex := 0 }
    else if isspace c then
      addWord add s fun s => .next { s with valueIndex := 0, state := .start }
    else if c = pipeChar then
      addWord add s fun s => addToTokenArray add s .pipe fun s =>
        .next { s with valueIndex := 0, state := .start }
    else if c = redoutChar then
      addWord add s fun s => addToTokenArray add s .redout fun s =>
        .next { s with valueIndex := 0, state := .start }
    else if c = redinChar then
      addWord add s fun s => addToTokenArray add s .redin fun s =>
        .next { s with valueIndex := 0, state := .start }
    else if c = bgChar then
      addWord add s fun s => addToTokenArray add s .bg fun s =>
        .next { s with valueIndex := 0, state := .start }
    else if c = dquoteChar then .next { s with state := .inDquote }
    else if c = quoteChar then .next { s with state := .inQuote }
    else pushValue s c fun s => .next { s with state := .inWord }
  | .inDquote =>
    if c = dquoteChar then .next { s with state := .inWord }
    else if c = newlineChar ∨ c = 0 then .returns .qerror s
    else pushValue s c .next
  | .inQuote =>
    if c = quoteChar then .next { s with state := .inWord }
    else if c = newlineChar ∨ c = 0 then .returns .qerror s
    else pushValue s c .next

/-- One round of the loop. -/
def lexStep (add : Nat → Bool) (cLine : List UInt8) (s : Lex) : Round :=
  if s.index = maxLineSize then .returns .long s
  else match cLine[s.index]? with
  | some c => lexChar add c { s with index := s.index + 1 }
  | none => .fault

/-- The loop, for `n` rounds at most. -/
def lexLoop (add : Nat → Bool) (cLine : List UInt8) : Nat → Lex → Round
  | 0, s => .next s
  | n + 1, s =>
    match lexStep add cLine s with
    | .next s => lexLoop add cLine n s
    | .returns r s => .returns r s
    | .fault => .fault

/-- `lex_line`, where `value` is what `c_value` holds at first. -/
def lexLine (add : Nat → Bool) (value : Nat → UInt8) (cLine : List UInt8) : Round :=
  lexLoop add cLine (maxLineSize + 1) (Lex.initial value)

/-! ## The lexer seen from the characters -/

def isTerminator (c : UInt8) : Bool := c = newlineChar || c = 0

/-- The token of an operator. -/
def operator (c : UInt8) : Option Token :=
  if c = pipeChar then some .pipe
  else if c = bgChar then some .bg
  else if c = redoutChar then some .redout
  else if c = redinChar then some .redin
  else none

structure Scan where
  state : LexState
  word : Str
  tokens : List Token

def Scan.initial : Scan := ⟨.start, [], []⟩

/-- A character that goes into a word, or starts a quote. -/
def Scan.inside (m : Scan) (c : UInt8) : Scan :=
  if c = dquoteChar then { m with state := .inDquote }
  else if c = quoteChar then { m with state := .inQuote }
  else ⟨.inWord, m.word ++ [c], m.tokens⟩

/-- A character that does not end the line. -/
def Scan.char (m : Scan) (c : UInt8) : Scan :=
  match m.state with
  | .start =>
    if isspace c then m
    else match operator c with
      | some t => ⟨.start, [], m.tokens ++ [t]⟩
      | none => m.inside c
  | .inWord =>
    if isspace c then ⟨.start, [], m.tokens ++ [.word m.word]⟩
    else match operator c with
      | some t => ⟨.start, [], m.tokens ++ [.word m.word, t]⟩
      | none => m.inside c
  | .inDquote =>
    if c = dquoteChar then { m with state := .inWord } else { m with word := m.word ++ [c] }
  | .inQuote =>
    if c = quoteChar then { m with state := .inWord } else { m with word := m.word ++ [c] }

/-- At the end of the line. -/
def Scan.finish (m : Scan) : LexResult × List Token :=
  match m.state with
  | .start => (.success, m.tokens)
  | .inWord => (.success, m.tokens ++ [.word m.word])
  | .inDquote => (.qerror, m.tokens)
  | .inQuote => (.qerror, m.tokens)

/-- What the lexer has seen after these characters. -/
def scan (l : List UInt8) : Scan := l.foldl Scan.char Scan.initial

theorem scan_append (p l : List UInt8) : scan (p ++ l) = l.foldl Scan.char (scan p) :=
  List.foldl_append

theorem scan_snoc (p : List UInt8) (c : UInt8) : scan (p ++ [c]) = (scan p).char c :=
  scan_append p [c]

/-! ## The array and its index -/

section
variable {add : Nat → Bool} {s : Lex} {k : Lex → Round}

theorem addToTokenArray_eq (hadd : ∀ n, add n = true) (t : Token) :
    addToTokenArray add s t k = k { s with tokens := s.tokens ++ [t] } := by
  rw [addToTokenArray, if_pos (hadd _)]

theorem storeValue_eq (h : s.valueIndex < maxLineSize) (c : UInt8) :
    storeValue s c k = k { s with value := Function.update s.value s.valueIndex c } :=
  if_pos h

theorem pushValue_eq (h : s.valueIndex < maxLineSize) (c : UInt8) :
    pushValue s c k =
      k { s with
        value := Function.update s.value s.valueIndex c
        valueIndex := s.valueIndex + 1 } :=
  storeValue_eq h c

/-- A string and its NUL are read back. -/
theorem readString_eq {value : Nat → UInt8} (w : Str) (n i : Nat)
    (hw : (List.range' i w.length).map value = w) (hend : value (i + w.length) = 0)
    (hnul : 0 ∉ w) (hn : w.length < n) : readString value n i = some w := by
  induction w generalizing n i with
  | nil =>
    obtain ⟨n, rfl⟩ : ∃ m, n = m + 1 := ⟨n - 1, by simp at hn; omega⟩
    rw [readString, if_pos (by simpa using hend)]
  | cons c w ih =>
    obtain ⟨n, rfl⟩ : ∃ m, n = m + 1 := ⟨n - 1, by omega⟩
    rw [List.length_cons, List.range'_succ, List.map_cons, List.cons.injEq] at hw
    have hc : value i ≠ 0 := fun h => hnul (by rw [← h, hw.1]; exact List.mem_cons_self)
    have hrest : readString value n (i + 1) = some w := by
      apply ih n (i + 1) hw.2
      · rw [← hend, List.length_cons, Nat.add_right_comm, Nat.add_assoc]
      · exact fun h => hnul (List.mem_cons_of_mem _ h)
      · rw [List.length_cons] at hn
        omega
    rw [readString, if_neg hc, hrest, Option.map_some, hw.1]

/-- Storing at the index leaves the word as it is. -/
theorem map_update_range (value : Nat → UInt8) (n : Nat) (c : UInt8) :
    (List.range n).map (Function.update value n c) = (List.range n).map value := by
  apply List.map_congr_left
  intro i hi
  exact Function.update_of_ne (List.mem_range.mp hi).ne c value

theorem addWord_eq (hadd : ∀ n, add n = true) (h : s.valueIndex < maxLineSize) {w : Str}
    (hw : (List.range s.valueIndex).map s.value = w) (hnul : 0 ∉ w) :
    addWord add s k =
      k { s with
        value := Function.update s.value s.valueIndex 0
        tokens := s.tokens ++ [.word w] } := by
  have hlen : w.length = s.valueIndex := by rw [← hw, List.length_map, List.length_range]
  have hread : readString (Function.update s.value s.valueIndex 0) maxLineSize 0 = some w := by
    apply readString_eq w _ _ _ _ hnul (by omega)
    · rw [hlen, ← List.range_eq_range', map_update_range, hw]
    · rw [hlen, Nat.zero_add, Function.update_self]
  rw [addWord, storeValue_eq h, hread]
  exact addToTokenArray_eq hadd _

end

/-! ## What `lex_line` holds -/

/-- `lex_line` has read `n` characters and holds what the scan has seen. -/
structure Tracks (n : Nat) (s : Lex) (m : Scan) : Prop where
  state : s.state = m.state
  value : (List.range s.valueIndex).map s.value = m.word
  nul : 0 ∉ m.word
  tokens : s.tokens = m.tokens
  reset : m.state = .start → m.word = []
  bound : s.valueIndex ≤ n
  /-- An open word is one of the characters read. -/
  count : s.tokens.length + (if m.state = .start then 0 else 1) ≤ n

theorem tracks_initial (value : Nat → UInt8) : Tracks 0 (Lex.initial value) Scan.initial where
  state := rfl
  value := rfl
  nul := List.not_mem_nil
  tokens := rfl
  reset _ := rfl
  bound := Nat.le_refl 0
  count := Nat.le_refl 0

section
variable {n : Nat} {s s' : Lex} {m : Scan}

theorem Tracks.succ (h : Tracks n s m) : Tracks (n + 1) s m where
  state := h.state
  value := h.value
  nul := h.nul
  tokens := h.tokens
  reset := h.reset
  bound := Nat.le_succ_of_le h.bound
  count := Nat.le_succ_of_le h.count

theorem Tracks.quote (h : Tracks n s m) {st : LexState} (hst : st ≠ .start) :
    Tracks (n + 1) { s with state := st } { m with state := st } where
  state := rfl
  value := h.value
  nul := h.nul
  tokens := h.tokens
  reset hstart := absurd hstart hst
  bound := Nat.le_succ_of_le h.bound
  count := by
    have hcount := h.count
    simp only [if_neg hst]
    omega

theorem Tracks.push (h : Tracks n s m) {st : LexState} (hst : st ≠ .start) {c : UInt8}
    (hc : c ≠ 0) :
    Tracks (n + 1)
      { s with
        state := st
        value := Function.update s.value s.valueIndex c
        valueIndex := s.valueIndex + 1 }
      ⟨st, m.word ++ [c], m.tokens⟩ where
  state := rfl
  value := by
    dsimp only
    rw [List.range_succ, List.map_append, map_update_range, h.value, List.map_singleton,
      Function.update_self]
  nul hmem := by
    rcases List.mem_append.mp hmem with hw | hlast
    · exact h.nul hw
    · exact hc (List.mem_singleton.mp hlast).symm
  tokens := h.tokens
  reset hstart := absurd hstart hst
  bound := Nat.succ_le_succ h.bound
  count := by
    have hcount := h.count
    simp only [if_neg hst]
    omega

/-- Tokens for a character, one more when it closes a word. -/
theorem Tracks.emit (h : Tracks n s m) {ts : List Token} (hstate : s'.state = .start)
    (hindex : s'.valueIndex = 0) (htokens : s'.tokens = s.tokens ++ ts)
    (hts : ts.length ≤ 1 + (if m.state = .start then 0 else 1)) :
    Tracks (n + 1) s' ⟨.start, [], m.tokens ++ ts⟩ where
  state := hstate
  value := by rw [hindex, List.range_zero, List.map_nil]
  nul := List.not_mem_nil
  tokens := by rw [htokens, h.tokens]
  reset _ := rfl
  bound := by omega
  count := by
    have hcount := h.count
    simp only [htokens, List.length_append, reduceIte]
    omega

theorem Tracks.valueIndex_zero (h : Tracks n s m) (hm : m.state = .start) : s.valueIndex = 0 := by
  have hlen := congrArg List.length h.value
  rwa [h.reset hm, List.length_map, List.length_range] at hlen

end

/-! ## One character -/

theorem operator_cases {c : UInt8} {t : Token} (h : operator c = some t) :
    (c = pipeChar ∧ t = .pipe) ∨ (c = bgChar ∧ t = .bg) ∨ (c = redoutChar ∧ t = .redout) ∨
      (c = redinChar ∧ t = .redin) := by
  unfold operator at h
  split at h
  · exact Or.inl ⟨‹_›, (Option.some.inj h).symm⟩
  · split at h
    · exact Or.inr (Or.inl ⟨‹_›, (Option.some.inj h).symm⟩)
    · split at h
      · exact Or.inr (Or.inr (Or.inl ⟨‹_›, (Option.some.inj h).symm⟩))
      · split at h
        · exact Or.inr (Or.inr (Or.inr ⟨‹_›, (Option.some.inj h).symm⟩))
        · exact absurd h (by simp)

theorem operator_none {c : UInt8} (h : operator c = none) :
    c ≠ pipeChar ∧ c ≠ bgChar ∧ c ≠ redoutChar ∧ c ≠ redinChar := by
  refine ⟨?_, ?_, ?_, ?_⟩ <;> rintro rfl <;> exact absurd h (by decide)

theorem not_terminator {c : UInt8} (h : isTerminator c = false) : ¬ (c = newlineChar ∨ c = 0) := by
  simpa [isTerminator] using h

section
variable {add : Nat → Bool} {c : UInt8} {n : Nat} {s : Lex} {m : Scan} {t : Token}

theorem lexChar_start_operator (hs : s.state = .start) (ht : operator c = some t) :
    lexChar add c s = addToTokenArray add s t fun s => .next { s with state := .start } := by
  rcases operator_cases ht with ⟨rfl, rfl⟩ | ⟨rfl, rfl⟩ | ⟨rfl, rfl⟩ | ⟨rfl, rfl⟩ <;>
    · simp only [lexChar, hs]
      rfl

theorem lexChar_inWord_operator (hs : s.state = .inWord) (ht : operator c = some t) :
    lexChar add c s = addWord add s fun s => addToTokenArray add s t fun s =>
      .next { s with valueIndex := 0, state := .start } := by
  rcases operator_cases ht with ⟨rfl, rfl⟩ | ⟨rfl, rfl⟩ | ⟨rfl, rfl⟩ | ⟨rfl, rfl⟩ <;>
    · simp only [lexChar, hs]
      rfl

theorem lexChar_inside (hs : s.state = .start ∨ s.state = .inWord) (hc : isTerminator c = false)
    (hsp : isspace c = false) (ho : operator c = none) :
    lexChar add c s =
      if c = dquoteChar then .next { s with state := .inDquote }
      else if c = quoteChar then .next { s with state := .inQuote }
      else pushValue s c fun s => .next { s with state := .inWord } := by
  obtain ⟨h1, h2, h3, h4⟩ := operator_none ho
  rcases hs with hs | hs <;>
    simp only [lexChar, hs, if_neg (not_terminator hc), hsp, if_neg h1, if_neg h2, if_neg h3,
      if_neg h4, Bool.false_eq_true, if_false]

theorem ne_nul {c : UInt8} (hc : isTerminator c = false) : c ≠ 0 :=
  fun h => not_terminator hc (Or.inr h)

/-- A character that goes into the word or opens a quote. -/
theorem lexChar_tracks_inside (hc : isTerminator c = false) (hn : n < maxLineSize)
    (h : Tracks n s m) (hm : m.state = .start ∨ m.state = .inWord) (hsp : isspace c = false)
    (ho : operator c = none) :
    ∃ s', lexChar add c s = .next s' ∧ s'.index = s.index ∧ Tracks (n + 1) s' (m.inside c) := by
  rw [lexChar_inside (by rwa [h.state]) hc hsp ho, Scan.inside]
  by_cases hd : c = dquoteChar
  · simp only [if_pos hd]
    exact ⟨_, rfl, rfl, h.quote (by decide)⟩
  by_cases hq : c = quoteChar
  · simp only [if_neg hd, if_pos hq]
    exact ⟨_, rfl, rfl, h.quote (by decide)⟩
  · simp only [if_neg hd, if_neg hq, pushValue_eq (Nat.lt_of_le_of_lt h.bound hn)]
    exact ⟨_, rfl, rfl, h.push (by decide) (ne_nul hc)⟩

theorem lexChar_start (hadd : ∀ n, add n = true) (hc : isTerminator c = false)
    (hn : n < maxLineSize) (h : Tracks n s m) (hm : m.state = .start) :
    ∃ s', lexChar add c s = .next s' ∧ s'.index = s.index ∧ Tracks (n + 1) s' (m.char c) := by
  have hs : s.state = .start := h.state.trans hm
  have hzero := h.valueIndex_zero hm
  cases hsp : isspace c with
  | true =>
    have hsame : { s with state := LexState.start } = s := by rw [← hs]
    refine ⟨s, ?_, rfl, ?_⟩
    · simp only [lexChar, hs, if_neg (not_terminator hc), hsp, if_true, hsame]
    · simp only [Scan.char, hm, hsp, if_true]
      exact h.succ
  | false =>
    cases ho : operator c with
    | some t =>
      apply Exists.intro
      apply And.intro
      · rw [lexChar_start_operator hs ho, addToTokenArray_eq hadd]
      · refine ⟨rfl, ?_⟩
        simp only [Scan.char, hm, hsp, ho, Bool.false_eq_true, if_false]
        exact h.emit rfl hzero rfl (by rw [hm]; exact Nat.le_refl 1)
    | none =>
      simp only [Scan.char, hm, hsp, ho, Bool.false_eq_true, if_false]
      exact lexChar_tracks_inside hc hn h (Or.inl hm) hsp ho

theorem lexChar_inWord (hadd : ∀ n, add n = true) (hc : isTerminator c = false)
    (hn : n < maxLineSize) (h : Tracks n s m) (hm : m.state = .inWord) :
    ∃ s', lexChar add c s = .next s' ∧ s'.index = s.index ∧ Tracks (n + 1) s' (m.char c) := by
  have hs : s.state = .inWord := h.state.trans hm
  have hlt : s.valueIndex < maxLineSize := Nat.lt_of_le_of_lt h.bound hn
  cases hsp : isspace c with
  | true =>
    apply Exists.intro
    apply And.intro
    · simp only [lexChar, hs, if_neg (not_terminator hc), hsp, if_true]
      rw [addWord_eq hadd hlt h.value h.nul]
    · refine ⟨rfl, ?_⟩
      simp only [Scan.char, hm, hsp, if_true]
      exact h.emit rfl rfl rfl (Nat.le_add_right 1 _)
  | false =>
    cases ho : operator c with
    | some t =>
      apply Exists.intro
      apply And.intro
      · rw [lexChar_inWord_operator hs ho, addWord_eq hadd hlt h.value h.nul,
          addToTokenArray_eq hadd]
      · refine ⟨rfl, ?_⟩
        simp only [Scan.char, hm, hsp, ho, Bool.false_eq_true, if_false]
        exact h.emit rfl rfl (List.append_assoc _ _ _) (by rw [hm]; exact Nat.le_refl 2)
    | none =>
      simp only [Scan.char, hm, hsp, ho, Bool.false_eq_true, if_false]
      exact lexChar_tracks_inside hc hn h (Or.inr hm) hsp ho

/-- Inside a quote only the quote itself is not part of the word. -/
theorem lexChar_quoted (hc : isTerminator c = false) (hn : n < maxLineSize) (h : Tracks n s m)
    (hm : m.state = .inDquote ∨ m.state = .inQuote) :
    ∃ s', lexChar add c s = .next s' ∧ s'.index = s.index ∧ Tracks (n + 1) s' (m.char c) := by
  have hlt : s.valueIndex < maxLineSize := Nat.lt_of_le_of_lt h.bound hn
  have hpush : ∃ s', pushValue s c .next = .next s' ∧ s'.index = s.index ∧
      Tracks (n + 1) s' { m with word := m.word ++ [c] } := by
    rw [pushValue_eq hlt]
    have hst : m.state ≠ .start := by rcases hm with hm | hm <;> rw [hm] <;> decide
    have hkeep := h.push hst (ne_nul hc)
    simp only [← h.state] at hkeep
    exact ⟨_, rfl, rfl, by simpa only [h.state] using hkeep⟩
  rcases hm with hm | hm
  · rw [hm] at hpush
    simp only [lexChar, Scan.char, hm, h.state, if_neg (not_terminator hc)]
    by_cases hd : c = dquoteChar
    · simp only [if_pos hd]
      exact ⟨_, rfl, rfl, h.quote (by decide)⟩
    · simp only [if_neg hd]
      exact hpush
  · rw [hm] at hpush
    simp only [lexChar, Scan.char, hm, h.state, if_neg (not_terminator hc)]
    by_cases hq : c = quoteChar
    · simp only [if_pos hq]
      exact ⟨_, rfl, rfl, h.quote (by decide)⟩
    · simp only [if_neg hq]
      exact hpush

theorem lexChar_char (hadd : ∀ n, add n = true) (hc : isTerminator c = false)
    (hn : n < maxLineSize) (h : Tracks n s m) :
    ∃ s', lexChar add c s = .next s' ∧ s'.index = s.index ∧ Tracks (n + 1) s' (m.char c) := by
  cases hm : m.state with
  | start => exact lexChar_start hadd hc hn h hm
  | inWord => exact lexChar_inWord hadd hc hn h hm
  | inDquote => exact lexChar_quoted hc hn h (Or.inl hm)
  | inQuote => exact lexChar_quoted hc hn h (Or.inr hm)

/-- The character that ends the line. -/
theorem lexChar_terminator (hadd : ∀ n, add n = true) (hc : isTerminator c = true)
    (hn : n < maxLineSize) (h : Tracks n s m) :
    ∃ r s', lexChar add c s = .returns r s' ∧ (r, s'.tokens) = m.finish ∧
      s'.index = s.index ∧ s'.tokens.length ≤ n := by
  have hend : c = newlineChar ∨ c = 0 := by simpa [isTerminator] using hc
  have hcount := h.count
  cases hm : m.state with
  | start =>
    simp only [lexChar, h.state, hm, if_pos hend, Scan.finish, ← h.tokens]
    exact ⟨_, _, rfl, rfl, rfl, by omega⟩
  | inWord =>
    simp only [lexChar, h.state, hm, if_pos hend, Scan.finish, ← h.tokens]
    rw [addWord_eq hadd (Nat.lt_of_le_of_lt h.bound hn) h.value h.nul]
    refine ⟨_, _, rfl, rfl, rfl, ?_⟩
    simpa [hm] using hcount
  | inDquote =>
    have hne : c ≠ dquoteChar := by rcases hend with rfl | rfl <;> decide
    simp only [lexChar, h.state, hm, if_neg hne, if_pos hend, Scan.finish, ← h.tokens]
    exact ⟨_, _, rfl, rfl, rfl, by omega⟩
  | inQuote =>
    have hne : c ≠ quoteChar := by rcases hend with rfl | rfl <;> decide
    simp only [lexChar, h.state, hm, if_neg hne, if_pos hend, Scan.finish, ← h.tokens]
    exact ⟨_, _, rfl, rfl, rfl, by omega⟩

end

/-! ## The whole line -/

section
variable {add : Nat → Bool} {cLine rest : List UInt8} {s : Lex} {m : Scan}

theorem lexStep_of_drop {c : UInt8} (hline : cLine.drop s.index = c :: rest)
    (hn : s.index < maxLineSize) :
    lexStep add cLine s = lexChar add c { s with index := s.index + 1 } := by
  have hc : cLine[s.index]? = some c := by
    rw [← List.head?_drop, hline, List.head?_cons]
  rw [lexStep, if_neg (Nat.ne_of_lt hn), hc]

theorem Tracks.read {n : Nat} (h : Tracks n s m) (i : Nat) : Tracks n { s with index := i } m :=
  ⟨h.state, h.value, h.nul, h.tokens, h.reset, h.bound, h.count⟩

/-- As many rounds as there are characters `l` before the end of the line. They do not depend on
what comes after. -/
theorem lexLoop_chars (hadd : ∀ n, add n = true) (l : List UInt8)
    (hl : ∀ c ∈ l, isTerminator c = false) (hlen : s.index + l.length ≤ maxLineSize)
    (h : Tracks s.index s m) :
    ∃ s', (∀ line rest, line.drop s.index = l ++ rest →
        ∀ k, lexLoop add line (l.length + k) s = lexLoop add line k s') ∧
      s'.index = s.index + l.length ∧ Tracks s'.index s' (l.foldl Scan.char m) := by
  induction l generalizing s m with
  | nil => exact ⟨s, fun _ _ _ k => by rw [List.length_nil, Nat.zero_add], rfl, h⟩
  | cons c l ih =>
    rw [List.length_cons] at hlen
    have hn : s.index < maxLineSize := by omega
    obtain ⟨s₁, hstep, hindex, h₁⟩ :=
      lexChar_char hadd (hl c List.mem_cons_self) hn (h.read (s.index + 1))
    replace hindex : s₁.index = s.index + 1 := hindex
    have hlen₁ : s₁.index + l.length ≤ maxLineSize := by omega
    rw [← hindex] at h₁
    obtain ⟨s', hloop, hindex', h'⟩ := ih (fun d hd => hl d (List.mem_cons_of_mem _ hd)) hlen₁ h₁
    refine ⟨s', ?_, by rw [hindex', hindex, List.length_cons]; omega, h'⟩
    intro line rest hline k
    have hline₁ : line.drop s₁.index = l ++ rest := by
      rw [hindex, ← List.drop_drop, hline]
      rfl
    rw [← hloop line rest hline₁ k, List.length_cons, Nat.add_right_comm, lexLoop,
      lexStep_of_drop hline hn, hstep]

/-- The characters of a line up to its end, or as far as it may be long. -/
theorem lexLine_chars (hadd : ∀ n, add n = true) (value : Nat → UInt8) {p : List UInt8}
    (hp : ∀ c ∈ p, isTerminator c = false) (hlen : p.length ≤ maxLineSize) :
    ∃ s, (∀ rest, lexLine add value (p ++ rest) =
        lexLoop add (p ++ rest) (maxLineSize + 1 - p.length) s) ∧
      s.index = p.length ∧ Tracks p.length s (scan p) := by
  have hfits : (Lex.initial value).index + p.length ≤ maxLineSize := by
    change 0 + p.length ≤ _
    omega
  obtain ⟨s, hloop, hindex, h⟩ := lexLoop_chars hadd p hp hfits (tracks_initial value)
  replace hindex : s.index = p.length := by rw [hindex]; exact Nat.zero_add _
  refine ⟨s, ?_, hindex, by rwa [hindex] at h⟩
  intro rest
  rw [lexLine, ← hloop (p ++ rest) rest rfl, Nat.add_sub_cancel' (by omega)]

/-- A line that ends is read up to its end. -/
theorem lexLine_terminated (hadd : ∀ n, add n = true) (value : Nat → UInt8) {p : List UInt8}
    {t : UInt8} (hp : ∀ c ∈ p, isTerminator c = false) (ht : isTerminator t = true)
    (hlen : p.length < maxLineSize) :
    ∃ r s, (∀ rest, lexLine add value (p ++ t :: rest) = .returns r s) ∧
      (r, s.tokens) = (scan p).finish ∧ s.index = p.length + 1 ∧ s.tokens.length ≤ p.length := by
  obtain ⟨s, hlex, hindex, h⟩ := lexLine_chars hadd value hp (Nat.le_of_lt hlen)
  obtain ⟨r, s', hreturns, htokens, hindex', hcount⟩ :=
    lexChar_terminator hadd ht hlen (h.read (p.length + 1))
  refine ⟨r, s', ?_, htokens, hindex', hcount⟩
  intro rest
  obtain ⟨k, hk⟩ : ∃ k, maxLineSize + 1 - p.length = k + 1 := ⟨maxLineSize - p.length, by omega⟩
  have hline : (p ++ t :: rest).drop s.index = t :: rest := by rw [hindex, List.drop_left]
  rw [hlex, hk, lexLoop, lexStep_of_drop hline (by omega), hindex, hreturns]

/-- A line that does not end is read as far as it may be long. -/
theorem lexLine_long (hadd : ∀ n, add n = true) (value : Nat → UInt8) {p : List UInt8}
    (hp : ∀ c ∈ p, isTerminator c = false) (hlen : p.length = maxLineSize) :
    ∃ s, (∀ rest, lexLine add value (p ++ rest) = .returns .long s) ∧ s.index = maxLineSize ∧
      s.tokens.length ≤ maxLineSize := by
  obtain ⟨s, hlex, hindex, h⟩ := lexLine_chars hadd value hp (Nat.le_of_eq hlen)
  have hcount := h.count
  refine ⟨s, ?_, by omega, by omega⟩
  intro rest
  rw [hlex, hlen, Nat.add_sub_cancel_left, lexLoop, lexStep, if_pos (by omega)]

end

end SnuSysProg.Shell
