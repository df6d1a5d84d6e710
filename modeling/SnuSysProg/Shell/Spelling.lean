import Mathlib.Data.List.Forall2
import SnuSysProg.Shell.Allocations
import SnuSysProg.Shell.LineEnd

/-
  How tokens are spelled, and what `lex_line` makes of a spelling.

  An operator is spelled as its character. A word is spelled as one segment or more, each between
  two quotes of one kind that the segment does not contain; empty segments are allowed, and so the
  empty word has a spelling. `lexLine_spelled`: the spellings of any tokens with a space between
  them are read back as these tokens. `lexLine_spacing`: spaces around an operator change nothing.
-/

namespace SnuSysProg.Shell

def spaceChar : UInt8 := 32

/-- A part of a word in quotes. -/
structure Segment where
  quote : UInt8
  text : Str
  isQuote : quote = dquoteChar ∨ quote = quoteChar
  free : quote ∉ text
  plain : ∀ c ∈ text, isTerminator c = false

def Segment.spelling (g : Segment) : List UInt8 := g.quote :: g.text ++ [g.quote]

/-- The characters spell the token. -/
inductive Spells : Token → List UInt8 → Prop where
  | pipe : Spells .pipe [pipeChar]
  | redin : Spells .redin [redinChar]
  | redout : Spells .redout [redoutChar]
  | bg : Spells .bg [bgChar]
  | word (segments : List Segment) (hne : segments ≠ []) :
      Spells (.word (segments.flatMap Segment.text)) (segments.flatMap Segment.spelling)

/-! ## One segment -/

section
variable {m : Scan} {c : UInt8}

theorem char_opens (hm : m.state.quote = none) (hc : c = dquoteChar ∨ c = quoteChar) :
    ∃ st : LexState, st.quote = some c ∧ m.char c = { m with state := st } := by
  rcases hc with rfl | rfl
  · exact ⟨.inDquote, rfl, char_inside hm rfl rfl⟩
  · exact ⟨.inQuote, rfl, char_inside hm rfl rfl⟩

theorem foldl_quoted {q : UInt8} (text : Str) (hm : m.state.quote = some q) (hq : q ∉ text) :
    text.foldl Scan.char m = { m with word := m.word ++ text } := by
  induction text generalizing m with
  | nil => simp
  | cons c text ih =>
    have hc : c ≠ q := fun h => hq (by rw [h]; exact List.mem_cons_self)
    have hrest := ih (m := { m with word := m.word ++ [c] }) hm
      fun h => hq (List.mem_cons_of_mem c h)
    rw [List.foldl_cons, char_quoted hm hc, hrest, List.append_assoc, List.singleton_append]

theorem foldl_segment (g : Segment) (hm : m.state.quote = none) :
    g.spelling.foldl Scan.char m = ⟨.inWord, m.word ++ g.text, m.tokens⟩ := by
  obtain ⟨st, hst, hopen⟩ := char_opens hm g.isQuote
  rw [Segment.spelling, List.cons_append, List.foldl_cons, hopen, List.foldl_append,
    foldl_quoted g.text hst g.free, List.foldl_cons, List.foldl_nil, char_closes hst]

end

/-! ## One token -/

/-- These are the tokens if the line ends here or a space comes. -/
def Scan.Closes (m : Scan) (tokens : List Token) : Prop :=
  m = ⟨.start, [], tokens⟩ ∨
    ∃ w before, m = ⟨.inWord, w, before⟩ ∧ tokens = before ++ [.word w]

theorem Scan.Closes.space {m : Scan} {tokens : List Token} (h : m.Closes tokens) :
    m.char spaceChar = ⟨.start, [], tokens⟩ := by
  rcases h with rfl | ⟨w, before, rfl, rfl⟩ <;> rfl

theorem Scan.Closes.finish {m : Scan} {tokens : List Token} (h : m.Closes tokens) :
    m.finish = (.success, tokens) := by
  rcases h with rfl | ⟨w, before, rfl, rfl⟩ <;> rfl

theorem foldl_segments (segments : List Segment) (w : Str) (before : List Token) :
    (segments.flatMap Segment.spelling).foldl Scan.char ⟨.inWord, w, before⟩ =
      ⟨.inWord, w ++ segments.flatMap Segment.text, before⟩ := by
  induction segments generalizing w with
  | nil => simp
  | cons g segments ih =>
    rw [List.flatMap_cons, List.foldl_append, foldl_segment g rfl, ih, List.flatMap_cons,
      List.append_assoc]

theorem Spells.foldl {t : Token} {text : List UInt8} (h : Spells t text) (before : List Token) :
    (text.foldl Scan.char ⟨.start, [], before⟩).Closes (before ++ [t]) := by
  cases h with
  | pipe => exact Or.inl rfl
  | redin => exact Or.inl rfl
  | redout => exact Or.inl rfl
  | bg => exact Or.inl rfl
  | word segments hne =>
    obtain ⟨g, rest, rfl⟩ := List.exists_cons_of_ne_nil hne
    refine Or.inr ⟨_, before, ?_, rfl⟩
    rw [List.flatMap_cons, List.foldl_append, foldl_segment g rfl, foldl_segments]
    rfl

theorem Segment.spelling_plain (g : Segment) : ∀ c ∈ g.spelling, isTerminator c = false := by
  have hquote : isTerminator g.quote = false := by
    rcases g.isQuote with h | h <;> rw [h] <;> rfl
  intro c hc
  simp only [Segment.spelling, List.mem_append, List.mem_cons, List.not_mem_nil, or_false] at hc
  rcases hc with (rfl | hc) | rfl
  · exact hquote
  · exact g.plain c hc
  · exact hquote

theorem Spells.plain {t : Token} {text : List UInt8} (h : Spells t text) :
    ∀ c ∈ text, isTerminator c = false := by
  intro c hc
  cases h with
  | word segments hne =>
    obtain ⟨g, -, hg⟩ := List.mem_flatMap.mp hc
    exact g.spelling_plain c hg
  | _ =>
    rw [List.mem_singleton.mp hc]
    rfl

/-! ## All tokens -/

/-- The spellings with a space between them. -/
def joined (texts : List (List UInt8)) : List UInt8 := [spaceChar].intercalate texts

theorem joined_cons_cons (x y : List UInt8) (rest : List (List UInt8)) :
    joined (x :: y :: rest) = x ++ spaceChar :: joined (y :: rest) := by
  rw [joined, List.intercalate_cons_cons, List.append_assoc]
  rfl

section
variable {tokens : List Token} {texts : List (List UInt8)}

theorem foldl_joined (h : List.Forall₂ Spells tokens texts) (before : List Token) :
    ((joined texts).foldl Scan.char ⟨.start, [], before⟩).Closes (before ++ tokens) := by
  induction h generalizing before with
  | nil => exact Or.inl (by rw [List.append_nil]; rfl)
  | @cons t x ts xs hx hrest ih =>
    cases hrest with
    | nil =>
      rw [joined, List.intercalate_singleton]
      exact hx.foldl before
    | @cons t' y ts' xs' hy hrest' =>
      rw [joined_cons_cons, List.foldl_append, List.foldl_cons, (hx.foldl before).space,
        List.append_cons before t (t' :: ts')]
      exact ih (before ++ [t])

theorem joined_plain (h : List.Forall₂ Spells tokens texts) :
    ∀ c ∈ joined texts, isTerminator c = false := by
  induction h with
  | nil => exact fun c hc => absurd hc List.not_mem_nil
  | @cons t x ts xs hx hrest ih =>
    cases hrest with
    | nil =>
      rw [joined, List.intercalate_singleton]
      exact hx.plain
    | @cons t' y ts' xs' hy hrest' =>
      intro c hc
      rw [joined_cons_cons, List.mem_append, List.mem_cons] at hc
      rcases hc with hc | rfl | hc
      · exact hx.plain c hc
      · rfl
      · exact ih c hc

/-- `lex_line` undoes the spelling, if the tokens can be allocated. -/
theorem lexLine_spelled {add : Nat → Bool} (hadd : ∀ n < tokens.length, add n = true)
    (value : Nat → UInt8) (h : List.Forall₂ Spells tokens texts) {t : UInt8}
    (ht : isTerminator t = true)
    (hlen : (joined texts ++ [t]).length ≤ maxLineSize) (rest : List UInt8) :
    ∃ s, lexLine add value (joined texts ++ t :: rest) = .returns .success s ∧
      s.tokens = tokens := by
  rw [List.length_append, List.length_singleton] at hlen
  obtain ⟨r, s, hlex, htokens, -, -⟩ :=
    lexLine_terminated (fun _ => rfl) value (joined_plain h) ht (by omega)
  have hfinish : (r, s.tokens) = (.success, tokens) := htokens.trans (foldl_joined h []).finish
  obtain ⟨rfl, rfl⟩ := Prod.mk.inj hfinish
  obtain ⟨r', s', hlex', hout⟩ := lexLine_outcome add (hlex rest)
  rw [outcome, firstFailure_none hadd] at hout
  obtain ⟨rfl, hsame⟩ := Prod.mk.inj hout
  exact ⟨s', hlex', hsame⟩

/-- `'a|'"b" | ""` and a newline. -/
theorem lexLine_spelled_quotes :
    ∃ s, lexLine (fun _ => true) (fun _ => 0)
        [quoteChar, 97, pipeChar, quoteChar, dquoteChar, 98, dquoteChar, spaceChar, pipeChar,
          spaceChar, dquoteChar, dquoteChar, newlineChar] = .returns .success s ∧
      s.tokens = [.word [97, pipeChar, 98], .pipe, .word []] := by
  have hpipe : ∀ c ∈ [97, pipeChar], isTerminator c = false :=
    List.forall_mem_cons.mpr ⟨rfl, List.forall_mem_singleton.mpr rfl⟩
  have hplain : ∀ c ∈ [98], isTerminator c = false := List.forall_mem_singleton.mpr rfl
  have hnone : ∀ c ∈ ([] : Str), isTerminator c = false := List.forall_mem_nil _
  have hword : Spells (.word [97, pipeChar, 98])
      [quoteChar, 97, pipeChar, quoteChar, dquoteChar, 98, dquoteChar] :=
    Spells.word [⟨quoteChar, [97, pipeChar], Or.inr rfl, by decide, hpipe⟩,
      ⟨dquoteChar, [98], Or.inl rfl, by decide, hplain⟩] (List.cons_ne_nil _ _)
  have hempty : Spells (.word []) [dquoteChar, dquoteChar] :=
    Spells.word [⟨dquoteChar, [], Or.inl rfl, by decide, hnone⟩] (List.cons_ne_nil _ _)
  exact lexLine_spelled (fun _ _ => rfl) _ (.cons hword (.cons .pipe (.cons hempty .nil)))
    (rfl : isTerminator newlineChar = true) (by decide) []

end

/-! ## Spaces around an operator -/

theorem char_space_operator {m : Scan} (hm : m.state.quote = none) {o : UInt8} {t : Token}
    (ho : operator o = some t) :
    [spaceChar, o, spaceChar].foldl Scan.char m = m.char o := by
  have hsp : isspace o = false := by
    rcases operator_cases ho with ⟨rfl, -⟩ | ⟨rfl, -⟩ | ⟨rfl, -⟩ | ⟨rfl, -⟩ <;> rfl
  have hspace : isspace spaceChar = true := rfl
  cases h : m.state with
  | start => simp [Scan.char, h, hsp, hspace, ho]
  | inWord => simp [Scan.char, h, hsp, hspace, ho]
  | inDquote => simp [h, LexState.quote] at hm
  | inQuote => simp [h, LexState.quote] at hm

theorem scan_spacing {p : List UInt8} (hp : openQuote p = none) {o : UInt8} {t : Token}
    (ho : operator o = some t) (b : List UInt8) :
    scan (p ++ [spaceChar, o, spaceChar] ++ b) = scan (p ++ [o] ++ b) := by
  have hquote : (scan p).state.quote = none := by rw [quote_scan, hp]
  rw [scan_append, scan_append p, char_space_operator hquote ho, scan_append, scan_snoc]

/-- The end of the line comes after what has none. -/
theorem terminator_after {q s : List UInt8} (hq : ∀ c ∈ q, isTerminator c = false)
    (hends : LineEnds (q ++ s)) : ∃ c ∈ s, isTerminator c = true := by
  obtain ⟨c, hc, hterm⟩ := hends
  rcases List.mem_append.mp (List.mem_of_mem_take hc) with hc | hc
  · exact absurd hterm (by rw [hq c hc]; exact Bool.false_ne_true)
  · exact ⟨c, hc, hterm⟩

/-- With `p` before it and a line `s` after it, an operator may have spaces around it. -/
theorem lexLine_spacing (add : Nat → Bool) (value value' : Nat → UInt8)
    {p s : List UInt8} {o : UInt8} (hp : ∀ c ∈ p, isTerminator c = false)
    (hopen : openQuote p = none)
    (ho : o = pipeChar ∨ o = bgChar ∨ o = redoutChar ∨ o = redinChar)
    (hends : LineEnds (p ++ [o] ++ s))
    (hends' : LineEnds (p ++ [spaceChar, o, spaceChar] ++ s)) :
    ∃ r u u', lexLine add value (p ++ [o] ++ s) = .returns r u ∧
      lexLine add value' (p ++ [spaceChar, o, spaceChar] ++ s) = .returns r u' ∧
      u.tokens = u'.tokens := by
  have hoperator : isTerminator o = false := by rcases ho with rfl | rfl | rfl | rfl <;> rfl
  have hspace : isTerminator spaceChar = false := rfl
  obtain ⟨tok, htok⟩ : ∃ tok, operator o = some tok := by
    rcases ho with rfl | rfl | rfl | rfl <;> exact ⟨_, rfl⟩
  have hone : ∀ c ∈ p ++ [o], isTerminator c = false :=
    List.forall_mem_append.mpr ⟨hp, by simpa using hoperator⟩
  have hspaced : ∀ c ∈ p ++ [spaceChar, o, spaceChar], isTerminator c = false :=
    List.forall_mem_append.mpr ⟨hp, by simp [hoperator, hspace]⟩
  obtain ⟨t, rest, ht, hsplit⟩ := terminator_split (terminator_after hone hends)
  -- `b` is what `s` has before its end.
  generalize hb : (s.takeWhile fun c => !isTerminator c) = b at hsplit
  have hplain : ∀ c ∈ b, isTerminator c = false := by
    intro c hc
    rw [← hb] at hc
    simpa using List.mem_takeWhile_imp hc
  subst hsplit
  have h₁ : ∀ c ∈ p ++ [o] ++ b, isTerminator c = false := List.forall_mem_append.mpr ⟨hone, hplain⟩
  have h₂ : ∀ c ∈ p ++ [spaceChar, o, spaceChar] ++ b, isTerminator c = false :=
    List.forall_mem_append.mpr ⟨hspaced, hplain⟩
  rw [← List.append_assoc] at hends hends' ⊢
  rw [← List.append_assoc (p ++ [spaceChar, o, spaceChar])]
  obtain ⟨r, u, hlex, htokens, -, -⟩ :=
    lexLine_terminated (fun _ => rfl) value h₁ ht (hends.length_lt h₁)
  obtain ⟨r', u', hlex', htokens', -, -⟩ :=
    lexLine_terminated (fun _ => rfl) value' h₂ ht (hends'.length_lt h₂)
  rw [scan_spacing hopen htok, ← htokens] at htokens'
  obtain ⟨rfl, hsame⟩ := Prod.mk.inj htokens'
  -- Allocations fail alike on both lines.
  obtain ⟨r₁, u₁, hlex₁, hout₁⟩ := lexLine_outcome add (hlex rest)
  obtain ⟨r₂, u₂, hlex₂, hout₂⟩ := lexLine_outcome add (hlex' rest)
  rw [hsame, ← hout₁] at hout₂
  obtain ⟨rfl, hsame'⟩ := Prod.mk.inj hout₂
  exact ⟨_, u₁, u₂, hlex₁, hlex₂, hsame'.symm⟩

/-- `a|b` and `a | b`. -/
theorem lexLine_spacing_pipe :
    ∃ r u u', lexLine (fun _ => true) (fun _ => 0) [97, pipeChar, 98, newlineChar] = .returns r u ∧
      lexLine (fun _ => true) (fun _ => 0)
        [97, spaceChar, pipeChar, spaceChar, 98, newlineChar] = .returns r u' ∧
      u.tokens = u'.tokens := by
  have hplain : ∀ c ∈ [97], isTerminator c = false := List.forall_mem_singleton.mpr rfl
  have hends : LineEnds ([97] ++ [pipeChar] ++ [98, newlineChar]) :=
    ⟨newlineChar, by simp [maxLineSize], rfl⟩
  have hends' : LineEnds ([97] ++ [spaceChar, pipeChar, spaceChar] ++ [98, newlineChar]) :=
    ⟨newlineChar, by simp [maxLineSize], rfl⟩
  exact lexLine_spacing _ _ _ hplain (by decide) (Or.inl rfl) hends hends'

end SnuSysProg.Shell
