import Mathlib.Data.List.Basic

/-
  The comment rules of the readme, as a function on texts, and two ways to read a text.

  `reference` is the readme: it scans left to right and treats each comment and each literal as
  one piece. `reading` scans one character at a time in a `Mode`. With `slashTakesNext := false`
  it is the reference (`reading_eq_reference`). With `slashTakesNext := true` a slash that opens
  no comment takes the next character along unread, so a quote there opens no literal.

  Both readings replace a comment by the same text, so what they write differs exactly when they
  open different comments (`reading_text_eq_iff`).
-/

namespace SnuSysProg.Decomment

/-- What a scan of a text yields: the text to write, where comments open (as the number of
    characters from the opening slash to the end of the text), and whether a `/*` comment is
    still open at the end. -/
structure Reading where
  text : List Char
  openings : List Nat
  unterminated : Bool

def Reading.empty : Reading := ⟨[], [], false⟩

/-- The characters `l` are copied before `r`. -/
def Reading.copy (l : List Char) (r : Reading) : Reading := { r with text := l ++ r.text }

/-- A comment opens `at` characters from the end and is replaced by `l`. -/
def Reading.comment (at_ : Nat) (l : List Char) (r : Reading) : Reading :=
  { r with text := l ++ r.text, openings := at_ :: r.openings }

/-! ## Comments and literals -/

/-- The rest of the text after a `//` comment: from the next newline on. -/
def afterLine : List Char → List Char
  | [] => []
  | c :: s => if c = '\n' then c :: s else afterLine s

/-- The newlines of a text. -/
def newlines (s : List Char) : List Char := s.filter (fun c => c = '\n')

/-- What a `/*` comment holds up to its first `*/`, and the rest of the text after that. -/
def afterBlock : List Char → Option (List Char × List Char)
  | [] => none
  | [_] => none
  | c :: d :: s =>
    if c = '*' ∧ d = '/' then some ([], s)
    else (afterBlock (d :: s)).map (fun p => (c :: p.1, p.2))

/-- The rest of a literal opened by `q`, with its closing quote if it has one, and the text after
    it. A backslash protects the next character. -/
def literal (q : Char) : List Char → List Char × List Char
  | [] => ([], [])
  | [c] => ([c], [])
  | c :: d :: s =>
    if c = q then ([c], d :: s)
    else if c = '\\' then (c :: d :: (literal q s).1, (literal q s).2)
    else (c :: (literal q (d :: s)).1, (literal q (d :: s)).2)

def isQuote (c : Char) : Bool := c = '\'' || c = '"'

theorem afterLine_length (s : List Char) : (afterLine s).length ≤ s.length := by
  induction s with
  | nil => exact Nat.le_refl _
  | cons c s ih =>
    unfold afterLine
    split
    · exact Nat.le_refl _
    · exact Nat.le_succ_of_le ih

theorem afterBlock_length {s body rest : List Char} (h : afterBlock s = some (body, rest)) :
    rest.length < s.length := by
  fun_induction afterBlock s generalizing body rest with
  | case1 => cases h
  | case2 => cases h
  | case3 c d s hcd =>
    cases h
    simp only [List.length_cons]
    omega
  | case4 c d s hcd ih =>
    obtain ⟨p, hp, he⟩ := Option.map_eq_some_iff.mp h
    cases he
    have := ih hp
    simp only [List.length_cons] at this ⊢
    omega

theorem literal_length (q : Char) (s : List Char) : (literal q s).2.length ≤ s.length := by
  fun_induction literal q s with
  | case1 => exact Nat.le_refl _
  | case2 => exact Nat.zero_le _
  | case3 => exact Nat.le_succ _
  | case4 _ _ _ ih =>
    simp only [List.length_cons]
    omega
  | case5 _ _ _ _ _ ih =>
    simp only [List.length_cons] at ih ⊢
    omega

/-- Whether a text, read from outside literals, opens a comment. -/
def opensComment : List Char → Bool
  | c :: d :: _ => c = '/' && (d = '/' || d = '*')
  | _ => false

/-- The comment a text opens: what replaces it, and the text after it unless the comment is a
    `/*` comment without end. -/
def commentAt : List Char → List Char × Option (List Char)
  | _ :: d :: s =>
    if d = '/' then ([' '], some (afterLine s))
    else
      match afterBlock s with
      | some (body, rest) => (' ' :: newlines body, some rest)
      | none => (' ' :: newlines s, none)
  | s => (s, none)

theorem commentAt_length {s rest : List Char} (h : (commentAt s).2 = some rest) :
    rest.length < s.length := by
  match s with
  | [] => cases h
  | [_] => cases h
  | c :: d :: s =>
    simp only [commentAt] at h
    by_cases hd : d = '/'
    · rw [if_pos hd] at h
      cases h
      have := afterLine_length s
      simp only [List.length_cons]
      omega
    · rw [if_neg hd] at h
      cases hb : afterBlock s with
      | none =>
        rw [hb] at h
        cases h
      | some p =>
        rw [hb] at h
        cases h
        have := afterBlock_length hb
        simp only [List.length_cons]
        omega

/-! ## The reference -/

/-- The readme's rules. A comment is replaced, a literal and any other character are copied. -/
def reference : List Char → Reading
  | [] => .empty
  | c :: s =>
    if opensComment (c :: s) then
      match h : (commentAt (c :: s)).2 with
      | some rest => .comment (s.length + 1) (commentAt (c :: s)).1 (reference rest)
      | none => ⟨(commentAt (c :: s)).1, [s.length + 1], true⟩
    else if isQuote c then .copy (c :: (literal c s).1) (reference (literal c s).2)
    else .copy [c] (reference s)
termination_by s => s.length
decreasing_by
  · exact commentAt_length h
  · have := literal_length c s
    simp only [List.length_cons]
    omega
  · simp only [List.length_cons]
    omega

/-! ## Reading character by character -/

/-- Where a reader stands outside comments. -/
inductive Mode where
  /-- Outside literals. -/
  | outside
  /-- Outside literals, with the next character already taken along by a slash. -/
  | taken
  /-- In a literal opened by `q`. -/
  | inLiteral (q : Char)
  /-- In a literal opened by `q`, after a backslash. -/
  | escaped (q : Char)

/-- The mode after copying `c`. -/
def Mode.next (slashTakesNext : Bool) (c : Char) : Mode → Mode
  | .outside =>
    if c = '/' then (if slashTakesNext then .taken else .outside)
    else if isQuote c then .inLiteral c
    else .outside
  | .taken => .outside
  | .inLiteral q => if c = q then .outside else if c = '\\' then .escaped q else .inLiteral q
  | .escaped q => .inLiteral q

/-- A reader sees a comment only from outside literals. -/
def Mode.sees (s : List Char) : Mode → Bool
  | .outside => opensComment s
  | _ => false

@[simp] theorem Mode.sees_outside (s : List Char) : Mode.outside.sees s = opensComment s := rfl

/-- The scan of a text from mode `m`. -/
def reading (slashTakesNext : Bool) (m : Mode) : List Char → Reading
  | [] => .empty
  | c :: s =>
    if m.sees (c :: s) then
      match h : (commentAt (c :: s)).2 with
      | some rest =>
        .comment (s.length + 1) (commentAt (c :: s)).1 (reading slashTakesNext .outside rest)
      | none => ⟨(commentAt (c :: s)).1, [s.length + 1], true⟩
    else .copy [c] (reading slashTakesNext (m.next slashTakesNext c) s)
termination_by s => s.length
decreasing_by
  · exact commentAt_length h
  · simp only [List.length_cons]
    omega

section Equations

variable {b : Bool} {m : Mode} {c : Char} {s rest : List Char}

theorem reading_nil : reading b m [] = .empty := by
  rw [reading]

theorem reading_copy (h : m.sees (c :: s) = false) :
    reading b m (c :: s) = .copy [c] (reading b (m.next b c) s) := by
  rw [reading, h]
  rfl

theorem reading_comment (h : m.sees (c :: s) = true) (hr : (commentAt (c :: s)).2 = some rest) :
    reading b m (c :: s) =
      .comment (s.length + 1) (commentAt (c :: s)).1 (reading b .outside rest) := by
  rw [reading, if_pos h]
  split
  · rename_i rest' heq
    rw [hr] at heq
    cases heq
    rfl
  · rename_i heq
    rw [hr] at heq
    cases heq

theorem reading_open (h : m.sees (c :: s) = true) (hr : (commentAt (c :: s)).2 = none) :
    reading b m (c :: s) = ⟨(commentAt (c :: s)).1, [s.length + 1], true⟩ := by
  rw [reading, if_pos h]
  split
  · rename_i rest' heq
    rw [hr] at heq
    cases heq
  · rfl

end Equations

/-! ## The reference is the reading without the slash rule -/

theorem Reading.copy_copy (l l' : List Char) (r : Reading) :
    (r.copy l').copy l = r.copy (l ++ l') := by
  simp [Reading.copy]

/-- Reading a literal character by character copies it whole. -/
theorem reading_literal (b : Bool) (q : Char) (s : List Char) :
    reading b (.inLiteral q) s =
      .copy (literal q s).1 (reading b .outside (literal q s).2) := by
  fun_induction literal q s with
  | case1 => rw [reading_nil, reading_nil]; rfl
  | case2 c => rw [reading_copy rfl, reading_nil, reading_nil]
  | case3 d s => rw [reading_copy rfl]; simp [Mode.next]
  | case4 d s hq ih =>
    rw [reading_copy rfl, Mode.next, if_neg hq, if_pos rfl, reading_copy rfl, Mode.next, ih,
      Reading.copy_copy, Reading.copy_copy]
    rfl
  | case5 c d s hq hb ih =>
    rw [reading_copy rfl, Mode.next, if_neg hq, if_neg hb, ih, Reading.copy_copy]
    rfl

/-- Without the slash rule the reading is the readme's reference. -/
theorem reading_eq_reference (s : List Char) : reading false .outside s = reference s := by
  fun_induction reference s with
  | case1 => exact reading_nil
  | case2 c s hc rest hr ih => rw [reading_comment (m := .outside) hc hr, ih]
  | case3 c s hc hr => rw [reading_open (m := .outside) hc hr]
  | case4 c s hc hq ih =>
    have hslash : c ≠ '/' := by
      rintro rfl
      simp [isQuote] at hq
    rw [reading_copy (m := .outside) (by simpa using hc), Mode.next, if_neg hslash, if_pos hq,
      reading_literal,
      Reading.copy_copy, ih]
    rfl
  | case5 c s hc hq ih =>
    have hnext : Mode.outside.next false c = .outside := by simp [Mode.next, hq]
    rw [reading_copy (m := .outside) (by simpa using hc), hnext, ih]

/-! ## When two readings write the same text -/

theorem opensComment_head {c : Char} {s : List Char} (h : opensComment (c :: s) = true) :
    c = '/' := by
  cases s with
  | nil => cases h
  | cons d s =>
    simp only [opensComment, Bool.and_eq_true, decide_eq_true_eq] at h
    exact h.1

theorem sees_head {m : Mode} {c : Char} {s : List Char} (h : m.sees (c :: s) = true) :
    c = '/' ∧ opensComment (c :: s) = true := by
  cases m with
  | outside => exact ⟨opensComment_head h, h⟩
  | taken => cases h
  | inLiteral => cases h
  | escaped => cases h

/-- A comment is replaced by a text that starts with a space. -/
theorem commentAt_text {s : List Char} (h : opensComment s = true) :
    ∃ l, (commentAt s).1 = ' ' :: l := by
  match s with
  | [] => cases h
  | [_] => cases h
  | c :: d :: s =>
    simp only [commentAt]
    split
    · exact ⟨_, rfl⟩
    · cases afterBlock s <;> exact ⟨_, rfl⟩

/-- A comment opens inside the text. -/
theorem openings_le (b : Bool) (m : Mode) (s : List Char) :
    ∀ x ∈ (reading b m s).openings, x ≤ s.length := by
  fun_induction reading b m s with
  | case1 => simp [Reading.empty]
  | case2 m c s hc rest hr ih =>
    intro x hx
    have hlen := commentAt_length hr
    rcases List.mem_cons.mp hx with rfl | hx
    · exact Nat.le_refl _
    · have := ih x hx
      simp only [List.length_cons] at hlen ⊢
      omega
  | case3 m c s hc hr =>
    intro x hx
    rw [List.mem_singleton.mp hx]
    exact Nat.le_refl _
  | case4 m c s hc ih =>
    intro x hx
    exact Nat.le_succ_of_le (ih x hx)

/-- A reading that opens a comment here: its text starts with a space and its first opening is
    here. -/
theorem reading_sees {b : Bool} {m : Mode} {c : Char} {s : List Char}
    (h : m.sees (c :: s) = true) :
    (∃ l, (reading b m (c :: s)).text = ' ' :: l) ∧
      ∃ l, (reading b m (c :: s)).openings = (s.length + 1) :: l := by
  obtain ⟨l, hl⟩ := commentAt_text (sees_head h).2
  cases hr : (commentAt (c :: s)).2 with
  | none =>
    rw [reading_open h hr]
    exact ⟨⟨l, hl⟩, _, rfl⟩
  | some rest =>
    rw [reading_comment h hr]
    exact ⟨⟨l ++ (reading b .outside rest).text, by simp [Reading.comment, hl]⟩, _, rfl⟩

/-- One reading opens a comment here and the other does not: they write different texts and open
    different comments. -/
theorem reading_differ (b b' : Bool) {m m' : Mode} {c : Char} {s : List Char}
    (h : m.sees (c :: s) = true) (h' : m'.sees (c :: s) = false) :
    (reading b m (c :: s)).text ≠ (reading b' m' (c :: s)).text ∧
      (reading b m (c :: s)).openings ≠ (reading b' m' (c :: s)).openings := by
  obtain ⟨⟨l, hl⟩, k, hk⟩ := reading_sees (b := b) h
  rw [hl, hk, reading_copy h', (sees_head h).1]
  constructor
  · intro he
    exact absurd (List.cons.inj he).1 (by decide)
  · intro he
    have hmem : s.length + 1 ∈ (reading b' (m'.next b' '/') s).openings := by
      change _ = (reading b' (m'.next b' '/') s).openings at he
      rw [← he]
      exact List.mem_cons_self
    have := openings_le _ _ _ _ hmem
    omega

/-- Two readings write the same text exactly when they open the same comments, and then they
    agree on whether the last one ends. -/
theorem reading_text_eq_iff (b b' : Bool) (m m' : Mode) (s : List Char) :
    ((reading b m s).text = (reading b' m' s).text ↔
        (reading b m s).openings = (reading b' m' s).openings) ∧
      ((reading b m s).openings = (reading b' m' s).openings →
        (reading b m s).unterminated = (reading b' m' s).unterminated) := by
  induction hn : s.length using Nat.strongRecOn generalizing m m' s with
  | _ n ih =>
    subst hn
    cases s with
    | nil => simp [reading_nil]
    | cons c s =>
      cases h : m.sees (c :: s) <;> cases h' : m'.sees (c :: s)
      · have := ih s.length (Nat.lt_succ_self _) (m.next b c) (m'.next b' c) s rfl
        rw [reading_copy h, reading_copy h']
        simpa [Reading.copy] using this
      · obtain ⟨ht, ho⟩ := reading_differ b' b h' h
        exact ⟨⟨fun e => absurd e.symm ht, fun e => absurd e.symm ho⟩, fun e => absurd e.symm ho⟩
      · obtain ⟨ht, ho⟩ := reading_differ b b' h h'
        exact ⟨⟨fun e => absurd e ht, fun e => absurd e ho⟩, fun e => absurd e ho⟩
      · cases hr : (commentAt (c :: s)).2 with
        | none => simp [reading_open h hr, reading_open h' hr]
        | some rest =>
          have := ih rest.length (commentAt_length hr) .outside .outside rest rfl
          rw [reading_comment h hr, reading_comment h' hr]
          simpa [Reading.comment] using this

end SnuSysProg.Decomment
