import SnuSysProg.Shell.Syntax

/-
  The grammar of command lines.

  A line is empty, or stages joined by pipes with perhaps a `&` at the end. A stage is a word
  followed by words, `<` with a word and `>` with a word. A `<` is only in the first stage, a `>`
  only in the last, each at most once. `syntax_check` accepts these lines and no others
  (`syntaxCheck_iff`).
-/

namespace SnuSysProg.Shell

/-- What follows the first word of a stage. -/
inductive Item where
  | word (value : Str)
  | redin (value : Str)
  | redout (value : Str)

def Item.tokens : Item → List Token
  | .word value => [.word value]
  | .redin value => [.redin, .word value]
  | .redout value => [.redout, .word value]

def itemTokens (items : List Item) : List Token := items.flatMap Item.tokens

/-- A stage of a pipeline. -/
structure Command where
  name : Str
  items : List Item

def Command.tokens (stage : Command) : List Token :=
  .word stage.name :: itemTokens stage.items

def background (bg : Bool) : List Token := if bg then [.bg] else []

/-- The stages joined by pipes. -/
def commandLine (stages : List Command) (bg : Bool) : List Token :=
  [Token.pipe].intercalate (stages.map Command.tokens) ++ background bg

def Grammar (tokens : List Token) : Prop :=
  tokens = [] ∨ ∃ stages bg, stages ≠ [] ∧ tokens = commandLine stages bg ∧
    tokens.count .redin ≤ 1 ∧ (∀ stage ∈ stages.tail, .redin ∉ stage.tokens) ∧
    tokens.count .redout ≤ 1 ∧ ∀ stage ∈ stages.dropLast, .redout ∉ stage.tokens

variable {tokens l rest : List Token} {ri ro p bg : Bool} {value : Str} {items : List Item}
  {stage : Command} {stages : List Command}

/-- The stages after the first one. -/
def laterStages (stages : List Command) : List Token :=
  stages.flatMap fun stage => .pipe :: stage.tokens

theorem commandLine_cons :
    commandLine (stage :: stages) bg = stage.tokens ++ laterStages stages ++ background bg := by
  unfold commandLine
  congr 1
  induction stages generalizing stage with
  | nil => simp [laterStages]
  | cons next stages ih =>
    rw [List.map_cons, List.map_cons, List.intercalate_cons_cons, ← List.map_cons, ih]
    simp [laterStages]

/-! ## An accepted line has this form -/

theorem Accepted.form (h : Accepted ri ro p l) : ∃ items stages bg,
    l = itemTokens items ++ laterStages stages ++ background bg := by
  -- the word after a pipe or a redirection starts the form of the rest
  have hword : ∀ {value : Str} {l : List Token},
      (∃ items stages bg, .word value :: l =
        itemTokens items ++ laterStages stages ++ background bg) →
      ∃ items stages bg, l = itemTokens items ++ laterStages stages ++ background bg := by
    rintro value l ⟨items, stages, bg, heq⟩
    cases items with
    | nil =>
      cases stages with
      | nil => cases bg <;> simp [itemTokens, laterStages, background] at heq
      | cons stage stages => simp [itemTokens, laterStages] at heq
    | cons item items =>
      cases item with
      | word value' => exact ⟨items, stages, bg, (List.cons.inj heq).2⟩
      | redin value' => simp [itemTokens, Item.tokens] at heq
      | redout value' => simp [itemTokens, Item.tokens] at heq
  induction h with
  | nil => exact ⟨[], [], false, rfl⟩
  | @word _ _ _ l value h ih =>
    obtain ⟨items, stages, bg, rfl⟩ := ih
    exact ⟨.word value :: items, stages, bg, rfl⟩
  | @pipe _ _ l hnext h ih =>
    obtain ⟨value, rest, rfl⟩ := word_of_nextIsWord hnext
    obtain ⟨items, stages, bg, rfl⟩ := hword ih
    exact ⟨[], ⟨value, items⟩ :: stages, bg, by simp [itemTokens, laterStages, Command.tokens]⟩
  | bg => exact ⟨[], [], true, rfl⟩
  | @redin _ l hnext h ih =>
    obtain ⟨value, rest, rfl⟩ := word_of_nextIsWord hnext
    obtain ⟨items, stages, bg, rfl⟩ := hword ih
    exact ⟨.redin value :: items, stages, bg, rfl⟩
  | @redout _ _ l hnext h ih =>
    obtain ⟨value, rest, rfl⟩ := word_of_nextIsWord hnext
    obtain ⟨items, stages, bg, rfl⟩ := hword ih
    exact ⟨.redout value :: items, stages, bg, rfl⟩

/-- A redirection comes at most once. -/
theorem Accepted.count_le_one {op : Token} (h : Accepted ri ro p l)
    (hop : op = .redin ∨ op = .redout) : l.count op ≤ 1 := by
  by_cases hmem : op ∈ l
  · obtain ⟨a, b, rfl, ha⟩ := List.eq_append_cons_of_mem hmem
    have hbefore := List.count_eq_zero_of_not_mem ha
    have hafter := List.count_eq_zero_of_not_mem (h.notMem_rest hop)
    rw [List.count_append, List.count_cons_self]
    omega
  · rw [List.count_eq_zero_of_not_mem hmem]
    exact Nat.zero_le 1

theorem laterStages_cons : laterStages (stage :: stages) =
    .pipe :: (stage.tokens ++ laterStages stages) := rfl

theorem laterStages_split (h : stage ∈ stages) :
    ∃ a b, laterStages stages = a ++ .pipe :: (stage.tokens ++ b) := by
  obtain ⟨s₁, s₂, rfl⟩ := List.append_of_mem h
  refine ⟨laterStages s₁, laterStages s₂, ?_⟩
  unfold laterStages
  rw [List.flatMap_append, List.flatMap_cons]
  rfl

/-- The stages after the first have no `<`. -/
theorem Accepted.later_redin (h : Accepted ri ro p (l ++ laterStages stages ++ rest))
    (hmem : stage ∈ stages) : Token.redin ∉ stage.tokens := by
  obtain ⟨a, b, hsplit⟩ := laterStages_split hmem
  have hline : l ++ laterStages stages ++ rest =
      (l ++ a) ++ .pipe :: (stage.tokens ++ (b ++ rest)) := by
    rw [hsplit]
    simp
  rw [hline] at h
  exact fun hin => h.pipe_sides.2 (List.mem_append_left _ hin)

theorem Accepted.of_append {a : List Token} (h : Accepted ri ro p (a ++ l)) :
    ∃ ri ro p, Accepted ri ro p l := by
  induction a generalizing ri ro p with
  | nil => exact ⟨ri, ro, p, h⟩
  | cons t a ih =>
    rw [List.cons_append] at h
    generalize hl : a ++ l = l' at h
    cases h with
    | word h => exact ih (hl ▸ h)
    | pipe _ h => exact ih (hl ▸ h)
    | bg =>
      obtain ⟨-, rfl⟩ := List.append_eq_nil_iff.mp hl
      exact ⟨false, false, false, .nil⟩
    | redin _ h => exact ih (hl ▸ h)
    | redout _ h => exact ih (hl ▸ h)

/-- The stages before the last have no `>`. -/
theorem Accepted.front_redout (h : Accepted ri ro p (stage.tokens ++ laterStages stages ++ rest))
    {s : Command} (hmem : s ∈ (stage :: stages).dropLast) : Token.redout ∉ s.tokens := by
  induction stages generalizing stage ri ro p with
  | nil => exact absurd hmem List.not_mem_nil
  | cons next stages ih =>
    have hline : stage.tokens ++ laterStages (next :: stages) ++ rest =
        stage.tokens ++ .pipe :: (next.tokens ++ laterStages stages ++ rest) := by
      rw [laterStages_cons, List.append_assoc, List.cons_append]
    rw [hline] at h
    rcases List.mem_cons.mp hmem with rfl | hmem
    · exact h.pipe_sides.1
    · rw [← List.singleton_append, ← List.append_assoc] at h
      obtain ⟨ri', ro', p', h'⟩ := h.of_append
      exact ih h' hmem

/-! ## A line of this form is accepted -/

/-- A redirection that comes now has not come before and does not come again. -/
theorem flag_free {n : Nat} {met : Bool} (h : n + 1 + met.toNat ≤ 1) :
    met = false ∧ n + true.toNat ≤ 1 := by
  cases met with
  | false => exact ⟨rfl, h⟩
  | true => exact absurd h (by rw [Bool.toNat_true]; omega)

theorem Accepted.of_items (h : Accepted (ri || decide (.redin ∈ itemTokens items))
      (ro || decide (.redout ∈ itemTokens items)) p l)
    (hin : (itemTokens items).count .redin + ri.toNat ≤ 1)
    (hpipe : p = true → .redin ∉ itemTokens items)
    (hout : (itemTokens items).count .redout + ro.toNat ≤ 1) :
    Accepted ri ro p (itemTokens items ++ l) := by
  induction items generalizing ri ro with
  | nil => simpa [itemTokens] using h
  | cons item items ih =>
    cases item with
    | word value =>
      have htokens : itemTokens (.word value :: items) = .word value :: itemTokens items := rfl
      rw [htokens] at h hin hpipe hout ⊢
      exact .word (ih (by simpa using h) (by simpa using hin) (by simpa using hpipe)
        (by simpa using hout))
    | redin value =>
      have htokens : itemTokens (.redin value :: items) =
          .redin :: .word value :: itemTokens items := rfl
      rw [htokens] at h hin hpipe hout ⊢
      have hcount : (itemTokens items).count .redin + 1 + ri.toNat ≤ 1 := by simpa using hin
      obtain ⟨rfl, hrest⟩ := flag_free hcount
      obtain rfl : p = false := by
        cases p with
        | false => rfl
        | true => exact absurd List.mem_cons_self (hpipe rfl)
      exact .redin rfl (.word (ih (by simpa using h) hrest (by simp) (by simpa using hout)))
    | redout value =>
      have htokens : itemTokens (.redout value :: items) =
          .redout :: .word value :: itemTokens items := rfl
      rw [htokens] at h hin hpipe hout ⊢
      have hcount : (itemTokens items).count .redout + 1 + ro.toNat ≤ 1 := by simpa using hout
      obtain ⟨rfl, hrest⟩ := flag_free hcount
      exact .redout rfl
        (.word (ih (by simpa using h) (by simpa using hin) (by simpa using hpipe) hrest))

theorem accepted_background : Accepted ri ro p (background bg) := by
  cases bg with
  | false => exact .nil
  | true => exact .bg

/-- What holds of the stages before the last holds of those that come after the first. -/
theorem front_rest (hlast : ∀ s ∈ (stage :: stages).dropLast, Token.redout ∉ s.tokens) :
    ∀ s ∈ stages.dropLast, .redout ∉ s.tokens := by
  intro s hs
  cases stages with
  | nil => exact absurd hs List.not_mem_nil
  | cons next stages => exact hlast s (List.mem_cons_of_mem _ hs)

/-- A stage that is not the last leaves the `>` to the later ones. -/
theorem front_first (hlast : ∀ s ∈ (stage :: stages).dropLast, Token.redout ∉ s.tokens)
    (hne : stages ≠ []) : (false || decide (Token.redout ∈ itemTokens stage.items)) = false := by
  cases stages with
  | nil => exact absurd rfl hne
  | cons next stages =>
    have hnot := hlast stage List.mem_cons_self
    rw [Bool.false_or]
    exact decide_eq_false fun hmem => hnot (List.mem_cons_of_mem _ hmem)

theorem accepted_laterStages (hin : ∀ s ∈ stages, .redin ∉ s.tokens)
    (hout : (laterStages stages).count .redout ≤ 1)
    (hlast : ∀ s ∈ stages.dropLast, .redout ∉ s.tokens) (hro : stages ≠ [] → ro = false) :
    Accepted ri ro p (laterStages stages ++ background bg) := by
  induction stages generalizing ri ro p with
  | nil => exact accepted_background
  | cons stage stages ih =>
    obtain rfl := hro (List.cons_ne_nil _ _)
    have hredin : Token.redin ∉ itemTokens stage.items := fun hmem =>
      hin stage List.mem_cons_self (List.mem_cons_of_mem _ hmem)
    have hcount : (itemTokens stage.items).count .redout +
        (laterStages stages).count .redout ≤ 1 := by
      rw [laterStages_cons, List.count_cons_of_ne (by simp), List.count_append] at hout
      unfold Command.tokens at hout
      rwa [List.count_cons_of_ne (by simp)] at hout
    rw [laterStages_cons, List.cons_append, List.append_assoc]
    refine .pipe rfl (.word (Accepted.of_items ?_ ?_ (fun _ => hredin) ?_))
    · exact ih (fun s hs => hin s (List.mem_cons_of_mem _ hs)) (by omega) (front_rest hlast)
        (front_first hlast)
    · rw [List.count_eq_zero_of_not_mem hredin, Nat.zero_add]
      exact Bool.toNat_le ri
    · rw [Bool.toNat_false]
      omega

/-! ## `syntax_check` -/

theorem success_of_accepted (h : Accepted ri ro p l) : syntaxLoop false ri ro p l = .success := by
  induction h with
  | nil => rfl
  | word h ih => exact ih
  | pipe hnext h ih => simpa [syntaxLoop, hnext] using ih
  | bg => rfl
  | redin hnext h ih => simpa [syntaxLoop, hnext] using ih
  | redout hnext h ih => simpa [syntaxLoop, hnext] using ih

theorem syntaxCheck_cons : syntaxCheck (.word value :: l) = .success ↔
    Accepted false false false l :=
  ⟨accepted_of_success, success_of_accepted⟩

theorem count_commandLine {op : Token} (hbg : op ≠ .bg) :
    (commandLine (stage :: stages) bg).count op =
      stage.tokens.count op + (laterStages stages).count op := by
  have hback : (background bg).count op = 0 := by
    refine List.count_eq_zero_of_not_mem fun hmem => ?_
    cases bg with
    | false => exact absurd hmem List.not_mem_nil
    | true => exact hbg (List.mem_singleton.mp hmem)
  rw [commandLine_cons, List.count_append, List.count_append, hback, Nat.add_zero]

theorem Grammar.accepted (hin : (commandLine (stage :: stages) bg).count .redin ≤ 1)
    (hfirst : ∀ s ∈ stages, .redin ∉ s.tokens)
    (hout : (commandLine (stage :: stages) bg).count .redout ≤ 1)
    (hlast : ∀ s ∈ (stage :: stages).dropLast, .redout ∉ s.tokens) :
    syntaxCheck (commandLine (stage :: stages) bg) = .success := by
  rw [count_commandLine (by simp)] at hin hout
  unfold Command.tokens at hin hout
  rw [List.count_cons_of_ne (by simp)] at hin hout
  rw [commandLine_cons, Command.tokens, List.cons_append, List.cons_append, syntaxCheck_cons,
    List.append_assoc]
  refine Accepted.of_items ?_ ?_ (by simp) ?_
  · exact accepted_laterStages hfirst (by omega) (front_rest hlast) (front_first hlast)
  · rw [Bool.toNat_false]
    omega
  · rw [Bool.toNat_false]
    omega

/-- `syntax_check` accepts the lines of the grammar. -/
theorem syntaxCheck_iff (tokens : List Token) : syntaxCheck tokens = .success ↔ Grammar tokens := by
  constructor
  · intro h
    cases tokens with
    | nil => exact Or.inl rfl
    | cons t l =>
      have hacc := accepted_of_syntaxCheck h
      cases t with
      | word value =>
        obtain ⟨items, stages, bg, rfl⟩ := (syntaxCheck_cons.mp h).form
        have hshape : .word value :: (itemTokens items ++ laterStages stages ++ background bg) =
            Command.tokens ⟨value, items⟩ ++ laterStages stages ++ background bg := rfl
        refine Or.inr ⟨⟨value, items⟩ :: stages, bg, List.cons_ne_nil _ _,
          hshape.trans commandLine_cons.symm,
          hacc.count_le_one (Or.inl rfl), fun s hs => ?_, hacc.count_le_one (Or.inr rfl),
          fun s hs => ?_⟩
        · rw [hshape] at hacc
          exact hacc.later_redin hs
        · rw [hshape] at hacc
          exact hacc.front_redout hs
      | _ => exact absurd h (by simp [syntaxCheck, syntaxLoop])
  · rintro (rfl | ⟨stages, bg, hne, rfl, hin, hfirst, hout, hlast⟩)
    · rfl
    · cases stages with
      | nil => exact absurd rfl hne
      | cons stage stages => exact Grammar.accepted hin hfirst hout hlast

end SnuSysProg.Shell
