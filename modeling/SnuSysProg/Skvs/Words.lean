import Mathlib.Data.List.TakeWhile
import SnuSysProg.Skvs.Parse

/-
  What a line of words asks for, and `skvs_parse` on its own.

  `words s` are the pieces of `s` between its spaces. A call of `strtok` gives the next word, as a
  place in the buffer, and cuts it off with a NUL; the words given before stay where they are
  (`Cut`). So `skvs_parse` returns what the words of its line ask for (`parseFrom_words`).
-/

namespace SnuSysProg.Skvs

variable {s t g r pre post rest b : Str} {ws : List Str} {x c : UInt8}

/-! ## Words -/

/-- The pieces between the spaces, without the empty ones. -/
def words (s : Str) : List Str := (s.splitOn space).filter (· ≠ [])

theorem words_nil : words [] = [] := by
  rw [words, List.splitOn_nil]
  rfl

theorem words_space (s : Str) : words (space :: s) = words s := by
  unfold words
  have hsplit : ([] ++ space :: s).splitOn space = [] :: s.splitOn space :=
    List.splitOn_append_cons_self_of_not_mem List.not_mem_nil s
  rw [List.nil_append] at hsplit
  rw [hsplit]
  rfl

theorem words_spaces (hg : ∀ x ∈ g, x = space) (s : Str) : words (g ++ s) = words s := by
  induction g with
  | nil => rfl
  | cons x g ih =>
    obtain rfl := hg x (List.mem_cons_self ..)
    rw [List.cons_append, words_space]
    exact ih fun y hy => hg y (List.mem_cons_of_mem _ hy)

theorem words_word (ht : t ≠ []) (hspace : space ∉ t) : words t = [t] := by
  unfold words
  rw [List.splitOn_eq_singleton hspace, List.filter_singleton]
  simp [ht]

theorem words_word_space (ht : t ≠ []) (hspace : space ∉ t) (s : Str) :
    words (t ++ space :: s) = t :: words s := by
  unfold words
  rw [List.splitOn_append_cons_self_of_not_mem hspace, List.filter_cons]
  simp [ht]

/-- A string is all spaces, or has a first word after its leading spaces. -/
theorem words_cases (s : Str) : (words s = [] ∧ ∀ x ∈ s, x = space) ∨
    ∃ g t r, s = g ++ t ++ r ∧ (∀ x ∈ g, x = space) ∧ t ≠ [] ∧ space ∉ t ∧
      (r = [] ∧ words s = [t] ∨ ∃ s', r = space :: s' ∧ words s = t :: words s') := by
  have hg : ∀ x ∈ s.takeWhile (· = space), x = space :=
    fun x hx => by simpa using List.mem_takeWhile_imp hx
  have hsplit : s = s.takeWhile (· = space) ++ s.dropWhile (· = space) :=
    List.takeWhile_append_dropWhile.symm
  have hwords : words s = words (s.dropWhile (· = space)) := by
    conv_lhs => rw [hsplit]
    exact words_spaces hg _
  have hhead := List.head?_dropWhile_not (fun x => decide (x = space)) s
  cases hrest : s.dropWhile (· = space) with
  | nil =>
    rw [hrest, List.append_nil] at hsplit
    rw [hrest, words_nil] at hwords
    exact Or.inl ⟨hwords, by rwa [← hsplit] at hg⟩
  | cons x l =>
    rw [hrest] at hsplit hwords hhead
    have hx : x ≠ space := of_decide_eq_false hhead
    have ht : space ∉ (x :: l).takeWhile (· ≠ space) :=
      fun hmem => by simpa using List.mem_takeWhile_imp hmem
    have hne : (x :: l).takeWhile (· ≠ space) ≠ [] := by
      rw [List.takeWhile_cons_of_pos (by simpa using hx)]
      exact List.cons_ne_nil _ _
    have hword : (x :: l).takeWhile (· ≠ space) ++ (x :: l).dropWhile (· ≠ space) = x :: l :=
      List.takeWhile_append_dropWhile
    refine Or.inr ⟨_, _, (x :: l).dropWhile (· ≠ space), ?_, hg, hne, ht, ?_⟩
    · rw [List.append_assoc, hword]
      exact hsplit
    · have hstop := List.head?_dropWhile_not (fun x => decide (x ≠ space)) (x :: l)
      rw [hwords]
      cases hr : (x :: l).dropWhile (· ≠ space) with
      | nil =>
        rw [hr, List.append_nil] at hword
        refine Or.inl ⟨rfl, ?_⟩
        rw [hword] at hne ht ⊢
        exact words_word hne ht
      | cons y s' =>
        rw [hr] at hstop hword
        obtain rfl : y = space := by simpa using hstop
        refine Or.inr ⟨s', rfl, ?_⟩
        conv_lhs => rw [← hword]
        exact words_word_space hne ht s'

/-! ## Strings in a buffer -/

/-- What comes after a string: its NUL, or the end of the buffer. -/
def Ended (rest : Buffer) : Prop := ∀ c ∈ rest.head?, c = 0

theorem ended_nul (rest : Buffer) : Ended (0 :: rest) := by
  intro c hc
  exact (Option.some.inj hc).symm

theorem takeWhile_ended {p : UInt8 → Bool} (hp : p 0 = false) (hpost : Ended post) :
    post.takeWhile p = [] := by
  cases post with
  | nil => rfl
  | cons c post =>
    obtain rfl : c = 0 := hpost c rfl
    exact List.takeWhile_cons_of_neg (by rw [hp]; decide)

theorem drop_pre (pre rest : Buffer) : (pre ++ rest).drop pre.length = rest := List.drop_left

theorem cstr_at (hs : 0 ∉ s) (hrest : Ended rest) : cstr (pre ++ s ++ rest) pre.length = s := by
  unfold cstr
  rw [List.append_assoc, drop_pre, List.takeWhile_append_of_pos, takeWhile_ended rfl hrest,
    List.append_nil]
  exact fun x hx => decide_eq_true fun h0 => hs (h0 ▸ hx)

theorem upperAt_at (hs : 0 ∉ s) (hrest : Ended rest) :
    upperAt (pre ++ s ++ rest) pre.length = pre ++ s.map toupper ++ rest := by
  unfold upperAt
  rw [cstr_at hs hrest]
  simp

theorem toupper_ne_nul (hc : c ≠ 0) : toupper c ≠ 0 := by
  unfold toupper
  split
  · rename_i hlower
    intro h0
    obtain rfl : c = 32 := by
      rw [← UInt8.sub_add_cancel c 32, h0]
      rfl
    exact absurd hlower.1 (by decide)
  · exact hc

theorem nul_notMem_upper (hs : 0 ∉ s) : 0 ∉ s.map toupper := by
  intro hmem
  obtain ⟨c, hc, h0⟩ := List.mem_map.mp hmem
  exact toupper_ne_nul (fun hc0 => hs (hc0 ▸ hc)) h0

/-! ## strtok -/

variable {saved s₀ : Option (Pos Unit)}

/-- The leading spaces. -/
theorem takeWhile_gap (hg : ∀ x ∈ g, x = space) (hrest : rest.head? ≠ some space) :
    (g ++ rest).takeWhile (· = space) = g := by
  rw [List.takeWhile_append_of_pos fun x hx => decide_eq_true (hg x hx)]
  cases rest with
  | nil => exact List.append_nil g
  | cons c rest =>
    have hc : c ≠ space := fun h => hrest (congrArg some h)
    rw [List.takeWhile_cons_of_neg (by simpa using hc), List.append_nil]

/-- The word, up to the space or the NUL. -/
theorem takeWhile_word (hspace : space ∉ t) (hnul : 0 ∉ t)
    (hrest : rest.head? = some space ∨ Ended rest) :
    (t ++ rest).takeWhile (fun c => c ≠ space ∧ c ≠ 0) = t := by
  rw [List.takeWhile_append_of_pos fun x hx => decide_eq_true
    ⟨fun h => hspace (h ▸ hx), fun h => hnul (h ▸ hx)⟩]
  rcases hrest with hsep | hend
  · cases rest with
    | nil => exact absurd hsep (by simp)
    | cons c rest =>
      obtain rfl := Option.some.inj hsep
      rw [List.takeWhile_cons_of_neg (by simp), List.append_nil]
  · rw [takeWhile_ended rfl hend, List.append_nil]

theorem Ended.head_ne (h : Ended rest) : rest.head? ≠ some space := by
  intro hhead
  exact absurd (h space hhead) (by decide)

/-- No word is left. -/
theorem strtok_none (hs : words s = []) (hpost : Ended post)
    (hat : s₀.or saved = some ⟨(), pre.length⟩) :
    strtok (fun _ => pre ++ s ++ post) saved s₀ =
      (none, fun _ => pre ++ s ++ post, some ⟨(), (pre ++ s).length⟩) := by
  have hspaces : ∀ x ∈ s, x = space := by
    rcases words_cases s with h | ⟨g, t, r, -, -, -, -, h⟩
    · exact h.2
    · rcases h with ⟨-, h⟩ | ⟨s', -, h⟩ <;> exact absurd (hs.symm.trans h) (by simp)
  have hstart : pre.length + (((pre ++ s ++ post).drop pre.length).takeWhile (· = space)).length =
      (pre ++ s).length := by
    rw [List.append_assoc, drop_pre, takeWhile_gap hspaces hpost.head_ne, List.length_append]
  unfold strtok
  rw [hat]
  dsimp only
  rw [hstart, drop_pre, takeWhile_ended rfl hpost, if_pos rfl]

theorem update_unit (b b' : Buffer) : Function.update (fun _ : Unit => b) () b' = fun _ => b' :=
  funext fun _ => rfl

/-- What `strtok` finds: the spaces, the word, and the byte behind it. -/
theorem strtok_word (hg : ∀ x ∈ g, x = space) (ht : t ≠ []) (hspace : space ∉ t) (hnul : 0 ∉ t)
    (hrest : rest.head? = some space ∨ Ended rest) (hat : s₀.or saved = some ⟨(), pre.length⟩) :
    strtok (fun _ => pre ++ g ++ t ++ rest) saved s₀ =
      if rest.head? = some space then
        (some ⟨(), (pre ++ g).length⟩, fun _ => pre ++ g ++ t ++ rest.set 0 0,
          some ⟨(), (pre ++ g ++ t).length + 1⟩)
      else (some ⟨(), (pre ++ g).length⟩, fun _ => pre ++ g ++ t ++ rest,
          some ⟨(), (pre ++ g ++ t).length⟩) := by
  have hword : (t ++ rest).head? ≠ some space := by
    cases t with
    | nil => exact absurd rfl ht
    | cons x t =>
      intro h
      exact hspace (List.mem_cons.mpr (Or.inl (Option.some.inj h).symm))
  have hstart : pre.length +
      (((pre ++ g ++ t ++ rest).drop pre.length).takeWhile (· = space)).length =
        (pre ++ g).length := by
    rw [List.append_assoc, List.append_assoc, drop_pre, takeWhile_gap hg hword, List.length_append]
  have htoken : ((pre ++ g ++ t ++ rest).drop (pre ++ g).length).takeWhile
      (fun c => c ≠ space ∧ c ≠ 0) = t := by
    rw [List.append_assoc _ t, drop_pre, takeWhile_word hspace hnul hrest]
  have hbyte : (pre ++ g ++ t ++ rest)[(pre ++ g ++ t).length]? = rest.head? := by
    rw [List.getElem?_append_right (Nat.le_refl _), Nat.sub_self, List.head?_eq_getElem?]
  have hset : (pre ++ g ++ t ++ rest).set (pre ++ g ++ t).length 0 =
      pre ++ g ++ t ++ rest.set 0 0 := by
    rw [List.set_append_right _ _ (Nat.le_refl _), Nat.sub_self]
  unfold strtok
  rw [hat]
  dsimp only
  rw [hstart, htoken, if_neg ht, ← List.length_append, hbyte, hset]
  split
  · rw [update_unit]
  · rfl

/-- The next word: the call gives its place, puts a NUL for the space behind it and goes on after
    that, or is at the end of the string. -/
theorem strtok_some (hs : words s = t :: ws) (hnul : 0 ∉ s) (hpost : Ended post)
    (hat : s₀.or saved = some ⟨(), pre.length⟩) :
    ∃ g c s', (∀ x ∈ t, x ∈ s) ∧ (∀ x ∈ s', x ∈ s) ∧ words s' = ws ∧ t ≠ [] ∧ space ∉ t ∧
      (c = [0] ∨ c = [] ∧ s' = []) ∧
      strtok (fun _ => pre ++ s ++ post) saved s₀ =
        (some ⟨(), (pre ++ g).length⟩, fun _ => pre ++ g ++ t ++ c ++ s' ++ post,
          some ⟨(), (pre ++ g ++ t ++ c).length⟩) := by
  rcases words_cases s with ⟨h, -⟩ | ⟨g, t', r, rfl, hg, ht, hspace, hr⟩
  · exact absurd (h.symm.trans hs) (by simp)
  · obtain rfl : t' = t := by
      rcases hr with ⟨-, hwords⟩ | ⟨s', -, hwords⟩ <;>
        exact (List.cons.inj (hwords.symm.trans hs)).1
    have htnul : 0 ∉ t' := fun h0 => hnul (by simp [h0])
    rcases hr with ⟨rfl, hwords⟩ | ⟨s', rfl, hwords⟩
    · obtain ⟨-, rfl⟩ := List.cons.inj (hwords.symm.trans hs)
      refine ⟨g, [], [], fun x hx => ?_, fun x hx => absurd hx List.not_mem_nil, words_nil, ht,
        hspace, Or.inr ⟨rfl, rfl⟩, ?_⟩
      · simp [hx]
      · have hcall : strtok (fun _ => pre ++ g ++ t' ++ post) saved s₀ = _ :=
          strtok_word hg ht hspace htnul (Or.inr hpost) hat
        rw [if_neg hpost.head_ne] at hcall
        simpa using hcall
    · obtain ⟨-, rfl⟩ := List.cons.inj (hwords.symm.trans hs)
      refine ⟨g, [0], s', fun x hx => ?_, fun x hx => ?_, rfl, ht, hspace, Or.inl rfl, ?_⟩
      · simp [hx]
      · simp [hx]
      · have hhead : (space :: s' ++ post).head? = some space := rfl
        have hcall : strtok (fun _ => pre ++ g ++ t' ++ (space :: s' ++ post)) saved s₀ = _ :=
          strtok_word hg ht hspace htnul (Or.inl hhead) hat
        rw [if_pos hhead] at hcall
        simpa [Nat.add_assoc] using hcall

/-! ## What a line asks for -/

/-- A command with its key and its value. -/
structure Request where
  cmd : Cmd
  key : Str
  value : Option Str
  deriving DecidableEq

/-- The rest of a request, after its key. -/
def withArgs (i : Cmd) (key : Str) : List Str → Except Cmd Request
  | [] => if i = .create ∨ i = .update then .error .invalid else .ok ⟨i, key, none⟩
  | [value] => if i = .read ∨ i = .delete then .error .invalid else .ok ⟨i, key, some value⟩
  | _ => .error .invalid

/-- The rest of a request, after its command. -/
def withKey (i : Cmd) : List Str → Except Cmd Request
  | [] => .error .invalid
  | key :: args => if key.length > maxKeyLen then .error .invalid else withArgs i key args

/-- The request made of these words, if they make one. -/
def requestOf : List Str → Except Cmd Request
  | [] => .error .invalid
  | cmd :: args =>
    match gCmds.find? fun g => cmd.map toupper = g.2 with
    | none => .error .invalid
    | some (i, _) => withKey i args

/-- What `skvs_parse` returned, and left in the buffer, is this request, or the command that
    stands for none. -/
def Parsed.Is (r : Parsed Unit) (b : Buffer) : Except Cmd Request → Prop
  | .error c => r.cmd = c
  | .ok q => r.cmd = q.cmd ∧ r.key.map (fun p => cstr b p.off) = some q.key ∧
      r.value.map (fun p => cstr b p.off) = q.value

/-- A word that was given stays in the buffer, whatever is behind its NUL. -/
theorem cstr_word {c : Buffer} (hnul : 0 ∉ t) (hc : c = [0] ∨ c = [] ∧ Ended rest) :
    cstr (pre ++ t ++ c ++ rest) pre.length = t := by
  rw [List.append_assoc _ c]
  refine cstr_at hnul ?_
  rcases hc with rfl | ⟨rfl, hrest⟩
  · exact ended_nul rest
  · exact hrest

variable {n : Nat} {pc : Pc Unit} {i : Cmd} {k : Pos Unit} {v : Option (Pos Unit)} {key : Str}

/-- A call that finds no word. -/
theorem parseFrom_none (hs : words s = []) (hpost : Ended post)
    (hat : (pc.arg ()).or saved = some ⟨(), pre.length⟩) :
    parseFrom (n + 1) (.call pc) (pre ++ s ++ post) saved =
      parseFrom n (resume pc none fun _ => pre ++ s ++ post).2
        ((resume pc none fun _ => pre ++ s ++ post).1 ()) (some ⟨(), (pre ++ s).length⟩) := by
  simp only [parseFrom, parseStep]
  rw [strtok_none hs hpost hat]

/-- A call that finds one. -/
theorem parseFrom_some (hs : words s = t :: ws) (hnul : 0 ∉ s) (hpost : Ended post)
    (hat : (pc.arg ()).or saved = some ⟨(), pre.length⟩) :
    ∃ g c s', (∀ x ∈ t, x ∈ s) ∧ (∀ x ∈ s', x ∈ s) ∧ words s' = ws ∧ t ≠ [] ∧ space ∉ t ∧
      (c = [0] ∨ c = [] ∧ s' = []) ∧
      parseFrom (n + 1) (.call pc) (pre ++ s ++ post) saved =
        parseFrom n
          (resume pc (some ⟨(), (pre ++ g).length⟩) fun _ => pre ++ g ++ t ++ c ++ s' ++ post).2
          ((resume pc (some ⟨(), (pre ++ g).length⟩)
            fun _ => pre ++ g ++ t ++ c ++ s' ++ post).1 ())
          (some ⟨(), (pre ++ g ++ t ++ c).length⟩) := by
  obtain ⟨g, c, s', ht, hs', hws, hne, hspace, hc, hcall⟩ := strtok_some hs hnul hpost hat
  refine ⟨g, c, s', ht, hs', hws, hne, hspace, hc, ?_⟩
  simp only [parseFrom, parseStep]
  rw [hcall]

theorem parse_extra (hnul : 0 ∉ s) (hpost : Ended post) :
    ∃ b r, parseFrom (n + 1) (.call (.extra i k v)) (pre ++ s ++ post) (some ⟨(), pre.length⟩) =
        (b, r) ∧
      (words s = [] → b = pre ++ s ++ post ∧ r = { cmd := i, key := some k, value := v }) ∧
      (words s ≠ [] → r.cmd = .invalid) := by
  have hat : ((Pc.extra i k v).arg ()).or (some ⟨(), pre.length⟩) = some ⟨(), pre.length⟩ := rfl
  cases hs : words s with
  | nil =>
    rw [parseFrom_none hs hpost hat]
    exact ⟨_, _, parseFrom_ret n _ _ _, fun _ => ⟨rfl, rfl⟩, fun h => absurd rfl h⟩
  | cons t ws =>
    obtain ⟨g, c, s', -, -, -, -, -, -, hcall⟩ := parseFrom_some hs hnul hpost hat
    rw [hcall]
    exact ⟨_, _, parseFrom_ret n _ _ _, fun h => absurd h (by simp), fun _ => rfl⟩

theorem resume_value_none (mem : Buffers Unit) : resume (.value i k) none mem =
    if i = .create ∨ i = .update then (mem, .ret { cmd := .invalid, key := some k })
    else (mem, .call (.extra i k none)) := by
  simp [resume]

theorem resume_value_some (p : Pos Unit) (mem : Buffers Unit) : resume (.value i k) (some p) mem =
    if i = .read ∨ i = .delete then
      (mem, .ret { cmd := .invalid, key := some k, value := some p })
    else (mem, .call (.extra i k (some p))) := by
  simp [resume]

theorem Ended.of_nil {c : Buffer} (hc : c = [0] ∨ c = [] ∧ s = []) (hpost : Ended post) :
    c = [0] ∨ c = [] ∧ Ended (s ++ post) := by
  rcases hc with hc | ⟨hc, rfl⟩
  · exact Or.inl hc
  · exact Or.inr ⟨hc, hpost⟩

/-- From the key on: it is the word `key`, which ends before what is left of the line. -/
theorem parse_value {c : Buffer} (hkey : 0 ∉ key) (hc : c = [0] ∨ c = [] ∧ s = []) (hnul : 0 ∉ s)
    (hpost : Ended post) :
    ∃ b r, parseFrom (n + 2) (.call (.value i ⟨(), pre.length⟩)) (pre ++ key ++ c ++ s ++ post)
        (some ⟨(), (pre ++ key ++ c).length⟩) = (b, r) ∧ r.Is b (withArgs i key (words s)) := by
  have hat : ((Pc.value i ⟨(), pre.length⟩).arg ()).or (some ⟨(), (pre ++ key ++ c).length⟩) =
      some ⟨(), (pre ++ key ++ c).length⟩ := rfl
  cases hs : words s with
  | nil =>
    rw [parseFrom_none hs hpost hat, resume_value_none]
    by_cases hi : i = .create ∨ i = .update
    · rw [if_pos hi, withArgs, if_pos hi]
      exact ⟨_, _, rfl, rfl⟩
    · obtain ⟨b, r, hcall, hdone, -⟩ : ∃ b r, parseFrom (n + 1)
          (.call (.extra i ⟨(), pre.length⟩ none)) (pre ++ key ++ c ++ s ++ [] ++ post)
          (some ⟨(), (pre ++ key ++ c ++ s).length⟩) = (b, r) ∧ _ ∧ _ :=
        parse_extra List.not_mem_nil hpost
      obtain ⟨rfl, rfl⟩ := hdone words_nil
      rw [if_neg hi, withArgs, if_neg hi]
      rw [List.append_nil] at hcall
      refine ⟨_, _, hcall, rfl, congrArg some ?_, rfl⟩
      rw [List.append_assoc _ s]
      exact cstr_word hkey (Ended.of_nil hc hpost)
  | cons value ws =>
    obtain ⟨g, d, s', hvalue, hs', hws, -, -, hd, hcall⟩ := parseFrom_some hs hnul hpost hat
    rw [hcall, resume_value_some]
    obtain rfl : c = [0] := by
      rcases hc with hc | ⟨-, rfl⟩
      · exact hc
      · exact absurd (words_nil.symm.trans hs) (by simp)
    by_cases hi : i = .read ∨ i = .delete
    · rw [if_pos hi]
      refine ⟨_, _, rfl, ?_⟩
      cases ws with
      | nil =>
        rw [withArgs, if_pos hi]
        rfl
      | cons _ _ => rfl
    · obtain ⟨b, r, hcall, hdone, hmore⟩ : ∃ b r, parseFrom (n + 1)
          (.call (.extra i ⟨(), pre.length⟩ (some ⟨(), (pre ++ key ++ [0] ++ g).length⟩)))
          (pre ++ key ++ [0] ++ g ++ value ++ d ++ s' ++ post)
          (some ⟨(), (pre ++ key ++ [0] ++ g ++ value ++ d).length⟩) = (b, r) ∧ _ ∧ _ :=
        parse_extra (fun h => hnul (hs' 0 h)) hpost
      rw [if_neg hi]
      refine ⟨b, r, hcall, ?_⟩
      rw [hws] at hdone hmore
      cases ws with
      | nil =>
        obtain ⟨rfl, rfl⟩ := hdone rfl
        rw [withArgs, if_neg hi]
        refine ⟨rfl, congrArg some ?_, congrArg some ?_⟩
        · have hword : cstr (pre ++ key ++ [0] ++
            (g ++ value ++ d ++ s' ++ post)) pre.length = key :=
            cstr_word hkey (Or.inl rfl)
          simpa using hword
        · have hword : cstr (pre ++ key ++ [0] ++ g ++ value ++ d ++ (s' ++ post))
              (pre ++ key ++ [0] ++ g).length = value :=
            cstr_word (fun h => hnul (hvalue 0 h)) (Ended.of_nil hd hpost)
          simpa using hword
      | cons _ _ => exact hmore (by simp)

theorem resume_key_some (p : Pos Unit) (mem : Buffers Unit) : resume (.key i) (some p) mem =
    if (cstr (mem p.buf) p.off).length > maxKeyLen then
      (mem, .ret { cmd := .invalid, key := some p })
    else (mem, .call (.value i p)) := by
  simp [resume]

/-- From the command on. -/
theorem parse_key (hnul : 0 ∉ s) (hpost : Ended post) :
    ∃ b r, parseFrom (n + 3) (.call (.key i)) (pre ++ s ++ post) (some ⟨(), pre.length⟩) = (b, r) ∧
      r.Is b (withKey i (words s)) := by
  have hat : ((Pc.key i).arg ()).or (some ⟨(), pre.length⟩) = some ⟨(), pre.length⟩ := rfl
  cases hs : words s with
  | nil =>
    rw [parseFrom_none hs hpost hat]
    exact ⟨_, _, rfl, rfl⟩
  | cons key ws =>
    obtain ⟨g, c, s', hin, hs', hws, -, -, hc, hcall⟩ := parseFrom_some hs hnul hpost hat
    have hkey : 0 ∉ key := fun h => hnul (hin 0 h)
    have hnul' : 0 ∉ s' := fun h => hnul (hs' 0 h)
    have htext : cstr (pre ++ g ++ key ++ c ++ s' ++ post) (pre ++ g).length = key := by
      rw [List.append_assoc _ s']
      exact cstr_word hkey (Ended.of_nil hc hpost)
    rw [hcall, resume_key_some, htext, withKey]
    by_cases hlong : key.length > maxKeyLen
    · rw [if_pos hlong, if_pos hlong]
      exact ⟨_, _, rfl, rfl⟩
    · rw [if_neg hlong, if_neg hlong, ← hws]
      exact parse_value hkey hc hnul' hpost

/-- **`skvs_parse` from its first `strtok` on.** It returns the request of the words in the
    buffer's string, with the key and the value in the buffer, or `CMD_INVALID` if they make no
    request. -/
theorem parse_cmd (hnul : 0 ∉ s) (hpost : Ended post) :
    ∃ b r, parseFrom (n + 4) (.call .cmd) (s ++ post) saved = (b, r) ∧
      r.Is b (requestOf (words s)) := by
  have hat : (Pc.cmd.arg ()).or saved = some ⟨(), ([] : Buffer).length⟩ := rfl
  have hstart : ([] : Buffer) ++ s ++ post = s ++ post := rfl
  cases hs : words s with
  | nil =>
    rw [← hstart, parseFrom_none hs hpost hat]
    exact ⟨_, _, rfl, rfl⟩
  | cons cmd ws =>
    obtain ⟨g, c, s', hin, hs', hws, -, -, hc, hcall⟩ := parseFrom_some hs hnul hpost hat
    have hcmd : 0 ∉ cmd := fun h => hnul (hin 0 h)
    have hended : Ended (c ++ s' ++ post) := by
      rcases hc with rfl | ⟨rfl, rfl⟩
      · exact ended_nul _
      · exact hpost
    have hupper : upperAt ([] ++ g ++ cmd ++ c ++ s' ++ post) ([] ++ g).length =
        g ++ cmd.map toupper ++ (c ++ s' ++ post) := by
      have hat' : upperAt (g ++ cmd ++ (c ++ s' ++ post)) g.length = _ := upperAt_at hcmd hended
      simpa using hat'
    have htext : cstr (g ++ cmd.map toupper ++ (c ++ s' ++ post)) ([] ++ g).length =
        cmd.map toupper := cstr_at (nul_notMem_upper hcmd) hended
    rw [← hstart, hcall, requestOf]
    simp only [resume]
    rw [hupper, htext]
    cases gCmds.find? fun g => cmd.map toupper = g.2 with
    | none => exact ⟨_, _, rfl, rfl⟩
    | some found =>
      obtain ⟨b, r, hrest, hr⟩ : ∃ b r, parseFrom (n + 3) (.call (.key found.1))
          (g ++ cmd.map toupper ++ c ++ s' ++ post)
          (some ⟨(), (g ++ cmd.map toupper ++ c).length⟩) = (b, r) ∧ _ :=
        parse_key (fun h => hnul (hs' 0 h)) hpost
      have hlength : (g ++ cmd.map toupper ++ c).length = ([] ++ g ++ cmd ++ c).length := by simp
      have hbuffer : g ++ cmd.map toupper ++ c ++ s' ++ post =
          g ++ cmd.map toupper ++ (c ++ s' ++ post) := by simp
      rw [hlength, hbuffer] at hrest
      rw [← hws]
      exact ⟨b, r, hrest, hr⟩

/-! ## The line in the buffer -/

variable {len : Nat}

/-- The line that `skvs_parse` splits into words: what comes before the first newline, or before
    the last byte of a buffer of `BUFFER_SIZE` bytes; or what it returns for want of one. -/
def lineIn (b : Buffer) (len : Nat) : Except Cmd Str :=
  if len > bufferSize then .error .invalid
  else if len = bufferSize then
    if b[bufferSize - 1]? ≠ some newline then .error .invalid
    else .ok (cstr (b.set (bufferSize - 1) 0) 0)
  else if newline ∈ cstr (b.set len 0) 0 then
    .ok ((cstr (b.set len 0) 0).takeWhile (· ≠ newline))
  else .error .incomplete

/-- The request that `skvs_parse` finds in a buffer, or what it returns for none. -/
def requestIn (b : Buffer) (len : Nat) : Except Cmd Request :=
  match lineIn b len with
  | .ok line => requestOf (words line)
  | .error c => .error c

theorem cstr_zero_split (b : Buffer) : ∃ post, b = cstr b 0 ++ post ∧ Ended post := by
  refine ⟨b.dropWhile (· ≠ 0), ?_, fun c hc => ?_⟩
  · exact List.takeWhile_append_dropWhile.symm
  · have hhead := List.head?_dropWhile_not (fun x : UInt8 => decide (x ≠ 0)) b
    rw [hc] at hhead
    simpa using hhead

theorem nul_notMem_cstr (b : Buffer) (off : Nat) : 0 ∉ cstr b off := by
  intro hmem
  simpa using List.mem_takeWhile_imp hmem

/-- The first place of a byte. -/
theorem idxOf?_split {l : Str} {n : Nat} (h : l.idxOf? x = some n) :
    ∃ a d, l = a ++ x :: d ∧ x ∉ a ∧ a.length = n := by
  obtain ⟨hn, heq, hfirst⟩ := List.idxOf?_eq_some_iff.mp h
  refine ⟨l.take n, l.drop (n + 1), ?_, fun hmem => ?_, List.length_take_of_le (Nat.le_of_lt hn)⟩
  · rw [← heq, List.getElem_cons_drop, List.take_append_drop]
  · obtain ⟨j, hj, hjx⟩ := List.mem_take_iff_getElem.mp hmem
    exact hfirst j (by omega) hjx

/-- Up to its first `strtok`, `skvs_parse` cuts the line off with a NUL, or returns. -/
theorem skvsParseStart_cases (b : Buffer) (len : Nat) :
    (∃ line post, lineIn b len = .ok line ∧ Ended post ∧ 0 ∉ line ∧
      skvsParseStart b len = (line ++ post, (.call .cmd : Ctl Unit))) ∨
    ∃ c b', lineIn b len = .error c ∧
      skvsParseStart b len = (b', (.ret { cmd := c } : Ctl Unit)) := by
  unfold skvsParseStart lineIn
  by_cases hbig : len > bufferSize
  · rw [if_pos hbig, if_pos hbig]
    exact Or.inr ⟨_, _, rfl, rfl⟩
  · rw [if_neg hbig, if_neg hbig]
    by_cases hfull : len = bufferSize
    · rw [if_pos hfull, if_pos hfull]
      by_cases hend : b[bufferSize - 1]? ≠ some newline
      · rw [if_pos hend, if_pos hend]
        exact Or.inr ⟨_, _, rfl, rfl⟩
      · rw [if_neg hend, if_neg hend]
        obtain ⟨post, hpost, hended⟩ := cstr_zero_split (b.set (bufferSize - 1) 0)
        refine Or.inl ⟨_, post, rfl, hended, nul_notMem_cstr _ _, ?_⟩
        rw [← hpost]
    · rw [if_neg hfull, if_neg hfull]
      obtain ⟨post, hpost, hended⟩ := cstr_zero_split (b.set len 0)
      have hnul := nul_notMem_cstr (b.set len 0) 0
      dsimp only
      generalize cstr (b.set len 0) 0 = text at hpost hnul ⊢
      cases hcrlf : text.idxOf? newline with
      | none =>
        rw [if_neg (List.idxOf?_eq_none_iff.mp hcrlf)]
        exact Or.inr ⟨_, _, rfl, rfl⟩
      | some crlf =>
        obtain ⟨a, d, rfl, ha, rfl⟩ := idxOf?_split hcrlf
        have hline : (a ++ newline :: d).takeWhile (· ≠ newline) = a := by
          rw [List.takeWhile_append_of_pos, List.takeWhile_cons_of_neg (by decide), List.append_nil]
          exact fun y hy => decide_eq_true fun heq => ha (heq ▸ hy)
        rw [hline, hpost, if_pos (by simp)]
        refine Or.inl ⟨a, 0 :: (d ++ post), rfl, ended_nul _, fun h0 => hnul (by simp [h0]), ?_⟩
        simp

/-- **What `skvs_parse` returns** is the request in the buffer, or what stands for none. -/
theorem skvsParse_is (b : Buffer) (len : Nat) (saved : Option (Pos Unit)) :
    (skvsParse b len saved).2.Is (skvsParse b len saved).1 (requestIn b len) := by
  unfold skvsParse requestIn
  rcases skvsParseStart_cases b len with ⟨line, post, hline, hended, hnul, hstart⟩ |
    ⟨c, b', hline, hstart⟩
  · obtain ⟨b', r, hcall, hr⟩ : ∃ b' r,
        parseFrom (0 + 4) (.call .cmd) (line ++ post) saved = (b', r) ∧ _ :=
      parse_cmd hnul hended
    have hparse : parseFrom 4 (.call .cmd) (line ++ post) saved = (b', r) := hcall
    rw [hstart, hline]
    dsimp only
    rw [hparse]
    exact hr
  · rw [hstart, hline]
    dsimp only
    rw [parseFrom_ret]
    rfl

/-- A string ends before a place with a NUL. -/
theorem cstr_length_le {i : Nat} (h : ∀ c ∈ b[i]?, c = 0) : (cstr b 0).length ≤ i := by
  refine Nat.le_of_not_lt fun hlt => nul_notMem_cstr b 0 ?_
  have hpre : cstr b 0 <+: b := List.takeWhile_prefix _
  have hget : b[i]? = some (cstr b 0)[i] := by
    rw [hpre.getElem hlt]
    exact List.getElem?_eq_getElem _
  rw [← h _ hget]
  exact List.getElem_mem hlt

/-- A line has no NUL, and is not longer than the buffer. -/
theorem lineIn_fits {line : Str} (h : lineIn b len = .ok line) :
    0 ∉ line ∧ line.length ≤ bufferSize := by
  have hset : ∀ i, (cstr (b.set i 0) 0).length ≤ i := by
    intro i
    refine cstr_length_le fun c hc => ?_
    rw [List.getElem?_set] at hc
    split at hc
    · split at hc
      · exact (Option.some.inj hc).symm
      · exact absurd hc (by simp)
    · rename_i hne
      exact absurd rfl hne
  unfold lineIn at h
  by_cases hbig : len > bufferSize
  · rw [if_pos hbig] at h
    exact absurd h (by simp)
  · rw [if_neg hbig] at h
    split at h
    · split at h
      · exact absurd h (by simp)
      · obtain rfl := Except.ok.inj h
        exact ⟨nul_notMem_cstr _ _, Nat.le_trans (hset _) (Nat.sub_le _ _)⟩
    · split at h
      · obtain rfl := Except.ok.inj h
        have hpre : ((cstr (b.set len 0) 0).takeWhile (· ≠ newline)) <+: cstr (b.set len 0) 0 :=
          List.takeWhile_prefix _
        refine ⟨fun h0 => nul_notMem_cstr _ _ (hpre.subset h0), ?_⟩
        exact Nat.le_trans hpre.length_le (Nat.le_trans (hset len) (Nat.le_of_not_lt hbig))
      · exact absurd h (by simp)

/-- A line that is cut off at its newline has none. -/
theorem newline_notMem_lineIn {line : Str} (h : lineIn b len = .ok line) (hlen : len ≠ bufferSize) :
    newline ∉ line := by
  unfold lineIn at h
  by_cases hbig : len > bufferSize
  · rw [if_pos hbig] at h
    exact absurd h (by simp)
  · rw [if_neg hbig, if_neg hlen] at h
    split at h
    · obtain rfl := Except.ok.inj h
      intro hmem
      simpa using List.mem_takeWhile_imp hmem
    · exact absurd h (by simp)

/-! ## Words of a line -/

/-- A key or a value as it should be: not empty, and without a separator. -/
structure IsWord (s : Str) : Prop where
  nonempty : s ≠ []
  space : space ∉ s
  newline : newline ∉ s

theorem mem_words (h : t ∈ words s) : t ≠ [] ∧ space ∉ t ∧ t <:+: s := by
  induction hn : s.length using Nat.strong_induction_on generalizing s with
  | _ n ih =>
    rcases words_cases s with ⟨hs, -⟩ | ⟨g, t', r, rfl, -, hne, hspace, hr⟩
    · rw [hs] at h
      exact absurd h List.not_mem_nil
    · rcases hr with ⟨rfl, hs⟩ | ⟨s', rfl, hs⟩
      · rw [hs] at h
        rw [List.mem_singleton.mp h]
        exact ⟨hne, hspace, g, [], rfl⟩
      · rw [hs] at h
        rcases List.mem_cons.mp h with rfl | h
        · exact ⟨hne, hspace, g, space :: s', rfl⟩
        · have hshort : s'.length < n := by
            rw [← hn]
            simp only [List.length_append, List.length_cons]
            omega
          obtain ⟨hne', hspace', hin⟩ := ih _ hshort h rfl
          have hsuffix : s' <:+ g ++ t' ++ space :: s' := by
            refine (List.suffix_cons space s').trans (List.suffix_append _ _)
          exact ⟨hne', hspace', hin.trans hsuffix.isInfix⟩

/-- The key and the value of a request are words of its line. -/
theorem mem_of_requestOf {q : Request} (h : requestOf ws = .ok q) :
    q.key ∈ ws ∧ q.key.length ≤ maxKeyLen ∧ ∀ v, q.value = some v → v ∈ ws := by
  cases ws with
  | nil => exact absurd h (by simp [requestOf])
  | cons cmd args =>
    rw [requestOf] at h
    split at h
    · exact absurd h (by simp)
    · cases args with
      | nil => exact absurd h (by simp [withKey])
      | cons key args =>
        rw [withKey] at h
        split at h
        · exact absurd h (by simp)
        · rename_i hshort
          unfold withArgs at h
          split at h
          · split at h
            · exact absurd h (by simp)
            · obtain rfl := Except.ok.inj h
              exact ⟨by simp, Nat.le_of_not_lt hshort, fun v hv => absurd hv (by simp)⟩
          · split at h
            · exact absurd h (by simp)
            · obtain rfl := Except.ok.inj h
              refine ⟨by simp, Nat.le_of_not_lt hshort, fun v hv => ?_⟩
              obtain rfl := Option.some.inj hv
              simp
          · exact absurd h (by simp)

/-- The request in a buffer is made of words of its line. -/
theorem requestIn_ok {q : Request} (h : requestIn b len = .ok q) :
    ∃ line, lineIn b len = .ok line ∧ requestOf (words line) = .ok q := by
  unfold requestIn at h
  split at h
  · rename_i line hline
    exact ⟨line, hline, h⟩
  · exact absurd h (by simp)

end SnuSysProg.Skvs
