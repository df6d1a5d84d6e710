import SnuSysProg.Skvs.Serve

/-
  `skvs_parse` accepts the request grammar.

  A request line is a command name in letters of either case and a key, and for `CREATE` and
  `UPDATE` a value, with spaces between and around them (`Grammar`). On a line that ends with its
  newline at `len` and fits the buffer, `skvs_parse` returns the command with the key and the value
  if the line is in the grammar, and `CMD_INVALID` if it is not (`skvsParse_grammar`).
-/

namespace SnuSysProg.Skvs

/-- The words of a line make a request. -/
inductive Grammar : List Str → Request → Prop
  | withValue {i : Cmd} {c k v : Str} (hi : i = .create ∨ i = .update)
      (hname : (i, c.map toupper) ∈ gCmds)
      (hkey : k.length ≤ maxKeyLen) : Grammar [c, k, v] ⟨i, k, some v⟩
  | withoutValue {i : Cmd} {c k : Str} (hi : i = .read ∨ i = .delete)
      (hname : (i, c.map toupper) ∈ gCmds)
      (hkey : k.length ≤ maxKeyLen) : Grammar [c, k] ⟨i, k, none⟩

variable {line rest k v c : Str} {ws : List Str} {q : Request} {i : Cmd}

/-! ## The line -/

/-- The line is found up to its newline, whether the buffer is full or not. -/
theorem lineIn_line (hnul : 0 ∉ line) (hnewline : newline ∉ line)
    (hlen : line.length + 1 ≤ bufferSize) (rest : Buffer) :
    lineIn (line ++ newline :: rest) (line.length + 1) = .ok line := by
  unfold lineIn
  rw [if_neg (Nat.not_lt.mpr hlen)]
  by_cases hfull : line.length + 1 = bufferSize
  · have hlast : bufferSize - 1 = line.length := by omega
    have hend : (line ++ newline :: rest)[line.length]? = some newline := by
      rw [List.getElem?_append_right (Nat.le_refl _), Nat.sub_self]
      rfl
    have hset : (line ++ newline :: rest).set line.length 0 = [] ++ line ++ 0 :: rest := by
      rw [List.set_append_right _ _ (Nat.le_refl _), Nat.sub_self]
      rfl
    rw [if_pos hfull, hlast, if_neg (not_not.mpr hend), hset]
    exact congrArg Except.ok (cstr_at hnul (ended_nul rest))
  · have hnul' : ∀ x ∈ line ++ [newline], decide (x ≠ 0) = true := by
      intro x hx
      obtain hline | hlast := List.mem_append.mp hx
      · exact decide_eq_true fun h0 => hnul (h0 ▸ hline)
      · rw [List.mem_singleton.mp hlast]
        decide
    have htake : (line ++ newline :: rest).take (line.length + 1) = line ++ [newline] := by
      rw [List.append_cons]
      exact List.take_left' List.length_append
    have hcstr : cstr ((line ++ newline :: rest).set (line.length + 1) 0) 0 =
        line ++ [newline] := by
      rw [cstr_set, htake]
      exact List.takeWhile_eq_self_iff.mpr hnul'
    have hcut : (line ++ [newline]).takeWhile (· ≠ newline) = line := by
      rw [List.takeWhile_append_of_pos, List.takeWhile_cons_of_neg (by decide), List.append_nil]
      exact fun x hx => decide_eq_true fun heq => hnewline (heq ▸ hx)
    rw [if_neg hfull, hcstr, if_pos (by simp), hcut]

/-! ## The words -/

/-- The command whose name this is. -/
theorem find_name {s : Str} :
    (gCmds.find? fun g => s = g.2).map Prod.fst = some i ↔ (i, s) ∈ gCmds := by
  constructor
  · intro hfind
    obtain ⟨⟨i', s'⟩, hsome, rfl⟩ := Option.map_eq_some_iff.mp hfind
    obtain rfl : s = s' := by simpa using List.find?_some hsome
    exact List.mem_of_find?_eq_some hsome
  · intro hmem
    simp only [gCmds, List.mem_cons, Prod.mk.injEq, List.not_mem_nil, or_false] at hmem
    rcases hmem with ⟨rfl, rfl⟩ | ⟨rfl, rfl⟩ | ⟨rfl, rfl⟩ | ⟨rfl, rfl⟩ <;> decide

theorem name_cases {s : Str} (h : (i, s) ∈ gCmds) :
    (i = .create ∨ i = .update) ∧ ¬ (i = .read ∨ i = .delete) ∨
      (i = .read ∨ i = .delete) ∧ ¬ (i = .create ∨ i = .update) := by
  simp only [gCmds, List.mem_cons, Prod.mk.injEq, List.not_mem_nil, or_false] at h
  rcases h with ⟨rfl, -⟩ | ⟨rfl, -⟩ | ⟨rfl, -⟩ | ⟨rfl, -⟩ <;> simp

/-- The command is the only one of its name. -/
theorem grammar_cmd {i' : Cmd} (hname : (i, c.map toupper) ∈ gCmds)
    (h : (i', c.map toupper) ∈ gCmds) : i' = i :=
  Option.some.inj ((find_name.mpr h).symm.trans (find_name.mpr hname))

/-- The command stands first, in its name. -/
theorem Grammar.named {args : List Str} (h : Grammar (c :: args) q) :
    (q.cmd, c.map toupper) ∈ gCmds := by
  cases h with
  | withValue hi hname hkey => exact hname
  | withoutValue hi hname hkey => exact hname

theorem withArgs_iff {args : List Str} (hname : (i, c.map toupper) ∈ gCmds)
    (hkey : k.length ≤ maxKeyLen) :
    withArgs i k args = .ok q ↔ q.cmd = i ∧ Grammar (c :: k :: args) q := by
  have hi := name_cases hname
  unfold withArgs
  constructor
  · intro h
    split at h
    · split at h
      · exact absurd h (by simp)
      · rename_i hnot
        obtain rfl := Except.ok.inj h
        exact ⟨rfl, .withoutValue (hi.resolve_left fun h => hnot h.1).1 hname hkey⟩
    · split at h
      · exact absurd h (by simp)
      · rename_i hnot
        obtain rfl := Except.ok.inj h
        exact ⟨rfl, .withValue (hi.resolve_right fun h => hnot h.1).1 hname hkey⟩
    · exact absurd h (by simp)
  · rintro ⟨rfl, hgrammar⟩
    cases hgrammar with
    | withValue hi' =>
      have hnot := (hi.resolve_right fun h => h.2 hi').2
      exact if_neg hnot
    | withoutValue hi' =>
      have hnot := (hi.resolve_left fun h => h.2 hi').2
      exact if_neg hnot

/-- `skvs_parse` looks for the requests of the grammar. -/
theorem requestOf_iff : requestOf ws = .ok q ↔ Grammar ws q := by
  cases ws with
  | nil => exact iff_of_false (by simp [requestOf]) fun hgrammar => by cases hgrammar
  | cons c args =>
    rw [requestOf]
    cases hfind : gCmds.find? fun g => c.map toupper = g.2 with
    | none =>
      refine iff_of_false (by simp) fun hgrammar => ?_
      have hsome := find_name.mpr hgrammar.named
      rw [hfind] at hsome
      exact absurd hsome (by simp)
    | some found =>
      have hname : (found.1, c.map toupper) ∈ gCmds := find_name.mp (by rw [hfind]; rfl)
      have hcmd : Grammar (c :: args) q → q.cmd = found.1 := fun h => grammar_cmd hname h.named
      dsimp only
      cases args with
      | nil => exact iff_of_false (by simp [withKey]) fun hgrammar => by cases hgrammar
      | cons k args =>
        rw [withKey]
        by_cases hlong : k.length > maxKeyLen
        · rw [if_pos hlong]
          refine iff_of_false (by simp) fun hgrammar => ?_
          cases hgrammar with
          | withValue _ _ hkey => exact absurd hkey (Nat.not_le.mpr hlong)
          | withoutValue _ _ hkey => exact absurd hkey (Nat.not_le.mpr hlong)
        · rw [if_neg hlong, withArgs_iff hname (Nat.le_of_not_lt hlong)]
          exact ⟨fun h => h.2, fun h => ⟨hcmd h, h⟩⟩

/-! ## skvs_parse -/

/-- What `skvs_parse` returned for a line, and left in the buffer, is what the grammar says. -/
structure FollowsGrammar (line : Str) (r : Parsed Unit) (b : Buffer) : Prop where
  accepts : ∀ q, Grammar (words line) q ↔ r.cmd ≠ .invalid ∧ r.Is b (.ok q)
  rejects : (∀ q, ¬ Grammar (words line) q) ↔ r.cmd = .invalid
  complete : r.cmd ≠ .incomplete

theorem Grammar.cmd_ne (h : Grammar ws q) : q.cmd ≠ .invalid ∧ q.cmd ≠ .incomplete := by
  cases h with
  | withValue hi => rcases hi with rfl | rfl <;> exact ⟨nofun, nofun⟩
  | withoutValue hi => rcases hi with rfl | rfl <;> exact ⟨nofun, nofun⟩

theorem Parsed.Is.unique {r : Parsed Unit} {b : Buffer} {q' : Request} (h : r.Is b (.ok q))
    (h' : r.Is b (.ok q')) : q = q' := by
  obtain ⟨hcmd, hkey, hvalue⟩ := h
  obtain ⟨hcmd', hkey', hvalue'⟩ := h'
  cases q
  cases q'
  simp_all

/-- **`skvs_parse` accepts the grammar**, on a line in a buffer with anything behind it. -/
theorem skvsParse_grammar (hnul : 0 ∉ line) (hnewline : newline ∉ line)
    (hlen : line.length + 1 ≤ bufferSize) (rest : Buffer) (saved : Option (Pos Unit)) :
    FollowsGrammar line (skvsParse (line ++ newline :: rest) (line.length + 1) saved).2
      (skvsParse (line ++ newline :: rest) (line.length + 1) saved).1 := by
  have his := skvsParse_is (line ++ newline :: rest) (line.length + 1) saved
  have hrequest : requestIn (line ++ newline :: rest) (line.length + 1) =
      requestOf (words line) := by
    unfold requestIn
    rw [lineIn_line hnul hnewline hlen]
  rw [hrequest] at his
  generalize skvsParse (line ++ newline :: rest) (line.length + 1) saved = parsed at his
  obtain ⟨b, r⟩ := parsed
  dsimp only at his ⊢
  cases hwords : requestOf (words line) with
  | error e =>
    obtain rfl := requestOf_error hwords
    rw [hwords] at his
    have hinvalid : r.cmd = .invalid := his
    have hnone : ∀ q, ¬ Grammar (words line) q := fun q h => by
      rw [requestOf_iff.mpr h] at hwords
      exact absurd hwords (by simp)
    refine ⟨fun q => iff_of_false (hnone q) fun h => h.1 hinvalid, iff_of_true hnone hinvalid, ?_⟩
    rw [hinvalid]
    exact nofun
  | ok q =>
    rw [hwords] at his
    have hgrammar := requestOf_iff.mp hwords
    have hcmd : r.cmd = q.cmd := his.1
    obtain ⟨hvalid, hcomplete⟩ := hgrammar.cmd_ne
    rw [← hcmd] at hvalid hcomplete
    refine ⟨fun q' => ⟨fun h => ?_, fun h => ?_⟩, ?_, hcomplete⟩
    · obtain rfl := Except.ok.inj (hwords.symm.trans (requestOf_iff.mpr h))
      exact ⟨hvalid, his⟩
    · obtain rfl := his.unique h.2
      exact hgrammar
    · exact iff_of_false (fun h => h q hgrammar) hvalid

/-- `create  a b`, in a buffer with room for the NUL. -/
theorem skvsParse_grammar_create : FollowsGrammar
    (ascii ['c', 'r', 'e', 'a', 't', 'e', ' ', ' ', 'a', ' ', 'b'])
    (skvsParse (ascii ['c', 'r', 'e', 'a', 't', 'e', ' ', ' ', 'a', ' ', 'b'] ++ newline :: [0]) 12
      none).2
    (skvsParse (ascii ['c', 'r', 'e', 'a', 't', 'e', ' ', ' ', 'a', ' ', 'b'] ++ newline :: [0]) 12
      none).1 :=
  skvsParse_grammar (by decide) (by decide) (by decide) [0] none

end SnuSysProg.Skvs
