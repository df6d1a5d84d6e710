import SnuSysProg.Skvs.Serve

/-
  Every response is one line.

  A request that is cut off at its newline stores words only: neither empty nor with a space or a
  newline in them. A request of exactly `BUFFER_SIZE` bytes loses its last byte instead, and may
  have newlines before that. `skvsServe_one_line`: without such a request among the `CREATE`s and
  `UPDATE`s, the table holds words, and no response has a newline.
-/

namespace SnuSysProg.Skvs
open SnuSysProg.Lib

variable {t t' t₀ : Table} {B : Nat → List Entry} {m : Map} {op : Op} {calls : Calls}
  {rbuf : Buffer} {rlen n : Nat} {saved : Option (Pos Unit)} {resp : Response} {r : Outcome}
  {k v s : Str} {heap : Cells Cell} {initCalls : InitCalls}

/-- The buffer is not a `CREATE` or `UPDATE` of `BUFFER_SIZE` bytes with a newline in its key or
    its value. -/
def Legible (rbuf : Buffer) (rlen : Nat) : Prop :=
  rlen = bufferSize → ∀ q, requestIn rbuf rlen = .ok q → q.cmd = .create ∨ q.cmd = .update →
    newline ∉ q.key ∧ ∀ v, q.value = some v → newline ∉ v

/-- Every key and every value in the table is a `P`. -/
def HoldsOnly (P : Str → Prop) (t : Table) : Prop :=
  ∃ B m, Represents t B ∧ Holds t B m ∧ ∀ k v, m.lookup k = some v → P k ∧ P v

theorem holdsOnly_init {P : Str → Prop} (hn : 0 < n) (hn' : n ≤ 2 ^ 31 - 1)
    (hinit : hashInit initCalls heap n = some t₀) : HoldsOnly P t₀ := by
  refine ⟨_, ∅, represents_init hn hn' hinit, holds_empty, fun k v hkv => ?_⟩
  rw [Finmap.lookup_empty] at hkv
  exact absurd hkv (by simp)

/-- The table holds words under words. -/
abbrev HoldsWords (t : Table) : Prop := HoldsOnly IsWord t

theorem lookup_insert_cases {key value : Str} (h : (m.insert key value).lookup k = some v) :
    m.lookup k = some v ∨ k = key ∧ value = v := by
  by_cases hk : k = key
  · subst hk
    rw [Finmap.lookup_insert] at h
    exact Or.inr ⟨rfl, Option.some.inj h⟩
  · rw [Finmap.lookup_insert_of_ne _ hk] at h
    exact Or.inl h

/-- What an operation puts into the map is its own key and value. -/
theorem apply_lookup (h : (op.apply m).2.2.lookup k = some v) :
    m.lookup k = some v ∨ k = op.key ∧ op.value? = some v := by
  cases op with
  | insert key value =>
    simp only [Op.apply] at h
    split at h
    · exact Or.inl h
    · exact (lookup_insert_cases h).imp_right fun h => ⟨h.1, congrArg some h.2⟩
  | search key =>
    simp only [Op.apply] at h
    split at h <;> exact Or.inl h
  | update key value =>
    simp only [Op.apply] at h
    split at h
    · exact (lookup_insert_cases h).imp_right fun h => ⟨h.1, congrArg some h.2⟩
    · exact Or.inl h
  | delete key =>
    simp only [Op.apply] at h
    split at h
    · by_cases hk : k = key
      · subst hk
        rw [Finmap.lookup_erase] at h
        exact absurd h (by simp)
      · rw [Finmap.lookup_erase_ne hk] at h
        exact Or.inl h
    · exact Or.inl h

/-- What is found, a search finds in the map. -/
theorem apply_text (h : (op.apply m).2.1 = some s) :
    ∃ k, op = .search k ∧ (op.apply m).1 = 1 ∧ m.lookup k = some s := by
  cases op with
  | search key =>
    cases hfind : m.lookup key with
    | none =>
      rw [search_absent hfind] at h
      exact absurd h (by simp)
    | some v =>
      rw [search_present hfind] at h
      obtain rfl := Option.some.inj h
      exact ⟨key, rfl, by rw [search_present hfind], hfind⟩
  | _ =>
    simp only [Op.apply] at h
    split at h <;> exact absurd h (by simp)

theorem newline_notMem_gMsgs (msg : Msg) : newline ∉ gMsgs msg := by
  cases msg <;> decide

/-- A response is a message, or the value that the outcome points to. -/
theorem reply_text (h : (op.reply r).text t = some s) :
    (∃ msg, s = gMsgs msg) ∨ r.code > 0 ∧ r.text t = some s := by
  unfold Op.reply at h
  split at h
  · rename_i hpos
    cases op with
    | search key =>
      refine Or.inr ⟨hpos, ?_⟩
      unfold Outcome.text
      cases hfound : r.found with
      | none =>
        rw [hfound] at h
        exact absurd h (by simp [Response.text])
      | some a =>
        rw [hfound] at h
        exact h
    | _ => exact Or.inl ⟨_, (Option.some.inj h).symm⟩
  · split at h
    · cases op <;> exact Or.inl ⟨_, (Option.some.inj h).symm⟩
    · exact Or.inl ⟨_, (Option.some.inj h).symm⟩

/-- A value that is found is the response. -/
theorem reply_found (hpos : r.code > 0) (h : r.text t = some s) :
    ((Op.search k).reply r).text t = some s := by
  unfold Op.reply
  rw [if_pos hpos]
  unfold Outcome.text at h
  cases hfound : r.found with
  | none =>
    rw [hfound] at h
    exact absurd h (by simp)
  | some a =>
    rw [hfound] at h
    exact h

/-- The map after a call is the one before, or what the operation makes of it; and a value that is
    found is in it. -/
theorem called_map (hr : Represents t B) (hm : Holds t B m) (h : Called op calls t B m r t') :
    ∃ B' m', Represents t' B' ∧ Holds t' B' m' ∧ (m' = m ∨ m' = (op.apply m).2.2) ∧
      (r.code > 0 → r.text t' = (op.apply m).2.1) := by
  cases h with
  | lockFailed => exact ⟨B, m, hr, hm, Or.inl rfl, fun hpos => absurd hpos (by decide)⟩
  | unlocked h =>
    cases h with
    | did h => exact ⟨_, _, h.represents, h.holds, Or.inr rfl, fun _ => h.text⟩
    | failed => exact ⟨B, m, hr, hm, Or.inl rfl, fun hpos => absurd hpos (by decide)⟩
  | unlockFailed h =>
    cases h with
    | did h => exact ⟨_, _, h.represents, h.holds, Or.inr rfl, fun hpos => absurd hpos (by decide)⟩
    | failed => exact ⟨B, m, hr, hm, Or.inl rfl, fun hpos => absurd hpos (by decide)⟩

/-- The key and the value of a legible request are words, if it stores them. -/
theorem isWord_of_legible (hlegible : Legible rbuf rlen)
    (hrequest : requestIn rbuf rlen = .ok ⟨op.cmd, op.key, op.value?⟩) (hv : op.value? = some v) :
    IsWord op.key ∧ IsWord v := by
  have hcmd : op.cmd = .create ∨ op.cmd = .update := by
    cases op with
    | insert => exact Or.inl rfl
    | update => exact Or.inr rfl
    | search => exact absurd hv (by simp [Op.value?])
    | delete => exact absurd hv (by simp [Op.value?])
  obtain ⟨line, hline, hwords⟩ := requestIn_ok hrequest
  obtain ⟨hkey, -, hvalue⟩ := mem_of_requestOf hwords
  obtain ⟨hkne, hkspace, hkin⟩ := mem_words hkey
  obtain ⟨hvne, hvspace, hvin⟩ := mem_words (hvalue v hv)
  have hnewline : newline ∉ op.key ∧ newline ∉ v := by
    by_cases hfull : rlen = bufferSize
    · have h := hlegible hfull _ hrequest hcmd
      exact ⟨h.1, h.2 v hv⟩
    · have h := newline_notMem_lineIn hline hfull
      exact ⟨fun hin => h (hkin.subset hin), fun hin => h (hvin.subset hin)⟩
  exact ⟨⟨hkne, hkspace, hnewline.1⟩, ⟨hvne, hvspace, hnewline.2⟩⟩

/-- A call of `skvs_serve` keeps the strings in the table as its request keeps to them, and its
    response is one of them or a message. -/
theorem served_holds {P : Str → Prop} (hmap : ∀ k v, m.lookup k = some v → P k ∧ P v)
    (hr : Represents t B) (hm : Holds t B m)
    (hstores : ∀ op v, requestIn rbuf rlen = .ok ⟨Op.cmd op, op.key, op.value?⟩ →
      op.value? = some v → P op.key ∧ P v) {b : Buffer}
    (h : Served calls rbuf rlen t B m (b, resp) t') :
    HoldsOnly P t' ∧ ∀ s, resp.text t' = some s → (∃ msg, s = gMsgs msg) ∨ P s := by
  cases h with
  | incomplete => exact ⟨⟨B, m, hr, hm, hmap⟩, fun s hs => absurd hs (by simp [Response.text])⟩
  | invalid => exact ⟨⟨B, m, hr, hm, hmap⟩, fun s hs => Or.inl ⟨_, (Option.some.inj hs).symm⟩⟩
  | @request op b r t' hrequest hcalled =>
    obtain ⟨B', m', hr', hm', hm'', htext⟩ := called_map hr hm hcalled
    refine ⟨⟨B', m', hr', hm', fun k v hkv => ?_⟩, fun s hs => ?_⟩
    · rcases hm'' with rfl | rfl
      · exact hmap k v hkv
      · rcases apply_lookup hkv with hold | ⟨rfl, hv⟩
        · exact hmap k v hold
        · exact hstores op v hrequest hv
    · refine (reply_text hs).imp_right fun ⟨hpos, hfound⟩ => ?_
      rw [htext hpos] at hfound
      obtain ⟨k, -, -, hk⟩ := apply_text hfound
      exact (hmap k s hk).2

/-- A call of `skvs_serve`, with the string it returned. -/
structure ServeEvent where
  calls : Calls
  rbuf : Buffer
  rlen : Nat
  saved : Option (Pos Unit)
  text : Option Str

def serveStep (t : Table) (e : ServeEvent) (t' : Table) : Prop :=
  ∃ b resp, skvsServe e.calls e.rbuf e.rlen e.saved t = .ok ((b, resp), t') ∧ e.text = resp.text t'

/-- The response to the request has no newline. -/
def ServeEvent.OneLine (e : ServeEvent) : Prop := ∀ s, e.text = some s → newline ∉ s

theorem serveStep_words {e : ServeEvent} (h : HoldsWords t) (hlegible : Legible e.rbuf e.rlen)
    (hstep : serveStep t e t') : HoldsWords t' ∧ e.OneLine := by
  obtain ⟨B, m, hr, hm, hwords⟩ := h
  obtain ⟨b, resp, hcall, htext⟩ := hstep
  have hserved := Returns.of_eq hcall (skvsServe_spec hr hm)
  obtain ⟨hwords', hresponse⟩ := served_holds hwords hr hm
    (fun _ _ hrequest hv => isWord_of_legible hlegible hrequest hv) hserved
  refine ⟨hwords', fun s hs => ?_⟩
  rcases hresponse s (htext ▸ hs) with ⟨msg, rfl⟩ | hs
  · exact newline_notMem_gMsgs msg
  · exact hs.newline

/-- **Every response is one line.** From `hash_init` on, after any calls of `skvs_serve` with
    legible requests, the keys and the values in the table are words, no response so far has a
    newline, and the next call returns. -/
theorem skvsServe_one_line {es : List ServeEvent} (hn : 0 < n) (hn' : n ≤ 2 ^ 31 - 1)
    (hinit : hashInit initCalls heap n = some t₀)
    (hrun : Run (Guarded (fun _ e => Legible e.rbuf e.rlen) serveStep) t₀ es t) :
    HoldsWords t ∧ (∀ e ∈ es, e.OneLine) ∧
      ∀ calls rbuf rlen saved, ∃ out t', skvsServe calls rbuf rlen saved t = .ok (out, t') := by
  have hall : HoldsWords t ∧ ∀ e ∈ es, e.OneLine := by
    induction hrun with
    | nil => exact ⟨holdsOnly_init hn hn' hinit, fun e he => absurd he List.not_mem_nil⟩
    | snoc _ hlast ih =>
      obtain ⟨hwords, hline⟩ := serveStep_words ih.1 hlast.1 hlast.2
      refine ⟨hwords, fun e he => ?_⟩
      rcases List.mem_append.mp he with he | he
      · exact ih.2 e he
      · rw [List.mem_singleton.mp he]
        exact hline
  refine ⟨hall.1, hall.2, fun calls rbuf rlen saved => ?_⟩
  obtain ⟨B, m, hr, hm, -⟩ := hall.1
  obtain ⟨out, t', hcall, -⟩ : Returns (skvsServe calls rbuf rlen saved) t _ := skvsServe_spec hr hm
  exact ⟨out, t', hcall⟩

/-! ## A value of two lines -/

/-- The library calls succeed, so a request is carried out. -/
theorem serveStep_of_request (hr : Represents t B) (hm : Holds t B m)
    (hrequest : requestIn rbuf rlen = .ok ⟨op.cmd, op.key, op.value?⟩) :
    ∃ e t', serveStep t e t' ∧ e.rbuf = rbuf ∧ e.rlen = rlen ∧
      (∃ B', Represents t' B' ∧ Holds t' B' (op.apply m).2.2) ∧
      ∀ s, (op.apply m).2.1 = some s → e.text = some s := by
  obtain ⟨⟨b, resp⟩, t', hcall, hserved⟩ :
      Returns (skvsServe allSucceed rbuf rlen none) t (Served allSucceed rbuf rlen t B m) :=
    skvsServe_spec hr hm
  refine ⟨⟨allSucceed, rbuf, rlen, none, resp.text t'⟩, t', ⟨b, resp, hcall, rfl⟩, rfl, rfl, ?_⟩
  cases hserved with
  | incomplete _ hnone => exact absurd (hrequest.symm.trans hnone) (by simp)
  | invalid _ hnone => exact absurd (hrequest.symm.trans hnone) (by simp)
  | request hrequest' hcalled =>
    obtain rfl := op_of_request (Except.ok.inj (hrequest.symm.trans hrequest'))
    cases hcalled with
    | lockFailed hlock => exact absurd hlock (by decide)
    | unlockFailed _ hunlock => exact absurd hunlock (by decide)
    | unlocked h =>
      cases h with
      | failed hfail =>
        obtain ⟨g, h | h | h⟩ := hfail <;> exact absurd h (by simp [allSucceed, bump])
      | did h =>
        refine ⟨⟨_, h.represents, h.holds⟩, fun s hs => ?_⟩
        obtain ⟨k, rfl, hone, -⟩ := apply_text hs
        refine reply_found ?_ (h.text.trans hs)
        rw [h.code, hone]
        exact Int.one_pos

/-- What was stored under a new key is found again. -/
theorem search_after_insert (k v : Str) :
    ((Op.search k).apply ((Op.insert k v).apply ∅).2.2).2.1 = some v := by
  have hinsert : (Op.insert k v).apply ∅ = (1, none, Finmap.insert k v ∅) := by
    rw [Op.apply, if_neg Finmap.notMem_empty]
  rw [hinsert, search_present (Finmap.lookup_insert _)]

/-- The request `CREATE k a`, in a buffer with room for the NUL. -/
def createLine : Buffer :=
  ascii ['C', 'R', 'E', 'A', 'T', 'E', ' ', 'k', ' ', 'a'] ++ [newline, 0]

/-- `CREATE k a` and then `READ k`, which gets the value. -/
theorem skvsServe_one_line_read : ∃ t₀ e₁ e₂ t,
    Run (Guarded (fun _ e => Legible e.rbuf e.rlen) serveStep) t₀ [e₁, e₂] t ∧
    e₂.text = some [97] ∧ HoldsWords t ∧ (∀ e ∈ [e₁, e₂], e.OneLine) ∧
      ∀ calls rbuf rlen saved, ∃ out t', skvsServe calls rbuf rlen saved t = .ok (out, t') := by
  have hcreate : requestIn createLine 11 =
      .ok ⟨(Op.insert [107] [97]).cmd, [107], some [97]⟩ := rfl
  have hread : requestIn (readLine 107) 7 = .ok ⟨(Op.search [107]).cmd, [107], none⟩ := rfl
  obtain ⟨e₁, t₁, hstep₁, -, hrlen₁, ⟨B₁, hr₁, hm₁⟩, -⟩ := serveStep_of_request
    (represents_init (by decide) (by decide) hashInit_one) holds_empty hcreate
  obtain ⟨e₂, t₂, hstep₂, -, hrlen₂, -, htext⟩ := serveStep_of_request hr₁ hm₁ hread
  have hlegible₁ : Legible e₁.rbuf e₁.rlen :=
    fun hfull => absurd (hrlen₁.symm.trans hfull) (by decide)
  have hlegible₂ : Legible e₂.rbuf e₂.rlen :=
    fun hfull => absurd (hrlen₂.symm.trans hfull) (by decide)
  have hrun := (Run.single (show Guarded (fun _ e => Legible e.rbuf e.rlen) serveStep _ e₁ t₁ from
    ⟨hlegible₁, hstep₁⟩)).snoc ⟨hlegible₂, hstep₂⟩
  exact ⟨_, e₁, e₂, t₂, hrun, htext _ (search_after_insert [107] [97]),
    skvsServe_one_line (by decide) (by decide) hashInit_one hrun⟩

/-- A value with a newline. -/
def twoLines (n : Nat) : Str := 97 :: newline :: List.replicate n 98

/-- A `CREATE` with a value of two lines, before its newline at the end. -/
def createTwoLines (n : Nat) : Str :=
  ascii ['C', 'R', 'E', 'A', 'T', 'E'] ++ space :: ([107] ++ space :: twoLines n)

theorem createTwoLines_length (n : Nat) : (createTwoLines n).length = n + 11 := by
  simp [createTwoLines, twoLines, ascii]

theorem words_createTwoLines :
    words (createTwoLines n) = [ascii ['C', 'R', 'E', 'A', 'T', 'E'], [107], twoLines n] := by
  have hne : twoLines n ≠ [] := List.cons_ne_nil _ _
  have hvalue : space ∉ twoLines n := by
    simp [twoLines, space, newline]
  unfold createTwoLines
  rw [words_word_space (by decide) (by decide), words_word_space (by decide) (by decide),
    words_word hne hvalue]

/-- As long as the buffer, it is cut at its end, not at its first newline. -/
theorem requestIn_createTwoLines (hn : (createTwoLines n).length = bufferSize - 1) :
    requestIn (createTwoLines n ++ [newline]) bufferSize =
      .ok ⟨.create, [107], some (twoLines n)⟩ := by
  have hend : (createTwoLines n ++ [newline])[bufferSize - 1]? = some newline := by
    rw [← hn, List.getElem?_append_right (Nat.le_refl _), Nat.sub_self]
    rfl
  have hset : (createTwoLines n ++ [newline]).set (bufferSize - 1) 0 = createTwoLines n ++ [0] := by
    rw [← hn, List.set_append_right _ _ (Nat.le_refl _), Nat.sub_self]
    rfl
  have hnul : 0 ∉ createTwoLines n := by
    simp [createTwoLines, twoLines, ascii, space, newline]
  have hcstr : cstr ([] ++ createTwoLines n ++ [0]) ([] : Buffer).length = createTwoLines n :=
    cstr_at hnul (ended_nul [])
  have hline : lineIn (createTwoLines n ++ [newline]) bufferSize = .ok (createTwoLines n) := by
    unfold lineIn
    rw [if_neg (Nat.lt_irrefl _), if_pos rfl, if_neg (not_not.mpr hend), hset]
    exact congrArg Except.ok hcstr
  unfold requestIn
  rw [hline]
  change requestOf (words (createTwoLines n)) = _
  rw [words_createTwoLines]
  rfl

/-- A `CREATE` that is as long as the buffer stores a value of two lines, and a `READ` gets it. -/
theorem skvsServe_two_lines : ∃ t₀, hashInit ⟨true, true, true, true, fun _ => 0⟩ ∅ 1 = some t₀ ∧
    ¬ ∀ es t, Run (Guarded (fun _ e => e.rlen ≤ bufferSize) serveStep) t₀ es t →
      HoldsWords t ∧ ∀ e ∈ es, e.OneLine := by
  refine ⟨_, hashInit_one, fun hclaim => ?_⟩
  have hlen : (createTwoLines 4084).length = bufferSize - 1 := createTwoLines_length 4084
  have hcreate : requestIn (createTwoLines 4084 ++ [newline]) bufferSize =
      .ok ⟨(Op.insert [107] (twoLines 4084)).cmd, [107], some (twoLines 4084)⟩ :=
    requestIn_createTwoLines hlen
  have hread : requestIn (readLine 107) 7 = .ok ⟨(Op.search [107]).cmd, [107], none⟩ := rfl
  have hr₀ := represents_init (by decide) (by decide) hashInit_one
  obtain ⟨e₁, t₁, hstep₁, -, hrlen₁, ⟨B₁, hr₁, hm₁⟩, -⟩ :=
    serveStep_of_request hr₀ holds_empty hcreate
  obtain ⟨e₂, t₂, hstep₂, -, hrlen₂, -, htext⟩ := serveStep_of_request hr₁ hm₁ hread
  have hrun : Run (Guarded (fun _ e => e.rlen ≤ bufferSize) serveStep) _ ([e₁] ++ [e₂]) t₂ :=
    Run.snoc (Run.single ⟨Nat.le_of_eq hrlen₁, hstep₁⟩)
      ⟨Nat.le_trans (Nat.le_of_eq hrlen₂) (by decide), hstep₂⟩
  refine (hclaim _ _ hrun).2 e₂ (by simp) _ (htext _ (search_after_insert _ _)) ?_
  exact List.mem_cons_of_mem _ (List.mem_cons_self ..)

end SnuSysProg.Skvs
