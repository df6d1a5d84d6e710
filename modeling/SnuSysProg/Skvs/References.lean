import SnuSysProg.Skvs.Threads

/-
  The value that a `READ` sends.

  `hash_search` gives a pointer to the value in the table, and the worker copies the string after
  the lock is given back. `Threads.reads_bound_value`: as long as no key is updated or deleted
  between the two, the pointer is to the value that the key has. An update that succeeds frees the
  cell (`listUpdate_frees`), so the next copy is from a cell that is free, or used again.
-/

namespace SnuSysProg.Skvs
open SnuSysProg.Lib

variable {ι : Type} {s s' : Threads ι} {H : History ι} {S : Order ι} {m : Map}
  {B : Nat → List Entry} {u w : ι} {op : Op} {calls : Calls} {r : Outcome} {t t' : Table}
  {key value : Str} {a : Addr} {g : Progress} {h : Cells Cell} {l : List Entry} {e : Entry}
  {i : Nat} {head : Addr}

/-- The outcome of the operation that a worker has carried out, until it has replied. -/
def Progress.outcome : Progress → Option (Op × Outcome)
  | .worked op _ r _ => some (op, r)
  | .returned op r => some (op, r)
  | _ => none

theorem found_of_sound (hsection : SoundSection op calls t B m i head r t')
    (hfound : r.found = some a) : t' = t ∧ ∃ e ∈ B i, op = .search e.key ∧ e.valueAt = a := by
  cases hsection with
  | now _ hmoves => exact hmoves.found a hfound
  | late => exact absurd hfound (by simp)

/-- An entry of a bucket gives the binding of its key. -/
theorem valueOf_mem (hkeys : (l.map Entry.key).Nodup) (he : e ∈ l) :
    valueOf l e.key = some e.value := by
  obtain ⟨pre, post, rfl⟩ := List.append_of_mem he
  rw [List.map_append, List.map_cons] at hkeys
  rw [valueOf_append fun d hd hde => ?_, valueOf_cons_eq rfl]
  have hnot := (List.nodup_cons.mp (List.nodup_middle.mp hkeys)).1
  exact hnot (List.mem_append_left _ (List.mem_map.mpr ⟨d, hd, hde⟩))

namespace Threads

/-- No key is updated or deleted while a worker has a pointer to its value. -/
def Undisturbed (s : Threads ι) (e : Event ι) : Prop :=
  ∀ key, Discards s e key →
    ∀ u r, s.progress u = .returned (.search key) r → r.found = none

/-- The lock is held by one worker, or by readers. -/
def Exclusive (s : Threads ι) : Prop :=
  ∀ u w op op', u ≠ w → (s.progress u).holding = some op → (s.progress w).holding = some op' →
    s.index op = s.index op' → op.Reads ∧ op'.Reads

/-- The pointers that workers have are to values of the table. -/
def Refers (s : Threads ι) (B : Nat → List Entry) : Prop :=
  ∀ w op r a, (s.progress w).outcome = some (op, r) → r.found = some a →
    ∃ e ∈ B (s.index op), op = .search e.key ∧ e.valueAt = a

/-- A pointer that was good stays good when the worker that has it does nothing. -/
theorem Refers.kept {e : Event ι} {B' : Nat → List Entry} (h : Refers s B)
    (hr : Represents s.table B) (hexcl : Exclusive s) (hund : Undisturbed s e)
    (hkept : ∀ j < s.table.hashSize, ∀ d ∈ B j, ¬ Discards s e d.key → d ∈ B' j)
    (hidle : ∀ w, e = .work w → u ≠ w) (hu : (s.progress u).outcome = some (op, r))
    (hfound : r.found = some a) : ∃ d ∈ B' (s.index op), op = .search d.key ∧ d.valueAt = a := by
  obtain ⟨d, hd, hop, hvalue⟩ := h u op r a hu hfound
  refine ⟨d, hkept _ hr.index_lt d hd fun hdiscards => ?_, hop, hvalue⟩
  subst hop
  obtain ⟨w, op', calls, head, l, he, hw, hl, hgives⟩ := hdiscards
  cases hprogress : s.progress u with
  | idle => simp [hprogress, Progress.outcome] at hu
  | loaded => simp [hprogress, Progress.outcome] at hu
  | locked => simp [hprogress, Progress.outcome] at hu
  | worked op₀ calls₀ r₀ text =>
    obtain ⟨rfl, rfl⟩ : op₀ = .search d.key ∧ r₀ = r := by
      simpa [hprogress, Progress.outcome] using hu
    -- the lock keeps a writer out while the worker is in the bucket
    have hkey : op'.key = d.key := by
      rcases hgives.1 with rfl | ⟨value, rfl⟩ <;> rfl
    have hindex : s.index (.search d.key) = s.index op' := by
      unfold index
      rw [hkey]
      rfl
    have hreads := (hexcl u w _ op' (hidle w he) (by rw [hprogress]; rfl)
        (by rw [hw]; rfl) hindex).2
    rcases hgives.1 with rfl | ⟨value, rfl⟩ <;> exact hreads
  | returned op₀ r₀ =>
    obtain ⟨rfl, rfl⟩ : op₀ = .search d.key ∧ r₀ = r := by
      simpa [hprogress, Progress.outcome] using hu
    have hnone := hund d.key ⟨w, op', calls, head, l, he, hw, hl, hgives⟩ u r₀ hprogress
    rw [hnone] at hfound
    exact absurd hfound (by simp)

variable [DecidableEq ι]

theorem Exclusive.put (h : Exclusive s)
    (hg : ∀ op, g.holding = some op → (s.progress w).holding = some op ∨ s.Admits op) :
    Exclusive (s.put w g) := by
  intro u v op op' huv hu hv hindex
  have hidx : s.index op = s.index op' := hindex
  by_cases huw : u = w
  · subst huw
    rw [put_self] at hu
    rw [put_of_ne (Ne.symm huv)] at hv
    rcases hg op hu with hu | hadmits
    · exact h u v op op' huv hu hv hidx
    · exact hadmits v op' hv hidx.symm
  · rw [put_of_ne huw] at hu
    by_cases hvw : v = w
    · subst hvw
      rw [put_self] at hv
      rcases hg op' hv with hv | hadmits
      · exact h u v op op' huv hu hv hidx
      · exact (hadmits u op hu hidx).symm
    · rw [put_of_ne hvw] at hv
      exact h u v op op' huv hu hv hidx

theorem Exclusive.step {e : Event ι} (h : Exclusive s)
    (hsize : s'.table.hashSize = s.table.hashSize)
    (hstep : Step s e s') : Exclusive s' := by
  cases hstep with
  | load => exact h.put fun op hop => absurd hop (by simp [Progress.holding])
  | @lock w op calls head hw hadmits =>
    refine h.put fun op' hop => Or.inr ?_
    obtain rfl : op = op' := by simpa [Progress.holding] using hop
    exact hadmits
  | @work w op calls head r t hw hwork =>
    have htable : Exclusive ({ s with table := t } : Threads ι) := by
      intro u v op op' huv hu hv hindex
      unfold index at hindex
      rw [show t.hashSize = s.table.hashSize from hsize] at hindex
      exact h u v op op' huv hu hv hindex
    refine htable.put fun op' hop => Or.inl ?_
    rw [show ({ s with table := t } : Threads ι).progress w = .locked op calls head from hw]
    exact hop
  | unlock => exact h.put fun op hop => absurd hop (by simp [Progress.holding])
  | reply => exact h.put fun op hop => absurd hop (by simp [Progress.holding])

theorem outcome_put {p : Op × Outcome} (hu : ((s.put w g).progress u).outcome = some p) :
    (u = w ∧ g.outcome = some p) ∨ (u ≠ w ∧ (s.progress u).outcome = some p) := by
  by_cases huw : u = w
  · subst huw
    rw [put_self] at hu
    exact Or.inl ⟨rfl, hu⟩
  · rw [put_of_ne huw] at hu
    exact Or.inr ⟨huw, hu⟩

theorem Refers.step {e : Event ι} {B' : Nat → List Entry} (h : Refers s B)
    (htracks : Tracks s H S m B) (hexcl : Exclusive s) (hsound : Sound s e)
    (hund : Undisturbed s e) (hstep : Step s e s')
    (hsize : s'.table.hashSize = s.table.hashSize)
    (hkept : ∀ j < s.table.hashSize, ∀ d ∈ B j, ¬ Discards s e d.key → d ∈ B' j) :
    Refers s' B' := by
  intro u op r a hu hfound
  have hindex : s'.index op = s.index op := by
    unfold index
    rw [hsize]
  rw [hindex]
  -- the worker that acts is the only one whose progress changes
  have hstay : ∀ {w : ι}, (∀ v, e = .work v → v = w) → u ≠ w →
      (s.progress u).outcome = some (op, r) →
      ∃ d ∈ B' (s.index op), op = .search d.key ∧ d.valueAt = a := fun he huw hout =>
    h.kept htracks.represents hexcl hund hkept (fun v hv => he v hv ▸ huw) hout hfound
  cases hstep with
  | @load w =>
    rcases outcome_put hu with ⟨-, hg⟩ | ⟨huw, hu⟩
    · exact absurd hg (by simp [Progress.outcome])
    · exact hstay (fun v hv => absurd hv (by simp)) huw hu
  | @lock w =>
    rcases outcome_put hu with ⟨-, hg⟩ | ⟨huw, hu⟩
    · exact absurd hg (by simp [Progress.outcome])
    · exact hstay (fun v hv => absurd hv (by simp)) huw hu
  | @work w op' calls head r' t hw hwork =>
    rcases outcome_put hu with ⟨rfl, hg⟩ | ⟨huw, hu⟩
    · obtain ⟨rfl, rfl⟩ : op' = op ∧ r' = r := by simpa [Progress.outcome] using hg
      have hsection := Returns.of_eq hwork (section_sound htracks.represents htracks.holds rfl
        (hsound op' calls head hw))
      obtain ⟨-, d, hd, hop, hvalue⟩ := found_of_sound hsection hfound
      refine ⟨d, hkept _ htracks.represents.index_lt d hd fun hdiscards => ?_, hop, hvalue⟩
      obtain ⟨v, op₁, calls₁, head₁, l, he, hv, -, hgives⟩ := hdiscards
      obtain rfl : u = v := by simpa using he
      rw [hw] at hv
      obtain ⟨rfl, -⟩ : op' = op₁ ∧ _ := by simpa using hv
      rw [hop] at hgives
      exact absurd hgives.1 (by simp [Op.Replaces])
    · exact hstay (fun v hv => by simpa using hv.symm) huw hu
  | @unlock w op' calls r' text hw =>
    rcases outcome_put hu with ⟨rfl, hg⟩ | ⟨huw, hu⟩
    · have hout : (s.progress u).outcome = some (op, r) := by
        rw [hw]
        exact hg
      exact h.kept htracks.represents hexcl hund hkept (fun v hv => absurd hv (by simp)) hout hfound
    · exact hstay (fun v hv => absurd hv (by simp)) huw hu
  | @reply w =>
    rcases outcome_put hu with ⟨-, hg⟩ | ⟨huw, hu⟩
    · exact absurd hg (by simp [Progress.outcome])
    · exact hstay (fun v hv => absurd hv (by simp)) huw hu

/-- The work is done with a sound head, and no value is given up while a worker points to it. -/
def Careful (s : Threads ι) (e : Event ι) : Prop := Sound s e ∧ Undisturbed s e

theorem refers_run {t₀ : Table} {es : List (Event ι)} (hr : Represents t₀ fun _ => [])
    (hrun : Run (Guarded Careful Step) (initial t₀) es s) :
    ∃ S m B, Tracks s (history es) S m B ∧ Exclusive s ∧ Refers s B := by
  induction hrun with
  | nil =>
    refine ⟨[], ∅, _, tracks_initial hr, fun u w op op' _ hu _ _ => ?_, fun w op r a hw _ => ?_⟩
    · exact absurd hu (by simp [initial, Progress.holding])
    · exact absurd hw (by simp [initial, Progress.outcome])
  | snoc _ hlast ih =>
    obtain ⟨⟨hsound, hund⟩, hstep⟩ := hlast
    obtain ⟨S, m, B, h, hexcl, hrefers⟩ := ih
    obtain ⟨S', m', B', h', hsize, hkept⟩ := h.step hsound hstep
    rw [← history_snoc] at h'
    exact ⟨S', m', B', h', hexcl.step hsize hstep,
      hrefers.step h hexcl hsound hund hstep hsize hkept⟩

/-- **A `READ` sends a value that its key has.** Where the work is done with a sound head and no
    value is given up while a worker points to it, every pointer that a worker still has to copy
    from is to the value that the key has then, in the map of the linearized operations. -/
theorem reads_bound_value {t₀ : Table} {n : Nat} {initCalls : InitCalls} {heap : Cells Cell}
    {es : List (Event ι)} (hn : 0 < n) (hn' : n ≤ 2 ^ 31 - 1)
    (hinit : hashInit initCalls heap n = some t₀)
    (hrun : Run (Guarded Careful Step) (initial t₀) es s) :
    ∃ S m B, Linearization mapSpec ∅ (history es) S m ∧ Buckets s.table B ∧
      Holds s.table B m ∧ ∀ w key r a, s.progress w = .returned (.search key) r →
        r.found = some a → ∃ v, m.lookup key = some v ∧ s.table.heap.lookup a = some (.str v) ∧
          Step s (.reply w (some v)) (s.put w .idle) := by
  obtain ⟨S, m, B, h, -, hrefers⟩ := refers_run (represents_init hn hn' hinit) hrun
  refine ⟨S, m, B, h.linearization, h.represents.toBuckets, h.holds, fun w key r a hw hfound => ?_⟩
  have hout : (s.progress w).outcome = some (.search key, r) := by
    rw [hw]
    rfl
  obtain ⟨d, hd, hop, rfl⟩ := hrefers w (.search key) r a hout hfound
  obtain rfl : key = d.key := by simpa using hop
  have hlt : s.index (.search d.key) < s.table.hashSize := h.represents.index_lt
  obtain ⟨next, hstands⟩ := (h.represents.chain _ hlt).stands hd
  have htext : r.text s.table = some d.value := by
    unfold Outcome.text
    rw [hfound]
    dsimp only
    rw [hstands.value]
  refine ⟨d.value, ?_, hstands.value, htext ▸ Step.reply hw⟩
  rw [h.holds.lookup]
  exact valueOf_mem (h.represents.keys _ hlt) hd

end Threads

/-! ## A value that is replaced -/

/-- An update that gets memory frees the cell of the value it replaces. -/
theorem listUpdate_frees {v : Addr} (hl : Chain h a l) (hapart : Apart l)
    (hkey : findKey l key = some e) (hv : calls.strdupValue.choose h = some v) :
    ∃ h', listUpdate calls a key value h = .ok (1, h') ∧ h'.lookup e.valueAt = none := by
  obtain ⟨next, he⟩ := hl.stands (findKey_some hkey).1
  refine ⟨_, listUpdate_found hl hapart hkey he hv, ?_⟩
  obtain ⟨pre, post, rfl, -, -⟩ := findKey_split hkey
  have hnodup := hapart.middle.1
  have hne : e.valueAt ≠ e.node := fun heq => by simp [Entry.cells, heq] at hnodup
  rw [Finmap.lookup_insert_of_ne _ hne, Finmap.lookup_erase]

namespace Threads

theorem careful_of_ne_work {s : Threads ι} {e : Event ι} (he : ∀ u, e ≠ .work u) : Careful s e :=
  ⟨sound_of_ne_work he, fun _ ⟨w, _, _, _, _, hw, _⟩ => absurd hw (he w)⟩

theorem careful_put [DecidableEq ι] (hhead : head = s.table.buckets (s.index op))
    (hop : ∀ key, ¬ op.Replaces key) : Careful (s.put w (.locked op calls head)) (.work w) := by
  refine ⟨sound_put hhead, fun key hdiscards => ?_⟩
  obtain ⟨v, op', calls', head', l, he, hv, -, hgives⟩ := hdiscards
  obtain rfl : w = v := by simpa using he
  rw [put_self, Progress.locked.injEq] at hv
  obtain ⟨rfl, -⟩ := hv
  exact absurd hgives.1 (hop key)

/-- An operation on a table of one bucket that nobody else uses. -/
theorem run_alone (op : Op) {r : Outcome} (hsize : t.hashSize = 1) (hop : ∀ key, ¬ op.Replaces key)
    (hwork : op.section allSucceed 0 (t.buckets 0) t = .ok (r, t')) : ∃ es,
    Run (Guarded Careful Step) (initial t) es ((initial t').put false (.returned op r)) := by
  have hindex : (initial t : Threads Bool).index op = 0 := index_of_size op hsize
  exact ⟨_, run_op (s := initial t) rfl (fun _ => rfl) (by rw [hindex]; exact hwork)
    (fun _ _ => careful_of_ne_work) (careful_put rfl hop)⟩

theorem reply_alone (op : Op) (r : Outcome) : ∃ e,
    Guarded Careful Step ((initial t).put false (.returned op r)) e (initial t) := by
  have hback : ((initial t).put false (.returned op r)).put false .idle = initial t := by
    unfold put initial
    rw [Function.update_idem, Function.update_eq_self]
  have hstep := Step.reply (s := (initial t).put false (.returned op r)) put_self
  rw [hback] at hstep
  exact ⟨_, careful_of_ne_work (by simp), hstep⟩

/-- A table of one bucket, into which one worker has put a pair and then looks it up: the search
    has returned, and its value is not yet copied. -/
theorem search_returned : ∃ (es : List (Event Bool)) (s : Threads Bool) (e : Entry),
    Run (Guarded Careful Step) (initial oneBucket) es s ∧ s.table.hashSize = 1 ∧
      s.progress false = .returned (.search [97]) { code := 1, found := some e.valueAt } ∧
      s.progress true = .idle ∧ e.key = [97] ∧ Chain s.table.heap (s.table.buckets 0) [e] ∧
      Apart [e] := by
  obtain ⟨h, e, hinsert, hk, hv, hmove⟩ := insertSection_null oneBucket 0 [97] [49]
  obtain ⟨es₁, hrun₁⟩ :=
    run_alone (t := oneBucket) (.insert [97] [49]) rfl (by simp [Op.Replaces]) hinsert
  obtain ⟨_, hreply⟩ := reply_alone (.insert [97] [49]) { code := 1 }
  have hsearch := searchSection_found (t := oneBucket.changed h 0 e.node 1) hmove.chain hmove.apart
    (findKey_cons_eq hk)
  obtain ⟨es₂, hrun₂⟩ := run_alone (t := oneBucket.changed h 0 e.node 1) (.search [97]) rfl
    (by simp [Op.Replaces]) hsearch
  exact ⟨_, _, e, (hrun₁.snoc hreply).trans hrun₂, rfl, put_self, rfl, hk, hmove.chain, hmove.apart⟩

/-- The reply to a `READ` after a `CREATE`. -/
theorem reads_bound_value_first : ∃ (t₀ : Table) (es : List (Event Bool)) (s : Threads Bool)
    (r : Outcome) (a : Addr), Run (Guarded Careful Step) (initial t₀) es s ∧
      s.progress false = .returned (.search [97]) r ∧ r.found = some a ∧
      ∃ v, s.table.heap.lookup a = some (.str v) := by
  obtain ⟨es, s, e, hrun, -, hw, -⟩ := search_returned
  obtain ⟨S, m, B, -, -, -, hreads⟩ := reads_bound_value (by decide) (by decide) hashInit_one hrun
  obtain ⟨v, -, hcell, -⟩ := hreads false _ _ e.valueAt hw rfl
  exact ⟨oneBucket, es, s, _, e.valueAt, hrun, hw, rfl, v, hcell⟩

/-- Between the search and the copy another worker updates the key: the pointer is to a cell that
    is free. -/
theorem reads_freed_value : ∃ (t₀ : Table) (es : List (Event Bool)) (s : Threads Bool)
    (r : Outcome) (a : Addr), hashInit ⟨true, true, true, true, fun _ => 0⟩ ∅ 1 = some t₀ ∧
      Run (Guarded Sound Step) (initial t₀) es s ∧
      s.progress false = .returned (.search [97]) r ∧ r.found = some a ∧
      s.table.heap.lookup a = none := by
  obtain ⟨es, s, e, hrun, hsize, hw, hidle, hk, hl, hapart⟩ := search_returned
  have hindex : s.index (.update [97] [50]) = 0 := index_of_size _ hsize
  have hchoose : ∃ v, allSucceed.strdupValue.choose s.table.heap = some v := ⟨_, rfl⟩
  obtain ⟨v, hv⟩ := hchoose
  have hfrees : ∃ h', listUpdate allSucceed
      (s.table.buckets 0) [97] [50] s.table.heap = .ok (1, h') ∧
      h'.lookup e.valueAt = none := listUpdate_frees hl hapart (findKey_cons_eq hk) hv
  obtain ⟨h', hlist, hfree⟩ := hfrees
  have hupdate : (Op.update [97] [50]).section allSucceed (s.index (.update [97] [50]))
      (s.table.buckets (s.index (.update [97] [50]))) s.table =
      .ok ({ code := 1 }, { s.table with heap := h' }) := by
    rw [hindex]
    change updateSection allSucceed (s.table.buckets 0) [97] [50] s.table = _
    have hon : onHeap (listUpdate allSucceed (s.table.buckets 0) [97] [50]) s.table =
        .ok (1, { s.table with heap := h' }) := by
      unfold onHeap
      rw [hlist]
    unfold updateSection
    rw [bind_of_ok hon]
    rfl
  have hrun' : Run (Guarded Sound Step) s _ _ := run_op (w := true) hidle
    (fun u => by cases u <;> simp [hw, hidle, Progress.holding]) hupdate
    (fun _ _ => sound_of_ne_work) (sound_put rfl)
  have hsound : Run (Guarded Sound Step) (initial oneBucket) es s :=
    Run.weaken (fun _ _ => And.left) hrun
  have hstay : ({ s with table := { s.table with heap := h' } }.put true
      (.returned (.update [97] [50]) { code := 1 })).progress false = _ :=
    (put_of_ne (by decide)).trans hw
  exact ⟨oneBucket, _, _, _, e.valueAt, hashInit_one, hsound.trans hrun', hstay, rfl, hfree⟩

end Threads

end SnuSysProg.Skvs
