import SnuSysProg.Skvs.Refinement

/-
  An operation that runs with the head it loaded before it had the lock.

  The bucket may have a new head by then. The work is still right if the loaded head can be reached
  from the new one and the operation does not write it back (`HeadSound`): either the operation
  does what it would do with the new head, or its key was inserted in the meantime and it does
  what it would have done before that (`section_sound`).
-/

namespace SnuSysProg.Skvs
open SnuSysProg.Lib

variable {t t' : Table} {B : Nat → List Entry} {m : Map} {op : Op} {calls : Calls} {r : Outcome}
  {h h' : Cells Cell} {head a a' : Addr} {i j : Nat} {l l' pre post skipped rest : List Entry}
  {e d : Entry} {key value : Str}

/-! ## What an operation does to the chain of a bucket -/

inductive ListChange (op : Op) : List Entry → List Entry → Prop
  | same {l : List Entry} : ListChange op l l
  | added {l : List Entry} {e : Entry} (hop : op = .insert e.key e.value)
      (habsent : ∀ d ∈ l, d.key ≠ e.key) : ListChange op l (e :: l)
  | replaced {pre post : List Entry} {e : Entry} {v : Addr} {value : Str}
      (hop : op = .update e.key value) :
      ListChange op (pre ++ e :: post) (pre ++ { e with valueAt := v, value := value } :: post)
  | removed {pre post : List Entry} {e : Entry} (hop : op = .delete e.key) :
      ListChange op (pre ++ e :: post) (pre ++ post)

/-- The operation is meant to give up the value that a key has. -/
def Op.Replaces (op : Op) (key : Str) : Prop :=
  op = .delete key ∨ ∃ value, op = .update key value

/-- It finds the key on the list `l`, and an update gets memory for its value. -/
def Op.Discards (op : Op) (calls : Calls) (h : Cells Cell) (l : List Entry) (key : Str) : Prop :=
  op.Replaces key ∧ findKey l key ≠ none ∧
    ∀ value, op = .update key value → calls.strdupValue.choose h ≠ none

/-- An entry stays as it is while no operation replaces it. -/
theorem ListChange.kept (hchange : ListChange op l l') (he : e ∈ l) (hop : ¬ op.Replaces e.key) :
    e ∈ l' := by
  cases hchange with
  | same => exact he
  | added => exact List.mem_cons_of_mem _ he
  | @replaced pre post d v value hd =>
    rcases List.mem_append.mp he with he | he
    · exact List.mem_append_left _ he
    · rcases List.mem_cons.mp he with rfl | he
      · exact absurd (Or.inr ⟨value, hd⟩) hop
      · exact List.mem_append_right _ (List.mem_cons_of_mem _ he)
  | @removed pre post d hd =>
    rcases List.mem_append.mp he with he | he
    · exact List.mem_append_left _ he
    · rcases List.mem_cons.mp he with rfl | he
      · exact absurd (Or.inl hd) hop
      · exact List.mem_append_right _ he

/-- The cells determine the chain. -/
theorem Chain.unique (hl : Chain h a l) (hl' : Chain h a l') : l = l' := by
  induction l generalizing a l' with
  | nil =>
    obtain rfl : a = nullAddr := hl
    cases l' with
    | nil => rfl
    | cons d l' =>
      obtain ⟨ha, next, hd, -⟩ := hl'
      exact absurd ha.symm hd.node_ne
  | cons e l ih =>
    obtain ⟨rfl, next, he, hl⟩ := hl
    cases l' with
    | nil => exact absurd hl' he.node_ne
    | cons d l' =>
      obtain ⟨hnode, next', hd, hl'⟩ := hl'
      have hcell : some (Cell.node ⟨e.keyAt, e.valueAt, next⟩) =
          some (.node ⟨d.keyAt, d.valueAt, next'⟩) := by
        rw [← he.node, ← hd.node, hnode]
      obtain ⟨hkey, hvalue, rfl⟩ : e.keyAt = d.keyAt ∧ e.valueAt = d.valueAt ∧ next = next' := by
        simpa using hcell
      have hkeys : e.key = d.key := by
        have hstr := he.key
        rw [hkey, hd.key] at hstr
        simpa using hstr.symm
      have hvalues : e.value = d.value := by
        have hstr := he.value
        rw [hvalue, hd.value] at hstr
        simpa using hstr.symm
      have hed : e = d := by
        obtain ⟨_, _, _, _, _⟩ := e
        obtain ⟨_, _, _, _, _⟩ := d
        simp_all
      rw [hed, ih hl hl']

/-- A change of one bucket, seen from any bucket. -/
theorem ListMove.changes {c : Int} (hr : Represents t B) (hi : i < t.hashSize)
    (hmove : ListMove t.heap h' (B i) l' a') (hchange : ListChange op (B i) l')
    (hj : j < t.hashSize) :
    ∃ l, Chain (t.changed h' i a' c).heap ((t.changed h' i a' c).buckets j) l ∧
      ListChange op (B j) l := by
  change ∃ l, Chain h' (Function.update t.buckets i a' j) l ∧ ListChange op (B j) l
  by_cases hji : j = i
  · subst hji
    rw [Function.update_self]
    exact ⟨l', hmove.chain, hchange⟩
  · rw [Function.update_of_ne hji]
    refine ⟨B j, (hr.chain j hj).congr fun x hx => ?_, .same⟩
    exact hmove.frame x ((hr.chain j hj).live hx) (hr.disjoint j hj i hi hji x hx)

/-! ## With the head that the bucket has -/

/-- What the part of an operation under the lock does to the chains, and where a value it found
    is. -/
structure Moves (op : Op) (t : Table) (B : Nat → List Entry) (i : Nat) (r : Outcome) (t' : Table) :
    Prop where
  size : t'.hashSize = t.hashSize
  change : ∀ j < t.hashSize, ∃ l, Chain t'.heap (t'.buckets j) l ∧ ListChange op (B j) l
  found : ∀ a, r.found = some a → t' = t ∧ ∃ e ∈ B i, op = .search e.key ∧ e.valueAt = a

theorem Moves.stay (hr : Represents t B) (hfound : r.found = none) : Moves op t B i r t where
  size := rfl
  change := fun j hj => ⟨B j, hr.chain j hj, .same⟩
  found := fun a ha => absurd (hfound.symm.trans ha) (by simp)

theorem Moves.of_move {c : Int} (hr : Represents t B) (hi : i < t.hashSize)
    (hmove : ListMove t.heap h' (B i) l' a') (hchange : ListChange op (B i) l') {code : Int} :
    Moves op t B i { code := code } (t.changed h' i a' c) where
  size := rfl
  change := fun _ hj => hmove.changes hr hi hchange hj
  found := fun a ha => absurd (show none = some a from ha) (by simp)

theorem onHeap_ok {α : Type} {x : ListM α} {b : α} (hx : x t.heap = .ok (b, t.heap)) :
    onHeap x t = .ok (b, t) := by
  unfold onHeap
  rw [hx]

/-- A search that finds an entry. -/
theorem searchSection_found (hl : Chain t.heap head l) (hapart : Apart l)
    (hkey : findKey l key = some e) :
    searchSection head key t = .ok ({ code := 1, found := some e.valueAt }, t) := by
  obtain ⟨next, he⟩ := hl.stands (findKey_some hkey).1
  unfold searchSection
  rw [bind_of_ok (onHeap_ok (listSearch_ok hl hapart)), hkey,
    if_neg (show nodeOf (some e) ≠ nullAddr from he.node_ne)]
  exact bind_of_ok (onHeap_ok (loadNode_ok he.node))

/-- A search of an empty list. -/
theorem searchSection_null (t : Table) (key : Str) :
    searchSection nullAddr key t = .ok ({ code := 0 }, t) := by
  have hnil : Chain t.heap nullAddr [] := rfl
  unfold searchSection
  exact bind_of_ok (onHeap_ok (listSearch_ok hnil List.nodup_nil))

theorem section_moves (hr : Represents t B) (hi : i < t.hashSize) :
    Returns (op.section calls i (t.buckets i)) t (Moves op t B i) := by
  have hchain := hr.chain i hi
  have hapart := hr.apart i hi
  cases op with
  | insert key value =>
    refine Returns.bind (onHeap_returns (listInsert_spec hchain hapart)) fun r t' ⟨hins, ht'⟩ => ?_
    generalize t'.heap = h' at hins ht'
    subst ht'
    cases hins with
    | present => exact Returns.step (pure_apply _ _) (Returns.pure (.stay hr rfl))
    | failed => exact Returns.step (pure_apply _ _) (Returns.pure (.stay hr rfl))
    | @added e h' hkey hk hv hmove =>
      subst hk hv
      refine Returns.step (relink_changed 1) (Returns.pure ?_)
      exact .of_move hr hi hmove (.added rfl (findKey_none.mp hkey))
  | search key =>
    cases hfind : findKey (B i) key with
    | none =>
      unfold Op.section searchSection
      refine Returns.step (onHeap_ok (listSearch_ok hchain hapart)) ?_
      rw [hfind]
      exact Returns.pure (.stay hr rfl)
    | some e =>
      obtain ⟨he, rfl⟩ := findKey_some hfind
      refine Returns.intro (searchSection_found hchain hapart hfind)
        ⟨rfl, fun j hj => ⟨B j, hr.chain j hj, .same⟩, ?_⟩
      exact fun a ha => ⟨rfl, e, he, rfl, Option.some.inj ha⟩
  | update key value =>
    refine Returns.bind (onHeap_returns (listUpdate_spec hchain hapart)) fun r t' ⟨hupd, ht'⟩ => ?_
    generalize t'.heap = h' at hupd ht'
    subst ht'
    cases hupd with
    | absent => exact Returns.pure (.stay hr rfl)
    | failed => exact Returns.pure (.stay hr rfl)
    | @replaced e pre post v h' hkey hl hk hpre hmove =>
      subst hk
      rw [← changed_self]
      refine Returns.pure (.of_move hr hi hmove ?_)
      rw [hl]
      exact .replaced rfl
  | delete key =>
    refine Returns.bind (onHeap_returns (listDelete_spec hchain hapart)) fun r t' ⟨hdel, ht'⟩ => ?_
    generalize t'.heap = h' at hdel ht'
    subst ht'
    cases hdel with
    | absent => exact Returns.step (pure_apply _ _) (Returns.pure (.stay hr rfl))
    | @removed e pre post a' h' hkey hl hk hpre hmove =>
      subst hk
      refine Returns.step (relink_changed (-1)) (Returns.pure (.of_move hr hi hmove ?_))
      rw [hl]
      exact .removed rfl

/-! ## With a head loaded before -/

/-- On a list of the entries `rest` the operation does not give the bucket another head. -/
def Op.KeepsHead (op : Op) (rest : List Entry) : Prop :=
  match op with
  | .insert key _ => findKey rest key ≠ none
  | .search _ => True
  | .update _ _ => True
  | .delete key => findKey rest key = none

/-- The head is the one that the bucket has, or it can be reached from that one and the operation
    does not write it back. -/
def HeadSound (t : Table) (op : Op) (i : Nat) (head : Addr) : Prop :=
  head = t.buckets i ∨ ∃ skipped rest, Chain t.heap (t.buckets i) (skipped ++ rest) ∧
    Chain t.heap head rest ∧ op.KeepsHead rest

theorem listInsert_present (hl : Chain h a l) (hapart : Apart l) (hkey : findKey l key ≠ none) :
    listInsert calls a key value h = .ok ((0, a), h) := by
  unfold listInsert
  rw [bind_of_ok (listSearch_ok hl hapart), if_pos fun h0 => hkey ((hl.nodeOf_eq_null key).mp h0)]
  rfl

theorem listDelete_absent (hl : Chain h a l) (hapart : Apart l) (hkey : findKey l key = none) :
    listDelete a key h = .ok ((0, a), h) := by
  have hdelete : Returns (listDelete a key) h (Deleted h a l key) := listDelete_spec hl hapart
  obtain ⟨r, h', heq, hdel⟩ := hdelete
  cases hdel with
  | absent => exact heq
  | removed hsome => exact absurd (hkey.symm.trans hsome) (by simp)

theorem listUpdate_absent (hl : Chain h a l) (hapart : Apart l) (hkey : findKey l key = none) :
    listUpdate calls a key value h = .ok (0, h) := by
  unfold listUpdate
  rw [bind_of_ok (listSearch_ok hl hapart), hkey]
  rfl

/-- An insertion of a key that the list has. -/
theorem insertSection_present (hl : Chain t.heap head l) (hapart : Apart l)
    (hkey : findKey l key ≠ none) :
    insertSection calls i head key value t = .ok ({ code := 0 }, t) := by
  unfold insertSection
  rw [bind_of_ok (onHeap_ok (listInsert_present hl hapart hkey))]
  rfl

/-- Any other operation on a key that the list does not have. -/
theorem section_absent (hl : Chain t.heap head l) (hapart : Apart l)
    (hkey : findKey l op.key = none) (hop : ∀ key value, op ≠ .insert key value) :
    op.section calls i head t = .ok ({ code := 0 }, t) := by
  cases op with
  | insert key value => exact absurd rfl (hop key value)
  | search key =>
    have hsearch : listSearch head key t.heap = .ok (nullAddr, t.heap) := by
      rw [listSearch_ok hl hapart, show findKey l key = none from hkey]
      rfl
    change searchSection head key t = _
    unfold searchSection
    rw [bind_of_ok (onHeap_ok hsearch)]
    rfl
  | update key value =>
    have habsent : findKey l key = none := hkey
    change updateSection calls head key value t = _
    unfold updateSection
    rw [bind_of_ok (onHeap_ok (listUpdate_absent hl hapart habsent))]
    rfl
  | delete key =>
    have habsent : findKey l key = none := hkey
    change deleteSection i head key t = _
    unfold deleteSection
    rw [bind_of_ok (onHeap_ok (listDelete_absent hl hapart habsent))]
    rfl

/-- Lists that agree on the key of an operation that keeps the head. -/
theorem section_congr (hl : Chain t.heap head l) (hapart : Apart l) (hl' : Chain t.heap a l')
    (hapart' : Apart l') (hkeys : findKey l op.key = findKey l' op.key) (hkeeps : op.KeepsHead l) :
    op.section calls i head t = op.section calls i a t := by
  cases op with
  | insert key value =>
    have hpresent : findKey l key ≠ none := hkeeps
    have hpresent' : findKey l' key ≠ none := fun h0 => hpresent (hkeys.trans h0)
    exact (insertSection_present hl hapart hpresent).trans
      (insertSection_present hl' hapart' hpresent').symm
  | search key =>
    have hfind : findKey l key = findKey l' key := hkeys
    change searchSection head key t = searchSection a key t
    unfold searchSection
    rw [bind_of_ok (onHeap_ok (listSearch_ok hl hapart)),
      bind_of_ok (onHeap_ok (listSearch_ok hl' hapart')), hfind]
  | update key value =>
    have hfind : findKey l key = findKey l' key := hkeys
    have hlist : listUpdate calls head key value t.heap = listUpdate calls a key value t.heap := by
      unfold listUpdate
      rw [bind_of_ok (listSearch_ok hl hapart), bind_of_ok (listSearch_ok hl' hapart'), hfind]
    have hon : onHeap (listUpdate calls head key value) t =
        onHeap (listUpdate calls a key value) t := by
      unfold onHeap
      rw [hlist]
    change (onHeap (listUpdate calls head key value) t >>= _) =
      (onHeap (listUpdate calls a key value) t >>= _)
    rw [hon]
  | delete key =>
    have habsent : findKey l (Op.delete key).key = none := hkeeps
    have habsent' : findKey l' (Op.delete key).key = none := hkeys.symm.trans habsent
    have hop : ∀ k v, Op.delete key ≠ .insert k v := by simp
    exact (section_absent hl hapart habsent hop).trans
      (section_absent hl' hapart' habsent' hop).symm

/-- An update that gets no memory for the value. -/
theorem listUpdate_failed (hl : Chain h a l) (hapart : Apart l) (hkey : findKey l key = some e)
    (hchoose : calls.strdupValue.choose h = none) :
    listUpdate calls a key value h = .ok (-1, h) := by
  obtain ⟨next, he⟩ := hl.stands (findKey_some hkey).1
  unfold listUpdate
  rw [bind_of_ok (listSearch_ok hl hapart), hkey,
    if_neg (show nodeOf (some e) ≠ nullAddr from he.node_ne)]
  unfold strdup
  rw [bind_of_ok (allocCell_none hchoose)]
  rfl

/-- An operation that could replace a value leaves the table if it does not discard the value. -/
theorem section_unchanged (hl : Chain t.heap head l) (hapart : Apart l) (hop : op.Replaces key)
    (hkeep : ¬ op.Discards calls t.heap l key) (hwork : op.section calls i head t = .ok (r, t')) :
    t' = t := by
  have hkey : op.key = key := by
    rcases hop with rfl | ⟨value, rfl⟩ <;> rfl
  cases hfind : findKey l key with
  | none =>
    have hnot : ∀ k v, op ≠ .insert k v := by
      rcases hop with rfl | ⟨value, rfl⟩ <;> simp
    rw [section_absent hl hapart (hkey.symm ▸ hfind) hnot] at hwork
    simp only [Except.ok.injEq, Prod.mk.injEq] at hwork
    exact hwork.2.symm
  | some e =>
    have hsome : findKey l key ≠ none := by simp [hfind]
    rcases hop with rfl | ⟨value, rfl⟩
    · exact absurd ⟨Or.inl rfl, hsome, by simp⟩ hkeep
    · have hchoose : calls.strdupValue.choose t.heap = none := by
        by_contra hchoose
        exact hkeep ⟨Or.inr ⟨value, rfl⟩, hsome, fun _ _ => hchoose⟩
      change updateSection calls head key value t = _ at hwork
      unfold updateSection at hwork
      rw [bind_of_ok (onHeap_ok (listUpdate_failed hl hapart hfind hchoose))] at hwork
      simp only [pure_apply, Except.ok.injEq, Prod.mk.injEq] at hwork
      exact hwork.2.symm

/-- From a sound head there is a list. -/
theorem HeadSound.chain (hsound : HeadSound t op (index key t.hashSize) head)
    (hr : Represents t B) : ∃ l, Chain t.heap head l ∧ Apart l := by
  have hlt : index key t.hashSize < t.hashSize := hr.index_lt
  rcases hsound with rfl | ⟨skipped, rest, hchain, hhead, -⟩
  · exact ⟨_, hr.chain _ hlt, hr.apart _ hlt⟩
  · have hapart := hr.apart _ hlt
    rw [(hr.chain _ hlt).unique hchain] at hapart
    exact ⟨rest, hhead, hapart.append.2.1⟩

/-- The outcomes of an operation whose head is sound. -/
inductive SoundSection (op : Op) (calls : Calls) (t : Table) (B : Nat → List Entry) (m : Map)
    (i : Nat) (head : Addr) : Outcome → Table → Prop
  /-- It did its work on the map, or failed and left it. -/
  | now {r : Outcome} {t' : Table} (h : Section op calls t B m r t')
      (hmoves : Moves op t B i r t') :
      SoundSection op calls t B m i head r t'
  /-- Its key is in front of the head it has, and it missed it. -/
  | late {skipped rest : List Entry} {e : Entry} (hl : B i = skipped ++ rest)
      (hhead : Chain t.heap head rest) (he : e ∈ skipped) (hkey : e.key = op.key)
      (hop : ∀ key value, op ≠ .insert key value) :
      SoundSection op calls t B m i head { code := 0 } t

theorem section_sound (hr : Represents t B) (hm : Holds t B m) (hi : i = index op.key t.hashSize)
    (hsound : HeadSound t op i head) :
    Returns (op.section calls i head) t (SoundSection op calls t B m i head) := by
  have hlt : i < t.hashSize := hi ▸ hr.index_lt
  have hcurrent : Returns (op.section calls i (t.buckets i)) t
      (SoundSection op calls t B m i head) := by
    have hcall : Returns (op.section calls i (t.buckets i)) t (Moves op t B i) :=
      section_moves hr hlt
    obtain ⟨r, t', heq, hmoves⟩ := hcall
    exact ⟨r, t', heq, .now (Returns.of_eq heq (section_spec hr hm hi)) hmoves⟩
  rcases hsound with rfl | ⟨skipped, rest, hchain, hhead, hkeeps⟩
  · exact hcurrent
  · have hl : B i = skipped ++ rest := (hr.chain i hlt).unique hchain
    have hapart : Apart (skipped ++ rest) := hl ▸ hr.apart i hlt
    have hrest : Apart rest := hapart.append.2.1
    by_cases hskipped : ∃ e ∈ skipped, e.key = op.key
    · obtain ⟨e, he, hkey⟩ := hskipped
      have hkeys := hr.keys i hlt
      rw [hl, List.map_append] at hkeys
      have habsent : findKey rest op.key = none := findKey_none.mpr fun d hd hdk =>
        (List.nodup_append.mp hkeys).2.2 e.key (List.mem_map_of_mem he) d.key
          (List.mem_map_of_mem hd) (hkey.trans hdk.symm)
      have hop : ∀ key value, op ≠ .insert key value := by
        intro key value hop
        subst hop
        exact hkeeps habsent
      exact ⟨_, t, section_absent hhead hrest habsent hop, .late hl hhead he hkey hop⟩
    · have hkeys : findKey rest op.key = findKey (skipped ++ rest) op.key :=
        (findKey_append fun d hd hdk => hskipped ⟨d, hd, hdk⟩).symm
      obtain ⟨r, t', heq, hsec⟩ := hcurrent
      refine ⟨r, t', ?_, hsec⟩
      rw [section_congr hhead hrest hchain hapart hkeys hkeeps]
      exact heq

end SnuSysProg.Skvs
