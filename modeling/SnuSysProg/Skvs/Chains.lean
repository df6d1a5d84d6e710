import SnuSysProg.Skvs.Hashtable

/-
  The chains of nodes, and what the list functions do to one.

  `Chain h a l`: from `a` the `next` pointers run through the nodes of the entries `l`, each with
  its key and its value. A list function leaves a chain of the entries it should, takes new cells
  from outside the heap only, and touches no cell outside the chain it works on (`ListMove`).
-/

namespace SnuSysProg.Skvs
open SnuSysProg.Lib

/-- A node of the table with its two strings. -/
structure Entry where
  node : Addr
  keyAt : Addr
  valueAt : Addr
  key : Str
  value : Str
  deriving DecidableEq

def Entry.cells (e : Entry) : List Addr := [e.node, e.keyAt, e.valueAt]

def cellsOf (l : List Entry) : List Addr := l.flatMap Entry.cells

variable {h h' : Cells Cell} {a a' b next prev x : Addr} {l l' pre post : List Entry} {e d : Entry}
  {key value : Str} {limit : Nat} {calls : Calls}

theorem mem_cellsOf : x ∈ cellsOf l ↔ ∃ e ∈ l, x ∈ e.cells := List.mem_flatMap

theorem cellsOf_cons : cellsOf (e :: l) = e.cells ++ cellsOf l := List.flatMap_cons

theorem cellsOf_append : cellsOf (l ++ l') = cellsOf l ++ cellsOf l' := List.flatMap_append

/-- The node is in the heap with its strings, and points to `next`. -/
structure Entry.Stands (e : Entry) (h : Cells Cell) (next : Addr) : Prop where
  node : h.lookup e.node = some (.node ⟨e.keyAt, e.valueAt, next⟩)
  key : h.lookup e.keyAt = some (.str e.key)
  value : h.lookup e.valueAt = some (.str e.value)
  nonnull : nullAddr ∉ e.cells

/-- From `a` the `next` pointers run through the entries `l` and on to `b`. -/
def Path (h : Cells Cell) : Addr → List Entry → Addr → Prop
  | a, [], b => a = b
  | a, e :: l, b => a = e.node ∧ ∃ next, e.Stands h next ∧ Path h next l b

/-- A path to the end. -/
abbrev Chain (h : Cells Cell) (a : Addr) (l : List Entry) : Prop := Path h a l nullAddr

/-- No cell belongs to two entries, or twice to one. -/
def Apart (l : List Entry) : Prop := (cellsOf l).Nodup

theorem Entry.Stands.live (he : e.Stands h next) (hx : x ∈ e.cells) : x ∈ h := by
  have hcells : x = e.node ∨ x = e.keyAt ∨ x = e.valueAt := by simpa [Entry.cells] using hx
  rcases hcells with rfl | rfl | rfl
  · exact Finmap.mem_of_lookup_eq_some he.node
  · exact Finmap.mem_of_lookup_eq_some he.key
  · exact Finmap.mem_of_lookup_eq_some he.value

theorem Entry.Stands.congr (he : e.Stands h next) (hagree : AgreeAt e.cells h h') :
    e.Stands h' next := by
  refine ⟨?_, ?_, ?_, he.nonnull⟩
  · rw [hagree e.node (by simp [Entry.cells]), he.node]
  · rw [hagree e.keyAt (by simp [Entry.cells]), he.key]
  · rw [hagree e.valueAt (by simp [Entry.cells]), he.value]

theorem Entry.Stands.ne_null (he : e.Stands h next) (hx : x ∈ e.cells) : x ≠ nullAddr :=
  fun h0 => he.nonnull (h0 ▸ hx)

theorem Entry.Stands.node_ne (he : e.Stands h next) : e.node ≠ nullAddr :=
  he.ne_null (List.mem_cons_self ..)

theorem Path.live (hl : Path h a l b) (hx : x ∈ cellsOf l) : x ∈ h := by
  induction l generalizing a with
  | nil => exact absurd hx List.not_mem_nil
  | cons e l ih =>
    obtain ⟨-, next, he, hl⟩ := hl
    rw [cellsOf_cons] at hx
    rcases List.mem_append.mp hx with hx | hx
    · exact he.live hx
    · exact ih hl hx

/-- A path depends on its cells only. -/
theorem Path.congr (hl : Path h a l b) (hagree : AgreeAt (cellsOf l) h h') : Path h' a l b := by
  induction l generalizing a with
  | nil => exact hl
  | cons e l ih =>
    obtain ⟨ha, next, he, hl⟩ := hl
    rw [cellsOf_cons] at hagree
    exact ⟨ha, next, he.congr fun x hx => hagree x (List.mem_append_left _ hx),
      ih hl fun x hx => hagree x (List.mem_append_right _ hx)⟩

theorem Path.stands (hl : Path h a l b) (he : e ∈ l) : ∃ next, e.Stands h next := by
  induction l generalizing a with
  | nil => exact absurd he List.not_mem_nil
  | cons d l ih =>
    obtain ⟨-, next, hd, hl⟩ := hl
    rcases List.mem_cons.mp he with rfl | he
    · exact ⟨next, hd⟩
    · exact ih hl he

theorem path_append : Path h a (l ++ l') b ↔ ∃ c, Path h a l c ∧ Path h c l' b := by
  induction l generalizing a with
  | nil =>
    constructor
    · exact fun hl => ⟨a, rfl, hl⟩
    · rintro ⟨c, rfl, hl⟩
      exact hl
  | cons e l ih =>
    constructor
    · rintro ⟨ha, next, he, hl⟩
      obtain ⟨c, hl, hl'⟩ := ih.mp hl
      exact ⟨c, ⟨ha, next, he, hl⟩, hl'⟩
    · rintro ⟨c, ⟨ha, next, he, hl⟩, hl'⟩
      exact ⟨ha, next, he, ih.mpr ⟨c, hl, hl'⟩⟩

theorem Apart.nodes (h : Apart l) : (l.map Entry.node).Nodup := by
  induction l with
  | nil => exact List.nodup_nil
  | cons e l ih =>
    unfold Apart at h ih
    rw [cellsOf_cons] at h
    obtain ⟨-, hl, hdisj⟩ := List.nodup_append.mp h
    rw [List.map_cons]
    refine List.nodup_cons.mpr ⟨fun hmem => ?_, ih hl⟩
    obtain ⟨d, hd, heq⟩ := List.mem_map.mp hmem
    have hcell : e.node ∈ cellsOf l := mem_cellsOf.mpr ⟨d, hd, by rw [← heq]; simp [Entry.cells]⟩
    exact hdisj e.node (by simp [Entry.cells]) e.node hcell rfl

/-- A chain has no more nodes than there are cells. -/
theorem Chain.length_le (hl : Chain h a l) (hapart : Apart l) : l.length ≤ h.keys.card := by
  have hsub : (l.map Entry.node).toFinset ⊆ h.keys := by
    intro x hx
    obtain ⟨e, he, rfl⟩ := List.mem_map.mp (List.mem_toFinset.mp hx)
    obtain ⟨next, hstands⟩ := hl.stands he
    exact Finmap.mem_keys.mpr (hstands.live (List.mem_cons_self ..))
  have hcard := Finset.card_le_card hsub
  rwa [List.toFinset_card_of_nodup hapart.nodes, List.length_map] at hcard

/-! ## Reading -/

theorem loadNode_ok {n : Node} (hn : h.lookup a = some (.node n)) : loadNode a h = .ok (n, h) := by
  unfold loadNode
  rw [bind_of_ok (readCell_ok hn)]
  rfl

theorem loadStr_ok {s : Str} (hs : h.lookup a = some (.str s)) : loadStr a h = .ok (s, h) := by
  unfold loadStr
  rw [bind_of_ok (readCell_ok hs)]
  rfl

theorem walkLimit_ok : walkLimit h = .ok (h.keys.card, h) := rfl

/-- The entry of the key. -/
def findKey (l : List Entry) (key : Str) : Option Entry := l.find? fun e => e.key = key

def nodeOf : Option Entry → Addr
  | some e => e.node
  | none => nullAddr

theorem findKey_some (hfind : findKey l key = some e) : e ∈ l ∧ e.key = key := by
  unfold findKey at hfind
  exact ⟨List.mem_of_find?_eq_some hfind, by simpa using List.find?_some hfind⟩

theorem findKey_none : findKey l key = none ↔ ∀ e ∈ l, e.key ≠ key := by
  unfold findKey
  rw [List.find?_eq_none]
  exact forall₂_congr fun e _ => by rw [decide_eq_true_eq]

theorem findKey_cons_eq (h : e.key = key) : findKey (e :: l) key = some e :=
  List.find?_cons_of_pos (decide_eq_true h)

theorem findKey_cons_ne (h : e.key ≠ key) : findKey (e :: l) key = findKey l key :=
  List.find?_cons_of_neg fun heq => h (of_decide_eq_true heq)

theorem searchLoop_ok (hl : Chain h a l) (hlimit : l.length ≤ limit) :
    searchLoop key limit a h = .ok (nodeOf (findKey l key), h) := by
  induction l generalizing a limit with
  | nil =>
    obtain rfl : a = nullAddr := hl
    cases limit <;> rfl
  | cons e l ih =>
    obtain ⟨rfl, next, he, hl⟩ := hl
    cases limit with
    | zero => exact absurd hlimit (by simp)
    | succ limit =>
      rw [searchLoop, if_neg he.node_ne, bind_of_ok (loadNode_ok he.node),
        bind_of_ok (loadStr_ok he.key)]
      by_cases hkey : e.key = key
      · rw [if_pos hkey, findKey_cons_eq hkey]
        rfl
      · rw [if_neg hkey, findKey_cons_ne hkey]
        exact ih hl (Nat.le_of_succ_le_succ hlimit)

theorem listSearch_ok (hl : Chain h a l) (hapart : Apart l) :
    listSearch a key h = .ok (nodeOf (findKey l key), h) := by
  unfold listSearch
  rw [bind_of_ok walkLimit_ok]
  exact searchLoop_ok hl (hl.length_le hapart)

/-- The search gives `NULL` exactly when no entry has the key. -/
theorem Chain.nodeOf_eq_null (hl : Chain h a l) (key : Str) :
    nodeOf (findKey l key) = nullAddr ↔ findKey l key = none := by
  cases hfind : findKey l key with
  | none => exact iff_of_true rfl rfl
  | some e =>
    obtain ⟨next, he⟩ := hl.stands (findKey_some hfind).1
    exact iff_of_false he.node_ne (by simp)

/-! ## What a list function does to the heap -/

structure ListMove (h h' : Cells Cell) (l l' : List Entry) (a' : Addr) : Prop where
  chain : Chain h' a' l'
  apart : Apart l'
  frame : ∀ x ∈ h, x ∉ cellsOf l → h'.lookup x = h.lookup x
  fresh : ∀ x ∈ cellsOf l', x ∈ cellsOf l ∨ x ∉ h

theorem ListMove.refl (hl : Chain h a l) (hapart : Apart l) : ListMove h h l l a :=
  ⟨hl, hapart, fun _ _ _ => rfl, fun _ hx => Or.inl hx⟩

theorem Apart.append (hapart : Apart (l ++ l')) :
    Apart l ∧ Apart l' ∧ ∀ x ∈ cellsOf l, x ∉ cellsOf l' := by
  unfold Apart at hapart ⊢
  rw [cellsOf_append] at hapart
  obtain ⟨h1, h2, hdisj⟩ := List.nodup_append.mp hapart
  exact ⟨h1, h2, fun x hx hx' => hdisj x hx x hx' rfl⟩

theorem Apart.cons (hapart : Apart (e :: l)) :
    e.cells.Nodup ∧ Apart l ∧ ∀ x ∈ e.cells, x ∉ cellsOf l := by
  unfold Apart at hapart ⊢
  rw [cellsOf_cons] at hapart
  obtain ⟨h1, h2, hdisj⟩ := List.nodup_append.mp hapart
  exact ⟨h1, h2, fun x hx hx' => hdisj x hx x hx' rfl⟩

theorem cellsOf_middle : x ∈ cellsOf (pre ++ e :: post) ↔
    x ∈ e.cells ∨ x ∈ cellsOf pre ∨ x ∈ cellsOf post := by
  rw [cellsOf_append, cellsOf_cons, List.mem_append, List.mem_append]
  tauto

/-- The cells of the entry in the middle, and those around it. -/
theorem Apart.middle (hapart : Apart (pre ++ e :: post)) :
    e.cells.Nodup ∧ (∀ x ∈ e.cells, x ∉ cellsOf pre ∧ x ∉ cellsOf post) ∧ Apart (pre ++ post) := by
  obtain ⟨hpre, hpost, hdisj⟩ := hapart.append
  obtain ⟨he, hpost', hout⟩ := hpost.cons
  rw [cellsOf_cons] at hdisj
  refine ⟨he, fun x hx => ⟨fun hx' => hdisj x hx' (List.mem_append_left _ hx), hout x hx⟩, ?_⟩
  unfold Apart
  rw [cellsOf_append]
  exact List.nodup_append.mpr ⟨hpre, hpost', fun x hx y hy hxy =>
    hdisj x hx (List.mem_append_right _ (hxy ▸ hy))⟩

/-- An entry put between the others, with cells of its own. -/
theorem Apart.put (hapart : Apart (pre ++ post)) (hd : d.cells.Nodup)
    (hout : ∀ x ∈ d.cells, x ∉ cellsOf pre ∧ x ∉ cellsOf post) : Apart (pre ++ d :: post) := by
  obtain ⟨hpre, hpost, hdisj⟩ := hapart.append
  unfold Apart
  rw [cellsOf_append, cellsOf_cons]
  refine List.nodup_append.mpr ⟨hpre, List.nodup_append.mpr ⟨hd, hpost, ?_⟩, ?_⟩
  · exact fun x hx y hy hxy => (hout x hx).2 (hxy ▸ hy)
  · intro x hx y hy hxy
    subst hxy
    rcases List.mem_append.mp hy with hy | hy
    · exact (hout x hy).1 hx
    · exact hdisj x hx hy

/-! ## list_insert -/

/-- Some allocation gives nothing. -/
def Calls.MayFail (calls : Calls) : Prop :=
  ∃ g, calls.mallocNode.choose g = none ∨ calls.strdupKey.choose g = none ∨
    calls.strdupValue.choose g = none

inductive Inserted (calls : Calls) (h : Cells Cell) (a : Addr) (l : List Entry) (key value : Str) :
    Int × Addr → Cells Cell → Prop
  | present {e : Entry} (hkey : findKey l key = some e) : Inserted calls h a l key value (0, a) h
  | failed (hkey : findKey l key = none) (hfail : calls.MayFail) :
      Inserted calls h a l key value (-1, a) h
  | added {e : Entry} {h' : Cells Cell} (hkey : findKey l key = none) (hk : e.key = key)
      (hv : e.value = value) (hmove : ListMove h h' l (e :: l) e.node) :
      Inserted calls h a l key value (1, e.node) h'

/-- A node at `n` with strings at `k` and `v`, all three new, in front of the chain. -/
theorem Chain.push {n k v : Addr} {c : Cell} (hl : Chain h a l) (hapart : Apart l)
    (hn : n ≠ nullAddr ∧ n ∉ h) (hk : k ≠ nullAddr ∧ k ∉ h.insert n c)
    (hv : v ≠ nullAddr ∧ v ∉ (h.insert n c).insert k (.str key)) :
    ListMove h ((((h.insert n c).insert k (.str key)).insert v (.str value)).insert n
      (.node ⟨k, v, a⟩)) l (⟨n, k, v, key, value⟩ :: l) n := by
  obtain ⟨hn0, hnh⟩ := hn
  obtain ⟨hk0, hk⟩ := hk
  obtain ⟨hv0, hv⟩ := hv
  rw [Finmap.mem_insert, not_or] at hk hv
  obtain ⟨hkn, hkh⟩ := hk
  obtain ⟨hvk, hv⟩ := hv
  rw [Finmap.mem_insert, not_or] at hv
  obtain ⟨hvn, hvh⟩ := hv
  have hcells : ∀ x ∈ Entry.cells ⟨n, k, v, key, value⟩, x ∉ h := by
    intro x hx
    have hx' : x = n ∨ x = k ∨ x = v := by simpa [Entry.cells] using hx
    rcases hx' with rfl | rfl | rfl
    · exact hnh
    · exact hkh
    · exact hvh
  have hold : ∀ x ∈ h, ((((h.insert n c).insert k (.str key)).insert v (.str value)).insert n
      (.node ⟨k, v, a⟩)).lookup x = h.lookup x := by
    intro x hx
    have hxn : x ≠ n := fun heq => hnh (heq ▸ hx)
    have hxk : x ≠ k := fun heq => hkh (heq ▸ hx)
    have hxv : x ≠ v := fun heq => hvh (heq ▸ hx)
    rw [Finmap.lookup_insert_of_ne _ hxn, Finmap.lookup_insert_of_ne _ hxv,
      Finmap.lookup_insert_of_ne _ hxk, Finmap.lookup_insert_of_ne _ hxn]
  refine ⟨⟨rfl, a, ⟨?_, ?_, ?_, ?_⟩, hl.congr fun x hx => hold x (hl.live hx)⟩, ?_,
    fun x hx _ => hold x hx, fun x hx => ?_⟩
  · exact Finmap.lookup_insert _
  · rw [Finmap.lookup_insert_of_ne _ hkn, Finmap.lookup_insert_of_ne _ (Ne.symm hvk)]
    exact Finmap.lookup_insert _
  · rw [Finmap.lookup_insert_of_ne _ hvn]
    exact Finmap.lookup_insert _
  · simp [Entry.cells, Ne.symm hn0, Ne.symm hk0, Ne.symm hv0]
  · unfold Apart
    rw [cellsOf_cons]
    refine List.nodup_append.mpr ⟨?_, hapart, fun x hx y hy hxy => ?_⟩
    · simp [Entry.cells, Ne.symm hkn, Ne.symm hvn, Ne.symm hvk]
    · exact hcells x hx (hxy ▸ hl.live hy)
  · rw [cellsOf_cons] at hx
    rcases List.mem_append.mp hx with hx | hx
    · exact Or.inr (hcells x hx)
    · exact Or.inl hx

theorem listInsert_spec (hl : Chain h a l) (hapart : Apart l) :
    Returns (listInsert calls a key value) h (Inserted calls h a l key value) := by
  have hnull := hl.nodeOf_eq_null key
  unfold listInsert
  refine Returns.step (listSearch_ok hl hapart) ?_
  cases hfind : findKey l key with
  | some e =>
    rw [hfind] at hnull
    rw [if_pos fun h0 => absurd (hnull.mp h0) (by simp)]
    exact Returns.pure (.present hfind)
  | none =>
    rw [if_neg (not_not.mpr (show nodeOf none = nullAddr from rfl))]
    unfold mallocNode strdup
    cases hn : calls.mallocNode.choose h with
    | none =>
      refine Returns.step (allocCell_none hn) ?_
      rw [if_pos rfl]
      exact Returns.pure (.failed hfind ⟨h, Or.inl hn⟩)
    | some n =>
      have hfresh := calls.mallocNode.fresh hn
      refine Returns.step (allocCell_some hn) ?_
      rw [if_neg hfresh.1]
      generalize hg : h.insert n (.node ⟨nullAddr, nullAddr, nullAddr⟩) = g
      have hgn : n ∈ g := by
        rw [← hg, Finmap.mem_insert]
        exact Or.inl rfl
      have hback : g.erase n = h := by rw [← hg, erase_insert hfresh.2]
      cases hk : calls.strdupKey.choose g with
      | none =>
        refine Returns.step (allocCell_none hk) ?_
        rw [if_pos rfl]
        refine Returns.step (freeCell_ok hfresh.1 hgn) ?_
        rw [hback]
        exact Returns.pure (.failed hfind ⟨g, Or.inr (Or.inl hk)⟩)
      | some k =>
        have hfreshk := calls.strdupKey.fresh hk
        refine Returns.step (allocCell_some hk) ?_
        rw [if_neg hfreshk.1]
        cases hv : calls.strdupValue.choose (g.insert k (.str key)) with
        | none =>
          refine Returns.step (allocCell_none hv) ?_
          rw [if_pos rfl]
          refine Returns.step (freeCell_ok hfreshk.1 (Finmap.mem_insert.mpr (Or.inl rfl))) ?_
          rw [erase_insert hfreshk.2]
          refine Returns.step (freeCell_ok hfresh.1 hgn) ?_
          rw [hback]
          exact Returns.pure (.failed hfind ⟨_, Or.inr (Or.inr hv)⟩)
        | some v =>
          have hfreshv := calls.strdupValue.fresh hv
          refine Returns.step (allocCell_some hv) ?_
          rw [if_neg hfreshv.1]
          subst hg
          refine Returns.step (writeCell_ok ?_) ?_
          · simp [Finmap.mem_insert]
          · exact Returns.pure
              (.added hfind rfl rfl (hl.push hapart hfresh hfreshk hfreshv))

/-! ## list_update -/

/-- The search stops at the first entry with the key. -/
theorem findKey_split (hfind : findKey l key = some e) :
    ∃ pre post, l = pre ++ e :: post ∧ e.key = key ∧ ∀ d ∈ pre, d.key ≠ key := by
  unfold findKey at hfind
  obtain ⟨hkey, pre, post, hl, hpre⟩ := List.find?_eq_some_iff_append.mp hfind
  refine ⟨pre, post, hl, by simpa using hkey, fun d hd => ?_⟩
  simpa using hpre d hd

inductive Updated (calls : Calls) (h : Cells Cell) (l : List Entry) (a : Addr) (key value : Str) :
    Int → Cells Cell → Prop
  | absent (hkey : findKey l key = none) : Updated calls h l a key value 0 h
  | failed {e : Entry} (hkey : findKey l key = some e) (hfail : calls.MayFail) :
      Updated calls h l a key value (-1) h
  | replaced {e : Entry} {pre post : List Entry} {v : Addr} {h' : Cells Cell}
      (hkey : findKey l key = some e) (hl : l = pre ++ e :: post) (hk : e.key = key)
      (hpre : ∀ d ∈ pre, d.key ≠ key)
      (hmove : ListMove h h' l (pre ++ { e with valueAt := v, value := value } :: post) a) :
      Updated calls h l a key value 1 h'

/-- The value of the entry in the middle goes to a new string at `v`. -/
theorem Chain.setValue {v : Addr} (hl : Chain h a (pre ++ e :: post))
    (hapart : Apart (pre ++ e :: post)) (he : e.Stands h next) (hv : v ≠ nullAddr ∧ v ∉ h) :
    ListMove h (((h.insert v (.str value)).erase e.valueAt).insert e.node
      (.node ⟨e.keyAt, v, next⟩)) (pre ++ e :: post)
      (pre ++ { e with valueAt := v, value := value } :: post) a := by
  obtain ⟨hv0, hvh⟩ := hv
  have hnew : ∀ x ∈ cellsOf (pre ++ e :: post), x ≠ v := fun x hx hxv => hvh (hxv ▸ hl.live hx)
  obtain ⟨hnodup, hout, hrest⟩ := hapart.middle
  have hdistinct : (e.node ≠ e.keyAt ∧ e.node ≠ e.valueAt) ∧ e.keyAt ≠ e.valueAt := by
    simpa [Entry.cells] using hnodup
  obtain ⟨⟨hnk, hnv⟩, hkv⟩ := hdistinct
  have hcells : ∀ x ∈ e.cells, x ∈ cellsOf (pre ++ e :: post) :=
    fun x hx => cellsOf_middle.mpr (Or.inl hx)
  have hother : ∀ x, x ≠ v → x ∉ e.cells → (((h.insert v (.str value)).erase e.valueAt).insert
      e.node (.node ⟨e.keyAt, v, next⟩)).lookup x = h.lookup x := by
    intro x hxv hx
    have hx' : x ≠ e.node ∧ x ≠ e.keyAt ∧ x ≠ e.valueAt := by simpa [Entry.cells] using hx
    rw [Finmap.lookup_insert_of_ne _ hx'.1, Finmap.lookup_erase_ne hx'.2.2,
      Finmap.lookup_insert_of_ne _ hxv]
  have haround : ∀ x, x ∈ cellsOf pre ∨ x ∈ cellsOf post → x ∉ e.cells :=
    fun x hx hxe => hx.elim (hout x hxe).1 (hout x hxe).2
  obtain ⟨c, hpre, rfl, next', he', hpost⟩ := path_append.mp hl
  have hnext : next' = next := by
    have heq := he'.node.symm.trans he.node
    simpa using heq
  subst hnext
  have hnodev := hnew e.node (hcells _ (by simp [Entry.cells]))
  have hkeyv := hnew e.keyAt (hcells _ (by simp [Entry.cells]))
  have hvalv := hnew e.valueAt (hcells _ (by simp [Entry.cells]))
  refine ⟨path_append.mpr ⟨e.node, hpre.congr fun x hx => ?_, rfl, next', ⟨?_, ?_, ?_, ?_⟩,
    hpost.congr fun x hx => ?_⟩, ?_, fun x hx hxl => ?_, fun x hx => ?_⟩
  · exact hother x (hnew x (cellsOf_middle.mpr (Or.inr (Or.inl hx)))) (haround x (Or.inl hx))
  · exact Finmap.lookup_insert _
  · rw [Finmap.lookup_insert_of_ne _ (Ne.symm hnk), Finmap.lookup_erase_ne hkv,
      Finmap.lookup_insert_of_ne _ hkeyv]
    exact he.key
  · rw [Finmap.lookup_insert_of_ne _ (Ne.symm hnodev), Finmap.lookup_erase_ne (Ne.symm hvalv)]
    exact Finmap.lookup_insert _
  · have hnonnull := he.nonnull
    simp only [Entry.cells, List.mem_cons, List.not_mem_nil, or_false, not_or] at hnonnull ⊢
    exact ⟨hnonnull.1, hnonnull.2.1, Ne.symm hv0⟩
  · exact hother x (hnew x (cellsOf_middle.mpr (Or.inr (Or.inr hx)))) (haround x (Or.inr hx))
  · have hpost' := fun x hx => hnew x (cellsOf_middle.mpr (Or.inr hx))
    refine hrest.put ?_ fun x hx => ?_
    · simp [Entry.cells, hnk, hnodev, hkeyv]
    · have hx' : x = e.node ∨ x = e.keyAt ∨ x = v := by simpa [Entry.cells] using hx
      rcases hx' with rfl | rfl | rfl
      · exact hout _ (by simp [Entry.cells])
      · exact hout _ (by simp [Entry.cells])
      · exact ⟨fun hx => hpost' _ (Or.inl hx) rfl, fun hx => hpost' _ (Or.inr hx) rfl⟩
  · refine hother x (fun hxv => hvh (hxv ▸ hx)) fun hxe => hxl (hcells x hxe)
  · rcases cellsOf_middle.mp hx with hx | hx
    · have hx' : x = e.node ∨ x = e.keyAt ∨ x = v := by simpa [Entry.cells] using hx
      rcases hx' with rfl | rfl | rfl
      · exact Or.inl (hcells _ (by simp [Entry.cells]))
      · exact Or.inl (hcells _ (by simp [Entry.cells]))
      · exact Or.inr hvh
    · exact Or.inl (cellsOf_middle.mpr (Or.inr hx))

/-- An update of a key that is there, with memory for the value. -/
theorem listUpdate_found {v : Addr} (hl : Chain h a l) (hapart : Apart l)
    (hfind : findKey l key = some e) (he : e.Stands h next)
    (hv : calls.strdupValue.choose h = some v) :
    listUpdate calls a key value h =
      .ok (1, ((h.insert v (.str value)).erase e.valueAt).insert e.node
      (.node ⟨e.keyAt, v, next⟩)) := by
  obtain ⟨pre, post, rfl, -, -⟩ := findKey_split hfind
  have hfresh := calls.strdupValue.fresh hv
  have hne : ∀ x ∈ e.cells, x ≠ v := fun x hx hxv => hfresh.2 (hxv ▸ he.live hx)
  have hnode : (h.insert v (.str value)).lookup e.node =
      some (.node ⟨e.keyAt, e.valueAt, next⟩) := by
    rw [Finmap.lookup_insert_of_ne _ (hne _ (by simp [Entry.cells]))]
    exact he.node
  have hvalue : e.valueAt ∈ h.insert v (.str value) :=
    Finmap.mem_insert.mpr (Or.inr (he.live (by simp [Entry.cells])))
  have hlive : e.node ∈ (h.insert v (.str value)).erase e.valueAt := by
    have hnodup := hapart.middle.1
    have hnv : e.node ≠ e.valueAt := fun heq => by simp [Entry.cells, heq] at hnodup
    exact Finmap.mem_erase.mpr ⟨hnv, Finmap.mem_of_lookup_eq_some hnode⟩
  unfold listUpdate
  rw [bind_of_ok (listSearch_ok hl hapart), hfind,
    if_neg (show nodeOf (some e) ≠ nullAddr from he.node_ne)]
  unfold strdup
  rw [bind_of_ok (allocCell_some hv), if_neg hfresh.1]
  exact (bind_of_ok (loadNode_ok hnode)).trans
    ((bind_of_ok (freeCell_ok (he.ne_null (by simp [Entry.cells])) hvalue)).trans
      (bind_of_ok (writeCell_ok hlive)))

theorem listUpdate_spec (hl : Chain h a l) (hapart : Apart l) :
    Returns (listUpdate calls a key value) h (Updated calls h l a key value) := by
  cases hfind : findKey l key with
  | none =>
    unfold listUpdate
    refine Returns.step (listSearch_ok hl hapart) ?_
    rw [hfind]
    exact Returns.pure (.absent hfind)
  | some e =>
    obtain ⟨next, he⟩ := hl.stands (findKey_some hfind).1
    cases hv : calls.strdupValue.choose h with
    | none =>
      unfold listUpdate
      refine Returns.step (listSearch_ok hl hapart) ?_
      rw [hfind, if_neg (show nodeOf (some e) ≠ nullAddr from he.node_ne)]
      unfold strdup
      refine Returns.step (allocCell_none hv) ?_
      rw [if_pos rfl]
      exact Returns.pure (.failed hfind ⟨h, Or.inr (Or.inr hv)⟩)
    | some v =>
      refine Returns.intro (listUpdate_found hl hapart hfind he hv) ?_
      obtain ⟨pre, post, rfl, hkey, hpre⟩ := findKey_split hfind
      exact .replaced hfind rfl hkey hpre (hl.setValue hapart he (calls.strdupValue.fresh hv))

/-! ## list_delete -/

inductive Deleted (h : Cells Cell) (a : Addr) (l : List Entry) (key : Str) :
    Int × Addr → Cells Cell → Prop
  | absent (hkey : findKey l key = none) : Deleted h a l key (0, a) h
  | removed {e : Entry} {pre post : List Entry} {a' : Addr} {h' : Cells Cell}
      (hkey : findKey l key = some e) (hl : l = pre ++ e :: post) (hk : e.key = key)
      (hpre : ∀ d ∈ pre, d.key ≠ key)
      (hmove : ListMove h h' l (pre ++ post) a') : Deleted h a l key (1, a') h'

/-- The heap without the cells of an entry. -/
def dropCells (h : Cells Cell) (e : Entry) : Cells Cell :=
  ((h.erase e.keyAt).erase e.valueAt).erase e.node

theorem dropCells_lookup (hx : x ∉ e.cells) : (dropCells h e).lookup x = h.lookup x := by
  have hx' : x ≠ e.node ∧ x ≠ e.keyAt ∧ x ≠ e.valueAt := by simpa [Entry.cells] using hx
  unfold dropCells
  rw [Finmap.lookup_erase_ne hx'.1, Finmap.lookup_erase_ne hx'.2.2,
    Finmap.lookup_erase_ne hx'.2.1]

/-- The three calls of `free` for a node. -/
theorem freeEntry_ok {α : Type} {r : α} (hnodup : e.cells.Nodup) (hnonnull : nullAddr ∉ e.cells)
    (hlive : ∀ x ∈ e.cells, x ∈ h) :
    (do freeCell e.keyAt; freeCell e.valueAt; freeCell e.node; pure r : ListM α) h =
      .ok (r, dropCells h e) := by
  have hdistinct : (e.node ≠ e.keyAt ∧ e.node ≠ e.valueAt) ∧ e.keyAt ≠ e.valueAt := by
    simpa [Entry.cells] using hnodup
  obtain ⟨⟨hnk, hnv⟩, hkv⟩ := hdistinct
  have hne : e.node ≠ nullAddr ∧ e.keyAt ≠ nullAddr ∧ e.valueAt ≠ nullAddr := by
    simpa [Entry.cells, eq_comm] using hnonnull
  have hin : e.node ∈ h ∧ e.keyAt ∈ h ∧ e.valueAt ∈ h := by simpa [Entry.cells] using hlive
  rw [bind_of_ok (freeCell_ok hne.2.1 hin.2.1),
    bind_of_ok (freeCell_ok hne.2.2 (Finmap.mem_erase.mpr ⟨Ne.symm hkv, hin.2.2⟩)),
    bind_of_ok (freeCell_ok hne.1
      (Finmap.mem_erase.mpr ⟨hnv, Finmap.mem_erase.mpr ⟨hnk, hin.1⟩⟩))]
  rfl

/-- Dropping an entry from between the others, once a path leads around it. -/
theorem ListMove.drop {g : Cells Cell} (hapart : Apart (pre ++ e :: post))
    (hround : Chain g a' (pre ++ post))
    (hframe : ∀ x, x ∉ cellsOf (pre ++ e :: post) → g.lookup x = h.lookup x) :
    ListMove h (dropCells g e) (pre ++ e :: post) (pre ++ post) a' := by
  obtain ⟨-, hout, hrest⟩ := hapart.middle
  have hsub : ∀ x ∈ cellsOf (pre ++ post), x ∈ cellsOf (pre ++ e :: post) := by
    intro x hx
    rw [cellsOf_append, List.mem_append] at hx
    exact cellsOf_middle.mpr (Or.inr hx)
  refine ⟨hround.congr fun x hx => dropCells_lookup fun hxe => ?_, hrest, fun x _ hxl => ?_,
    fun x hx => Or.inl (hsub x hx)⟩
  · rw [cellsOf_append, List.mem_append] at hx
    exact hx.elim (hout x hxe).1 (hout x hxe).2
  · rw [dropCells_lookup fun hxe => hxl (cellsOf_middle.mpr (Or.inl hxe)), hframe x hxl]

/-- A node linked past the one behind it. -/
theorem Path.relink (hpath : Path h a (pre ++ [d]) b) (hpost : Chain h next post)
    (hapart : Apart (pre ++ d :: post)) :
    Chain (h.insert d.node (.node ⟨d.keyAt, d.valueAt, next⟩)) a (pre ++ d :: post) := by
  obtain ⟨c, hpre, rfl, b', hd, -⟩ := path_append.mp hpath
  obtain ⟨hnodup, hout, -⟩ := hapart.middle
  have hdistinct : (d.node ≠ d.keyAt ∧ d.node ≠ d.valueAt) ∧ d.keyAt ≠ d.valueAt := by
    simpa [Entry.cells] using hnodup
  obtain ⟨⟨hnk, hnv⟩, -⟩ := hdistinct
  obtain ⟨hnpre, hnpost⟩ := hout d.node (by simp [Entry.cells])
  refine path_append.mpr ⟨d.node, hpre.congr (AgreeAt.insert hnpre), rfl, next, ⟨?_, ?_, ?_,
    hd.nonnull⟩, hpost.congr (AgreeAt.insert hnpost)⟩
  · exact Finmap.lookup_insert _
  · rw [Finmap.lookup_insert_of_ne _ (Ne.symm hnk)]
    exact hd.key
  · rw [Finmap.lookup_insert_of_ne _ (Ne.symm hnv)]
    exact hd.value

theorem findKey_append (hpre : ∀ d ∈ pre, d.key ≠ key) :
    findKey (pre ++ post) key = findKey post key := by
  unfold findKey
  rw [List.find?_append]
  have hnone : pre.find? (fun e => decide (e.key = key)) = none := findKey_none.mpr hpre
  rw [hnone, Option.none_or]

/-- The loop, between the entries it passed and those to come. -/
theorem deleteLoop_spec (hpath : Path h a pre b) (hcurrent : Chain h b l)
    (hapart : Apart (pre ++ l))
    (hprev : (pre = [] ∧ prev = nullAddr) ∨ ∃ init d, pre = init ++ [d] ∧ prev = d.node)
    (hkeys : ∀ d ∈ pre, d.key ≠ key) (hlimit : l.length ≤ limit) :
    Returns (deleteLoop a key limit prev b) h (Deleted h a (pre ++ l) key) := by
  induction l generalizing pre prev b limit with
  | nil =>
    obtain rfl : b = nullAddr := hcurrent
    have hnone : findKey (pre ++ []) key = none := findKey_append hkeys
    cases limit <;> exact Returns.intro rfl (.absent hnone)
  | cons e l ih =>
    obtain ⟨rfl, next, he, hnext⟩ := hcurrent
    have hstart : findKey (pre ++ e :: l) key = findKey (e :: l) key := findKey_append hkeys
    cases limit with
    | zero => exact absurd hlimit (by simp)
    | succ limit =>
      rw [deleteLoop, if_neg he.node_ne]
      refine Returns.step (loadNode_ok he.node) ?_
      refine Returns.step (loadStr_ok he.key) ?_
      obtain ⟨hnodup, hout, -⟩ := hapart.middle
      by_cases hkey : e.key = key
      · rw [if_pos hkey]
        rw [findKey_cons_eq hkey] at hstart
        rcases hprev with ⟨rfl, rfl⟩ | ⟨init, d, rfl, rfl⟩
        · -- the first node: the head moves on
          rw [if_neg (not_not.mpr rfl)]
          refine Returns.step (pure_apply next h) ?_
          refine Returns.intro (freeEntry_ok hnodup he.nonnull fun x hx => he.live hx) ?_
          exact .removed hstart rfl hkey hkeys (ListMove.drop hapart hnext fun x _ => rfl)
        · -- a later one: the node before it is linked past it
          obtain ⟨c, hinit, rfl, b', hd, hb⟩ := path_append.mp hpath
          obtain rfl : b' = e.node := hb
          have hrow : (init ++ [d]) ++ e :: l = init ++ d :: e :: l := by simp
          have hdrop : (init ++ [d]) ++ l = init ++ d :: l := by simp
          have hround : Chain (h.insert d.node (.node ⟨d.keyAt, d.valueAt, next⟩)) a
              ((init ++ [d]) ++ l) := by
            have hapart' := hapart.middle.2.2
            rw [hdrop] at hapart' ⊢
            exact hpath.relink hnext hapart'
          have hdnode : d.node ∈ cellsOf ((init ++ [d]) ++ e :: l) := by
            rw [hrow]
            exact cellsOf_middle.mpr (Or.inl (by simp [Entry.cells]))
          rw [if_pos hd.node_ne]
          refine Returns.step (show _ = Except.ok (a, h.insert d.node
            (.node ⟨d.keyAt, d.valueAt, next⟩)) from ?_) ?_
          · rw [bind_of_ok (loadNode_ok hd.node),
              bind_of_ok (writeCell_ok (Finmap.mem_of_lookup_eq_some hd.node))]
            rfl
          · refine Returns.intro (freeEntry_ok hnodup he.nonnull fun x hx =>
              Finmap.mem_insert.mpr (Or.inr (he.live hx))) ?_
            refine .removed hstart rfl hkey hkeys (ListMove.drop hapart hround fun x hx => ?_)
            exact Finmap.lookup_insert_of_ne _ fun hxd => hx (hxd ▸ hdnode)
      · rw [if_neg hkey]
        have hrow : pre ++ e :: l = (pre ++ [e]) ++ l := by simp
        rw [hrow] at hapart ⊢
        have hpath' : Path h a (pre ++ [e]) next :=
          path_append.mpr ⟨e.node, hpath, rfl, next, he, rfl⟩
        refine ih hpath' hnext hapart (Or.inr ⟨pre, e, rfl, rfl⟩) ?_ (Nat.le_of_succ_le_succ hlimit)
        intro d hd
        rcases List.mem_append.mp hd with hd | hd
        · exact hkeys d hd
        · rw [List.mem_singleton.mp hd]
          exact hkey

theorem listDelete_spec (hl : Chain h a l) (hapart : Apart l) :
    Returns (listDelete a key) h (Deleted h a l key) := by
  unfold listDelete
  refine Returns.step walkLimit_ok ?_
  have hstart : Path h a [] a := rfl
  exact deleteLoop_spec hstart hl hapart (Or.inl ⟨rfl, rfl⟩)
    (fun d hd => absurd hd List.not_mem_nil) (hl.length_le hapart)

end SnuSysProg.Skvs
