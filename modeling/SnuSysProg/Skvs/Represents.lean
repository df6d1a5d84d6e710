import Mathlib.Algebra.BigOperators.Group.Finset.Basic
import Mathlib.Algebra.BigOperators.Intervals
import SnuSysProg.Skvs.Chains

/-
  A table and the map it stands for.

  `Buckets t B`: bucket `i` of the table is a chain of the entries `B i`, which are filed by the
  hash of their keys and counted. `Represents t B`: all entries are counted too. `Holds t B m`: they
  hold the bindings of the map `m`. The part of an operation under the lock, run with the head that
  the bucket has, does to the map what the operation is for, or returns -1 and changes nothing
  (`section_spec`).
-/

namespace SnuSysProg.Skvs
open SnuSysProg.Lib

variable {t t' : Table} {B : Nat → List Entry} {i j n : Nat} {h h' : Cells Cell} {a a' : Addr}
  {l l' pre post : List Entry} {e d : Entry} {key value k : Str} {calls : Calls} {op : Op}

/-! ## The hash -/

theorem hash_eq (hn : 0 < n) (hn' : n < 2 ^ 31) :
    hash key n = ((hashLoop 0 key).toNat % n : Nat) := by
  have hlt : (hashLoop 0 key).toNat % n < n := Nat.mod_lt _ hn
  unfold hash
  rw [Int.bmod_eq_of_le] <;> omega

theorem index_eq (key : Str) (hn : 0 < n) (hn' : n < 2 ^ 31) :
    (index key n : Int) = hash key n := by
  have hlt : (hashLoop 0 key).toNat % n < n := Nat.mod_lt _ hn
  unfold index
  rw [hash_eq hn hn']
  omega

theorem index_lt (hn : 0 < n) (hn' : n < 2 ^ 31) : index key n < n := by
  have hlt : (hashLoop 0 key).toNat % n < n := Nat.mod_lt _ hn
  have heq := index_eq key hn hn'
  rw [hash_eq hn hn'] at heq
  omega

/-! ## Representation -/

/-- The buckets of the table, with their sizes. -/
structure Buckets (t : Table) (B : Nat → List Entry) : Prop where
  size : 0 < t.hashSize ∧ t.hashSize < 2 ^ 31
  chain : ∀ i < t.hashSize, Chain t.heap (t.buckets i) (B i)
  apart : ∀ i < t.hashSize, Apart (B i)
  disjoint : ∀ i < t.hashSize, ∀ j < t.hashSize, i ≠ j → ∀ x ∈ cellsOf (B i), x ∉ cellsOf (B j)
  /-- Each key is in the bucket of its hash. -/
  filed : ∀ i < t.hashSize, ∀ e ∈ B i, hash e.key t.hashSize = i
  keys : ∀ i < t.hashSize, ((B i).map Entry.key).Nodup
  sizes : ∀ i < t.hashSize, t.bucketSizes i = (B i).length

/-- The table, with `total_entries`, which no lock guards. -/
structure Represents (t : Table) (B : Nat → List Entry) : Prop extends Buckets t B where
  total : t.totalEntries = ∑ i ∈ Finset.range t.hashSize, ((B i).length : Int)

/-- What the table is for. -/
abbrev Map := Finmap fun _ : Str => Str

/-- The binding of a key in a bucket. -/
def valueOf (l : List Entry) (key : Str) : Option Str := (findKey l key).map Entry.value

structure Holds (t : Table) (B : Nat → List Entry) (m : Map) : Prop where
  lookup : ∀ key, m.lookup key = valueOf (B (index key t.hashSize)) key

theorem Represents.index_lt (hr : Represents t B) : index key t.hashSize < t.hashSize :=
  Skvs.index_lt hr.size.1 hr.size.2

theorem Represents.index_of_mem (hr : Represents t B) (hi : i < t.hashSize) (he : e ∈ B i) :
    index e.key t.hashSize = i := by
  have hfiled := hr.filed i hi e he
  rw [← index_eq _ hr.size.1 hr.size.2] at hfiled
  exact_mod_cast hfiled

/-- A bucket's chain is changed, and the counters with it. -/
theorem Represents.move (hr : Represents t B) (hi : i < t.hashSize)
    (hmove : ListMove t.heap h' (B i) l' a') (hfiled : ∀ e ∈ l', hash e.key t.hashSize = i)
    (hkeys : (l'.map Entry.key).Nodup) {c : Int} (hc : (B i).length + c = l'.length) :
    Represents ⟨h', Function.update t.buckets i a',
      Function.update t.bucketSizes i (t.bucketSizes i + c), t.totalEntries + c, t.hashSize⟩
      (Function.update B i l') := by
  have hself : Function.update B i l' i = l' := Function.update_self ..
  have hother : ∀ j, j ≠ i → Function.update B i l' j = B j :=
    fun j hj => Function.update_of_ne hj _ _
  have hapart : ∀ j < t.hashSize, j ≠ i → ∀ x ∈ cellsOf (B j), x ∈ t.heap ∧ x ∉ cellsOf (B i) :=
    fun j hj hji x hx => ⟨(hr.chain j hj).live hx, hr.disjoint j hj i hi hji x hx⟩
  have hclear : ∀ j < t.hashSize, j ≠ i → ∀ x ∈ cellsOf (B j), x ∉ cellsOf l' := by
    intro j hj hji x hx hx'
    obtain ⟨hlive, hout⟩ := hapart j hj hji x hx
    exact (hmove.fresh x hx').elim hout fun hdead => hdead hlive
  refine ⟨⟨hr.size, fun j hj => ?_, fun j hj => ?_, fun j hj j' hj' hne x hx => ?_,
    fun j hj e he => ?_, fun j hj => ?_, fun j hj => ?_⟩, ?_⟩
  · by_cases hji : j = i
    · subst hji
      rw [hself]
      change Chain h' (Function.update t.buckets j a' j) l'
      rw [Function.update_self]
      exact hmove.chain
    · rw [hother j hji]
      change Chain h' (Function.update t.buckets i a' j) (B j)
      rw [Function.update_of_ne hji]
      refine (hr.chain j hj).congr fun x hx => ?_
      obtain ⟨hlive, hout⟩ := hapart j hj hji x hx
      exact hmove.frame x hlive hout
  · by_cases hji : j = i
    · subst hji
      rw [hself]
      exact hmove.apart
    · rw [hother j hji]
      exact hr.apart j hj
  · by_cases hji : j = i
    · subst hji
      rw [hother j' (Ne.symm hne)]
      rw [hself] at hx
      exact fun hx' => hclear j' hj' (Ne.symm hne) x hx' hx
    · rw [hother j hji] at hx
      by_cases hji' : j' = i
      · subst hji'
        rw [hself]
        exact hclear j hj hji x hx
      · rw [hother j' hji']
        exact hr.disjoint j hj j' hj' hne x hx
  · by_cases hji : j = i
    · subst hji
      rw [hself] at he
      exact hfiled e he
    · rw [hother j hji] at he
      exact hr.filed j hj e he
  · by_cases hji : j = i
    · subst hji
      rw [hself]
      exact hkeys
    · rw [hother j hji]
      exact hr.keys j hj
  · change Function.update t.bucketSizes i _ j = _
    by_cases hji : j = i
    · subst hji
      rw [hself, Function.update_self, hr.sizes j hj, hc]
    · rw [hother j hji, Function.update_of_ne hji]
      exact hr.sizes j hj
  · have hmem : i ∈ Finset.range t.hashSize := Finset.mem_range.mpr hi
    change t.totalEntries + c = _
    rw [hr.total, ← Finset.add_sum_erase _ _ hmem, ← Finset.add_sum_erase _ _ hmem, hself, ← hc]
    have hrest : ∑ j ∈ (Finset.range t.hashSize).erase i,
        ((Function.update B i l' j).length : Int) =
        ∑ j ∈ (Finset.range t.hashSize).erase i, ((B j).length : Int) :=
      Finset.sum_congr rfl fun j hj => by rw [hother j (Finset.ne_of_mem_erase hj)]
    rw [hrest]
    omega

/-! ## What a change of a bucket does to the lookups -/

theorem valueOf_cons_eq (he : e.key = key) : valueOf (e :: l) key = some e.value := by
  unfold valueOf
  rw [findKey_cons_eq he]
  rfl

theorem valueOf_cons_ne (he : e.key ≠ key) : valueOf (e :: l) key = valueOf l key := by
  unfold valueOf
  rw [findKey_cons_ne he]

theorem valueOf_append (hpre : ∀ d ∈ pre, d.key ≠ key) :
    valueOf (pre ++ post) key = valueOf post key := by
  unfold valueOf
  rw [findKey_append hpre]

/-- Only the binding of the entry's own key depends on the entry. -/
theorem valueOf_put (hk : k ≠ e.key) : valueOf (pre ++ e :: post) k = valueOf (pre ++ post) k := by
  induction pre with
  | nil => exact valueOf_cons_ne (Ne.symm hk)
  | cons d pre ih =>
    rw [List.cons_append, List.cons_append]
    by_cases hd : d.key = k
    · rw [valueOf_cons_eq hd, valueOf_cons_eq hd]
    · rw [valueOf_cons_ne hd, valueOf_cons_ne hd, ih]

theorem valueOf_none : valueOf l key = none ↔ ∀ e ∈ l, e.key ≠ key := by
  unfold valueOf
  rw [Option.map_eq_none_iff, findKey_none]

theorem Holds.mem_iff {m : Map} (hm : Holds t B m) (key : Str) :
    key ∈ m ↔ findKey (B (index key t.hashSize)) key ≠ none := by
  rw [← Finmap.lookup_isSome, hm.lookup key, Option.isSome_iff_ne_none]
  unfold valueOf
  rw [Ne, Option.map_eq_none_iff]

/-- The bucket of `key` is changed in the binding of `key` only. -/
theorem Holds.move {m m' : Map} (hm : Holds t B m) (hi : i = index key t.hashSize)
    (hsize : t'.hashSize = t.hashSize) (hkey : m'.lookup key = valueOf l' key)
    (hother : ∀ k, k ≠ key → m'.lookup k = m.lookup k)
    (hrest : ∀ k, k ≠ key → valueOf l' k = valueOf (B i) k) :
    Holds t' (Function.update B i l') m' := by
  constructor
  intro k
  rw [hsize]
  by_cases hk : k = key
  · rw [hk, ← hi, Function.update_self, hkey]
  · rw [hother k hk, hm.lookup k]
    by_cases hki : index k t.hashSize = i
    · rw [hki, Function.update_self, hrest k hk]
    · rw [Function.update_of_ne hki]

/-! ## The operations on maps -/

/-- The code and the value an operation gives on a map, and the map it leaves. -/
def Op.apply : Op → Map → Int × Option Str × Map
  | .insert key value, m => if key ∈ m then (0, none, m) else (1, none, m.insert key value)
  | .search key, m =>
    match m.lookup key with
    | some v => (1, some v, m)
    | none => (0, none, m)
  | .update key value, m => if key ∈ m then (1, none, m.insert key value) else (0, none, m)
  | .delete key, m => if key ∈ m then (1, none, m.erase key) else (0, none, m)

theorem search_present {m : Map} (h : m.lookup key = some value) :
    (Op.search key).apply m = (1, some value, m) := by
  simp only [Op.apply, h]

theorem search_absent {m : Map} (h : m.lookup key = none) :
    (Op.search key).apply m = (0, none, m) := by
  simp only [Op.apply, h]

/-- The value that the outcome points to. -/
def Outcome.text (r : Outcome) (t : Table) : Option Str :=
  match r.found with
  | none => none
  | some a =>
    match t.heap.lookup a with
    | some (.str s) => some s
    | _ => none

/-- The operation did to the map what it is for. -/
structure Did (op : Op) (m : Map) (r : Outcome) (t' : Table) (B' : Nat → List Entry) : Prop where
  represents : Represents t' B'
  holds : Holds t' B' (op.apply m).2.2
  code : r.code = (op.apply m).1
  text : r.text t' = (op.apply m).2.1

/-- The table after a change of bucket `i`. -/
def Table.changed (t : Table) (h' : Cells Cell) (i : Nat) (a' : Addr) (c : Int) : Table :=
  ⟨h', Function.update t.buckets i a', Function.update t.bucketSizes i (t.bucketSizes i + c),
    t.totalEntries + c, t.hashSize⟩

/-- A change of the heap alone is one that leaves the head and the counters. -/
theorem changed_self : t.changed h' i (t.buckets i) 0 = { t with heap := h' } := by
  unfold Table.changed
  rw [add_zero, add_zero, Function.update_eq_self, Function.update_eq_self]

/-- A change of a bucket that is a change of the map in the operation's key. -/
theorem Did.of_move {m : Map} {r : Outcome} {c : Int} (hr : Represents t B) (hm : Holds t B m)
    (hi : i = index op.key t.hashSize) (hmove : ListMove t.heap h' (B i) l' a')
    (hkeys : (l'.map Entry.key).Nodup) (hsub : ∀ e ∈ l', e.key = op.key ∨ ∃ d ∈ B i, d.key = e.key)
    (hc : (B i).length + c = l'.length)
    (hkey : (op.apply m).2.2.lookup op.key = valueOf l' op.key)
    (hother : ∀ k, k ≠ op.key → (op.apply m).2.2.lookup k = m.lookup k)
    (hrest : ∀ k, k ≠ op.key → valueOf l' k = valueOf (B i) k)
    (hcode : r.code = (op.apply m).1) (hfound : r.found = none) (htext : (op.apply m).2.1 = none) :
    Did op m r (t.changed h' i a' c) (Function.update B i l') := by
  have hlt : i < t.hashSize := hi ▸ hr.index_lt
  have hfiled : ∀ e ∈ l', hash e.key t.hashSize = i := by
    intro e he
    rcases hsub e he with hop | ⟨d, hd, hde⟩
    · rw [hop, ← index_eq _ hr.size.1 hr.size.2, hi]
    · rw [← hde]
      exact hr.filed i hlt d hd
  refine ⟨hr.move hlt hmove hfiled hkeys hc, hm.move hi rfl hkey hother hrest, hcode, ?_⟩
  unfold Outcome.text
  rw [hfound, htext]

/-- An operation that leaves the table, as it leaves the map. -/
theorem Did.unchanged {m : Map} {r : Outcome} (hr : Represents t B) (hm : Holds t B m)
    (happly : op.apply m = (r.code, r.text t, m)) : Did op m r t B :=
  ⟨hr, by rw [happly]; exact hm, by rw [happly], by rw [happly]⟩

/-- What the part of an operation under the lock may do. -/
inductive Section (op : Op) (calls : Calls) (t : Table) (B : Nat → List Entry) (m : Map) :
    Outcome → Table → Prop
  | did {r : Outcome} {t' : Table} {B' : Nat → List Entry} (h : Did op m r t' B') :
      Section op calls t B m r t'
  | failed (hfail : calls.MayFail) : Section op calls t B m { code := -1 } t

theorem onHeap_returns {α : Type} {x : ListM α} {Q : α → Cells Cell → Prop}
    (hx : Returns x t.heap Q) :
    Returns (onHeap x) t fun r t' => Q r t'.heap ∧ t' = { t with heap := t'.heap } := by
  obtain ⟨r, h', heq, hQ⟩ := hx
  refine ⟨r, { t with heap := h' }, ?_, hQ, rfl⟩
  unfold onHeap
  rw [heq]

theorem relink_changed (c : Int) :
    relink i a c { t with heap := h' } = .ok ((), t.changed h' i a c) := rfl

theorem insertSection_spec {m : Map} (hr : Represents t B) (hm : Holds t B m)
    (hi : i = index key t.hashSize) :
    Returns (insertSection calls i (t.buckets i) key value) t
      (Section (.insert key value) calls t B m) := by
  have hlt : i < t.hashSize := hi ▸ hr.index_lt
  have hmem := hm.mem_iff key
  rw [← hi] at hmem
  unfold insertSection
  refine Returns.bind (onHeap_returns (listInsert_spec (hr.chain i hlt) (hr.apart i hlt)))
    fun r t' ⟨hins, ht'⟩ => ?_
  generalize t'.heap = h' at hins ht'
  subst ht'
  cases hins with
  | present hkey =>
    have hin : key ∈ m := hmem.mpr (by rw [hkey]; simp)
    exact Returns.step (pure_apply _ _) (Returns.pure (.did (Did.unchanged hr hm (if_pos hin))))
  | failed hkey hfail => exact Returns.step (pure_apply _ _) (Returns.pure (.failed hfail))
  | @added e h' hkey hk hv hmove =>
    have hout : ¬ key ∈ m := fun hin => hmem.mp hin hkey
    have happly : (Op.insert key value).apply m = (1, none, m.insert key value) := if_neg hout
    refine Returns.step (relink_changed 1) (Returns.pure
      (.did (Did.of_move hr hm hi hmove ?_ (fun d hd => ?_) ?_ ?_ ?_ ?_ ?_ rfl ?_)))
    · rw [List.map_cons]
      refine List.nodup_cons.mpr ⟨fun hin => ?_, hr.keys i hlt⟩
      obtain ⟨d, hd, hdk⟩ := List.mem_map.mp hin
      exact findKey_none.mp hkey d hd (hdk.trans hk)
    · rcases List.mem_cons.mp hd with rfl | hd
      · exact Or.inl hk
      · exact Or.inr ⟨d, hd, rfl⟩
    · rw [List.length_cons]
      push_cast
      rfl
    · rw [happly]
      change (m.insert key value).lookup key = valueOf (e :: B i) key
      rw [valueOf_cons_eq hk, hv, Finmap.lookup_insert]
    · intro k hne
      rw [happly]
      exact Finmap.lookup_insert_of_ne m hne
    · intro k hne
      exact valueOf_cons_ne fun hek => hne (hek.symm.trans hk)
    · rw [happly]
    · rw [happly]

theorem searchSection_spec {m : Map} (hr : Represents t B) (hm : Holds t B m)
    (hi : i = index key t.hashSize) :
    Returns (searchSection (t.buckets i) key) t (Section (.search key) calls t B m) := by
  have hlt : i < t.hashSize := hi ▸ hr.index_lt
  have hlookup := hm.lookup key
  have hnull := (hr.chain i hlt).nodeOf_eq_null key
  rw [← hi] at hlookup
  unfold searchSection
  have hsearch : onHeap (listSearch (t.buckets i) key) t = .ok (nodeOf (findKey (B i) key), t) := by
    unfold onHeap
    rw [listSearch_ok (hr.chain i hlt) (hr.apart i hlt)]
  refine Returns.step hsearch ?_
  unfold valueOf at hlookup
  cases hfind : findKey (B i) key with
  | none =>
    rw [hfind] at hlookup
    exact Returns.pure (.did (Did.unchanged hr hm (search_absent hlookup)))
  | some e =>
    rw [hfind] at hlookup hnull
    obtain ⟨next, he⟩ := (hr.chain i hlt).stands (findKey_some hfind).1
    rw [if_neg fun h0 => absurd (hnull.mp h0) (by simp)]
    have hload : onHeap (loadNode e.node) t = .ok (⟨e.keyAt, e.valueAt, next⟩, t) := by
      unfold onHeap
      rw [loadNode_ok he.node]
    refine Returns.step hload (Returns.pure (.did (Did.unchanged hr hm ?_)))
    rw [search_present hlookup]
    unfold Outcome.text
    dsimp only
    rw [he.value]

theorem updateSection_spec {m : Map} (hr : Represents t B) (hm : Holds t B m)
    (hi : i = index key t.hashSize) :
    Returns (updateSection calls (t.buckets i) key value) t
      (Section (.update key value) calls t B m) := by
  have hlt : i < t.hashSize := hi ▸ hr.index_lt
  have hmem := hm.mem_iff key
  rw [← hi] at hmem
  unfold updateSection
  refine Returns.bind (onHeap_returns (listUpdate_spec (hr.chain i hlt) (hr.apart i hlt)))
    fun r t' ⟨hupd, ht'⟩ => ?_
  generalize t'.heap = h' at hupd ht'
  subst ht'
  cases hupd with
  | absent hkey =>
    have hout : ¬ key ∈ m := fun hin => hmem.mp hin hkey
    exact Returns.pure (.did (Did.unchanged hr hm (if_neg hout)))
  | failed hkey hfail => exact Returns.pure (.failed hfail)
  | @replaced e pre post v h' hkey hl hk hpre hmove =>
    have hin : key ∈ m := hmem.mpr (by rw [hkey]; simp)
    have happly : (Op.update key value).apply m = (1, none, m.insert key value) := if_pos hin
    have hkeys := hr.keys i hlt
    rw [← changed_self]
    refine Returns.pure (.did
      (Did.of_move hr hm hi hmove ?_ (fun d hd => ?_) ?_ ?_ ?_ ?_ ?_ rfl ?_))
    · rw [hl] at hkeys
      simpa using hkeys
    · rcases List.mem_append.mp hd with hd | hd
      · exact Or.inr ⟨d, by rw [hl]; simp [hd], rfl⟩
      · rcases List.mem_cons.mp hd with rfl | hd
        · exact Or.inl hk
        · exact Or.inr ⟨d, by rw [hl]; simp [hd], rfl⟩
    · rw [hl]
      simp
    · rw [happly]
      change (m.insert key value).lookup key =
        valueOf (pre ++ { e with valueAt := v, value := value } :: post) key
      rw [valueOf_append hpre, Finmap.lookup_insert]
      exact (valueOf_cons_eq (e := { e with valueAt := v, value := value }) hk).symm
    · intro k hne
      rw [happly]
      exact Finmap.lookup_insert_of_ne m hne
    · intro k hne
      have hke : k ≠ e.key := fun hke => hne (hke.trans hk)
      rw [hl, valueOf_put hke, valueOf_put (e := { e with valueAt := v, value := value }) hke]
    · rw [happly]
    · rw [happly]

theorem deleteSection_spec {m : Map} (hr : Represents t B) (hm : Holds t B m)
    (hi : i = index key t.hashSize) :
    Returns (deleteSection i (t.buckets i) key) t (Section (.delete key) calls t B m) := by
  have hlt : i < t.hashSize := hi ▸ hr.index_lt
  have hmem := hm.mem_iff key
  rw [← hi] at hmem
  unfold deleteSection
  refine Returns.bind (onHeap_returns (listDelete_spec (hr.chain i hlt) (hr.apart i hlt)))
    fun r t' ⟨hdel, ht'⟩ => ?_
  generalize t'.heap = h' at hdel ht'
  subst ht'
  cases hdel with
  | absent hkey =>
    have hout : ¬ key ∈ m := fun hin => hmem.mp hin hkey
    exact Returns.step (pure_apply _ _) (Returns.pure (.did (Did.unchanged hr hm (if_neg hout))))
  | @removed e pre post a' h' hkey hl hk hpre hmove =>
    have hin : key ∈ m := hmem.mpr (by rw [hkey]; simp)
    have happly : (Op.delete key).apply m = (1, none, m.erase key) := if_pos hin
    have hkeys := hr.keys i hlt
    rw [hl] at hkeys
    refine Returns.step (relink_changed (-1)) (Returns.pure
      (.did (Did.of_move hr hm hi hmove ?_ (fun d hd => ?_) ?_ ?_ ?_ ?_ ?_ rfl ?_)))
    · refine hkeys.sublist ?_
      exact (List.sublist_append_right [e] post |>.append_left pre).map _
    · refine Or.inr ⟨d, ?_, rfl⟩
      rw [hl]
      rcases List.mem_append.mp hd with hd | hd <;> simp [hd]
    · rw [hl]
      simp
      omega
    · rw [happly]
      change (m.erase key).lookup key = valueOf (pre ++ post) key
      rw [Finmap.lookup_erase, eq_comm, valueOf_append hpre, valueOf_none]
      intro d hd hdk
      rw [List.map_append, List.map_cons] at hkeys
      have hnot := (List.nodup_cons.mp (List.nodup_append.mp hkeys).2.1).1
      exact hnot (List.mem_map.mpr ⟨d, hd, hdk.trans hk.symm⟩)
    · intro k hne
      rw [happly]
      exact Finmap.lookup_erase_ne hne
    · intro k hne
      rw [hl, valueOf_put fun hke => hne (hke.trans hk)]
    · rw [happly]
    · rw [happly]

/-- The part of any operation under the lock, run with the head that its bucket has. -/
theorem section_spec {m : Map} (hr : Represents t B) (hm : Holds t B m)
    (hi : i = index op.key t.hashSize) :
    Returns (op.section calls i (t.buckets i)) t (Section op calls t B m) := by
  cases op with
  | insert key value => exact insertSection_spec hr hm hi
  | search key => exact searchSection_spec hr hm hi
  | update key value => exact updateSection_spec hr hm hi
  | delete key => exact deleteSection_spec hr hm hi

end SnuSysProg.Skvs
