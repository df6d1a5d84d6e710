import Mathlib.Algebra.Group.Nat.Defs
import Mathlib.Data.List.Perm.Subperm
import SnuSysProg.Dirtree.Basic

/-
  `read_and_sort_directory`.

  A `Pass` is one enumeration of a directory: the calls of `readdir` that give an entry, each with
  what is in memory after it, since a call may overwrite what an earlier one gave. The array
  holds the pointers of the second pass, and is sorted when that pass is over. So it lists the
  directory if and only if every entry is still in one of these places then
  (`readAndSortDirectory_lists`).

  The array has as many slots as the first pass gave entries. Nothing stops the second pass from
  giving another number, and then the function writes past the array or sorts slots that were not
  written (`readAndSortDirectory_safe`).
-/

namespace SnuSysProg.Dirtree
open SnuSysProg.Lib

/-- `INT_MAX`. -/
def intMax : Nat := 2 ^ 31 - 1

/-- A call of `readdir` that gives an entry: the pointer, and the entries in memory after it. -/
structure Read (P : Type) where
  ptr : P
  mem : P → Dirent

/-- The entry that the call gave. -/
def Read.entry {P : Type} (r : Read P) : Dirent := r.mem r.ptr

/-- The calls of `readdir` from the beginning of a directory on, and the entries in memory after
    the last one, which gives `NULL`. -/
structure Pass (P : Type) where
  reads : List (Read P)
  final : P → Dirent

/-- What goes wrong. -/
inductive Fault where
  /-- `(*count)++` at `INT_MAX`. -/
  | overflow
  /-- `entries[index]` behind the array. -/
  | outOfBounds (index : Nat)
  /-- An element of the array was not written. -/
  | uninitialised
  deriving DecidableEq

variable {P : Type} {D : List Dirent} {first second : Pass P} {reads : List (Read P)}
  {ptrs : List P} {entries : List (Option P)} {index count : Nat} {malloc : Bool}

/-- `getNext`, on the calls that the stream has left. -/
def getNext : List (Read P) → Option (P × List (Read P))
  | [] => none
  | r :: reads => if ignored r.entry then getNext reads else some (r.ptr, reads)

/-- What the calls of `getNext` give, one after the other, up to `NULL`. -/
def nexts : List (Read P) → List P
  | [] => []
  | r :: reads => if ignored r.entry then nexts reads else r.ptr :: nexts reads

/-- `nexts` is the loop `while ((entry = getNext(dir)) != NULL)`. -/
theorem nexts_getNext (reads : List (Read P)) :
    nexts reads = (getNext reads).elim [] fun next => next.1 :: nexts next.2 := by
  induction reads with
  | nil => rfl
  | cons r reads ih =>
    rw [nexts, getNext]
    split
    · exact ih
    · rfl

/-- The loop that counts the entries. -/
def countEntries : List P → Nat → Except Fault Nat
  | [], count => .ok count
  | _ :: ptrs, count =>
    if count = intMax then .error .overflow else countEntries ptrs (count + 1)

/-- The loop that fills the array. -/
def fillEntries : List P → Nat → List (Option P) → Except Fault (List (Option P))
  | [], _, entries => .ok entries
  | entry :: ptrs, index, entries =>
    if index < entries.length then fillEntries ptrs (index + 1) (entries.set index (some entry))
    else .error (.outOfBounds index)

/-- The elements of the array, for `qsort` to compare. -/
def elements : List (Option P) → Except Fault (List P)
  | [] => .ok []
  | none :: _ => .error .uninitialised
  | some entry :: entries => do
    let rest ← elements entries
    return entry :: rest

/-- `read_and_sort_directory`, for two enumerations of `dir`: `*count`, and the array or `NULL`. -/
def readAndSortDirectory (qsort : Qsort P) (malloc : Bool) (first second : Pass P) :
    Except Fault (Nat × Option (List P)) := do
  let count ← countEntries (nexts first.reads) 0
  if !malloc then return (count, none)
  let entries ← fillEntries (nexts second.reads) 0 (List.replicate count none)
  let entries ← elements entries
  return (count, some (qsort.sort
    (fun a b => direntCompare (second.final a) (second.final b)) entries))

/-! ## The loops -/

theorem countEntries_eq (h : count ≤ intMax) :
    countEntries ptrs count =
      if count + ptrs.length ≤ intMax then .ok (count + ptrs.length) else .error .overflow := by
  induction ptrs generalizing count with
  | nil => rw [countEntries, if_pos (by simpa using h), List.length_nil, Nat.add_zero]
  | cons p ptrs ih =>
    rw [countEntries, List.length_cons]
    by_cases hfull : count = intMax
    · rw [if_pos hfull, if_neg (by omega)]
    · rw [if_neg hfull, ih (by omega), Nat.add_right_comm, Nat.add_assoc]

/-- The array after the pointers were written from `index` on. -/
theorem fillEntries_fits (h : index + ptrs.length ≤ entries.length) :
    fillEntries ptrs index entries =
      .ok (entries.take index ++ ptrs.map some ++ entries.drop (index + ptrs.length)) := by
  induction ptrs generalizing index entries with
  | nil =>
    rw [fillEntries, List.map_nil, List.append_nil, List.length_nil, Nat.add_zero,
      List.take_append_drop]
  | cons p ptrs ih =>
    rw [List.length_cons] at h ⊢
    rw [fillEntries, if_pos (by omega), ih (by rw [List.length_set]; omega)]
    have htake : (entries.set index (some p)).take (index + 1) =
        entries.take index ++ [some p] := by
      rw [List.set_eq_take_append_cons_drop, if_pos (by omega), List.append_cons]
      exact List.take_left' (by simp; omega)
    rw [htake, List.drop_set_of_lt (by omega), List.map_cons,
      List.append_assoc (entries.take index),
      List.singleton_append, Nat.add_right_comm, Nat.add_assoc]

theorem fillEntries_overruns (h : entries.length < index + ptrs.length)
    (hindex : index ≤ entries.length) :
    fillEntries ptrs index entries = .error (.outOfBounds entries.length) := by
  induction ptrs generalizing index entries with
  | nil => exact absurd h (by simp; omega)
  | cons p ptrs ih =>
    rw [List.length_cons] at h
    rw [fillEntries]
    by_cases hroom : index < entries.length
    · rw [if_pos hroom, ih (by rw [List.length_set]; omega) (by rw [List.length_set]; omega),
        List.length_set]
    · rw [if_neg hroom, Nat.le_antisymm hindex (Nat.le_of_not_lt hroom)]

theorem elements_written (ptrs : List P) : elements (ptrs.map some) = .ok ptrs := by
  induction ptrs with
  | nil => rfl
  | cons p ptrs ih =>
    rw [List.map_cons, elements, ih]
    rfl

theorem elements_unwritten (ptrs : List P) (entries : List (Option P)) :
    elements (ptrs.map some ++ none :: entries) = .error .uninitialised := by
  induction ptrs with
  | nil => rfl
  | cons p ptrs ih =>
    rw [List.map_cons, List.cons_append, elements, ih]
    rfl

/-! ## read_and_sort_directory -/

variable {qsort : Qsort P}

/-- The array, sorted when the second pass is over. -/
def sortedPtrs (qsort : Qsort P) (second : Pass P) : List P :=
  qsort.sort (fun a b => direntCompare (second.final a) (second.final b)) (nexts second.reads)

/-- What the function does, by the numbers of entries that the two passes give. -/
inductive ReadsAndSorts (qsort : Qsort P) (malloc : Bool) (first second : Pass P) :
    Except Fault (Nat × Option (List P)) → Prop
  | overflow (h : intMax < (nexts first.reads).length) :
      ReadsAndSorts qsort malloc first second (.error .overflow)
  | noMemory (h : (nexts first.reads).length ≤ intMax) (hmalloc : malloc = false) :
      ReadsAndSorts qsort malloc first second (.ok ((nexts first.reads).length, none))
  | overruns (h : (nexts first.reads).length ≤ intMax) (hmalloc : malloc = true)
      (hmore : (nexts first.reads).length < (nexts second.reads).length) :
      ReadsAndSorts qsort malloc first second (.error (.outOfBounds (nexts first.reads).length))
  | unwritten (h : (nexts first.reads).length ≤ intMax) (hmalloc : malloc = true)
      (hless : (nexts second.reads).length < (nexts first.reads).length) :
      ReadsAndSorts qsort malloc first second (.error .uninitialised)
  | sorted (h : (nexts first.reads).length ≤ intMax) (hmalloc : malloc = true)
      (hsame : (nexts second.reads).length = (nexts first.reads).length) :
      ReadsAndSorts qsort malloc first second
        (.ok ((nexts first.reads).length, some (sortedPtrs qsort second)))

theorem readAndSortDirectory_spec (qsort : Qsort P) (malloc : Bool) (first second : Pass P) :
    ReadsAndSorts qsort malloc first second (readAndSortDirectory qsort malloc first second) := by
  unfold readAndSortDirectory
  rw [countEntries_eq (Nat.zero_le _), Nat.zero_add]
  by_cases hcount : (nexts first.reads).length ≤ intMax
  · rw [if_pos hcount]
    cases malloc with
    | false => exact .noMemory hcount rfl
    | true =>
      change ReadsAndSorts qsort true first second (do
        let entries ← fillEntries (nexts second.reads) 0
          (List.replicate (nexts first.reads).length none)
        let entries ← elements entries
        return ((nexts first.reads).length, some (qsort.sort
          (fun a b => direntCompare (second.final a) (second.final b)) entries)))
      have hlen : (List.replicate (nexts first.reads).length (none : Option P)).length =
          (nexts first.reads).length := List.length_replicate
      obtain hless | hsame | hmore :=
        Nat.lt_trichotomy (nexts second.reads).length (nexts first.reads).length
      · obtain ⟨k, hk⟩ := Nat.exists_eq_add_of_lt hless
        rw [fillEntries_fits (by rw [hlen, Nat.zero_add]; omega), List.take_zero, List.nil_append,
          Nat.zero_add, List.drop_replicate, hk, Nat.add_assoc, Nat.add_sub_cancel_left,
          List.replicate_succ]
        change ReadsAndSorts qsort true first second (do
          let entries ← elements ((nexts second.reads).map some ++ none :: List.replicate k none)
          return _)
        rw [elements_unwritten]
        exact .unwritten hcount rfl hless
      · rw [fillEntries_fits (by rw [hlen, Nat.zero_add]; omega), List.take_zero, List.nil_append,
          Nat.zero_add, hsame, List.drop_replicate, Nat.sub_self, List.replicate_zero,
          List.append_nil]
        change ReadsAndSorts qsort true first second (do
          let entries ← elements ((nexts second.reads).map some)
          return _)
        rw [elements_written]
        exact .sorted hcount rfl hsame
      · rw [fillEntries_overruns (by rw [hlen, Nat.zero_add]; exact hmore) (Nat.zero_le _), hlen]
        exact .overruns hcount rfl hmore
  · rw [if_neg hcount]
    exact .overflow (Nat.lt_of_not_le hcount)

/-- **The two passes and the array.** Whatever the two passes give, no write is behind the array
    and no element is sorted that was not written, if and only if the entries can be counted and,
    where there is an array at all, both passes give equally many. -/
theorem readAndSortDirectory_safe (qsort : Qsort P) (malloc : Bool) (first second : Pass P) :
    (∃ r, readAndSortDirectory qsort malloc first second = .ok r) ↔
      (nexts first.reads).length ≤ intMax ∧
        (malloc = true → (nexts second.reads).length = (nexts first.reads).length) := by
  have hspec := readAndSortDirectory_spec qsort malloc first second
  generalize readAndSortDirectory qsort malloc first second = result at hspec
  cases hspec with
  | overflow h => exact iff_of_false (by simp) fun hh => absurd hh.1 (Nat.not_le_of_lt h)
  | noMemory h hmalloc =>
    refine iff_of_true ⟨_, rfl⟩ ⟨h, fun hyes => ?_⟩
    rw [hmalloc] at hyes
    exact absurd hyes (by decide)
  | overruns _ hmalloc hmore =>
    exact iff_of_false (by simp) fun hh => absurd (hh.2 hmalloc) (Nat.ne_of_gt hmore)
  | unwritten _ hmalloc hless =>
    exact iff_of_false (by simp) fun hh => absurd (hh.2 hmalloc) (Nat.ne_of_lt hless)
  | sorted h _ hsame => exact iff_of_true ⟨_, rfl⟩ ⟨h, fun _ => hsame⟩

/-- A file of this name. -/
def file (name : Str) : Dirent := ⟨name, .reg⟩

/-- The enumeration of entries that stay where they are. -/
def Pass.kept (entries : List Dirent) : Pass Nat where
  reads := (List.range entries.length).map fun i => ⟨i, fun p => entries.getD p (file [])⟩
  final := fun p => entries.getD p (file [])

/-- A file that is created between the two passes, and one that is removed. -/
theorem readAndSortDirectory_unsafe :
    readAndSortDirectory (Qsort.insertion Nat) true (.kept [file [97]])
      (.kept [file [97], file [98]]) =
      .error (.outOfBounds 1) ∧
    readAndSortDirectory (Qsort.insertion Nat) true (.kept [file [97], file [98]])
      (.kept [file [97]]) =
      .error .uninitialised := by
  exact ⟨rfl, rfl⟩

/-! ## What the array lists -/

/-- The pass enumerates the directory `D`, in any order. -/
def Pass.Enumerates (pass : Pass P) (D : List Dirent) : Prop :=
  (pass.reads.map Read.entry).Perm D

/-- The entries of a directory other than `.` and `..`. -/
def listed (D : List Dirent) : List Dirent := D.filter fun e => !ignored e

/-- The array has `count` elements, and they point to the entries of the directory, each once and
    in the order of `dirent_compare`. -/
def Lists (D : List Dirent) (second : Pass P)
    (result : Except Fault (Nat × Option (List P))) : Prop :=
  ∃ entries, result = .ok (entries.length, some entries) ∧
    (entries.map second.final).Perm (listed D) ∧
    InOrderOf direntCompare (entries.map second.final)

/-- After the second pass every entry is in one of the places where the pass gave one. -/
def Survives (D : List Dirent) (second : Pass P) : Prop :=
  ∀ e ∈ listed D, ∃ p ∈ nexts second.reads, second.final p = e

theorem length_nexts (reads : List (Read P)) :
    (nexts reads).length = (listed (reads.map Read.entry)).length := by
  unfold listed
  induction reads with
  | nil => rfl
  | cons r reads ih =>
    rw [nexts, List.map_cons, List.filter_cons]
    by_cases hskip : ignored r.entry = true
    · rw [if_pos hskip, hskip]
      exact ih
    · rw [if_neg hskip, Bool.eq_false_iff.mpr hskip]
      exact congrArg Nat.succ ih

theorem Pass.Enumerates.length {pass : Pass P} (h : pass.Enumerates D) :
    (nexts pass.reads).length = (listed D).length := by
  rw [length_nexts]
  exact (h.filter _).length_eq

theorem sortedPtrs_lists (qsort : Qsort P) (second : Pass P) :
    ((sortedPtrs qsort second).map second.final).Perm ((nexts second.reads).map second.final) ∧
      InOrderOf direntCompare ((sortedPtrs qsort second).map second.final) :=
  qsort.sort_comap orders_direntCompare second.final (nexts second.reads)

/-- The passes fill the array with the entries, in any order. -/
structure Fills (first second : Pass P) (entries : List Dirent) : Prop where
  counted : (nexts first.reads).length = entries.length
  few : entries.length ≤ intMax
  perm : ((nexts second.reads).map second.final).Perm entries

/-- Then the array denotes them, in order. -/
theorem Fills.readAndSortDirectory {D : List Dirent} (h : Fills first second D)
    (qsort : Qsort P) :
    readAndSortDirectory qsort true first second =
        .ok ((sortedPtrs qsort second).length, some (sortedPtrs qsort second)) ∧
      ((sortedPtrs qsort second).map second.final).Perm D ∧
      InOrderOf direntCompare ((sortedPtrs qsort second).map second.final) := by
  obtain ⟨hperm, hsorted⟩ := sortedPtrs_lists qsort second
  have hlen : (nexts second.reads).length = (nexts first.reads).length := by
    rw [h.counted, ← h.perm.length_eq, List.length_map]
  have hptrs : (sortedPtrs qsort second).length = (nexts first.reads).length :=
    (qsort.length _ _).trans hlen
  refine ⟨?_, hperm.trans h.perm, hsorted⟩
  have hspec := readAndSortDirectory_spec qsort true first second
  generalize Dirtree.readAndSortDirectory qsort true first second = result at hspec ⊢
  cases hspec with
  | overflow hmany => exact absurd (h.counted ▸ h.few) (Nat.not_le_of_lt hmany)
  | noMemory _ hmalloc => exact absurd hmalloc (by decide)
  | overruns _ _ hmore => exact absurd hlen (Nat.ne_of_gt hmore)
  | unwritten _ _ hless => exact absurd hlen (Nat.ne_of_lt hless)
  | sorted => rw [hptrs]

/-- An array that could not be allocated. -/
theorem Fills.noMemory {D : List Dirent} (h : Fills first second D) (qsort : Qsort P) :
    Dirtree.readAndSortDirectory qsort false first second = .ok (D.length, none) := by
  have hspec := readAndSortDirectory_spec qsort false first second
  generalize Dirtree.readAndSortDirectory qsort false first second = result at hspec ⊢
  cases hspec with
  | noMemory => rw [h.counted]
  | overflow hmany => exact absurd (h.counted ▸ h.few) (Nat.not_le_of_lt hmany)
  | overruns _ hmalloc => exact absurd hmalloc (by decide)
  | unwritten _ hmalloc => exact absurd hmalloc (by decide)
  | sorted _ hmalloc => exact absurd hmalloc (by decide)

/-- The places hold the entries of the directory, if they hold each of them. -/
theorem fills_of_survives (hnodup : D.Nodup) (hfirst : first.Enumerates D)
    (hsecond : second.Enumerates D) (hfew : (listed D).length ≤ intMax) (h : Survives D second) :
    Fills first second (listed D) := by
  have hsub : listed D ⊆ (nexts second.reads).map second.final :=
    fun e he => List.mem_map.mpr (h e he)
  have hlen : ((nexts second.reads).map second.final).length ≤ (listed D).length :=
    Nat.le_of_eq (by rw [List.length_map, hsecond.length])
  have hperm := (List.subperm_of_subset (hnodup.filter _) hsub).perm_of_length_le hlen
  exact ⟨hfirst.length, hfew, hperm.symm⟩

/-- **What the array lists.** For a directory that both passes enumerate, the array denotes its
    entries other than `.` and `..`, each once and in order, if and only if it could be allocated,
    the entries could be counted, and each of them is still in memory when the second pass is
    over. -/
theorem readAndSortDirectory_lists (qsort : Qsort P) (malloc : Bool) (hnodup : D.Nodup)
    (hfirst : first.Enumerates D) (hsecond : second.Enumerates D) :
    Lists D second (readAndSortDirectory qsort malloc first second) ↔
      malloc = true ∧ (listed D).length ≤ intMax ∧ Survives D second := by
  constructor
  · have hspec := readAndSortDirectory_spec qsort malloc first second
    generalize readAndSortDirectory qsort malloc first second = result at hspec
    intro ⟨entries, heq, hdenotes, _⟩
    cases hspec with
    | sorted h hmalloc =>
      obtain rfl := Option.some.inj (Prod.mk.inj (Except.ok.inj heq)).2
      refine ⟨hmalloc, hfirst.length ▸ h, fun e he => ?_⟩
      exact List.mem_map.mp ((sortedPtrs_lists qsort second).1.subset (hdenotes.symm.subset he))
    | noMemory => exact absurd heq (by simp)
    | overflow | overruns | unwritten => exact absurd heq (by simp)
  · intro ⟨hmalloc, hfew, hsurvives⟩
    obtain ⟨hresult, hlists⟩ :=
      (fills_of_survives hnodup hfirst hsecond hfew hsurvives).readAndSortDirectory qsort
    rw [hmalloc]
    exact ⟨sortedPtrs qsort second, hresult, hlists⟩

/-- A directory whose entries stay where they are. -/
theorem readAndSortDirectory_lists_kept :
    Lists [file [98], ⟨[46], .dir⟩, file [97]] (.kept [file [98], ⟨[46], .dir⟩, file [97]])
      (readAndSortDirectory (Qsort.insertion Nat) true (.kept [file [98], ⟨[46], .dir⟩, file [97]])
        (.kept [file [98], ⟨[46], .dir⟩, file [97]])) :=
  (readAndSortDirectory_lists (Qsort.insertion Nat) true (by decide) (List.Perm.refl _)
    (List.Perm.refl _)).mpr ⟨rfl, by decide, by unfold Survives; decide⟩

/-- The enumeration of two files by a `readdir` that gives every entry in the same place. -/
def reused : Pass Unit :=
  ⟨[⟨(), fun _ => file [97]⟩, ⟨(), fun _ => file [98]⟩], fun _ => file [98]⟩

/-- There the array lists the second file twice. -/
theorem readAndSortDirectory_reused : reused.Enumerates [file [97], file [98]] ∧
    readAndSortDirectory (Qsort.insertion Unit) true reused reused = .ok (2, some [(), ()]) ∧
    [(), ()].map reused.final = [file [98], file [98]] ∧
    ¬ Lists [file [97], file [98]] reused
      (readAndSortDirectory (Qsort.insertion Unit) true reused reused) := by
  have hresult : readAndSortDirectory (Qsort.insertion Unit) true reused reused =
      .ok (2, some [(), ()]) := rfl
  refine ⟨List.Perm.refl _, hresult, rfl, ?_⟩
  rw [hresult]
  intro ⟨entries, heq, hperm, _⟩
  obtain rfl := Option.some.inj (Prod.mk.inj (Except.ok.inj heq)).2
  have hmem : file [97] ∈ [(), ()].map reused.final := hperm.symm.subset (by decide)
  exact absurd hmem (by decide)

end SnuSysProg.Dirtree
