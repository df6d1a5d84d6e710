import Mathlib.Data.List.Nodup
import Mathlib.Logic.Function.Basic

/-
  The table of background processes and `sigzombie_handler` of `snush.c`.

  `handleChild` is what the handler does with one pid that `waitpid` gave it: the new table and
  what it writes to the pipe. On the entries of the table it erases the first one with that pid,
  and it writes when no entry of the group is left.
-/

namespace SnuSysProg.Shell

structure BgProcess where
  pid : Int
  pgid : Int
  deriving DecidableEq

/-- `bg_array` and `bg_array_idx`. -/
structure Table where
  arr : Nat → BgProcess
  idx : Nat

/-- `calloc` gives zeros. -/
def Table.initial : Table := ⟨fun _ => ⟨0, 0⟩, 0⟩

/-- `bg_array[0 .. bg_array_idx)`. -/
def Table.entries (t : Table) : List BgProcess := (List.range t.idx).map t.arr

def Table.setPid (t : Table) (pid : Int) : Table :=
  { t with arr := Function.update t.arr t.idx { t.arr t.idx with pid := pid } }

def Table.setPgid (t : Table) (pgid : Int) : Table :=
  { t with arr := Function.update t.arr t.idx { t.arr t.idx with pgid := pgid } }

def Table.incIdx (t : Table) : Table := { t with idx := t.idx + 1 }

/-- `found_idx`. -/
def Table.findPid (t : Table) (pid : Int) : Option Nat :=
  t.entries.findIdx? fun e => e.pid = pid

/-- The loop that moves the entries after `i` down, `n` of them. -/
def shiftLoop : Nat → Nat → (Nat → BgProcess) → Nat → BgProcess
  | 0, _, arr => arr
  | n + 1, i, arr => shiftLoop n (i + 1) (Function.update arr i (arr (i + 1)))

def Table.remove (t : Table) (found : Nat) : Table :=
  ⟨shiftLoop (t.idx - 1 - found) found t.arr, t.idx - 1⟩

/-- `pgid_exists`. -/
def Table.hasPgid (t : Table) (pgid : Int) : Bool := t.entries.any fun e => e.pgid = pgid

/-- The loop of `int_to_str` that fills `temp`. -/
def tempLoop (num : Nat) (temp : List Char) : List Char :=
  if 0 < num / 10 then tempLoop (num / 10) (temp ++ [Char.ofNat ('0'.toNat + num % 10)])
  else temp ++ [Char.ofNat ('0'.toNat + num % 10)]
termination_by num

/-- `int_to_str`: the digits of `temp`, from the last one. -/
def intToStr (num : Nat) : List Char := (tempLoop num []).reverse

/-- The `buffer` of the handler. The groups are pids of children, which are positive. -/
def doneMessage (pgid : Int) : List Char :=
  '[' :: (intToStr pgid.toNat ++ ']' :: ' ' :: "Done background process group\n".toList)

def handleChild (t : Table) (pid : Int) : Table × Option (List Char) :=
  match t.findPid pid with
  | none => (t, none)
  | some found =>
    let pgid := (t.arr found).pgid
    let t := t.remove found
    (t, if t.hasPgid pgid then none else some (doneMessage pgid))

variable {t : Table} {pid pgid : Int} {n i j : Nat} {arr : Nat → BgProcess} {text : List Char}

/-! ## The entries -/

theorem Table.length_entries : t.entries.length = t.idx := by
  unfold Table.entries
  rw [List.length_map, List.length_range]

theorem Table.getElem?_entries (h : i < t.idx) : t.entries[i]? = some (t.arr i) := by
  unfold Table.entries
  rw [List.getElem?_map, List.getElem?_range h]
  rfl

theorem Table.entries_initial : Table.initial.entries = [] := rfl

theorem Table.entries_setPid : (t.setPid pid).entries = t.entries := by
  unfold Table.entries
  refine List.map_congr_left fun i hi => ?_
  exact Function.update_of_ne (Nat.ne_of_lt (List.mem_range.mp hi)) _ _

theorem Table.entries_setPgid : (t.setPgid pgid).entries = t.entries := by
  unfold Table.entries
  refine List.map_congr_left fun i hi => ?_
  exact Function.update_of_ne (Nat.ne_of_lt (List.mem_range.mp hi)) _ _

/-- Counting adds what was stored at `bg_array_idx`. -/
theorem Table.entries_incIdx : t.incIdx.entries = t.entries ++ [t.arr t.idx] := by
  unfold Table.entries Table.incIdx
  rw [List.range_succ, List.map_append]
  rfl

theorem shiftLoop_apply :
    shiftLoop n i arr j = if i ≤ j ∧ j < i + n then arr (j + 1) else arr j := by
  induction n generalizing i arr with
  | zero =>
    rw [if_neg (by omega)]
    rfl
  | succ n ih =>
    unfold shiftLoop
    rw [ih]
    by_cases hij : j = i
    · subst hij
      rw [if_neg (by omega), if_pos (by omega), Function.update_self]
    · by_cases hin : i ≤ j ∧ j < i + (n + 1)
      · rw [if_pos (by omega), if_pos hin, Function.update_of_ne (by omega)]
      · rw [if_neg (by omega), if_neg hin, Function.update_of_ne hij]

theorem Table.entries_remove (h : i < t.idx) : (t.remove i).entries = t.entries.eraseIdx i := by
  apply List.ext_getElem?
  intro j
  have hidx : (t.remove i).idx = t.idx - 1 := rfl
  by_cases hj : j < t.idx - 1
  · rw [Table.getElem?_entries (hidx ▸ hj)]
    have harr : (t.remove i).arr j =
        if i ≤ j ∧ j < i + (t.idx - 1 - i) then t.arr (j + 1) else t.arr j :=
      shiftLoop_apply
    rw [harr]
    rcases Nat.lt_or_ge j i with hlt | hge
    · rw [List.getElem?_eraseIdx_of_lt hlt, if_neg (by omega), Table.getElem?_entries (by omega)]
    · rw [List.getElem?_eraseIdx_of_ge hge, if_pos (by omega), Table.getElem?_entries (by omega)]
  · have hlen : t.entries.length = t.idx := Table.length_entries
    rw [List.getElem?_eq_none (by rw [Table.length_entries, hidx]; omega),
      List.getElem?_eq_none (by rw [List.length_eraseIdx_of_lt (hlen ▸ h), hlen]; omega)]

/-- The handler erases the first entry of the child, if there is one. -/
theorem handleChild_entries :
    (handleChild t pid).1.entries = t.entries.eraseP fun e => e.pid = pid := by
  rw [List.eraseP_eq_eraseIdx]
  unfold handleChild Table.findPid
  cases hfound : t.entries.findIdx? fun e => e.pid = pid with
  | none => rfl
  | some i =>
    obtain ⟨hlt, -, -⟩ := List.findIdx?_eq_some_iff_getElem.mp hfound
    exact Table.entries_remove (Table.length_entries ▸ hlt)

/-- What it writes: the group of the child had an entry, and has none any more. -/
theorem handleChild_writes (h : (handleChild t pid).2 = some text) :
    ∃ e, t.entries.find? (fun e => e.pid = pid) = some e ∧ text = doneMessage e.pgid ∧
      ∀ e' ∈ (handleChild t pid).1.entries, e'.pgid ≠ e.pgid := by
  unfold handleChild Table.findPid at h ⊢
  cases hfound : t.entries.findIdx? fun e => e.pid = pid with
  | none =>
    rw [hfound] at h
    exact absurd h (by simp)
  | some i =>
    rw [hfound] at h
    obtain ⟨hlt, hpid, hbefore⟩ := List.findIdx?_eq_some_iff_getElem.mp hfound
    have hget : t.entries[i] = t.arr i := by
      have hsome := Table.getElem?_entries (t := t) (i := i) (Table.length_entries ▸ hlt)
      rwa [List.getElem?_eq_getElem hlt, Option.some.injEq] at hsome
    have hfind : t.entries.find? (fun e => e.pid = pid) = some (t.arr i) := by
      rw [← hget, List.find?_eq_some_iff_getElem]
      exact ⟨hpid, i, hlt, rfl, fun j hj => by simpa using hbefore j hj⟩
    refine ⟨t.arr i, hfind, ?_⟩
    by_cases hhas : (t.remove i).hasPgid (t.arr i).pgid = true
    · simp [hhas] at h
    · have htext : some (doneMessage (t.arr i).pgid) = some text := by simpa [hhas] using h
      refine ⟨(Option.some.inj htext).symm, fun e' he' heq => hhas ?_⟩
      exact List.any_eq_true.mpr ⟨e', he', by simpa using heq⟩

/-! ## The text -/

/-- The number whose digits, from the last one, these are. -/
def tempValue : List Char → Nat
  | [] => 0
  | c :: temp => c.toNat - '0'.toNat + 10 * tempValue temp

theorem tempLoop_append (temp : List Char) : tempLoop n temp = temp ++ tempLoop n [] := by
  induction n using Nat.strongRecOn generalizing temp with
  | ind n ih =>
    conv_lhs => rw [tempLoop]
    conv_rhs => rw [tempLoop]
    by_cases hn : 0 < n / 10
    · rw [if_pos hn, if_pos hn, ih (n / 10) (by omega), List.append_assoc]
      rw [ih (n / 10) (by omega) ([] ++ _), List.nil_append]
    · rw [if_neg hn, if_neg hn, List.nil_append]

theorem digit_toNat (h : n < 10) : (Char.ofNat ('0'.toNat + n)).toNat - '0'.toNat = n := by
  have hall : ∀ m < 10, (Char.ofNat ('0'.toNat + m)).toNat - '0'.toNat = m := by decide
  exact hall n h

theorem tempValue_tempLoop : tempValue (tempLoop n []) = n := by
  induction n using Nat.strongRecOn with
  | ind n ih =>
    have hdigit := digit_toNat (Nat.mod_lt n (by decide : 0 < 10))
    rw [tempLoop]
    by_cases hn : 0 < n / 10
    · rw [if_pos hn, tempLoop_append, List.nil_append, List.singleton_append, tempValue,
        ih (n / 10) (by omega), hdigit]
      omega
    · rw [if_neg hn, List.nil_append, tempValue, tempValue, hdigit]
      omega

theorem intToStr_inj {m : Nat} (h : intToStr n = intToStr m) : n = m := by
  have htemp : tempLoop n [] = tempLoop m [] := List.reverse_injective h
  rw [← tempValue_tempLoop (n := n), htemp, tempValue_tempLoop]

/-- The message tells the group. -/
theorem doneMessage_inj {pgid' : Int} (hpos : 0 < pgid) (hpos' : 0 < pgid')
    (h : doneMessage pgid = doneMessage pgid') : pgid = pgid' := by
  have hdigits : intToStr pgid.toNat = intToStr pgid'.toNat :=
    List.append_cancel_right (List.cons.inj h).2
  have hnat := intToStr_inj hdigits
  omega

end SnuSysProg.Shell
