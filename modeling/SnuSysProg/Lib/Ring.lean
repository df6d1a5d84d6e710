import Mathlib.Data.List.Basic
import Mathlib.Logic.Function.Basic

/-
  A queue in the slots of a ring.

  `Ring n slots head tail q`: the `n` slots hold the entries of `q`, oldest first, from position
  `head` up to position `tail`, and at least one slot is unused, which is how a full ring is told
  from an empty one (`Ring.full_iff`). Entries are added at the tail (`Ring.push`) and taken from
  the head (`Ring.pop`).
-/

namespace SnuSysProg.Lib

variable {α : Type*} {n head tail : Nat} {slots : Nat → Option α} {q : List α} {a : α}

/-- A position that went around the ring at most once. -/
theorem wrap_eq {i : Nat} (h : i < 2 * n) : i % n = if i < n then i else i - n := by
  split
  · rename_i hlt
    exact Nat.mod_eq_of_lt hlt
  · rename_i hge
    rw [Nat.mod_eq_sub_mod (by omega), Nat.mod_eq_of_lt (by omega)]

structure Ring (n : Nat) (slots : Nat → Option α) (head tail : Nat) (q : List α) : Prop where
  head_lt : head < n
  tail_eq : tail = (head + q.length) % n
  length_lt : q.length < n
  slot : ∀ k < q.length, slots ((head + k) % n) = q[k]?

theorem Ring.empty (h : head < n) : Ring n slots head head [] := by
  refine ⟨h, ?_, Nat.zero_lt_of_lt h, fun k hk => absurd hk (Nat.not_lt_zero k)⟩
  exact (Nat.mod_eq_of_lt h).symm

theorem Ring.full_iff (h : Ring n slots head tail q) :
    (tail + 1) % n = head ↔ q.length + 1 = n := by
  obtain ⟨hhead, htail, hlen, -⟩ := h
  rw [wrap_eq (by omega)] at htail
  rw [wrap_eq (by split at htail <;> omega)]
  split at htail <;> split <;> omega

/-- Distinct offsets less than `n` lead to distinct slots. -/
theorem slot_ne {i j : Nat} (hhead : head < n) (hij : i < j) (hj : j < n) :
    (head + i) % n ≠ (head + j) % n := by
  rw [wrap_eq (by omega), wrap_eq (by omega)]
  split <;> split <;> omega

theorem Ring.push (h : Ring n slots head tail q) (hroom : q.length + 1 ≠ n) :
    Ring n (Function.update slots tail (some a)) head ((tail + 1) % n) (q ++ [a]) := by
  obtain ⟨hhead, htail, hlen, hslot⟩ := h
  have hlen' : (q ++ [a]).length = q.length + 1 := List.length_append
  refine ⟨hhead, ?_, by omega, fun k hk => ?_⟩
  · rw [hlen', htail, Nat.mod_add_mod, Nat.add_assoc]
  · rcases Nat.lt_or_ge k q.length with hlt | hge
    · have hne : (head + k) % n ≠ tail := by
        rw [htail]
        exact slot_ne hhead hlt hlen
      rw [Function.update_of_ne hne, List.getElem?_append_left hlt]
      exact hslot k hlt
    · have hk' : k = q.length := by omega
      rw [hk', ← htail, Function.update_self, List.getElem?_append_right (Nat.le_refl _),
        Nat.sub_self]
      rfl

theorem Ring.front (h : Ring n slots head tail (a :: q)) : slots head = some a := by
  have hslot := h.slot 0 (Nat.succ_pos _)
  rwa [Nat.add_zero, Nat.mod_eq_of_lt h.head_lt] at hslot

theorem Ring.pop (h : Ring n slots head tail (a :: q)) : Ring n slots ((head + 1) % n) tail q := by
  obtain ⟨hhead, htail, hlen, hslot⟩ := h
  have hlen' : (a :: q).length = q.length + 1 := List.length_cons
  have hshift : ∀ k, ((head + 1) % n + k) % n = (head + (k + 1)) % n := by
    intro k
    rw [Nat.mod_add_mod, Nat.add_assoc, Nat.add_comm 1 k]
  refine ⟨Nat.mod_lt _ (by omega), ?_, by omega, fun k hk => ?_⟩
  · rw [hshift, ← hlen']
    exact htail
  · rw [hshift, hslot (k + 1) (by omega)]
    rfl

/-- The positions tell how many entries there are. -/
theorem Ring.length_eq (h : Ring n slots head tail q) : (tail + n - head) % n = q.length := by
  obtain ⟨hhead, htail, hlen, -⟩ := h
  rw [wrap_eq (by omega)] at htail
  rw [wrap_eq (by split at htail <;> omega)]
  split at htail <;> split <;> omega

/-- The entries are what the slots from `head` up to `tail` hold. -/
theorem Ring.mem_iff (h : Ring n slots head tail q) :
    a ∈ q ↔ ∃ k < (tail + n - head) % n, slots ((head + k) % n) = some a := by
  rw [h.length_eq, List.mem_iff_getElem?]
  constructor
  · intro ⟨k, hk⟩
    have hlt : k < q.length := (List.getElem?_eq_some_iff.mp hk).1
    exact ⟨k, hlt, (h.slot k hlt).trans hk⟩
  · exact fun ⟨k, hlt, hk⟩ => ⟨k, (h.slot k hlt).symm.trans hk⟩

end SnuSysProg.Lib
