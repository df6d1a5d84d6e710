import Mathlib.Data.Nat.Basic
import Mathlib.Data.Set.Basic
import Mathlib.Tactic.Ring

/-
  Byte-addressed memory with little-endian words.

  `load m a n` reads the `n` bytes from `a` on as a number, `store m a n v` writes the low `n`
  bytes of `v` there. A load sees the last store to its own bytes (`load_store_self`), and a store
  elsewhere does not reach it (`load_store_apart`). `AgreeOff W m m'` says that two memories differ
  inside `W` at most.
-/

namespace SnuSysProg.Lib

/-- A byte for every address. -/
abbrev Mem := Int → UInt8

/-- The `n` bytes from `a` on, least significant first. -/
def load (m : Mem) (a : Int) : Nat → Nat
  | 0 => 0
  | n + 1 => (m a).toNat + 256 * load m (a + 1) n

/-- Memory `m` with the low `n` bytes of `v` from `a` on. -/
def store (m : Mem) (a : Int) (n v : Nat) : Mem := fun x =>
  if a ≤ x ∧ x < a + n then UInt8.ofNat (v / 256 ^ (x - a).toNat) else m x

theorem load_congr {m m' : Mem} {a : Int} {n : Nat}
    (h : ∀ x, a ≤ x → x < a + n → m x = m' x) : load m a n = load m' a n := by
  induction n generalizing a with
  | zero => rfl
  | succ n ih =>
    rw [load, load, h a (by omega) (by omega), ih fun x h1 h2 => h x (by omega) (by omega)]

/-- A word whose bytes are the base-256 digits of `v` reads as `v`, up to its width. -/
theorem load_of_bytes {m : Mem} {a : Int} {n v : Nat}
    (h : ∀ i : Nat, i < n → m (a + i) = UInt8.ofNat (v / 256 ^ i)) :
    load m a n = v % 256 ^ n := by
  induction n generalizing a v with
  | zero => simp [load, Nat.mod_one]
  | succ n ih =>
    have hfirst : m a = UInt8.ofNat v := by
      have h0 := h 0 (by omega)
      simpa using h0
    have hrest : load m (a + 1) n = v / 256 % 256 ^ n := by
      refine ih fun i hi => ?_
      have hi' := h (i + 1) (by omega)
      rw [Nat.pow_succ', ← Nat.div_div_eq_div_mul] at hi'
      rw [← hi']
      congr 1
      push_cast
      ring
    have hsplit : (256 : Nat) ^ (n + 1) = 256 * 256 ^ n := Nat.pow_succ'
    rw [load, hfirst, hrest, UInt8.toNat_ofNat', hsplit, Nat.mod_mul]

theorem store_inside {m : Mem} {a x : Int} {n v : Nat} (h : a ≤ x ∧ x < a + n) :
    store m a n v x = UInt8.ofNat (v / 256 ^ (x - a).toNat) := if_pos h

theorem store_outside {m : Mem} {a x : Int} {n v : Nat} (h : ¬ (a ≤ x ∧ x < a + n)) :
    store m a n v x = m x := if_neg h

theorem load_store_self (m : Mem) (a : Int) (n v : Nat) :
    load (store m a n v) a n = v % 256 ^ n := by
  refine load_of_bytes fun i hi => ?_
  rw [store_inside ⟨by omega, by omega⟩, show (a + (i : Int) - a).toNat = i by omega]

theorem load_store_apart {m : Mem} {a b : Int} {n k v : Nat} (h : a + n ≤ b ∨ b + k ≤ a) :
    load (store m a n v) b k = load m b k :=
  load_congr fun x h1 h2 => store_outside (by omega)

/-! ## Memories that agree off a region -/

/-- `m'` differs from `m` only inside `W`. -/
def AgreeOff (W : Set Int) (m m' : Mem) : Prop := ∀ x, x ∉ W → m' x = m x

variable {W W' : Set Int} {m m₁ m₂ : Mem}

theorem AgreeOff.refl (W : Set Int) (m : Mem) : AgreeOff W m m := fun _ _ => rfl

theorem AgreeOff.trans (h₁ : AgreeOff W m m₁) (h₂ : AgreeOff W m₁ m₂) : AgreeOff W m m₂ :=
  fun x hx => (h₂ x hx).trans (h₁ x hx)

theorem AgreeOff.mono (hW : W ⊆ W') (h : AgreeOff W m m₁) : AgreeOff W' m m₁ :=
  fun x hx => h x fun hxW => hx (hW hxW)

theorem AgreeOff.store {a : Int} {n v : Nat} (hW : ∀ x, a ≤ x → x < a + n → x ∈ W)
    (h : AgreeOff W m m₁) : AgreeOff W m (store m₁ a n v) := by
  intro x hx
  rw [store_outside fun hin => hx (hW x hin.1 hin.2), h x hx]

theorem AgreeOff.load_eq {a : Int} {n : Nat} (h : AgreeOff W m m₁)
    (hout : ∀ x, a ≤ x → x < a + n → x ∉ W) : load m₁ a n = load m a n :=
  load_congr fun x h1 h2 => h x (hout x h1 h2)

end SnuSysProg.Lib
