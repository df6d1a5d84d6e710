import Mathlib.Data.List.Basic

/-
  Total correctness for programs with a state and faults.

  A program is a `StateT σ (Except ε) α`. `Returns x s Q`: started in `s` it returns without a
  fault, with a value and a state that satisfy `Q`. A program that only looks at the state gives
  the state back, and so do the list loops made of such programs.
-/

namespace SnuSysProg.Lib

variable {σ ε α β : Type} {s s' : σ} {a : α} {e : ε} {Q R : α → σ → Prop}

/-- From `s` the program `x` returns, and `Q` holds of its value and of the state it leaves. -/
def Returns (x : StateT σ (Except ε) α) (s : σ) (Q : α → σ → Prop) : Prop :=
  ∃ a s', x s = .ok (a, s') ∧ Q a s'

variable {x : StateT σ (Except ε) α}

theorem bind_of_ok {f : α → StateT σ (Except ε) β} (h : x s = .ok (a, s')) :
    (x >>= f) s = f a s' := by
  change (x s >>= fun p => f p.1 p.2) = _
  rw [h]
  rfl

theorem bind_of_error {f : α → StateT σ (Except ε) β} (h : x s = .error e) :
    (x >>= f) s = .error e := by
  change (x s >>= fun p => f p.1 p.2) = _
  rw [h]
  rfl

/-- A sequence that returns is made of parts that do. -/
theorem ok_of_bind {f : α → StateT σ (Except ε) β} {b : β} (h : (x >>= f) s = .ok (b, s')) :
    ∃ a t, x s = .ok (a, t) ∧ f a t = .ok (b, s') := by
  cases hx : x s with
  | error e =>
    rw [bind_of_error hx] at h
    exact absurd h (by simp)
  | ok r =>
    rw [bind_of_ok (show x s = .ok (r.1, r.2) from hx)] at h
    exact ⟨r.1, r.2, rfl, h⟩

theorem pure_apply (a : α) (s : σ) : (pure a : StateT σ (Except ε) α) s = .ok (a, s) := rfl

theorem get_apply (s : σ) : (get : StateT σ (Except ε) σ) s = .ok (s, s) := rfl

theorem modify_apply (f : σ → σ) (s : σ) :
    (modify f : StateT σ (Except ε) PUnit) s = .ok (⟨⟩, f s) := rfl

theorem Returns.intro (h : x s = .ok (a, s')) (hQ : Q a s') : Returns x s Q := ⟨a, s', h, hQ⟩

theorem Returns.mono (h : Returns x s Q) (hQR : ∀ a s', Q a s' → R a s') : Returns x s R := by
  obtain ⟨a, s', hx, hQ⟩ := h
  exact ⟨a, s', hx, hQR a s' hQ⟩

theorem Returns.bind {f : α → StateT σ (Except ε) β} {P : β → σ → Prop}
    (h : Returns x s Q) (hf : ∀ a s', Q a s' → Returns (f a) s' P) : Returns (x >>= f) s P := by
  obtain ⟨a, s', hx, hQ⟩ := h
  obtain ⟨b, s'', hb, hP⟩ := hf a s' hQ
  exact ⟨b, s'', by rw [bind_of_ok hx, hb], hP⟩

/-- A first step whose outcome is known is skipped. -/
theorem Returns.step {f : α → StateT σ (Except ε) β} {P : β → σ → Prop}
    (h : x s = .ok (a, s')) (hf : Returns (f a) s' P) : Returns (x >>= f) s P := by
  obtain ⟨b, s'', hb, hP⟩ := hf
  exact ⟨b, s'', by rw [bind_of_ok h, hb], hP⟩

/-- The first two steps of a program taken as one. -/
theorem Returns.group {γ : Type} {f : α → StateT σ (Except ε) β} {g : β → StateT σ (Except ε) γ}
    {P : γ → σ → Prop} (h : Returns (x >>= f >>= g) s P) :
    Returns (x >>= fun a => f a >>= g) s P := by
  rwa [bind_assoc] at h

theorem Returns.pure (h : Q a s) : Returns (pure a : StateT σ (Except ε) α) s Q :=
  ⟨a, s, rfl, h⟩

/-- What a returning program is known to end with. -/
theorem Returns.of_eq (h : x s = .ok (a, s')) (hr : Returns x s Q) : Q a s' := by
  obtain ⟨b, t, hx, hQ⟩ := hr
  rw [h, Except.ok.injEq, Prod.mk.injEq] at hx
  rw [hx.1, hx.2]
  exact hQ

/-! ## Loops that only look at the state -/

theorem allM_reads {γ : Type} {f : γ → StateT σ (Except ε) Bool} {l : List γ}
    (h : ∀ c ∈ l, f c s = .ok (true, s)) : l.allM f s = .ok (true, s) := by
  induction l with
  | nil => rfl
  | cons c l ih =>
    have hhead := h c (List.mem_cons_self ..)
    rw [List.allM, bind_of_ok hhead]
    exact ih fun d hd => h d (List.mem_cons_of_mem _ hd)

end SnuSysProg.Lib
