import SnuSysProg.Lib.Run

/-
  Programs that make calls, in a world that also moves by itself.

  A program returns a value, or makes a call and goes on with the answer. Between two calls the
  environment may act on the state. `Safe J Q p es s`: however the program `p` and the
  environment go on from `s` after the events `es`, `J` holds at every moment, of the events so
  far, the call that the program makes next and the state; and `Q` holds from the moment when the
  program has returned. The rules take a program apart call by call; between two calls there is an
  assertion that the environment keeps (`Stable`).
-/

namespace SnuSysProg.Lib

/-- `Ret c` is the type of the answers to the call `c`. -/
inductive Prog {C : Type} (Ret : C → Type) (α : Type) where
  | ret (a : α)
  | call (c : C) (k : Ret c → Prog Ret α)

variable {C : Type} {Ret : C → Type} {α β σ E : Type}

def Prog.bind (p : Prog Ret α) (f : α → Prog Ret β) : Prog Ret β :=
  match p with
  | .ret a => f a
  | .call c k => .call c fun r => (k r).bind f

instance : Monad (Prog Ret) where
  pure := .ret
  bind := Prog.bind

/-- One call. -/
def perform (c : C) : Prog Ret (Ret c) := .call c .ret

/-- The call that a program makes next. -/
def Prog.next : Prog Ret α → Option C
  | .ret _ => none
  | .call c _ => some c

theorem Prog.bind_assoc {γ : Type} (p : Prog Ret α) (f : α → Prog Ret β) (g : β → Prog Ret γ) :
    (p >>= f >>= g) = (p >>= fun a => f a >>= g) := by
  induction p with
  | ret a => rfl
  | call c k ih =>
    change Prog.call c (fun r => (k r >>= f) >>= g) =
      Prog.call c fun r => k r >>= fun a => f a >>= g
    congr 1
    funext r
    exact ih r

/-- The program with a program of its own for every call. -/
def Prog.expand {C' : Type} {Ret' : C' → Type} (f : (c : C) → Prog Ret' (Ret c)) :
    Prog Ret α → Prog Ret' α
  | .ret a => .ret a
  | .call c k => f c >>= fun r => (k r).expand f

/-- What happens: a call of the program is answered, or the environment acts. -/
inductive Happening {C : Type} (Ret : C → Type) (E : Type) where
  | call (c : C) (r : Ret c)
  | env (e : E)

inductive ProgStep (exec : σ → (c : C) → Ret c → σ → Prop) (env : σ → E → σ → Prop) :
    Prog Ret α × σ → Happening Ret E → Prog Ret α × σ → Prop
  | call {s s' : σ} {c : C} {r : Ret c} {k : Ret c → Prog Ret α} (h : exec s c r s') :
      ProgStep exec env (.call c k, s) (.call c r) (k r, s')
  | env {p : Prog Ret α} {s s' : σ} {e : E} (h : env s e s') :
      ProgStep exec env (p, s) (.env e) (p, s')

/-- The runs of a program. -/
abbrev ProgRun (exec : σ → (c : C) → Ret c → σ → Prop) (env : σ → E → σ → Prop) :
    Prog Ret α × σ → List (Happening Ret E) → Prog Ret α × σ → Prop :=
  Run (ProgStep exec env)

section Runs

variable {exec : σ → (c : C) → Ret c → σ → Prop} {env : σ → E → σ → Prop} {p : Prog Ret α}
  {s s' : σ} {es : List (Happening Ret E)} {x : Prog Ret α × σ}

/-- A run that begins with the answer to a call. -/
theorem ProgRun.called (c : C) (r : Ret c) {k : Ret c → Prog Ret α} (hp : p = .call c k)
    (h : exec s c r s') (hrest : ProgRun exec env (k r, s') es x) :
    ProgRun exec env (p, s) (.call c r :: es) x := by
  subst hp
  exact Run.cons (.call h) hrest

/-- A run that begins with a step of the environment. -/
theorem ProgRun.happened (e : E) (h : env s e s') (hrest : ProgRun exec env (p, s') es x) :
    ProgRun exec env (p, s) (.env e :: es) x :=
  Run.cons (.env h) hrest

end Runs

section Safe

variable {exec : σ → (c : C) → Ret c → σ → Prop} {env : σ → E → σ → Prop}
  {J J' : List (Happening Ret E) → Option C → σ → Prop} {Q : α → List (Happening Ret E) → σ → Prop}
  {R : β → List (Happening Ret E) → σ → Prop} {P : List (Happening Ret E) → σ → Prop}
  {p p' : Prog Ret α} {es : List (Happening Ret E)} {s s' : σ} {l : Happening Ret E}

variable (exec env J Q) in
/-- `J` holds all along the program's runs, and `Q` once it has returned. -/
def Safe (p : Prog Ret α) (es : List (Happening Ret E)) (s : σ) : Prop :=
  ∀ fs p' s', ProgRun exec env (p, s) fs (p', s') →
    J (es ++ fs) p'.next s' ∧ ∀ a, p' = .ret a → Q a (es ++ fs) s'

variable (env) in
/-- The environment keeps the assertion. -/
def Stable (P : List (Happening Ret E) → σ → Prop) : Prop :=
  ∀ es s e s', P es s → env s e s' → P (es ++ [.env e]) s'

theorem Safe.now (h : Safe exec env J Q p es s) :
    J es p.next s ∧ ∀ a, p = .ret a → Q a es s := by
  have hnow := h [] p s (Run.nil _)
  rwa [List.append_nil] at hnow

theorem Safe.after (h : Safe exec env J Q p es s) (hstep : ProgStep exec env (p, s) l (p', s')) :
    Safe exec env J Q p' (es ++ [l]) s' := by
  intro fs p'' s'' hrun
  rw [List.append_assoc]
  exact h (l :: fs) p'' s'' (Run.cons hstep hrun)

theorem Safe.mono {Q' : α → List (Happening Ret E) → σ → Prop} (h : Safe exec env J Q p es s)
    (hJ : ∀ es c s, J es c s → J' es c s) (hQ : ∀ a es s, Q a es s → Q' a es s) :
    Safe exec env J' Q' p es s := by
  intro fs p' s' hrun
  obtain ⟨hj, hq⟩ := h fs p' s' hrun
  exact ⟨hJ _ _ _ hj, fun a ha => hQ _ _ _ (hq a ha)⟩

/-- A program that has returned. -/
theorem Safe.ret {a : α} (hstable : Stable env P) (hJ : ∀ es s, P es s → J es none s)
    (hQ : ∀ es s, P es s → Q a es s) (hP : P es s) : Safe exec env J Q (.ret a) es s := by
  intro fs p' s' hrun
  induction fs generalizing es s with
  | nil =>
    obtain ⟨rfl, rfl⟩ := Prod.mk.inj hrun.of_nil
    rw [List.append_nil]
    refine ⟨hJ es s' hP, fun b hb => ?_⟩
    obtain rfl := Prog.ret.inj hb
    exact hQ es s' hP
  | cons l fs ih =>
    obtain ⟨⟨p₁, s₁⟩, hstep, hrest⟩ := hrun.of_cons
    cases hstep with
    | env henv =>
      have hrest' := ih (hstable _ _ _ _ hP henv) hrest
      rwa [List.append_assoc] at hrest'

/-- A program that makes a call: the environment acts before it, then it is answered. -/
theorem Safe.call {c : C} {k : Ret c → Prog Ret α} (hstable : Stable env P)
    (hJ : ∀ es s, P es s → J es (some c) s)
    (hexec : ∀ es s r s', P es s → exec s c r s' →
      Safe exec env J Q (k r) (es ++ [.call c r]) s')
    (hP : P es s) : Safe exec env J Q (.call c k) es s := by
  intro fs p' s' hrun
  induction fs generalizing es s with
  | nil =>
    obtain ⟨rfl, rfl⟩ := Prod.mk.inj hrun.of_nil
    rw [List.append_nil]
    exact ⟨hJ es s' hP, fun a ha => absurd ha (by simp)⟩
  | cons l fs ih =>
    obtain ⟨⟨p₁, s₁⟩, hstep, hrest⟩ := hrun.of_cons
    cases hstep with
    | @call _ _ _ r _ hcall =>
      have hrest' := hexec es s r s₁ hP hcall fs p' s' hrest
      rwa [List.append_assoc] at hrest'
    | env henv =>
      have hrest' := ih (hstable _ _ _ _ hP henv) hrest
      rwa [List.append_assoc] at hrest'

/-- A call followed by the rest of the program. -/
theorem Safe.perform {c : C} {f : Ret c → Prog Ret α} (hstable : Stable env P)
    (hJ : ∀ es s, P es s → J es (some c) s)
    (hexec : ∀ es s r s', P es s → exec s c r s' →
      Safe exec env J Q (f r) (es ++ [.call c r]) s')
    (hP : P es s) : Safe exec env J Q (Lib.perform c >>= f) es s :=
  Safe.call hstable hJ hexec hP

/-- One program after another. -/
theorem Safe.bind {f : α → Prog Ret β} (h : Safe exec env J Q p es s)
    (hf : ∀ a es s, Q a es s → Safe exec env J R (f a) es s) :
    Safe exec env J R (p >>= f) es s := by
  intro fs p' s' hrun
  induction fs generalizing es s p with
  | nil =>
    cases p with
    | ret a => exact hf a es s (h.now.2 a rfl) [] p' s' hrun
    | call c k =>
      obtain ⟨rfl, rfl⟩ := Prod.mk.inj hrun.of_nil
      rw [List.append_nil]
      exact ⟨h.now.1, fun b hb => absurd (show Prog.call c _ = Prog.ret b from hb) (by simp)⟩
  | cons l fs ih =>
    cases p with
    | ret a => exact hf a es s (h.now.2 a rfl) (l :: fs) p' s' hrun
    | call c k =>
      obtain ⟨⟨p₁, s₁⟩, hstep, hrest⟩ := hrun.of_cons
      cases hstep with
      | call hcall =>
        have hrest' := ih (h.after (.call hcall)) hrest
        rwa [List.append_assoc] at hrest'
      | env henv =>
        have hrest' := ih (h.after (.env henv)) hrest
        rwa [List.append_assoc] at hrest'

end Safe

end SnuSysProg.Lib
