import SnuSysProg.Lib.Program

/-
  Disciplines: what a program does, seen from the calls it makes.

  A discipline has phases. It says which calls are allowed in a phase, which answers the program
  counts on, and the phase after. `Obeys D Q p φ`: from phase `φ` the program `p` only makes calls
  that are allowed, and `Q` holds of what it returns and the last phase. This is about the program
  alone; `Obeys.run` puts it together with a world in which the environment acts between the
  calls: what every allowed call and every step of the environment keeps is kept by the runs.
-/

namespace SnuSysProg.Lib

variable {C : Type} {Ret : C → Type} {α β σ E Φ : Type}

structure Discipline {C : Type} (Ret : C → Type) (Φ : Type) where
  allowed : Φ → C → Prop
  answer : Φ → (c : C) → Ret c → Prop
  next : Φ → (c : C) → Ret c → Φ

def Obeys (D : Discipline Ret Φ) (Q : α → Φ → Prop) : Prog Ret α → Φ → Prop
  | .ret a, φ => Q a φ
  | .call c k, φ => D.allowed φ c ∧ ∀ r, D.answer φ c r → Obeys D Q (k r) (D.next φ c r)

variable {D : Discipline Ret Φ} {Q : α → Φ → Prop} {R : β → Φ → Prop} {p : Prog Ret α} {φ : Φ}

theorem Obeys.ret {a : α} (h : Q a φ) : Obeys D Q (pure a) φ := h

theorem Obeys.call {c : C} {k : Ret c → Prog Ret α} (hallowed : D.allowed φ c)
    (h : ∀ r, D.answer φ c r → Obeys D Q (k r) (D.next φ c r)) : Obeys D Q (.call c k) φ :=
  ⟨hallowed, h⟩

theorem Obeys.mono {Q' : α → Φ → Prop} (h : Obeys D Q p φ) (hQ : ∀ a φ, Q a φ → Q' a φ) :
    Obeys D Q' p φ := by
  induction p generalizing φ with
  | ret a => exact hQ a φ h
  | call c k ih => exact ⟨h.1, fun r hr => ih r (h.2 r hr)⟩

theorem Obeys.bind {f : α → Prog Ret β} (h : Obeys D Q p φ)
    (hf : ∀ a φ, Q a φ → Obeys D R (f a) φ) : Obeys D R (p >>= f) φ := by
  induction p generalizing φ with
  | ret a => exact hf a φ h
  | call c k ih => exact ⟨h.1, fun r hr => ih r (h.2 r hr)⟩

/-- A call and the rest of the program. -/
theorem Obeys.perform {c : C} {f : Ret c → Prog Ret α} (hallowed : D.allowed φ c)
    (h : ∀ r, D.answer φ c r → Obeys D Q (f r) (D.next φ c r)) :
    Obeys D Q (Lib.perform c >>= f) φ :=
  ⟨hallowed, h⟩

theorem Obeys.ite {b : Prop} [Decidable b] {p' : Prog Ret α} (ht : b → Obeys D Q p φ)
    (he : ¬ b → Obeys D Q p' φ) : Obeys D Q (if b then p else p') φ := by
  by_cases hb : b
  · rw [if_pos hb]
    exact ht hb
  · rw [if_neg hb]
    exact he hb

theorem Obeys.ite_pos {b : Prop} [Decidable b] {p' : Prog Ret α} (hb : b)
    (h : Obeys D Q p φ) : Obeys D Q (if b then p else p') φ :=
  Obeys.ite (fun _ => h) fun hnot => absurd hb hnot

theorem Obeys.ite_neg {b : Prop} [Decidable b] {p' : Prog Ret α} (hb : ¬ b)
    (h : Obeys D Q p' φ) : Obeys D Q (if b then p else p') φ :=
  Obeys.ite (fun hpos => absurd hpos hb) fun _ => h

/-- A program and its calls carried out by programs: what each of these keeps of the phases, the
    whole keeps. -/
theorem Obeys.expand {C' : Type} {Ret' : C' → Type} {Φ' : Type} {D' : Discipline Ret' Φ'}
    {L : Φ → Φ' → Prop} {f : (c : C) → Prog Ret' (Ret c)} {φ' : Φ'}
    (hf : ∀ c φ φ', L φ φ' → D.allowed φ c →
      Obeys D' (fun r φ'' => D.answer φ c r ∧ L (D.next φ c r) φ'') (f c) φ')
    (h : Obeys D Q p φ) (hφ : L φ φ') :
    Obeys D' (fun a φ'' => ∃ ψ, L ψ φ'' ∧ Q a ψ) (p.expand f) φ' := by
  induction p generalizing φ φ' with
  | ret a => exact ⟨φ, hφ, h⟩
  | call c k ih =>
    exact Obeys.bind (hf c φ φ' hφ h.1) fun r _ hr => ih r (h.2 r hr.1) hr.2

/-- A call that is always allowed and leaves the phase. -/
def Discipline.Quiet (D : Discipline Ret Φ) (c : C) : Prop :=
  ∀ φ, D.allowed φ c ∧ ∀ r, D.next φ c r = φ

theorem Obeys.quiet {c : C} {f : Ret c → Prog Ret α} (hc : D.Quiet c)
    (h : ∀ r, Obeys D Q (f r) φ) : Obeys D Q (Lib.perform c >>= f) φ := by
  refine Obeys.perform (hc φ).1 fun r _ => ?_
  rw [(hc φ).2 r]
  exact h r

theorem Discipline.Quiet.obeys {c : C} (hc : D.Quiet c) :
    Obeys D (fun _ φ' => φ' = φ) (Lib.perform c) φ :=
  Obeys.quiet (f := Prog.ret) hc fun _ => rfl

/-! ## Runs -/

/-- The phase after what has happened: the environment does not change it. -/
def Discipline.phase (D : Discipline Ret Φ) (φ : Φ) (es : List (Happening Ret E)) : Φ :=
  es.foldl (fun φ h => match h with
    | .call c r => D.next φ c r
    | .env _ => φ) φ

variable {es : List (Happening Ret E)}

theorem Discipline.phase_call {c : C} {r : Ret c} :
    D.phase φ (es ++ [.call c r]) = D.next (D.phase φ es) c r := by
  unfold Discipline.phase
  rw [List.foldl_append]
  rfl

theorem Discipline.phase_env {e : E} : D.phase φ (es ++ [.env e]) = D.phase φ es := by
  unfold Discipline.phase
  rw [List.foldl_append]
  rfl

variable {exec : σ → (c : C) → Ret c → σ → Prop} {env : σ → E → σ → Prop} {s s' : σ}
  {p' : Prog Ret α}

/-- Along the run every step of the environment meets the condition. -/
def Discipline.Meets (D : Discipline Ret Φ) (φ : Φ) (exec : σ → (c : C) → Ret c → σ → Prop)
    (env : σ → E → σ → Prop) (Good : Φ → σ → E → Prop) (x : Prog Ret α × σ)
    (es : List (Happening Ret E)) : Prop :=
  ∀ es₁ e es₂ y, es = es₁ ++ .env e :: es₂ → ProgRun exec env x es₁ y → Good (D.phase φ es₁) y.2 e

theorem Discipline.Meets.of_append {Good : Φ → σ → E → Prop} {x : Prog Ret α × σ}
    {fs : List (Happening Ret E)} (h : D.Meets φ exec env Good x (es ++ fs)) :
    D.Meets φ exec env Good x es := by
  rintro es₁ e es₂ y rfl hrun
  exact h es₁ e (es₂ ++ fs) y (by rw [List.append_assoc, List.cons_append]) hrun

theorem Discipline.Meets.of_no_env {Good : Φ → σ → E → Prop} {x : Prog Ret α × σ}
    (h : ∀ e, .env e ∉ es) : D.Meets φ exec env Good x es := by
  rintro es₁ e es₂ y rfl -
  exact absurd (List.mem_append_right _ List.mem_cons_self) (h e)

theorem Discipline.Meets.snoc {Good : Φ → σ → E → Prop} {x : Prog Ret α × σ} {e : E}
    (h : D.Meets φ exec env Good x es) (hlast : ∀ s, Good (D.phase φ es) s e) :
    D.Meets φ exec env Good x (es ++ [.env e]) := by
  intro es₁ e' es₂ y heq hrun
  rcases List.eq_nil_or_concat es₂ with rfl | ⟨es₂, l, rfl⟩
  · obtain ⟨rfl, hl⟩ := List.append_inj' heq rfl
    obtain rfl := Happening.env.inj (List.singleton_inj.mp hl)
    exact hlast y.2
  · rw [List.concat_eq_append, ← List.cons_append, ← List.append_assoc] at heq
    obtain ⟨rfl, -⟩ := List.append_inj' heq rfl
    exact h es₁ e' es₂ y rfl hrun

/-- What the allowed calls and the steps of the environment keep, holds all along the runs of a
    program that obeys the discipline. -/
theorem Obeys.run {I : List (Happening Ret E) → Φ → σ → Prop} {Good : Φ → σ → E → Prop}
    (hcall : ∀ es φ s c r s', I es φ s → D.allowed φ c → exec s c r s' →
      D.answer φ c r ∧ I (es ++ [.call c r]) (D.next φ c r) s')
    (henv : ∀ es φ s e s', I es φ s → Good φ s e → env s e s' → I (es ++ [.env e]) φ s')
    (hobeys : Obeys D Q p φ) (hstart : I [] φ s) (hrun : ProgRun exec env (p, s) es (p', s'))
    (hgood : D.Meets φ exec env Good (p, s) es) :
    I es (D.phase φ es) s' ∧ Obeys D Q p' (D.phase φ es) := by
  induction es using List.reverseRecOn generalizing p' s' with
  | nil =>
    obtain ⟨rfl, rfl⟩ := Prod.mk.inj hrun.of_nil
    exact ⟨hstart, hobeys⟩
  | append_singleton es l ih =>
    obtain ⟨⟨p₁, s₁⟩, hrun, hlast⟩ := hrun.of_snoc
    obtain ⟨hI, hobeys₁⟩ := ih hrun hgood.of_append
    cases hlast with
    | call hexec =>
      obtain ⟨hanswer, hI'⟩ := hcall es _ _ _ _ _ hI hobeys₁.1 hexec
      rw [Discipline.phase_call]
      exact ⟨hI', hobeys₁.2 _ hanswer⟩
    | env hstep =>
      rw [Discipline.phase_env]
      exact ⟨henv es _ _ _ _ hI (hgood es _ [] _ rfl hrun) hstep, hobeys₁⟩

/-- Where every step of the environment keeps the invariant. -/
theorem Obeys.run_of_forall {I : List (Happening Ret E) → Φ → σ → Prop}
    (hcall : ∀ es φ s c r s', I es φ s → D.allowed φ c → exec s c r s' →
      D.answer φ c r ∧ I (es ++ [.call c r]) (D.next φ c r) s')
    (henv : ∀ es φ s e s', I es φ s → env s e s' → I (es ++ [.env e]) φ s')
    (hobeys : Obeys D Q p φ) (hstart : I [] φ s) (hrun : ProgRun exec env (p, s) es (p', s')) :
    I es (D.phase φ es) s' ∧ Obeys D Q p' (D.phase φ es) := by
  have hgood : D.Meets φ exec env (fun _ _ _ => True) (p, s) es := fun _ _ _ _ _ _ => trivial
  exact Obeys.run hcall (fun es φ s e s' hI _ => henv es φ s e s' hI) hobeys hstart hrun hgood

/-- Where every allowed call can be answered, the program can go on until it returns. -/
theorem Obeys.completes {K : Φ → σ → Prop}
    (hcall : ∀ φ s c, K φ s → D.allowed φ c →
      ∃ r s', exec s c r s' ∧ D.answer φ c r ∧ K (D.next φ c r) s')
    (hobeys : Obeys D Q p φ) (hK : K φ s) :
    ∃ (es : List (Happening Ret E)) (a : α) (s' : σ), ProgRun exec env (p, s) es (.ret a, s') := by
  induction p generalizing φ s with
  | ret a => exact ⟨[], a, s, Run.nil _⟩
  | call c k ih =>
    obtain ⟨r, s₁, hexec, hanswer, hK₁⟩ := hcall φ s c hK hobeys.1
    obtain ⟨es, a, s', hrun⟩ := ih r (hobeys.2 r hanswer) hK₁
    exact ⟨.call c r :: es, a, s', ProgRun.called c r rfl hexec hrun⟩

end SnuSysProg.Lib
