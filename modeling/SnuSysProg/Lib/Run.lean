import Mathlib.Data.Finset.Card
import Mathlib.Data.Fintype.Basic
import Mathlib.Data.List.Induction

/-
  Runs of a labelled step relation, and the induction every safety result uses.

  `Run step s es t`: from `s` the labels `es`, in order, lead to `t`. A property that one step
  keeps is kept by every run (`Run.preserves`); where a step keeps it only under a condition on
  the state before the step, it is kept by the runs whose steps all meet the condition
  (`Run.preserves_of_steps`).
-/

namespace SnuSysProg.Lib

variable {σ ε : Type*} {step : σ → ε → σ → Prop}

/-- `Run step s es t`: the steps labelled `es` lead from `s` to `t`. -/
inductive Run (step : σ → ε → σ → Prop) : σ → List ε → σ → Prop
  | nil (s : σ) : Run step s [] s
  | snoc {s t u : σ} {es : List ε} {e : ε} :
      Run step s es t → step t e u → Run step s (es ++ [e]) u

/-- The step relation cut down to the steps taken from a state where `C` holds. -/
def Guarded (C : σ → ε → Prop) (step : σ → ε → σ → Prop) (s : σ) (e : ε) (t : σ) : Prop :=
  C s e ∧ step s e t

theorem Run.single {s t : σ} {e : ε} (h : step s e t) : Run step s [e] t :=
  Run.snoc (Run.nil s) h

theorem Run.trans {s t u : σ} {es fs : List ε} (h₁ : Run step s es t) (h₂ : Run step t fs u) :
    Run step s (es ++ fs) u := by
  induction h₂ with
  | nil => rwa [List.append_nil]
  | snoc _ hstep ih =>
    rw [← List.append_assoc]
    exact Run.snoc ih hstep

theorem Run.cons {s t u : σ} {e : ε} {es : List ε} (h : step s e t) (hr : Run step t es u) :
    Run step s (e :: es) u :=
  Run.trans (Run.single h) hr

theorem Run.of_nil {s t : σ} (hr : Run step s [] t) : t = s := by
  generalize hes : ([] : List ε) = es at hr
  cases hr with
  | nil => rfl
  | snoc => exact absurd hes (by simp)

theorem Run.of_snoc {s u : σ} {es : List ε} {e : ε} (hr : Run step s (es ++ [e]) u) :
    ∃ t, Run step s es t ∧ step t e u := by
  generalize hfs : es ++ [e] = fs at hr
  cases hr with
  | nil => exact absurd hfs (by simp)
  | snoc hrun hlast =>
    obtain ⟨rfl, hee⟩ := List.append_inj' hfs rfl
    obtain rfl := List.singleton_inj.mp hee
    exact ⟨_, hrun, hlast⟩

/-- A run over an appended list passes through a state between. -/
theorem Run.split {s u : σ} {es fs : List ε} (hr : Run step s (es ++ fs) u) :
    ∃ t, Run step s es t ∧ Run step t fs u := by
  induction fs using List.reverseRecOn generalizing u with
  | nil =>
    rw [List.append_nil] at hr
    exact ⟨u, hr, Run.nil u⟩
  | append_singleton fs f ih =>
    rw [← List.append_assoc] at hr
    obtain ⟨v, hr, hlast⟩ := hr.of_snoc
    obtain ⟨t, ht, hv⟩ := ih hr
    exact ⟨t, ht, hv.snoc hlast⟩

/-- A run starts with the step of its first label. -/
theorem Run.of_cons {s u : σ} {e : ε} {es : List ε} (hr : Run step s (e :: es) u) :
    ∃ t, step s e t ∧ Run step t es u := by
  rw [← List.singleton_append] at hr
  obtain ⟨t, hfirst, hrest⟩ := hr.split
  rw [← List.nil_append [e]] at hfirst
  obtain ⟨v, hnil, hstep⟩ := hfirst.of_snoc
  rw [hnil.of_nil] at hstep
  exact ⟨t, hstep, hrest⟩

/-- The runs of a deterministic step relation are determined by their labels. -/
theorem Run.unique (hdet : ∀ s e t u, step s e t → step s e u → t = u)
    {s t u : σ} {es : List ε} (ht : Run step s es t) (hu : Run step s es u) : t = u := by
  induction ht generalizing u with
  | nil => exact hu.of_nil.symm
  | snoc _ hlast ih =>
    obtain ⟨v, hv, hlast'⟩ := hu.of_snoc
    obtain rfl := ih hv
    exact hdet _ _ _ _ hlast hlast'

/-- What every step keeps, every run keeps. -/
theorem Run.preserves {P : σ → Prop} (hstep : ∀ s e t, P s → step s e t → P t)
    {s t : σ} {es : List ε} (hr : Run step s es t) (hs : P s) : P t := by
  induction hr with
  | nil => exact hs
  | snoc _ hlast ih => exact hstep _ _ _ ih hlast

/-- The steps of a run, relabelled. -/
theorem Run.map {ε' : Type*} {step' : σ → ε' → σ → Prop} {f : ε → ε'}
    (hstep : ∀ s e t, step s e t → step' s (f e) t) {s t : σ} {es : List ε}
    (hr : Run step s es t) : Run step' s (es.map f) t := by
  induction hr with
  | nil => exact Run.nil _
  | snoc _ hlast ih =>
    rw [List.map_append]
    exact ih.snoc (hstep _ _ _ hlast)

/-- A run of the guarded relation is a run. -/
theorem Run.of_guarded {C : σ → ε → Prop} {s t : σ} {es : List ε}
    (hr : Run (Guarded C step) s es t) : Run step s es t := by
  induction hr with
  | nil => exact Run.nil _
  | snoc _ hlast ih => exact Run.snoc ih hlast.2

/-- A run of steps that meet a condition is one of steps that meet a weaker condition. -/
theorem Run.weaken {C D : σ → ε → Prop} (hCD : ∀ s e, C s e → D s e) {s t : σ} {es : List ε}
    (hr : Run (Guarded C step) s es t) : Run (Guarded D step) s es t := by
  induction hr with
  | nil => exact Run.nil _
  | snoc _ hlast ih => exact Run.snoc ih ⟨hCD _ _ hlast.1, hlast.2⟩

/-- What a step keeps when its condition holds, a run of such steps keeps. -/
theorem Run.preserves_of_steps {C : σ → ε → Prop} {P : σ → Prop}
    (hstep : ∀ s e t, P s → C s e → step s e t → P t)
    {s t : σ} {es : List ε} (hr : Run (Guarded C step) s es t) (hs : P s) : P t :=
  Run.preserves (fun s e t hp hg => hstep s e t hp hg.1 hg.2) hr hs

/-! ## Runs with a record -/

/-- The steps, with a record beside the state. -/
def Recording {ρ : Type*} (record : ρ → σ → ε → σ → ρ) (step : σ → ε → σ → Prop) (x : σ × ρ) (e : ε)
    (y : σ × ρ) : Prop :=
  step x.1 e y.1 ∧ y.2 = record x.2 x.1 e y.1

/-- Every run can be recorded. -/
theorem Run.recorded {ρ : Type*} {record : ρ → σ → ε → σ → ρ} {s t : σ} {es : List ε}
    (hr : Run step s es t) (r : ρ) : ∃ r', Run (Recording record step) (s, r) es (t, r') := by
  induction hr with
  | nil => exact ⟨r, Run.nil _⟩
  | @snoc t u es e _ hlast ih =>
    obtain ⟨r', hr'⟩ := ih
    exact ⟨record r' t e u, hr'.snoc ⟨hlast, rfl⟩⟩

/-! ## Counting the threads in a phase -/

section Count

variable {T φ : Type*} [Fintype T]

/-- How many threads are in a phase that satisfies `p`. -/
def count (p : φ → Bool) (f : T → φ) : Nat :=
  (Finset.univ.filter (fun t => p (f t) = true)).card

/-- When one thread moves from `f t` to `x`, the count loses the old phase and gains the new. -/
theorem count_update [DecidableEq T] (p : φ → Bool) (f : T → φ) (t : T) (x : φ) :
    count p (Function.update f t x) + (if p (f t) then 1 else 0) =
      count p f + (if p x then 1 else 0) := by
  have split : ∀ g : T → φ, count p g =
      ((Finset.univ.erase t).filter (fun u => p (g u) = true)).card +
        (if p (g t) then 1 else 0) := by
    intro g
    unfold count
    rw [← Finset.insert_erase (Finset.mem_univ t), Finset.filter_insert]
    have hnot : t ∉ (Finset.univ.erase t).filter (fun u => p (g u) = true) := by simp
    by_cases hp : p (g t) = true
    · rw [if_pos hp, if_pos hp, Finset.card_insert_of_notMem hnot]
      simp
    · rw [if_neg hp, if_neg hp]
      simp
  have same : (Finset.univ.erase t).filter (fun u => p (Function.update f t x u) = true) =
      (Finset.univ.erase t).filter (fun u => p (f u) = true) := by
    refine Finset.filter_congr fun u hu => ?_
    rw [Function.update_of_ne (Finset.ne_of_mem_erase hu)]
  rw [split f, split (Function.update f t x), same, Function.update_self]
  omega

/-- Two phase maps that `p` cannot tell apart have the same count. -/
theorem count_congr {p : φ → Bool} {f g : T → φ} (h : ∀ t, p (f t) = p (g t)) :
    count p f = count p g := by
  unfold count
  congr 1
  exact Finset.filter_congr fun t _ => by rw [h t]

theorem count_eq_zero {p : φ → Bool} {f : T → φ} : count p f = 0 ↔ ∀ t, p (f t) = false := by
  unfold count
  rw [Finset.card_eq_zero, Finset.filter_eq_empty_iff]
  simp

theorem count_pos_of {p : φ → Bool} {f : T → φ} {t : T} (h : p (f t) = true) : 0 < count p f :=
  Finset.card_pos.mpr ⟨t, Finset.mem_filter.mpr ⟨Finset.mem_univ t, h⟩⟩

theorem exists_of_count_pos {p : φ → Bool} {f : T → φ} (h : 0 < count p f) :
    ∃ t, p (f t) = true := by
  obtain ⟨t, ht⟩ := Finset.card_pos.mp h
  exact ⟨t, (Finset.mem_filter.mp ht).2⟩

/-- At most one thread counted: any two of them are the same. -/
theorem eq_of_count_le_one {p : φ → Bool} {f : T → φ} (h : count p f ≤ 1) {t u : T}
    (ht : p (f t) = true) (hu : p (f u) = true) : t = u :=
  Finset.card_le_one.mp h t (Finset.mem_filter.mpr ⟨Finset.mem_univ t, ht⟩) u
    (Finset.mem_filter.mpr ⟨Finset.mem_univ u, hu⟩)

end Count

end SnuSysProg.Lib
