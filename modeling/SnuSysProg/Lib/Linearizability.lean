import Mathlib.Data.List.Nodup
import SnuSysProg.Lib.Run

/-
  Linearizable histories.

  A history is the list of the invocations and the returns of some workers, each of which has one
  operation under way at a time. `Linearization spec m₀ H S m`: the operations `S`, in this order,
  are steps of the sequential specification from `m₀` to `m`; they are operations of `H`, among
  them all that returned, with the results they returned; and an operation that had returned
  before another was invoked does not come after it.

  An operation that is under way may take effect at the end of the order, or further back, as far
  as no operation that it would then precede had returned before its invocation
  (`Linearization.insert`).
-/

namespace SnuSysProg.Lib

variable {W O R M : Type*} {spec : M → O → R → M → Prop} {w : W} {op : O} {r : R}
    {m m' m₀ m₁ m₂ : M}
  {start k n : Nat}

inductive Action (W O R : Type*) where
  | invoke (w : W) (op : O)
  | ret (w : W) (r : R)

def Action.worker : Action W O R → W
  | .invoke w _ => w
  | .ret w _ => w

/-- An operation that has taken effect: where in the history it was invoked, and its result. -/
structure Effect (W O R : Type*) where
  start : Nat
  worker : W
  op : O
  result : R

variable {H : List (Action W O R)} {S S₁ S₂ : List (Effect W O R)} {p q : Effect W O R}
  {x y : Action W O R}

/-- The worker of `p` had returned from it before the action at `k`. -/
def ReturnedBefore (H : List (Action W O R)) (p : Effect W O R) (k : Nat) : Prop :=
  ∃ j r, p.start < j ∧ j < k ∧ H[j]? = some (.ret p.worker r)

/-- The worker's operation that was invoked at `start` is under way. -/
structure UnderWay (H : List (Action W O R)) (start : Nat) (w : W) (op : O) : Prop where
  invoked : H[start]? = some (.invoke w op)
  quiet : ∀ k x, start < k → H[k]? = some x → x.worker ≠ w

/-- The steps of the operations of an order. -/
abbrev Serial (spec : M → O → R → M → Prop) : M → List (Effect W O R) → M → Prop :=
  Run fun m p m' => spec m p.op p.result m'

structure Linearization (spec : M → O → R → M → Prop) (m₀ : M) (H : List (Action W O R))
    (S : List (Effect W O R)) (m : M) : Prop where
  legal : Serial spec m₀ S m
  invoked : ∀ p ∈ S, H[p.start]? = some (.invoke p.worker p.op)
  once : (S.map Effect.start).Nodup
  /-- Each return is of the operation that its worker invoked last. -/
  returned : ∀ k w r, H[k]? = some (.ret w r) → ∃ p ∈ S, p.worker = w ∧ p.result = r ∧ p.start < k ∧
    ∀ j x, p.start < j → j < k → H[j]? = some x → x.worker ≠ w
  ordered : S.Pairwise fun p q => ¬ ReturnedBefore H q p.start

/-! ## Histories that grow -/

theorem getElem?_snoc : (H ++ [x])[k]? = some y ↔ H[k]? = some y ∨ (k = H.length ∧ x = y) := by
  constructor
  · intro h
    rcases Nat.lt_trichotomy k H.length with hlt | heq | hgt
    · rw [List.getElem?_append_left hlt] at h
      exact Or.inl h
    · rw [heq, List.getElem?_concat_length] at h
      exact Or.inr ⟨heq, Option.some.inj h⟩
    · rw [List.getElem?_eq_none (by rw [List.length_append]; exact hgt)] at h
      exact absurd h (by simp)
  · intro h
    rcases h with h | ⟨rfl, rfl⟩
    · rw [List.getElem?_append_left (List.getElem?_eq_some_iff.mp h).1]
      exact h
    · exact List.getElem?_concat_length

/-- What happened before an action of the history does not change. -/
theorem returnedBefore_snoc (hk : H[k]? = some y) :
    ReturnedBefore (H ++ [x]) p k ↔ ReturnedBefore H p k := by
  have hlt : k < H.length := (List.getElem?_eq_some_iff.mp hk).1
  constructor
  · intro ⟨j, r, hpj, hjk, hj⟩
    rw [List.getElem?_append_left (hjk.trans hlt)] at hj
    exact ⟨j, r, hpj, hjk, hj⟩
  · intro ⟨j, r, hpj, hjk, hj⟩
    exact ⟨j, r, hpj, hjk, getElem?_snoc.mpr (Or.inl hj)⟩

theorem UnderWay.invoke : UnderWay (H ++ [.invoke w op]) H.length w op := by
  refine ⟨List.getElem?_concat_length, fun k x hk hx => ?_⟩
  have hlt : k < (H ++ [Action.invoke w op]).length := (List.getElem?_eq_some_iff.mp hx).1
  rw [List.length_append, List.length_singleton] at hlt
  omega

theorem UnderWay.start_lt (h : UnderWay H start w op) : start < H.length :=
  (List.getElem?_eq_some_iff.mp h.invoked).1

/-- An operation stays under way while others act. -/
theorem UnderWay.snoc (h : UnderWay H start w op) (hx : x.worker ≠ w) :
    UnderWay (H ++ [x]) start w op := by
  refine ⟨getElem?_snoc.mpr (Or.inl h.invoked), fun k y hk hy => ?_⟩
  rcases getElem?_snoc.mp hy with hy | ⟨-, rfl⟩
  · exact h.quiet k y hk hy
  · exact hx

theorem UnderWay.not_returned (h : UnderWay H p.start p.worker op) : ¬ ReturnedBefore H p k := by
  intro ⟨j, r, hpj, _, hj⟩
  exact h.quiet j _ hpj hj rfl

/-- Operations of different workers are invoked at different places. -/
theorem start_ne (hp : H[p.start]? = some (.invoke p.worker p.op))
    (hunder : UnderWay H start w op) (hw : p.worker ≠ w) : p.start ≠ start := by
  intro heq
  rw [heq, hunder.invoked, Option.some.injEq, Action.invoke.injEq] at hp
  exact hw hp.1.symm

/-! ## Linearizations that grow -/

theorem Linearization.empty : Linearization spec m₀ ([] : List (Action W O R)) [] m₀ where
  legal := Run.nil _
  invoked := fun _ hp => absurd hp List.not_mem_nil
  once := List.nodup_nil
  returned := fun _ _ _ hk => absurd hk (by simp)
  ordered := List.Pairwise.nil

/-- What a longer history leaves to show is where its last action comes from. -/
theorem Linearization.snoc (h : Linearization spec m₀ H S m)
    (hret : ∀ w r, x = .ret w r → ∃ p ∈ S, p.worker = w ∧ p.result = r ∧
      UnderWay H p.start w p.op) : Linearization spec m₀ (H ++ [x]) S m := by
  refine ⟨h.legal, fun p hp => getElem?_snoc.mpr (Or.inl (h.invoked p hp)), h.once, ?_, ?_⟩
  · intro k w r hk
    rcases getElem?_snoc.mp hk with hk | ⟨rfl, rfl⟩
    · obtain ⟨p, hp, hw, hr, hlt, hquiet⟩ := h.returned k w r hk
      refine ⟨p, hp, hw, hr, hlt, fun j y hpj hjk hj => ?_⟩
      have hkH : k < H.length := (List.getElem?_eq_some_iff.mp hk).1
      rw [List.getElem?_append_left (hjk.trans hkH)] at hj
      exact hquiet j y hpj hjk hj
    · obtain ⟨p, hp, hw, hr, hunder⟩ := hret w r rfl
      refine ⟨p, hp, hw, hr, hunder.start_lt, fun j y hpj hjk hj => ?_⟩
      rw [List.getElem?_append_left hjk] at hj
      exact hunder.quiet j y hpj hj
  · refine h.ordered.imp_of_mem fun {p q} hp _ hpq => ?_
    rwa [returnedBefore_snoc (h.invoked p hp)]

theorem Linearization.invoke (h : Linearization spec m₀ H S m) :
    Linearization spec m₀ (H ++ [.invoke w op]) S m :=
  h.snoc fun _ _ hx => absurd hx (by simp)

/-- An operation that has taken effect returns its result. -/
theorem Linearization.ret (h : Linearization spec m₀ H S m) (hp : p ∈ S)
    (hunder : UnderWay H p.start p.worker p.op) :
    Linearization spec m₀ (H ++ [.ret p.worker p.result]) S m := by
  refine h.snoc fun w r hx => ?_
  obtain ⟨rfl, rfl⟩ : p.worker = w ∧ p.result = r := by simpa using hx
  exact ⟨p, hp, rfl, rfl, hunder⟩

/-- An operation under way takes effect between `S₁` and `S₂`. -/
theorem Linearization.insert (h : Linearization spec m₀ H (S₁ ++ S₂) m)
    (hunder : UnderWay H p.start p.worker p.op) (hnew : ∀ q ∈ S₁ ++ S₂, q.start ≠ p.start)
    (hbefore : Serial spec m₀ S₁ m₁)
    (hspec : spec m₁ p.op p.result m₂)
    (hafter : Serial spec m₂ S₂ m')
    (hlate : ∀ q ∈ S₂, ¬ ReturnedBefore H q p.start) :
    Linearization spec m₀ H (S₁ ++ p :: S₂) m' := by
  have hmem : ∀ q ∈ S₁ ++ p :: S₂, q ∈ S₁ ++ S₂ ∨ q = p := by
    intro q hq
    simp only [List.mem_append, List.mem_cons] at hq ⊢
    tauto
  have hsub : (S₁ ++ S₂).Sublist (S₁ ++ p :: S₂) := (List.sublist_cons_self p S₂).append_left S₁
  refine ⟨hbefore.trans (Run.cons hspec hafter), fun q hq => ?_, ?_, fun k w r hk => ?_, ?_⟩
  · rcases hmem q hq with hq | rfl
    · exact h.invoked q hq
    · exact hunder.invoked
  · have honce := h.once
    rw [List.map_append] at honce ⊢
    rw [List.map_cons]
    refine List.nodup_middle.mpr (List.nodup_cons.mpr ⟨fun hin => ?_, honce⟩)
    rw [← List.map_append] at hin
    obtain ⟨q, hq, heq⟩ := List.mem_map.mp hin
    exact hnew q hq heq
  · obtain ⟨q, hq, hrest⟩ := h.returned k w r hk
    exact ⟨q, hsub.subset hq, hrest⟩
  · obtain ⟨h₁, h₂, h₁₂⟩ := List.pairwise_append.mp h.ordered
    refine List.pairwise_append.mpr ⟨h₁, List.pairwise_cons.mpr ⟨hlate, h₂⟩, fun q hq d hd => ?_⟩
    rcases List.mem_cons.mp hd with rfl | hd
    · exact hunder.not_returned
    · exact h₁₂ q hq d hd

/-- An operation under way takes effect now. -/
theorem Linearization.append (h : Linearization spec m₀ H S m)
    (hunder : UnderWay H p.start p.worker p.op) (hnew : ∀ q ∈ S, q.start ≠ p.start)
    (hspec : spec m p.op p.result m') : Linearization spec m₀ H (S ++ [p]) m' := by
  rw [← List.append_nil S] at h hnew
  exact h.insert hunder hnew (by simpa using h.legal) hspec (Run.nil _)
    fun q hq => absurd hq List.not_mem_nil

/-! ## Taking effect at an earlier moment -/

/-- At some moment since the action at `start` the state was a `P`. -/
def HeldSince (spec : M → O → R → M → Prop) (m₀ : M) (H : List (Action W O R))
    (S : List (Effect W O R)) (m : M) (start : Nat) (P : M → Prop) : Prop :=
  ∃ S₁ S₂ m₁, S = S₁ ++ S₂ ∧ Serial spec m₀ S₁ m₁ ∧ Serial spec m₁ S₂ m ∧ P m₁ ∧
    ∀ q ∈ S₂, ¬ ReturnedBefore H q start

/-- `S'` is `S` with the operation `p`, which changes nothing, put in somewhere. -/
def PutIn (spec : M → O → R → M → Prop) (m₀ : M) (S : List (Effect W O R)) (m : M)
    (p : Effect W O R) (S' : List (Effect W O R)) : Prop :=
  ∃ S₁ S₂ m₁, S = S₁ ++ S₂ ∧ S' = S₁ ++ p :: S₂ ∧ Serial spec m₀ S₁ m₁ ∧
    spec m₁ p.op p.result m₁ ∧ Serial spec m₁ S₂ m

variable {P : M → Prop} {S' : List (Effect W O R)}

theorem PutIn.mem (h : PutIn spec m₀ S m p S') : q ∈ S' ↔ q = p ∨ q ∈ S := by
  obtain ⟨S₁, S₂, m₁, rfl, rfl, -⟩ := h
  simp only [List.mem_append, List.mem_cons]
  tauto

theorem HeldSince.now (hlegal : Serial spec m₀ S m) (hP : P m) :
    HeldSince spec m₀ H S m start P :=
  ⟨S, [], m, (List.append_nil S).symm, hlegal, Run.nil m, hP,
    fun _ hq => absurd hq List.not_mem_nil⟩

theorem HeldSince.snoc (h : HeldSince spec m₀ H S m start P) (hstart : H[start]? = some y) :
    HeldSince spec m₀ (H ++ [x]) S m start P := by
  obtain ⟨S₁, S₂, m₁, hS, h₁, h₂, hP, hlate⟩ := h
  refine ⟨S₁, S₂, m₁, hS, h₁, h₂, hP, fun q hq => ?_⟩
  rw [returnedBefore_snoc hstart]
  exact hlate q hq

theorem HeldSince.append (h : HeldSince spec m₀ H S m start P) (hspec : spec m p.op p.result m')
    (hlate : ¬ ReturnedBefore H p start) : HeldSince spec m₀ H (S ++ [p]) m' start P := by
  obtain ⟨S₁, S₂, m₁, rfl, h₁, h₂, hP, hall⟩ := h
  refine ⟨S₁, S₂ ++ [p], m₁, List.append_assoc S₁ S₂ [p], h₁, h₂.snoc hspec, hP, fun q hq => ?_⟩
  rcases List.mem_append.mp hq with hq | hq
  · exact hall q hq
  · rw [List.mem_singleton.mp hq]
    exact hlate

/-- Of two ways to cut a list, one cuts earlier. -/
theorem HeldSince.putIn (hdet : ∀ m o r m₁ m₂, spec m o r m₁ → spec m o r m₂ → m₁ = m₂)
    (h : HeldSince spec m₀ H S m start P) (hput : PutIn spec m₀ S m p S')
    (hlate : ¬ ReturnedBefore H p start) : HeldSince spec m₀ H S' m start P := by
  have hunique : ∀ {m m₁ m₂ : M} {S : List (Effect W O R)}, Serial spec m S m₁ →
      Serial spec m S m₂ → m₁ = m₂ := Run.unique fun m p m₁ m₂ => hdet m p.op p.result m₁ m₂
  obtain ⟨S₁, S₂, m₁, rfl, h₁, h₂, hP, hall⟩ := h
  obtain ⟨T₁, T₂, m₂, heq, rfl, g₁, hspec, g₂⟩ := hput
  rcases List.append_eq_append_iff.mp heq with ⟨C, rfl, rfl⟩ | ⟨C, rfl, rfl⟩
  · -- `p` goes in after the moment
    obtain ⟨m₃, g₁, gC⟩ := g₁.split
    obtain rfl := hunique h₁ g₁
    refine ⟨S₁, C ++ p :: T₂, m₁, List.append_assoc .., h₁, gC.trans (Run.cons hspec g₂), hP, ?_⟩
    intro q hq
    rcases List.mem_append.mp hq with hq | hq
    · exact hall q (List.mem_append_left _ hq)
    · rcases List.mem_cons.mp hq with rfl | hq
      · exact hlate
      · exact hall q (List.mem_append_right _ hq)
  · -- `p` goes in before it
    obtain ⟨m₃, h₁, hC⟩ := h₁.split
    obtain rfl := hunique g₁ h₁
    exact ⟨T₁ ++ p :: C, S₂, m₁, (List.append_assoc T₁ (p :: C) S₂).symm,
      g₁.trans (Run.cons hspec hC), h₂, hP, hall⟩

/-- An operation under way that changes nothing in a state that held since its invocation. -/
theorem Linearization.putIn (h : Linearization spec m₀ H S m)
    (hunder : UnderWay H p.start p.worker p.op) (hnew : ∀ q ∈ S, q.start ≠ p.start)
    (hheld : HeldSince spec m₀ H S m p.start P) (hspec : ∀ m, P m → spec m p.op p.result m) :
    ∃ S', Linearization spec m₀ H S' m ∧ PutIn spec m₀ S m p S' := by
  obtain ⟨S₁, S₂, m₁, rfl, h₁, h₂, hP, hlate⟩ := hheld
  exact ⟨S₁ ++ p :: S₂, h.insert hunder hnew h₁ (hspec m₁ hP) h₂ hlate,
    S₁, S₂, m₁, rfl, rfl, h₁, hspec m₁ hP, h₂⟩

end SnuSysProg.Lib
