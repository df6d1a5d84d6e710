import SnuSysProg.Lib.Run
import SnuSysProg.Skvs.Represents

/-
  The hash table, one operation at a time.

  `hashtable_refines`: over any sequence of operations from `hash_init`, whatever the allocations
  give, the codes and the values found are those of a map, and the table holds that map. Only an
  allocation that fails makes an operation return -1, and it leaves the table as it was.
-/

namespace SnuSysProg.Skvs
open SnuSysProg.Lib

variable {t t₀ t' : Table} {B : Nat → List Entry} {m : Map} {op : Op} {calls : Calls} {n : Nat}
  {heap : Cells Cell} {initCalls : InitCalls}

/-- A call of one of the operations, with the code it returned and the value it found. -/
structure Event where
  op : Op
  calls : Calls
  code : Int
  text : Option Str

def step (t : Table) (e : Event) (t' : Table) : Prop :=
  ∃ r, e.op.call e.calls t = .ok (r, t') ∧ e.code = r.code ∧ e.text = r.text t'

/-- The lock calls return 0. -/
def Calls.Locks (calls : Calls) : Prop := calls.lock = 0 ∧ calls.unlock = 0

/-- The same call on a map: it does its work, or it fails for want of memory. -/
def mapStep (m : Map) (e : Event) (m' : Map) : Prop :=
  e.op.apply m = (e.code, e.text, m') ∨
    (e.code = -1 ∧ e.text = none ∧ e.calls.MayFail ∧ m' = m)

theorem call_eq_locked : op.call calls = locked calls op := by
  cases op <;> rfl

theorem apply_code_ne : (op.apply m).1 ≠ -1 := by
  cases op with
  | insert key value => by_cases hin : key ∈ m <;> simp [Op.apply, hin]
  | search key =>
    cases hfind : m.lookup key with
    | none => simp [search_absent hfind]
    | some v => simp [search_present hfind]
  | update key value => by_cases hin : key ∈ m <;> simp [Op.apply, hin]
  | delete key => by_cases hin : key ∈ m <;> simp [Op.apply, hin]

/-! ## hash_init -/

theorem hashInit_some (h : hashInit initCalls heap n = some t) :
    t = ⟨heap, fun _ => nullAddr, fun _ => 0, 0, n⟩ := by
  unfold hashInit at h
  iterate 4 (split at h; · exact absurd h (by simp))
  split at h
  · exact (Option.some.inj h).symm
  · exact absurd h (by simp)

theorem represents_init (hn : 0 < n) (hn' : n ≤ 2 ^ 31 - 1)
    (h : hashInit initCalls heap n = some t) : Represents t fun _ => [] := by
  have hlt : n < 2 ^ 31 := by omega
  rw [hashInit_some h]
  refine ⟨⟨⟨hn, hlt⟩, fun _ _ => rfl, fun _ _ => List.nodup_nil, ?_, ?_,
    fun _ _ => List.nodup_nil, fun _ _ => rfl⟩, ?_⟩
  · exact fun _ _ _ _ _ x hx => absurd hx List.not_mem_nil
  · exact fun _ _ e he => absurd he List.not_mem_nil
  · simp

/-- An empty table of one bucket. -/
def oneBucket : Table := ⟨∅, fun _ => nullAddr, fun _ => 0, 0, 1⟩

theorem hashInit_one :
    hashInit ⟨true, true, true, true, fun _ => 0⟩ ∅ 1 = some oneBucket := by
  simp [hashInit, oneBucket]

theorem index_one (key : Str) : index key 1 = 0 :=
  Nat.lt_one_iff.mp (index_lt (by decide) (by decide))

theorem holds_empty : Holds t (fun _ => []) ∅ := ⟨fun _ => rfl⟩

/-! ## Steps and runs -/

theorem call_spec (hr : Represents t B) (hm : Holds t B m) (hlocks : calls.Locks) :
    Returns (op.call calls) t (Section op calls t B m) := by
  obtain ⟨hlock, hunlock⟩ := hlocks
  rw [call_eq_locked]
  unfold locked
  refine Returns.step (get_apply t) ?_
  dsimp only
  rw [if_neg (by rw [hlock]; decide)]
  refine Returns.bind (section_spec hr hm rfl) fun r t' ht' => ?_
  rw [if_neg (by rw [hunlock]; decide)]
  exact Returns.pure ht'

/-- A step of the table is a step of its map. -/
theorem refines_step {e : Event} (hr : Represents t B) (hm : Holds t B m) (hlocks : e.calls.Locks)
    (hstep : step t e t') :
    ∃ B' m', Represents t' B' ∧ Holds t' B' m' ∧ mapStep m e m' := by
  obtain ⟨r, heq, hcode, htext⟩ := hstep
  have hsection := Returns.of_eq heq (call_spec hr hm hlocks)
  cases hsection with
  | did h =>
    refine ⟨_, _, h.represents, h.holds, Or.inl ?_⟩
    rw [hcode, htext, h.code, h.text]
  | failed hfail => exact ⟨B, m, hr, hm, Or.inr ⟨hcode, htext, hfail, rfl⟩⟩

/-- **The table refines a map.** After any operations from `hash_init` whose lock calls succeed,
    the results are those of a map that the table holds, and the next operation returns, leaving
    the table as it was if it returns -1. -/
theorem hashtable_refines {es : List Event} (hn : 0 < n) (hn' : n ≤ 2 ^ 31 - 1)
    (hinit : hashInit initCalls heap n = some t₀)
    (hrun : Run (Guarded (fun _ e => e.calls.Locks) step) t₀ es t) :
    (∃ m B, Run mapStep ∅ es m ∧ Represents t B ∧ Holds t B m) ∧
      ∀ (op : Op) (calls : Calls), calls.Locks →
        ∃ r t', op.call calls t = .ok (r, t') ∧ (r.code = -1 → t' = t) := by
  have hall : ∃ m B, Run mapStep ∅ es m ∧ Represents t B ∧ Holds t B m := by
    induction hrun with
    | nil => exact ⟨∅, _, Run.nil _, represents_init hn hn' hinit, holds_empty⟩
    | snoc _ hlast ih =>
      obtain ⟨m, B, hmap, hr, hm⟩ := ih
      obtain ⟨B', m', hr', hm', hstep⟩ := refines_step hr hm hlast.1 hlast.2
      exact ⟨m', B', hmap.snoc hstep, hr', hm'⟩
  refine ⟨hall, fun op calls hlocks => ?_⟩
  obtain ⟨m, B, -, hr, hm⟩ := hall
  have hcall : Returns (op.call calls) t (Section op calls t B m) := call_spec hr hm hlocks
  obtain ⟨r, t', heq, hsection⟩ := hcall
  refine ⟨r, t', heq, fun hcode => ?_⟩
  cases hsection with
  | did h =>
    rw [h.code] at hcode
    exact absurd hcode apply_code_ne
  | failed => rfl

/-- Library calls that all succeed. -/
def allSucceed : Calls := ⟨0, 0, bump, bump, bump⟩

/-- An insertion into a table of one bucket. -/
theorem hashtable_refines_insert : ∃ t₀ e t, step t₀ e t ∧ e.op = .insert [97] [49] ∧
    ∃ m B, Run mapStep ∅ [e] m ∧ Represents t B ∧ Holds t B m := by
  have hlocks : allSucceed.Locks := ⟨rfl, rfl⟩
  obtain ⟨r, t, hr, -⟩ := (hashtable_refines (by decide) (by decide) hashInit_one (Run.nil _)).2
    (.insert [97] [49]) allSucceed hlocks
  have hstep : step _ ⟨.insert [97] [49], allSucceed, r.code, r.text t⟩ t := ⟨r, hr, rfl, rfl⟩
  exact ⟨_, _, t, hstep, rfl, (hashtable_refines (by decide) (by decide) hashInit_one
    (Run.single ⟨hlocks, hstep⟩)).1⟩

end SnuSysProg.Skvs
