import SnuSysProg.Lib.Linearizability
import SnuSysProg.Skvs.Heads

/-
  The hash table under concurrent operations.

  A worker loads the head of the bucket, takes the lock, works on the list, gives the lock back,
  and later puts the value it found into its reply. The lock admits one writer or several readers
  of a bucket.

  `Threads.linearizable`: in any run in which the work is done with a sound head, the operations
  have an order that explains every result, and the table holds the map that they lead to in that
  order. The order follows the work of the operations, but for the operations that missed a key
  inserted since they loaded the head: they come before the insertion.
-/

namespace SnuSysProg.Skvs
open SnuSysProg.Lib

/-- Where a worker is in an operation. -/
inductive Progress where
  | idle
  | loaded (op : Op) (calls : Calls) (head : Addr)
  | locked (op : Op) (calls : Calls) (head : Addr)
  /-- `text` is what it found, as it is in the table under the lock. -/
  | worked (op : Op) (calls : Calls) (r : Outcome) (text : Option Str)
  /-- The lock is given back, and the value that was found not yet copied. -/
  | returned (op : Op) (r : Outcome)

/-- The operation of a worker that has a lock. -/
def Progress.holding : Progress → Option Op
  | .locked op _ _ => some op
  | .worked op _ _ _ => some op
  | _ => none

/-- The operations that take the lock for reading. -/
def Op.Reads : Op → Prop
  | .search _ => True
  | _ => False

structure Threads (ι : Type) where
  table : Table
  progress : ι → Progress

namespace Threads

variable {ι : Type}

def index (s : Threads ι) (op : Op) : Nat := Skvs.index op.key s.table.hashSize

def put [DecidableEq ι] (s : Threads ι) (w : ι) (p : Progress) : Threads ι :=
  { s with progress := Function.update s.progress w p }

/-- The lock of the bucket of `op` lets it in. -/
def Admits (s : Threads ι) (op : Op) : Prop :=
  ∀ u op', (s.progress u).holding = some op' → s.index op' = s.index op → op.Reads ∧ op'.Reads

inductive Event (ι : Type) where
  | load (w : ι) (op : Op) (calls : Calls)
  | lock (w : ι)
  | work (w : ι)
  | unlock (w : ι) (code : Int) (text : Option Str)
  | reply (w : ι) (sent : Option Str)

inductive Step [DecidableEq ι] : Threads ι → Event ι → Threads ι → Prop
  | load {s : Threads ι} {w : ι} {op : Op} {calls : Calls} (hw : s.progress w = .idle) :
      Step s (.load w op calls) (s.put w (.loaded op calls (s.table.buckets (s.index op))))
  | lock {s : Threads ι} {w : ι} {op : Op} {calls : Calls} {head : Addr}
      (hw : s.progress w = .loaded op calls head) (hadmits : s.Admits op) :
      Step s (.lock w) (s.put w (.locked op calls head))
  | work {s : Threads ι} {w : ι} {op : Op} {calls : Calls} {head : Addr} {r : Outcome} {t : Table}
      (hw : s.progress w = .locked op calls head)
      (hwork : op.section calls (s.index op) head s.table = .ok (r, t)) :
      Step s (.work w) ({ s with table := t }.put w (.worked op calls r (r.text t)))
  | unlock {s : Threads ι} {w : ι} {op : Op} {calls : Calls} {r : Outcome} {text : Option Str}
      (hw : s.progress w = .worked op calls r text) :
      Step s (.unlock w r.code text) (s.put w (.returned op r))
  | reply {s : Threads ι} {w : ι} {op : Op} {r : Outcome} (hw : s.progress w = .returned op r) :
      Step s (.reply w (r.text s.table)) (s.put w .idle)

/-- No operation is under way yet. -/
def initial (t : Table) : Threads ι := ⟨t, fun _ => .idle⟩

/-! ## Histories -/

/-- The invocation or the return that an event is. -/
def Event.action : Event ι → Option (Action ι (Op × Calls) (Int × Option Str))
  | .load w op calls => some (.invoke w (op, calls))
  | .unlock w code text => some (.ret w (code, text))
  | _ => none

def history (es : List (Event ι)) : List (Action ι (Op × Calls) (Int × Option Str)) :=
  es.filterMap Event.action

end Threads

/-! ## The specification -/

/-- A call on a map, with the code it returns and the value it finds. -/
def mapSpec (m : Map) (c : Op × Calls) (res : Int × Option Str) (m' : Map) : Prop :=
  mapStep m ⟨c.1, c.2, res.1, res.2⟩ m'

abbrev History (ι : Type) := List (Action ι (Op × Calls) (Int × Option Str))

abbrev Order (ι : Type) := List (Effect ι (Op × Calls) (Int × Option Str))

theorem mapSpec_unique {m m₁ m₂ : Map} {c : Op × Calls} {res : Int × Option Str}
    (h₁ : mapSpec m c res m₁) (h₂ : mapSpec m c res m₂) : m₁ = m₂ := by
  have hne : (c.1.apply m).1 ≠ -1 := apply_code_ne
  rcases h₁ with h₁ | ⟨hcode₁, -, -, rfl⟩
  · rcases h₂ with h₂ | ⟨hcode₂, -⟩
    · rw [h₁] at h₂
      simpa using h₂
    · rw [h₁] at hne
      exact absurd hcode₂ hne
  · rcases h₂ with h₂ | ⟨-, -, -, rfl⟩
    · rw [h₂] at hne
      exact absurd hcode₁ hne
    · rfl

variable {ι : Type} {H H' : History ι} {S S' : Order ι} {m m' : Map} {start : Nat} {head : Addr}
  {l l' pre post skipped rest young old : List Entry} {e : Entry} {op : Op} {calls : Calls}
  {t : Table} {B B' : Nat → List Entry} {w : ι} {p : Effect ι (Op × Calls) (Int × Option Str)}
  {x : Action ι (Op × Calls) (Int × Option Str)} {s s' : Threads ι} {g : Progress}

/-! ## What is in front of a head -/

/-- The entries in front of the head were inserted since the head was loaded: there was a moment
    when the map did not have the key. -/
def Newer (H : History ι) (S : Order ι) (m : Map) (start : Nat) (head : Addr) (l : List Entry) :
    Prop :=
  ∃ young old, l = young ++ old ∧ (∀ e ∈ old.tail, e.node ≠ head) ∧ (head = nullAddr → old = []) ∧
    ∀ e ∈ young, HeldSince mapSpec ∅ H S m start fun m => e.key ∉ m

/-- No entry is in front of the head of the bucket. -/
theorem Newer.of_chain (hl : Chain t.heap head l) (hapart : Apart l) :
    Newer H S m start head l := by
  refine ⟨[], l, rfl, fun e he heq => ?_, fun hnull => ?_, fun e he => absurd he List.not_mem_nil⟩
  · cases l with
    | nil => exact absurd he List.not_mem_nil
    | cons d l =>
      have hnodes := hapart.nodes
      rw [List.map_cons] at hnodes
      have hd : head = d.node := hl.1
      exact (List.nodup_cons.mp hnodes).1 (List.mem_map.mpr ⟨e, he, heq.trans hd⟩)
  · cases l with
    | nil => rfl
    | cons d l =>
      obtain ⟨hd, next, hstands, -⟩ := hl
      exact absurd (hd.symm.trans hnull) hstands.node_ne

/-- The entries that a loaded head misses. -/
theorem Newer.heldSince (h : Newer H S m start head (skipped ++ rest))
    (hrest : Chain t.heap head rest)
    (he : e ∈ skipped) : HeldSince mapSpec ∅ H S m start fun m => e.key ∉ m := by
  obtain ⟨young, old, heq, htail, hnull, hyoung⟩ := h
  rcases List.append_eq_append_iff.mp heq with ⟨C, rfl, rfl⟩ | ⟨C, rfl, rfl⟩
  · exact hyoung e (List.mem_append_left _ he)
  · rcases List.mem_append.mp he with he | he
    · exact hyoung e he
    · -- an old entry in front of the head would have the head behind it
      cases C with
      | nil => exact absurd he List.not_mem_nil
      | cons c C =>
        cases rest with
        | nil => exact absurd (hnull hrest) (by simp)
        | cons d rest => exact absurd hrest.1.symm (htail d (by simp))

/-- Where the middle of a list falls when the list is cut in two. -/
theorem cut_middle (h : pre ++ e :: post = young ++ old) :
    (∃ C, young = pre ++ e :: C ∧ post = C ++ old) ∨
    (∃ C, pre = young ++ C ∧ old = C ++ e :: post) := by
  rcases List.append_eq_append_iff.mp h with ⟨C, rfl, hC⟩ | ⟨C, rfl, rfl⟩
  · cases C with
    | nil => exact Or.inr ⟨[], by simp, hC.symm⟩
    | cons c C =>
      obtain ⟨rfl, rfl⟩ := List.cons.inj hC
      exact Or.inl ⟨C, rfl, rfl⟩
  · exact Or.inr ⟨C, rfl, rfl⟩

theorem Newer.same (h : Newer H S m start head l)
    (hkeep : ∀ P, HeldSince mapSpec ∅ H S m start P → HeldSince mapSpec ∅ H' S' m' start P) :
    Newer H' S' m' start head l := by
  obtain ⟨young, old, heq, htail, hnull, hyoung⟩ := h
  exact ⟨young, old, heq, htail, hnull, fun e he => hkeep _ (hyoung e he)⟩

theorem Newer.change (h : Newer H S m start head l) (hchange : ListChange op l l')
    (hkeep : ∀ P, HeldSince mapSpec ∅ H S m start P → HeldSince mapSpec ∅ H' S' m' start P)
    (hadd : ∀ e, l' = e :: l → (∀ d ∈ l, d.key ≠ e.key) →
      HeldSince mapSpec ∅ H' S' m' start fun m => e.key ∉ m) : Newer H' S' m' start head l' := by
  obtain ⟨young, old, heq, htail, hnull, hyoung⟩ := h
  have hyoung' := fun e he => hkeep _ (hyoung e he)
  cases hchange with
  | same => exact ⟨young, old, heq, htail, hnull, hyoung'⟩
  | @added l e hop habsent =>
    refine ⟨e :: young, old, by rw [heq]; rfl, htail, hnull, fun d hd => ?_⟩
    rcases List.mem_cons.mp hd with rfl | hd
    · exact hadd d rfl habsent
    · exact hyoung' d hd
  | @replaced pre post e v value hop =>
    rcases cut_middle heq with ⟨C, rfl, rfl⟩ | ⟨C, rfl, rfl⟩
    · refine ⟨pre ++ { e with valueAt := v, value := value } :: C, old, by simp, htail, hnull, ?_⟩
      intro d hd
      rcases List.mem_append.mp hd with hd | hd
      · exact hyoung' d (by simp [hd])
      · rcases List.mem_cons.mp hd with rfl | hd
        · exact hyoung' e (by simp)
        · exact hyoung' d (by simp [hd])
    · refine ⟨young, C ++ { e with valueAt := v, value := value } :: post, by simp, ?_, ?_, hyoung'⟩
      · intro d hd
        cases C with
        | nil => exact htail d hd
        | cons c C =>
          rcases List.mem_append.mp hd with hd | hd
          · exact htail d (by simp [hd])
          · rcases List.mem_cons.mp hd with rfl | hd
            · exact htail e (by simp)
            · exact htail d (by simp [hd])
      · exact fun h0 => absurd (hnull h0) (by simp)
  | @removed pre post e hop =>
    rcases cut_middle heq with ⟨C, rfl, rfl⟩ | ⟨C, rfl, rfl⟩
    · refine ⟨pre ++ C, old, by simp, htail, hnull, fun d hd => hyoung' d ?_⟩
      rcases List.mem_append.mp hd with hd | hd <;> simp [hd]
    · refine ⟨young, C ++ post, by simp, fun d hd => ?_, ?_, hyoung'⟩
      · cases C with
        | nil => exact htail d (List.mem_of_mem_tail hd)
        | cons c C =>
          refine htail d ?_
          rcases List.mem_append.mp hd with hd | hd <;> simp [hd]
      · exact fun h0 => absurd (hnull h0) (by simp)

/-! ## The workers in an order of their operations -/

/-- The operation of a worker before it has taken effect. -/
structure Pending (H : History ι) (S : Order ι) (m : Map) (l : List Entry) (w : ι) (op : Op)
    (calls : Calls) (head : Addr) (start : Nat) : Prop where
  underWay : UnderWay H start w (op, calls)
  new : ∀ q ∈ S, q.start ≠ start
  newer : Newer H S m start head l

/-- Where the operation of a worker stands; `chain op` is the bucket of `op`. -/
inductive Stands (H : History ι) (S : Order ι) (m : Map) (chain : Op → List Entry) (w : ι) :
    Progress → Prop
  | idle : Stands H S m chain w .idle
  | loaded {op : Op} {calls : Calls} {head : Addr} {start : Nat}
      (h : Pending H S m (chain op) w op calls head start) :
      Stands H S m chain w (.loaded op calls head)
  | locked {op : Op} {calls : Calls} {head : Addr} {start : Nat}
      (h : Pending H S m (chain op) w op calls head start) :
      Stands H S m chain w (.locked op calls head)
  | worked {op : Op} {calls : Calls} {r : Outcome} {text : Option Str} {start : Nat}
      (hp : ⟨start, w, (op, calls), (r.code, text)⟩ ∈ S) (h : UnderWay H start w (op, calls)) :
      Stands H S m chain w (.worked op calls r text)
  | returned {op : Op} {r : Outcome} : Stands H S m chain w (.returned op r)

/-- An action of another worker. -/
theorem Stands.snoc {chain : Op → List Entry} (h : Stands H S m chain w g) (hx : x.worker ≠ w) :
    Stands (H ++ [x]) S m chain w g := by
  have hpending : ∀ {op calls head start}, Pending H S m (chain op) w op calls head start →
      Pending (H ++ [x]) S m (chain op) w op calls head start := fun h =>
    ⟨h.underWay.snoc hx, h.new, h.newer.same fun _ hP => hP.snoc h.underWay.invoked⟩
  cases h with
  | idle => exact .idle
  | loaded h => exact .loaded (hpending h)
  | locked h => exact .locked (hpending h)
  | worked hp h => exact .worked hp (h.snoc hx)
  | returned => exact .returned

/-- Another worker's operation takes effect. -/
theorem Stands.effect {chain chain' : Op → List Entry} (h : Stands H S m chain w g)
    (hmem : ∀ q, q ∈ S' ↔ q = p ∨ q ∈ S) (hinvoked : H[p.start]? = some (.invoke p.worker p.op))
    (hw : p.worker ≠ w)
    (hchange : ∀ op start head, Newer H S m start head (chain op) →
      Newer H S' m' start head (chain' op)) : Stands H S' m' chain' w g := by
  have hpending : ∀ {op calls head start}, Pending H S m (chain op) w op calls head start →
      Pending H S' m' (chain' op) w op calls head start := by
    intro op calls head start h
    refine ⟨h.underWay, fun q hq => ?_, hchange op start head h.newer⟩
    rcases (hmem q).mp hq with rfl | hq
    · exact start_ne hinvoked h.underWay hw
    · exact h.new q hq
  cases h with
  | idle => exact .idle
  | loaded h => exact .loaded (hpending h)
  | locked h => exact .locked (hpending h)
  | worked hp h => exact .worked ((hmem _).mpr (Or.inr hp)) h
  | returned => exact .returned

namespace Threads

/-- The operations in the order `S` explain the history and lead to the map that the table
    holds. -/
structure Tracks (s : Threads ι) (H : History ι) (S : Order ι) (m : Map)
    (B : Nat → List Entry) : Prop where
  linearization : Linearization mapSpec ∅ H S m
  represents : Represents s.table B
  holds : Holds s.table B m
  stands : ∀ w, Stands H S m (fun op => B (s.index op)) w (s.progress w)

/-- The work is done with a sound head. -/
def Sound (s : Threads ι) : Event ι → Prop
  | .work w => ∀ op calls head, s.progress w = .locked op calls head →
    HeadSound s.table op (s.index op) head
  | _ => True

/-- The event is the deletion of a key, or an update that gets memory for the value, which finds
    the key on its list. -/
def Discards (s : Threads ι) (e : Event ι) (key : Str) : Prop :=
  ∃ w op calls head l, e = .work w ∧ s.progress w = .locked op calls head ∧
    Chain s.table.heap head l ∧ op.Discards calls s.table.heap l key

end Threads

/-! ## A step -/

/-- The work of an operation as a step of the map. -/
theorem section_effect {r : Outcome} {t' : Table} {i : Nat} (hr : Represents t B)
    (hm : Holds t B m) (hsection : Section op calls t B m r t') (hmoves : Moves op t B i r t') :
    ∃ B' m', Represents t' B' ∧ Holds t' B' m' ∧ mapSpec m (op, calls) (r.code, r.text t') m' ∧
      ∀ j < t.hashSize, ListChange op (B j) (B' j) := by
  cases hsection with
  | @did r t' B' h =>
    refine ⟨B', _, h.represents, h.holds, Or.inl ?_, fun j hj => ?_⟩
    · change op.apply m = (r.code, r.text t', _)
      rw [h.code, h.text]
    · obtain ⟨l, hl, hchange⟩ := hmoves.change j hj
      have hj' : j < t'.hashSize := by
        rw [hmoves.size]
        exact hj
      rwa [(h.represents.chain j hj').unique hl]
  | failed hfail => exact ⟨B, m, hr, hm, Or.inr ⟨rfl, rfl, hfail, rfl⟩, fun _ _ => .same⟩

/-- What is in front of a head after an operation that takes effect last. -/
theorem Newer.append {t' : Table} {j : Nat} (h : Newer H S m start head (B j))
    (hlegal : Serial mapSpec ∅ S m) (hm : Holds t B m) (hr' : Represents t' B')
    (hsize : t'.hashSize = t.hashSize) (hj : j < t.hashSize)
    (hchange : ListChange op (B j) (B' j)) (hspec : mapSpec m p.op p.result m')
    (hlate : ¬ ReturnedBefore H p start) : Newer H (S ++ [p]) m' start head (B' j) := by
  refine h.change hchange (fun P hP => hP.append hspec hlate) fun e heq habsent => ?_
  have hin : e ∈ B' j := by
    rw [heq]
    exact List.mem_cons_self ..
  have hindex : index e.key t.hashSize = j := by
    rw [← hsize] at hj ⊢
    exact hr'.index_of_mem hj hin
  have hout : e.key ∉ m := by
    intro hmem
    rw [hm.mem_iff, hindex] at hmem
    exact hmem (findKey_none.mpr habsent)
  exact (HeldSince.now hlegal hout).append hspec hlate

namespace Threads

theorem history_snoc {es : List (Event ι)} {e : Event ι} :
    history (es ++ [e]) = history es ++ e.action.toList := by
  unfold history
  rw [List.filterMap_append]
  cases hact : e.action <;> simp [hact]

theorem tracks_initial {t₀ : Table} (hr : Represents t₀ fun _ => []) :
    Tracks (initial t₀ : Threads ι) [] [] ∅ fun _ => [] :=
  ⟨Linearization.empty, hr, holds_empty, fun _ => .idle⟩

theorem sound_of_ne_work {e : Event ι} (he : ∀ u, e ≠ .work u) : Sound s e := by
  cases e with
  | work w => exact absurd rfl (he w)
  | _ => trivial

theorem append_silent {e : Event ι} (he : e.action = none) : H ++ e.action.toList = H := by
  rw [he]
  exact List.append_nil H

variable [DecidableEq ι]

@[simp] theorem put_self : (s.put w g).progress w = g := Function.update_self ..

theorem put_of_ne {u : ι} (hu : u ≠ w) : (s.put w g).progress u = s.progress u :=
  Function.update_of_ne hu ..

theorem Tracks.load (h : Tracks s H S m B) :
    Tracks (s.put w (.loaded op calls (s.table.buckets (s.index op))))
      (H ++ [.invoke w (op, calls)]) S m B := by
  refine ⟨h.linearization.invoke, h.represents, h.holds, fun u => ?_⟩
  by_cases hu : u = w
  · subst hu
    rw [put_self]
    have hlt : s.index op < s.table.hashSize := h.represents.index_lt
    refine .loaded ⟨UnderWay.invoke, fun q hq => ?_,
      Newer.of_chain (h.represents.chain _ hlt) (h.represents.apart _ hlt)⟩
    exact Nat.ne_of_lt (List.getElem?_eq_some_iff.mp (h.linearization.invoked q hq)).1
  · rw [put_of_ne hu]
    exact (h.stands u).snoc fun hw : w = u => hu hw.symm

theorem Tracks.lock {head : Addr} (h : Tracks s H S m B)
    (hw : s.progress w = .loaded op calls head) :
    Tracks (s.put w (.locked op calls head)) H S m B := by
  refine ⟨h.linearization, h.represents, h.holds, fun u => ?_⟩
  by_cases hu : u = w
  · subst hu
    rw [put_self]
    have hstands := h.stands u
    rw [hw] at hstands
    cases hstands with
    | loaded hpending => exact .locked hpending
  · rw [put_of_ne hu]
    exact h.stands u

theorem Tracks.work {r : Outcome} (h : Tracks s H S m B) (hw : s.progress w = .locked op calls head)
    (hsound : HeadSound s.table op (s.index op) head)
    (hwork : op.section calls (s.index op) head s.table = .ok (r, t)) :
    ∃ S' m' B', Tracks ({ s with table := t }.put w (.worked op calls r (r.text t))) H S' m' B' ∧
      t.hashSize = s.table.hashSize ∧ ∀ j < s.table.hashSize, ListChange op (B j) (B' j) := by
  have hstands := h.stands w
  rw [hw] at hstands
  cases hstands with
  | @locked _ _ _ start hpending =>
    let p : Effect ι (Op × Calls) (Int × Option Str) := ⟨start, w, (op, calls), (r.code, r.text t)⟩
    have hunder : UnderWay H p.start p.worker p.op := hpending.underWay
    have hmoved := Returns.of_eq hwork (section_sound h.represents h.holds rfl hsound)
    cases hmoved with
    | now hsection hmoves =>
      obtain ⟨B', m', hr', hm', hspec, hchange⟩ :=
        section_effect h.represents h.holds hsection hmoves
      have hspec' : mapSpec m p.op p.result m' := hspec
      refine ⟨S ++ [p], m', B', ⟨h.linearization.append hunder hpending.new hspec', hr', hm',
        fun u => ?_⟩, hmoves.size, hchange⟩
      by_cases hu : u = w
      · subst hu
        rw [put_self]
        exact .worked (List.mem_append_right _ (List.mem_singleton_self p)) hunder
      · rw [put_of_ne hu]
        refine (h.stands u).effect (p := p) (fun q => ?_) hunder.invoked (Ne.symm hu)
          fun op' start' head' hnewer => ?_
        · simp only [List.mem_append, List.mem_singleton, or_comm]
        · have hlt : s.index op' < s.table.hashSize := h.represents.index_lt
          have hindex : ({ s with table := t } : Threads ι).index op' = s.index op' := by
            unfold index
            rw [show t.hashSize = s.table.hashSize from hmoves.size]
          change Newer H (S ++ [p]) m' start' head'
            (B' (({ s with table := t } : Threads ι).index op'))
          rw [hindex]
          exact hnewer.append h.linearization.legal h.holds hr' hmoves.size hlt (hchange _ hlt)
            hspec' hunder.not_returned
    | @late skipped rest e hl hhead he hkey hop =>
      have hnewer := hpending.newer
      rw [show B (s.index op) = skipped ++ rest from hl] at hnewer
      have hspec : ∀ m, e.key ∉ m → mapSpec m p.op p.result m := by
        intro m hout
        rw [hkey] at hout
        refine Or.inl ?_
        cases op with
        | insert key value => exact absurd rfl (hop key value)
        | search key => exact search_absent (Finmap.lookup_eq_none.mpr hout)
        | update key value => exact if_neg hout
        | delete key => exact if_neg hout
      obtain ⟨S', hlin, hput⟩ := h.linearization.putIn hunder hpending.new
        (hnewer.heldSince hhead he) hspec
      refine ⟨S', m, B, ⟨hlin, h.represents, h.holds, fun u => ?_⟩, rfl, fun _ _ => .same⟩
      by_cases hu : u = w
      · subst hu
        rw [put_self]
        exact .worked (hput.mem.mpr (Or.inl rfl)) hunder
      · rw [put_of_ne hu]
        refine (h.stands u).effect (fun q => hput.mem) hunder.invoked (Ne.symm hu)
          fun op' start' head' hnewer => ?_
        exact hnewer.same fun P hP =>
          hP.putIn (fun _ _ _ _ _ => mapSpec_unique) hput hunder.not_returned

theorem Tracks.unlock {r : Outcome} {text : Option Str} (h : Tracks s H S m B)
    (hw : s.progress w = .worked op calls r text) :
    Tracks (s.put w (.returned op r)) (H ++ [.ret w (r.code, text)]) S m B := by
  have hstands := h.stands w
  rw [hw] at hstands
  cases hstands with
  | @worked _ _ _ _ start hp hunder =>
    refine ⟨h.linearization.ret hp hunder, h.represents, h.holds, fun u => ?_⟩
    by_cases hu : u = w
    · subst hu
      rw [put_self]
      exact .returned
    · rw [put_of_ne hu]
      exact (h.stands u).snoc fun hw : w = u => hu hw.symm

theorem Tracks.reply (h : Tracks s H S m B) : Tracks (s.put w .idle) H S m B := by
  refine ⟨h.linearization, h.represents, h.holds, fun u => ?_⟩
  by_cases hu : u = w
  · subst hu
    rw [put_self]
    exact .idle
  · rw [put_of_ne hu]
    exact h.stands u

/-- One step of the workers, with an order of the operations that explains the longer history. -/
theorem Tracks.step {e : Event ι} (h : Tracks s H S m B) (hsound : Sound s e)
    (hstep : Step s e s') :
    ∃ S' m' B', Tracks s' (H ++ e.action.toList) S' m' B' ∧
      s'.table.hashSize = s.table.hashSize ∧
      ∀ j < s.table.hashSize, ∀ d ∈ B j, ¬ Discards s e d.key → d ∈ B' j := by
  have hsame : ∀ j < s.table.hashSize, ∀ d ∈ B j, ¬ Discards s e d.key → d ∈ B j :=
    fun _ _ _ hd _ => hd
  cases hstep with
  | load => exact ⟨S, m, B, h.load, rfl, hsame⟩
  | lock hw =>
    rw [append_silent rfl]
    exact ⟨S, m, B, h.lock hw, rfl, hsame⟩
  | @work w op calls head r t hw hwork =>
    rw [append_silent rfl]
    obtain ⟨S', m', B', htracks, hsize, hchange⟩ := h.work hw (hsound op calls head hw) hwork
    refine ⟨S', m', B', htracks, hsize, fun j hj d hd hkeep => ?_⟩
    by_cases hop : op.Replaces d.key
    · -- it did not find the key, or got no memory
      obtain ⟨l, hl, hapart⟩ := (hsound op calls head hw).chain h.represents
      have ht : t = s.table := section_unchanged hl hapart hop
        (fun hgives => hkeep ⟨w, op, calls, head, l, rfl, hw, hl, hgives⟩) hwork
      subst ht
      rwa [(htracks.represents.chain j hj).unique (h.represents.chain j hj)]
    · exact (hchange j hj).kept hd hop
  | unlock hw => exact ⟨S, m, B, h.unlock hw, rfl, hsame⟩
  | reply =>
    rw [append_silent rfl]
    exact ⟨S, m, B, h.reply, rfl, hsame⟩

theorem tracks_run {t₀ : Table} {es : List (Event ι)} (hr : Represents t₀ fun _ => [])
    (hrun : Run (Guarded Sound Step) (initial t₀) es s) : ∃ S m B, Tracks s (history es) S m B := by
  induction hrun with
  | nil => exact ⟨[], ∅, _, tracks_initial hr⟩
  | snoc _ hlast ih =>
    obtain ⟨S, m, B, h⟩ := ih
    obtain ⟨S', m', B', h', -⟩ := h.step hlast.1 hlast.2
    rw [← history_snoc] at h'
    exact ⟨S', m', B', h'⟩

/-- **The concurrent hash table is linearizable** in the runs in which the work is done with a
    sound head. Such work does not go wrong. -/
theorem linearizable {t₀ : Table} {n : Nat} {initCalls : InitCalls} {heap : Cells Cell}
    {es : List (Event ι)} (hn : 0 < n) (hn' : n ≤ 2 ^ 31 - 1)
    (hinit : hashInit initCalls heap n = some t₀)
    (hrun : Run (Guarded Sound Step) (initial t₀) es s) :
    (∃ S m B, Linearization mapSpec ∅ (history es) S m ∧ Buckets s.table B ∧
        Holds s.table B m) ∧
      ∀ w op calls head, s.progress w = .locked op calls head →
        HeadSound s.table op (s.index op) head →
          ∃ r t, op.section calls (s.index op) head s.table = .ok (r, t) := by
  obtain ⟨S, m, B, h⟩ := tracks_run (represents_init hn hn' hinit) hrun
  refine ⟨⟨S, m, B, h.linearization, h.represents.toBuckets, h.holds⟩,
    fun w op calls head _ hsound => ?_⟩
  have hwork : Returns (op.section calls (s.index op) head) s.table _ :=
    section_sound h.represents h.holds rfl hsound
  obtain ⟨r, t, heq, -⟩ := hwork
  exact ⟨r, t, heq⟩

end Threads

/-! ## Two workers on one bucket -/

theorem allSucceed_not_fail : ¬ allSucceed.MayFail := by
  intro ⟨g, hfail⟩
  rcases hfail with h | h | h <;> exact absurd h (by simp [allSucceed, bump])

/-- An insertion with a head that was loaded from an empty bucket. -/
theorem insertSection_null (t : Table) (i : Nat) (key value : Str) :
    ∃ h e, insertSection allSucceed i nullAddr key value t =
      .ok ({ code := 1 }, t.changed h i e.node 1) ∧ e.key = key ∧ e.value = value ∧
        ListMove t.heap h [] [e] e.node := by
  have hnil : Chain t.heap nullAddr [] := rfl
  have hinsert : Returns (listInsert allSucceed nullAddr key value) t.heap _ :=
    listInsert_spec hnil List.nodup_nil
  obtain ⟨r, h, heq, hins⟩ := hinsert
  have hon : onHeap (listInsert allSucceed nullAddr key value) t =
      .ok (r, { t with heap := h }) := by
    unfold onHeap
    rw [heq]
  cases hins with
  | present hkey => exact absurd hkey (by simp [findKey])
  | failed _ hfail => exact absurd hfail allSucceed_not_fail
  | @added e h _ hk hv hmove =>
    refine ⟨h, e, ?_, hk, hv, hmove⟩
    unfold insertSection
    rw [bind_of_ok hon]
    exact bind_of_ok (relink_changed 1)

namespace Threads

variable [DecidableEq ι]

/-- With no worker at a lock, an operation that is loaded can run to its end. -/
theorem run_loaded {C : Threads ι → Event ι → Prop} {r : Outcome}
    (hw : s.progress w = .loaded op calls head) (hfree : ∀ u, (s.progress u).holding = none)
    (hwork : op.section calls (s.index op) head s.table = .ok (r, t))
    (hC : ∀ s e, (∀ u, e ≠ .work u) → C s e)
    (hCwork : C (s.put w (.locked op calls head)) (.work w)) :
    Run (Guarded C Step) s [.lock w, .work w, .unlock w r.code (r.text t)]
      ({ s with table := t }.put w (.returned op r)) := by
  have hlock : Step s (.lock w) (s.put w (.locked op calls head)) :=
    .lock hw fun u op' hu => absurd ((hfree u).symm.trans hu) (by simp)
  have hworked := Step.work (s := s.put w (.locked op calls head)) put_self hwork
  have hunlock := Step.unlock
    (s := { s.put w (.locked op calls head) with table := t }.put w (.worked op calls r (r.text t)))
    put_self
  have hrun : Run (Guarded C Step) s _ _ := Run.cons ⟨hC _ _ (by simp), hlock⟩
    (Run.cons ⟨hCwork, hworked⟩ (Run.single ⟨hC _ _ (by simp), hunlock⟩))
  simpa only [put, Function.update_idem] using hrun

theorem sound_put (hhead : head = s.table.buckets (s.index op)) :
    Sound (s.put w (.locked op calls head)) (.work w) := by
  intro op' calls' head' hw
  rw [put_self, Progress.locked.injEq] at hw
  obtain ⟨rfl, rfl, rfl⟩ := hw
  exact Or.inl hhead

/-- With no worker at a lock, an operation can run from its start to its end. -/
theorem run_op {C : Threads ι → Event ι → Prop} {r : Outcome} (hw : s.progress w = .idle)
    (hfree : ∀ u, (s.progress u).holding = none)
    (hwork : op.section calls (s.index op) (s.table.buckets (s.index op)) s.table = .ok (r, t))
    (hC : ∀ s e, (∀ u, e ≠ .work u) → C s e)
    (hCwork : C (s.put w (.locked op calls (s.table.buckets (s.index op)))) (.work w)) :
    Run (Guarded C Step) s [.load w op calls, .lock w, .work w, .unlock w r.code (r.text t)]
      ({ s with table := t }.put w (.returned op r)) := by
  have hload : Guarded C Step s (.load w op calls) _ := ⟨hC _ _ (by simp), .load hw⟩
  have hfree' : ∀ u, ((s.put w
      (.loaded op calls (s.table.buckets (s.index op)))).progress u).holding
      = none := by
    intro u
    by_cases hu : u = w
    · rw [hu, put_self]
      rfl
    · rw [put_of_ne hu]
      exact hfree u
  have hrun := run_loaded put_self hfree' hwork hC
      (by simpa only [put, Function.update_idem] using hCwork)
  simpa only [put, Function.update_idem] using Run.cons hload hrun

omit [DecidableEq ι] in
theorem index_of_size (op : Op) (hsize : s.table.hashSize = 1) : s.index op = 0 := by
  unfold index
  rw [hsize, index_one]

/-- Both workers have loaded the head of an empty bucket. -/
def bothLoaded (op₁ op₂ : Op) : Threads Bool :=
  ((initial oneBucket).put false (.loaded op₁ allSucceed nullAddr)).put true
    (.loaded op₂ allSucceed nullAddr)

/-- The first one has come back from its operation, which has left the table `t`. -/
def firstDone (op₁ op₂ : Op) (t : Table) : Threads Bool :=
  ({ bothLoaded op₁ op₂ with table := t }.put false (.returned op₁ { code := 1 })).put false .idle

/-- And so has the second one. -/
def bothDone (op₁ op₂ : Op) (t t' : Table) (r : Outcome) : Threads Bool :=
  { firstDone op₁ op₂ t with table := t' }.put true (.returned op₂ r)

theorem firstDone_run (op₁ op₂ : Op)
    (hwork : op₁.section allSucceed 0 nullAddr oneBucket = .ok ({ code := 1 }, t)) :
    ∃ es, Run (Guarded Sound Step) (initial oneBucket) es (firstDone op₁ op₂ t) := by
  have hload₁ : Guarded Sound Step (initial oneBucket) (.load false op₁ allSucceed) _ :=
    ⟨trivial, .load rfl⟩
  have hload₂ : Guarded Sound Step _ (.load true op₂ allSucceed) (bothLoaded op₁ op₂) :=
    ⟨trivial, .load rfl⟩
  have hindex : (bothLoaded op₁ op₂).index op₁ = 0 := index_of_size op₁ rfl
  have hrun := run_loaded (C := Sound) (s := bothLoaded op₁ op₂) (w := false) rfl
    (fun u => by cases u <;> rfl) (by rw [hindex]; exact hwork) (fun _ _ => sound_of_ne_work)
    (sound_put rfl)
  have hreply : Guarded Sound Step _ (.reply false _) (firstDone op₁ op₂ t) :=
    ⟨trivial, .reply put_self⟩
  exact ⟨_, Run.cons hload₁ (Run.cons hload₂ (hrun.snoc hreply))⟩

theorem bothDone_run {C : Threads Bool → Event Bool → Prop} (op₁ op₂ : Op) {t' : Table}
    {r : Outcome} (hsize : t.hashSize = 1)
    (hwork : op₂.section allSucceed 0 nullAddr t = .ok (r, t'))
    (hC : ∀ s e, (∀ u, e ≠ .work u) → C s e)
    (hCwork : C ((firstDone op₁ op₂ t).put true (.locked op₂ allSucceed nullAddr)) (.work true)) :
    ∃ es, Run (Guarded C Step) (firstDone op₁ op₂ t) es (bothDone op₁ op₂ t t' r) := by
  have hwork' : op₂.section allSucceed ((firstDone op₁ op₂ t).index op₂) nullAddr t =
      .ok (r, t') := by
    rw [index_of_size op₂ hsize]
    exact hwork
  exact ⟨_, run_loaded rfl (fun u => by cases u <;> rfl) hwork' hC hCwork⟩

theorem bothDone_reply {op₁ op₂ : Op} {t' : Table} {r : Outcome} :
    Step (bothDone op₁ op₂ t t' r) (.reply true (r.text t'))
      ((bothDone op₁ op₂ t t' r).put true .idle) :=
  .reply put_self

/-- A worker looks for a key with a head that it loaded before another one put the key in. -/
theorem linearizable_stale_search : ∃ (es : List (Event Bool)) (s : Threads Bool) (e : Entry),
    Run (Guarded Sound Step) (initial oneBucket) es s ∧
      Chain s.table.heap (s.table.buckets 0) [e] ∧ e.key = [97] ∧
      s.progress true = .returned (.search [97]) { code := 0 } ∧
      ∃ S m B, Linearization mapSpec ∅ (history es) S m ∧ Buckets s.table B ∧
        Holds s.table B m := by
  obtain ⟨h, e, hinsert, hkey, -, hmove⟩ := insertSection_null oneBucket 0 [97] [49]
  obtain ⟨es₁, hfirst⟩ := firstDone_run (.insert [97] [49]) (.search [97]) hinsert
  have hsearch : (Op.search [97]).section allSucceed 0 nullAddr (oneBucket.changed h 0 e.node 1) =
      .ok ({ code := 0 }, _) := searchSection_null _ [97]
  obtain ⟨es₂, hsecond⟩ := bothDone_run (C := Sound) (.insert [97] [49]) (.search [97]) rfl hsearch
    (fun _ _ => sound_of_ne_work) (fun op calls head hw => by
      obtain ⟨rfl, rfl, rfl⟩ := Progress.locked.inj (put_self.symm.trans hw)
      change HeadSound _ _ ((firstDone (.insert [97] [49]) (.search [97]) _).index _) _
      rw [index_of_size _ rfl]
      exact Or.inr ⟨[e], [], hmove.chain, rfl, trivial⟩)
  have hrun := hfirst.trans hsecond
  exact ⟨_, _, e, hrun, hmove.chain, hkey, put_self,
    (linearizable (by decide) (by decide) hashInit_one hrun).1⟩

/-- Two workers load the head of an empty bucket and insert one after the other: both insertions
    succeed, and the table has lost one of the pairs. -/
theorem not_linearizable : ∃ (t₀ : Table) (es : List (Event Bool)) (s : Threads Bool),
    hashInit ⟨true, true, true, true, fun _ => 0⟩ ∅ 1 = some t₀ ∧ Run Step (initial t₀) es s ∧
      (∀ w, s.progress w = .idle) ∧
      ¬ ∃ S m B, Linearization mapSpec ∅ (history es) S m ∧ Buckets s.table B ∧
        Holds s.table B m := by
  obtain ⟨h₁, e₁, hfirst, -⟩ := insertSection_null oneBucket 0 [97] [49]
  obtain ⟨h₂, e₂, hsecond, -, -, hmove⟩ :=
    insertSection_null (oneBucket.changed h₁ 0 e₁.node 1) 0 [98] [49]
  obtain ⟨es₁, hrun₁⟩ := firstDone_run (.insert [97] [49]) (.insert [98] [49]) hfirst
  obtain ⟨es₂, hrun₂⟩ := bothDone_run (C := fun _ _ => True) (.insert [97] [49])
    (.insert [98] [49]) rfl hsecond (fun _ _ _ => trivial) trivial
  refine ⟨oneBucket, _, _, hashInit_one,
    hrun₁.of_guarded.trans (hrun₂.of_guarded.snoc bothDone_reply), ?_, ?_⟩
  · intro w
    cases w <;> rfl
  · rintro ⟨-, -, B, -, hr, -⟩
    have hB : B 0 = [e₂] := (hr.chain 0 Nat.zero_lt_one).unique hmove.chain
    have hsizes : (2 : Int) = (B 0).length := hr.sizes 0 Nat.zero_lt_one
    rw [hB] at hsizes
    simp at hsizes

end Threads

end SnuSysProg.Skvs
