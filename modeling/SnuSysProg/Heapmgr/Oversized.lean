import SnuSysProg.Heapmgr.Allocating

/-
  Requests of 2^31 units and more.

  The units of a chunk are an `int`, those of a request a `size_t`. When the kernel refuses the
  memory for such a request, the heap stays as it is; when it does not, the call never returns
  (`mallocFromSystem_oversized`): the truncated units are too small for `assert`, or negative, and
  then the chunk behind the footer they lead to is no chunk.
-/

namespace SnuSysProg.Heapmgr
open SnuSysProg.Lib

variable {β : Type} {findBin : Int → β} {lo : Int} {s t : Heap β} {T pre post : List Blk}
  {L : β → List Int} {b c : Blk} {m : Mem}

/-! ## What a returning function was called with -/

theorem assert_inv {p : Prop} [Decidable p] {u : Unit}
    (h : (assert p : HeapM β Unit) s = .ok (u, t)) : p ∧ t = s := by
  by_cases hp : p
  · rw [assert_ok hp] at h
    exact ⟨hp, (Prod.mk.inj (Except.ok.inj h)).2.symm⟩
  · rw [assert_fails hp] at h
    exact absurd h (by simp)

theorem deref_fails : (deref 0 : HeapM β Unit) s = .error .nullDereference := rfl

theorem chunkSetUnits_inv {a v : Int} {u : Unit} (h : chunkSetUnits a v s = .ok (u, t)) :
    a ≠ 0 ∧ t = { s with mem := setUnits s.mem a v } := by
  by_cases ha : a = 0
  · subst ha
    unfold chunkSetUnits at h
    rw [bind_of_error deref_fails] at h
    exact absurd h (by simp)
  · rw [chunkSetUnits_ok ha] at h
    exact ⟨ha, (Prod.mk.inj (Except.ok.inj h)).2.symm⟩

theorem footerFromHeader_inv {a f : Int} (ha : a ≠ 0)
    (h : footerFromHeader a s = .ok (f, t)) (hf : f ≠ 0) :
    s.gHeapStart ≤ a ∧ a ≤ s.gHeapEnd ∧ f = a + ((cellAt s.mem a).units + 1) * 16 ∧
      f < s.gHeapEnd ∧ t = s := by
  unfold footerFromHeader at h
  rw [bind_of_ok (get_apply s)] at h
  have hrange : a ≤ s.gHeapEnd ∧ s.gHeapStart ≤ a := by
    unfold chunkGetFooterFromHeader at h
    obtain ⟨_, s1, h1, h⟩ := ok_of_bind h
    obtain ⟨hstop, rfl⟩ := assert_inv h1
    obtain ⟨_, s2, h2, -⟩ := ok_of_bind h
    exact ⟨hstop, (assert_inv h2).1⟩
  rw [chunkGetFooterFromHeader_ok ha hrange.2 hrange.1] at h
  obtain ⟨hval, rfl⟩ := Prod.mk.inj (Except.ok.inj h)
  split at hval
  · exact absurd hval.symm hf
  · next hlt => exact ⟨hrange.2, hrange.1, hval.symm, by omega, rfl⟩

/-! ## Cells at a distance of whole units -/

theorem units_eq (m : Mem) (a : Int) : (cellAt m a).units = toInt (load m (a + 8) 4 : Nat) := rfl

theorem units_setLink (m : Mem) {a b : Int} (v : Int) (h : (a - b) % 16 = 0) :
    (cellAt (setLink m a v) b).units = (cellAt m b).units := by
  rw [units_eq, units_eq, setLink, load_store_apart (by omega)]

theorem units_setStatus (m : Mem) {a b : Int} (v : Int) (h : (a - b) % 16 = 0) :
    (cellAt (setStatus m a v) b).units = (cellAt m b).units := by
  rw [units_eq, units_eq, setStatus, load_store_apart (by omega)]

theorem units_setUnits {a b v : Int} (m : Mem) (h : (a - b) % 16 = 0) (hv : -2 ^ 31 ≤ v)
    (hv' : v < 2 ^ 31) (hb : (cellAt m b).units = v) : (cellAt (setUnits m a v) b).units = v := by
  by_cases hab : a = b
  · subst hab
    rw [cellAt_setUnits_self hv hv']
  · rw [← hb, units_eq, units_eq, setUnits, load_store_apart (by omega)]

/-- A return of `writeUnits`: the chunk and its footer are inside the heap bounds, and the units
    are in the header. -/
theorem writeUnits_inv {a u f : Int} (hu : -2 ^ 31 ≤ u) (hu' : u < 2 ^ 31)
    (h : writeUnits a u s = .ok (f, t)) :
    a ≠ 0 ∧ f ≠ 0 ∧ s.gHeapStart ≤ a ∧ f = a + (u + 1) * 16 ∧ (cellAt t.mem a).units = u ∧
      t.gHeapStart = s.gHeapStart ∧ t.gHeapEnd = s.gHeapEnd := by
  unfold writeUnits at h
  obtain ⟨_, s1, h1, hrest1⟩ := ok_of_bind h
  obtain ⟨ha, rfl⟩ := chunkSetUnits_inv h1
  obtain ⟨f', s2, h2, hrest2⟩ := ok_of_bind hrest1
  obtain ⟨_, s3, h3, hrest3⟩ := ok_of_bind hrest2
  obtain ⟨hf, hs3⟩ := assert_inv h3
  obtain ⟨hstart, -, hfeq, -, hs2⟩ := footerFromHeader_inv ha h2 hf
  rw [hs3, hs2, bind_of_ok (chunkFooterSetUnits_ok hf)] at hrest3
  obtain ⟨rfl, rfl⟩ := Prod.mk.inj (Except.ok.inj hrest3)
  have hself : (cellAt (setUnits s.mem a u) a).units = u := by
    rw [cellAt_setUnits_self hu hu']
  have hfeq' : f' = a + (u + 1) * 16 := by
    rw [hfeq]
    change a + ((cellAt (setUnits s.mem a u) a).units + 1) * 16 = _
    rw [hself]
  refine ⟨ha, hf, hstart, hfeq', ?_, rfl, rfl⟩
  exact units_setUnits _ (by omega) hu hu' hself

/-! ## The calls -/

/-- What `allocate_more_memory` asks `sbrk` for. -/
def increment (n : Int) : Int := toIntptr ((wantedUnits n + 2) * chunkUnit)

theorem wantedUnits_oversized {n : Int} (hn : 2 ^ 31 ≤ n) : wantedUnits n = n := by
  have hge : ¬ n < 1024 := by omega
  exact if_neg hge

theorem sbrk_moves {grant : Bool} {inc : Int} (h : ¬ Refuses grant s inc) :
    ∃ t, sbrk grant inc s = .ok (s.brk, t) ∧ t.gHeapStart = s.gHeapStart := by
  by_cases hinc : inc = 0
  · subst hinc
    exact ⟨s, sbrk_zero, rfl⟩
  · have hyes : Grants grant s inc := by
      by_contra hno
      exact h ⟨hinc, hno⟩
    exact ⟨_, sbrk_granted hinc hyes, rfl⟩

/-- After `sbrk` gave something, a return of `allocate_more_memory` leaves the truncated units in
    the new header. -/
theorem allocateMoreMemory_inv {grant : Bool} {n r : Int} (hn : 2 ^ 31 ≤ n)
    (hbrk : s.brk ≠ 2 ^ 64 - 1) (hmoves : ¬ Refuses grant s (increment n))
    (h : allocateMoreMemory grant n s = .ok (r, t)) :
    r ≠ 0 ∧ (cellAt t.mem r).units = toInt n := by
  have hlo : -2 ^ 31 ≤ toInt n := by unfold toInt; omega
  have hhi : toInt n < 2 ^ 31 := by unfold toInt; omega
  obtain ⟨s1, hsbrk, -⟩ := sbrk_moves hmoves
  have hw := wantedUnits_oversized hn
  unfold increment at hsbrk
  unfold allocateMoreMemory at h
  rw [bind_of_ok hsbrk, if_neg hbrk, bind_of_ok sbrk_zero, bind_of_ok (modify_apply _ s1), hw] at h
  obtain ⟨f, s2, h2, hrest2⟩ := ok_of_bind h
  obtain ⟨hne, hf, -, hfeq, hcell, -, -⟩ := writeUnits_inv hlo hhi h2
  rw [bind_of_ok (chunkFooterSetPrevFreeChunk_ok hf), bind_of_ok (chunkSetStatus_ok hne)] at hrest2
  obtain ⟨rfl, rfl⟩ := Prod.mk.inj (Except.ok.inj hrest2)
  refine ⟨hne, ?_⟩
  change (cellAt (setStatus (setLink s2.mem f null) s.brk chunkFree) s.brk).units = _
  rw [units_setStatus _ _ (by omega), units_setLink _ _ (by omega), hcell]

variable [DecidableEq β]

/-- Cutting a chunk with negative units ends in a fault: what is left for the second chunk is -2
    units, and `insert_chunk` does not accept it. -/
theorem splitNewChunk_stuck {n a : Int} {u : Unit} (hn : 2 ^ 31 ≤ n) (hn' : n < 2 ^ 60)
    (ha : a ≠ 0) (hcell : (cellAt s.mem a).units = toInt n) (hneg : toInt n < 0) :
    splitNewChunk findBin a n s ≠ .ok (u, t) := by
  intro h
  have hlo : -2 ^ 31 ≤ toInt n := by unfold toInt; omega
  have hall : toSize (toInt n) = toInt n + 2 ^ 64 := by
    unfold toSize
    omega
  have htwo : toSize (n + 2) = n + 2 := toSize_of_lt (by omega) (by omega)
  have hrest : toInt (toInt n + 2 ^ 64 - n - 2) = -2 := by
    unfold toInt
    omega
  have hbig : ¬ toInt n + 2 ^ 64 ≤ n + 2 := by omega
  unfold splitNewChunk at h
  rw [bind_of_ok (chunkGetUnits_ok ha), hcell] at h
  rw [hall, htwo, if_neg hbig, hrest] at h
  obtain ⟨_, s1, h1, hrest1⟩ := ok_of_bind h
  obtain ⟨a2, s2, h2, hrest2⟩ := ok_of_bind hrest1
  obtain ⟨_, s3, h3, hrest3⟩ := ok_of_bind hrest2
  obtain ⟨ha2, -, -, -, hunits, -, -⟩ := writeUnits_inv (by decide) (by decide) h3
  have hunits' : ¬ 1 ≤ (cellAt (setStatus s3.mem a2 chunkFree) a2).units := by
    rw [units_setStatus _ _ (by omega), hunits]
    decide
  rw [bind_of_ok (chunkSetStatus_ok ha2)] at hrest3
  unfold insertChunk at hrest3
  rw [bind_of_ok (assert_ok ha2), bind_of_ok (chunkGetUnits_ok ha2),
    bind_of_error (assert_fails hunits')] at hrest3
  exact absurd hrest3 (by simp)

theorem mallocFromSystem_oversized {check : HeapM β Bool} {grant : Bool} {n : Int}
    (hcheck : Checks findBin lo check) (h : Inv findBin lo s T L) (hn : 2 ^ 31 ≤ n)
    (hn' : n < 2 ^ 60) :
    (Refuses grant s (increment n) → mallocFromSystem findBin check grant n s =
      .ok (0, { s with asked := increment n :: s.asked })) ∧
    (¬ Refuses grant s (increment n) →
      ∀ p t, mallocFromSystem findBin check grant n s ≠ .ok (p, t)) := by
  have hlimit := h.limit
  have hbrk : s.brk ≠ 2 ^ 64 - 1 := by
    rw [h.brk]
    omega
  constructor
  · rintro ⟨hinc, hno⟩
    have hinv := h.with_asked (increment n :: s.asked)
    have halloc : allocateMoreMemory grant n s =
        .ok (null, { s with asked := increment n :: s.asked }) := by
      unfold allocateMoreMemory
      rw [show toIntptr ((wantedUnits n + 2) * chunkUnit) = increment n from rfl,
        bind_of_ok (sbrk_refused hinc hno), if_pos rfl]
      rfl
    unfold mallocFromSystem
    rw [bind_of_ok halloc, if_pos rfl, bind_of_ok (hcheck _ T L hinv.toRep hinv.noRaw),
      bind_of_ok (assert_ok rfl)]
    rfl
  · intro hmoves p t hret
    unfold mallocFromSystem at hret
    obtain ⟨r, s1, h1, hrest1⟩ := ok_of_bind hret
    obtain ⟨hr, hcell⟩ := allocateMoreMemory_inv hn hbrk hmoves h1
    rw [if_neg hr, bind_of_ok (chunkGetUnits_ok hr), hcell] at hrest1
    obtain ⟨_, s2, h2, hrest2⟩ := ok_of_bind hrest1
    obtain ⟨hge, rfl⟩ := assert_inv h2
    have hneg : toInt n < 0 := by
      by_contra hpos
      have hhi : toInt n < 2 ^ 31 := by unfold toInt; omega
      rw [toSize_of_lt (by omega) (by omega)] at hge
      omega
    obtain ⟨_, s3, h3, -⟩ := ok_of_bind hrest2
    exact splitNewChunk_stuck hn hn' hr hcell hneg h3

end SnuSysProg.Heapmgr
