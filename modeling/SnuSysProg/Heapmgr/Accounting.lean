import SnuSysProg.Heapmgr.Heapmgr1Growth
import SnuSysProg.Heapmgr.Heapmgr2Runs

/-
  What the heap is made of.

  The chunks in use are the live blocks, each once, with at most two units more than were asked for
  (`Accounted`). As no two free chunks are neighbours, there is at most one free chunk more than
  live blocks: a client that has freed everything finds at most one chunk (`heapmgr2_accounts`,
  `heapmgr1_accounts`). In `heapmgr1.c` what was freed can be had again without the kernel
  (`heapmgr1_reuses`).
-/

namespace SnuSysProg.Heapmgr
open SnuSysProg.Lib

variable {β : Type} {M : Manager β} {x x₀ y : Client β} {T post : List Blk} {L L' : β → List Int}
  {b c : Blk} {t : Heap β}

/-! ## Rows without neighbours -/

/-- Where no two neighbours are both `p`, there is at most one `p` more than others. -/
theorem countP_le_of_isChain {α : Type} {p : α → Bool} {l : List α}
    (h : l.IsChain fun a b => ¬ (p a = true ∧ p b = true)) :
    l.countP p ≤ l.countP (fun a => !p a) + 1 := by
  induction hn : l.length using Nat.strong_induction_on generalizing l with
  | _ n ih =>
    cases l with
    | nil => simp
    | cons a l =>
      have htail : l.countP p ≤ l.countP (fun a => !p a) + 1 :=
        ih l.length (by rw [← hn, List.length_cons]; omega) h.tail rfl
      by_cases ha : p a = true
      · cases l with
        | nil => simp [ha]
        | cons b l =>
          have hb : p b = false := by
            rw [Bool.eq_false_iff]
            exact fun hb => (List.isChain_cons_cons.mp h).1 ⟨ha, hb⟩
          have hrest : l.countP p ≤ l.countP (fun a => !p a) + 1 :=
            ih l.length (by rw [← hn, List.length_cons, List.length_cons]; omega) h.tail.tail rfl
          simp only [List.countP_cons, ha, hb, Bool.not_true, Bool.not_false, if_true,
            Bool.false_eq_true, if_false]
          omega
      · have ha : p a = false := Bool.eq_false_iff.mpr ha
        simp only [List.countP_cons, ha, Bool.not_false, if_true, Bool.false_eq_true, if_false]
        omega

/-! ## The invariant -/

/-- Every block in use is live, and is about as large as it was asked for. -/
structure Accounted (M : Manager β) (x : Client β) (T : List Blk) (L : β → List Int) : Prop
    extends Consistent M x T L where
  owned : ∀ b ∈ T, b.kind = .inUse → ∃ e ∈ x.live, b.addr + 16 = e.1
  tight : ∀ e ∈ x.live, ∀ b ∈ T, b.addr + 16 = e.1 →
    unitsFor e.2 ≤ b.units ∧ b.units ≤ unitsFor e.2 + 2

theorem Start.accounted (h : Start x) : Accounted M x [] (fun _ => []) := by
  refine ⟨h.consistent, fun _ hb => absurd hb List.not_mem_nil, ?_⟩
  rw [h.live]
  exact fun _ he => absurd he List.not_mem_nil

/-- A row has the block of a live block once. -/
theorem Consistent.block (h : Consistent M x T L) {e : Int × Int} (he : e ∈ x.live) {T' : List Blk}
    {a z : Int} (ht : Tiles a T' z) (hold : ∀ d ∈ T, d.kind = .inUse → d.addr + 16 = e.1 → d ∈ T')
    (hb : b ∈ T') (haddr : b.addr + 16 = e.1) : b ∈ T := by
  obtain ⟨d, hd, hk, hd', -⟩ := h.live e he
  obtain rfl := ht.eq_of_addr hb (hold d hd hk hd') (by omega)
  exact hd

theorem Accounted.taken {size : Int} {T' : List Blk} (h : Accounted M x T L)
    (ht : Taken M.findBin 1 (ready x.heap) t T T' L' b (unitsFor size)) (hsize : 0 < size) :
    Accounted M ⟨t, (b.addr + 16, size) :: x.live⟩ T' L' := by
  refine ⟨h.toConsistent.taken ht hsize (unitsFor_bounds hsize).2, fun d hd hk => ?_, ?_⟩
  · rcases (ht.others d hk).mp hd with hd | rfl
    · obtain ⟨e, he, haddr⟩ := h.owned d hd hk
      exact ⟨e, List.mem_cons_of_mem _ he, haddr⟩
    · exact ⟨_, List.mem_cons_self .., rfl⟩
  · intro e he d hd haddr
    rcases List.mem_cons.mp he with rfl | he
    · obtain rfl := ht.inv.tiles.eq_of_addr hd ht.mem (by dsimp only at haddr; omega)
      exact ht.units
    · refine h.tight e he d (h.block he ht.inv.tiles ?_ hd haddr) haddr
      exact fun d hd hk _ => (ht.others d hk).mpr (Or.inl hd)

theorem Accounted.malloc {grant : Bool} {size p : Int} {hit : Prop} (h : Accounted M x T L)
    (hr : MallocResult M.findBin 1 grant (ready x.heap) T (unitsFor size) hit p t)
    (hsize : 0 < size) :
    ∃ T' L', Accounted M ⟨t, if p = null then x.live else (p, size) :: x.live⟩ T' L' := by
  have htaken : ∀ T' L' b, p = b.addr + 16 →
      Taken M.findBin 1 (ready x.heap) t T T' L' b (unitsFor size) →
      Accounted M ⟨t, if p = null then x.live else (p, size) :: x.live⟩ T' L' := by
    rintro T' L' b rfl ht
    have hpos := ht.inv.addr_pos ht.mem
    have hne : ¬ b.addr + 16 = 0 := by omega
    rw [if_neg hne]
    exact h.taken ht hsize
  cases hr with
  | found _ hp ht => exact ⟨_, _, htaken _ _ _ hp ht⟩
  | grown _ _ hp ht => exact ⟨_, _, htaken _ _ _ hp ht⟩
  | refused _ _ hp ht =>
    subst hp ht
    rw [if_pos rfl]
    exact ⟨T, L, ⟨Or.inr ⟨ready_isInit _, h.between.ready.with_asked _⟩, h.live, h.distinct⟩,
      h.owned, h.tight⟩

/-- What freeing a block leaves in use was in use before. -/
theorem inUse_of_coalesce {rpre : List Blk} (hb : b ∈ coalesce rpre c post)
    (hk : b.kind = .inUse) : b ∈ rpre ∨ b ∈ post := by
  obtain ⟨-, -, hnext, -⟩ := absorbNext_facts c post
  obtain ⟨-, hprev, -⟩ := absorbPrev_facts (absorbNext c post).1 rpre
  rcases mem_middle.mp hb with hb | hb | hb
  · rw [List.mem_singleton.mp hb] at hk
    exact absurd hk (by simp [freed])
  · exact Or.inl (hprev b (List.mem_reverse.mp hb))
  · exact Or.inr (hnext b hb)

/-- A block is in its row once. -/
theorem Tiles.notMem_around {a z : Int} {pre : List Blk} (h : Tiles a (pre ++ [c] ++ post) z) :
    c ∉ pre ∧ c ∉ post := by
  have hunits := h.units_nonneg (show c ∈ pre ++ [c] ++ post by simp)
  have hstop : ¬ c.stop ≤ c.addr := by
    unfold Blk.stop
    omega
  refine ⟨fun hc => hstop ?_, fun hc => hstop (h.before (by simp) hc)⟩
  rw [List.append_assoc] at h
  exact h.before hc (by simp)

theorem Accounted.afterFree {rpre : List Blk} (h : Accounted M x (rpre.reverse ++ [c] ++ post) L)
    (hc : c.kind = .inUse) (hinit : t.isInit = true)
    (ht : Inv M.findBin 1 t (coalesce rpre c post) L') :
    Accounted M ⟨t, x.live.filter fun e => e.1 ≠ c.addr + 16⟩ (coalesce rpre c post) L' := by
  have htiles := (h.between.inv (b := c) (by simp)).2.tiles
  refine ⟨h.toConsistent.afterFree hinit ht, fun b hb hk => ?_, fun e he b hb haddr => ?_⟩
  · have hold : b ∈ rpre.reverse ++ [c] ++ post := by
      rcases inUse_of_coalesce hb hk with hb | hb <;> simp [hb]
    obtain ⟨e, he, haddr⟩ := h.owned b hold hk
    refine ⟨e, List.mem_filter.mpr ⟨he, decide_eq_true fun heq => ?_⟩, haddr⟩
    obtain rfl := htiles.eq_of_addr hold (show c ∈ _ by simp) (by omega)
    obtain ⟨hpre, hpost⟩ := htiles.notMem_around
    exact (inUse_of_coalesce hb hk).elim (fun hb => hpre (List.mem_reverse.mpr hb)) hpost
  · obtain ⟨he, hne⟩ := List.mem_filter.mp he
    refine h.tight e he b (h.block he ht.tiles ?_ hb haddr) haddr
    intro d hd hk hd'
    refine mem_coalesce hd ?_ (by rw [hk]; decide)
    rintro rfl
    exact of_decide_eq_true hne hd'.symm

section Lists

variable [DecidableEq β] {es : List Move} {e : Move}

/-- What a call of `heapmgr_free` that returns did. -/
theorem Consistent.freesTo (hM : M.Correct) (h : Consistent M x T L) {e : Int × Int}
    (he : e ∈ x.live) (hstep : Heapmgr.step M x (.free e.1) y) :
    ∃ (rpre : List Blk) (c : Blk) (post : List Blk) (L' : β → List Int),
      T = rpre.reverse ++ [c] ++ post ∧ c.kind = .inUse ∧ c.addr + 16 = e.1 ∧
        y.live = (x.live.filter fun d => d.1 ≠ c.addr + 16) ∧ y.heap.isInit = true ∧
          Inv M.findBin 1 y.heap (coalesce rpre c post) L' := by
  obtain ⟨rpre, c, post, rfl, hk, haddr, hunits⟩ := h.split he
  obtain ⟨hinit, hinv⟩ := h.between.inv (b := c) (by simp)
  rw [← haddr] at hstep
  unfold Heapmgr.step at hstep
  by_cases hfit : (freed rpre c post).units < 2 ^ 31
  · obtain ⟨_, t, heq, hq, L', ht⟩ :=
      freeWith_spec hM.checks hinv hk (hunits.trans (units_le_freed hinv.tiles)) hfit
    have hfree : M.free (c.addr + 16) x.heap = .ok ((), t) := heq
    rw [exec_free hfree] at hstep
    obtain rfl := Except.ok.inj hstep
    exact ⟨rpre, c, post, L', rfl, hk, haddr, rfl, hq.isInit.trans hinit, ht⟩
  · have herr : exec M x (.free (c.addr + 16)) = .error .intOverflow := by
      have hfree : M.free (c.addr + 16) x.heap = .error .intOverflow :=
        freeWith_overflow hM.checks hinv hk hfit
      rw [exec, hfree]
      rfl
    rw [herr] at hstep
    exact absurd hstep (by simp)

theorem Accounted.step (hM : M.Correct) (h : Accounted M x T L) (hallow : Allowed x e)
    (hsmall : Small e) (hstep : Heapmgr.step M x e y) : ∃ T' L', Accounted M y T' L' := by
  cases e with
  | malloc grant size =>
    obtain ⟨p, t, heq, hr⟩ := hM.malloc grant h.between hallow.1 hsmall
    unfold Heapmgr.step at hstep
    rw [exec_malloc heq] at hstep
    obtain rfl := Except.ok.inj hstep
    exact h.malloc hr hallow.1
  | free m =>
    rcases hallow with rfl | ⟨e, he, rfl⟩
    · unfold Heapmgr.step at hstep
      rw [exec_free_null h.toConsistent] at hstep
      obtain rfl := Except.ok.inj hstep
      exact ⟨T, L, h⟩
    · obtain ⟨rpre, c, post, L', rfl, hk, -, hlive, hinit, ht⟩ := h.toConsistent.freesTo hM he hstep
      have hy : y = ⟨y.heap, y.live⟩ := rfl
      rw [hy, hlive]
      exact ⟨_, L', h.afterFree hk hinit ht⟩
  | write a v =>
    obtain ⟨e, he, ha⟩ := hallow
    obtain rfl := Except.ok.inj hstep
    exact ⟨T, L, h.write he ha v, h.owned, h.tight⟩

theorem accounted_run (hM : M.Correct) (h0 : Start x₀)
    (hrun : Run (Guarded (fun x e => Allowed x e ∧ Small e) (step M)) x₀ es x) :
    ∃ T L, Accounted M x T L := by
  have hstep : ∀ x e y, (∃ T L, Accounted M x T L) → Allowed x e ∧ Small e → step M x e y →
      ∃ T L, Accounted M y T L := by
    intro x e y ⟨T, L, h⟩ ⟨hallow, hsmall⟩ hstep
    exact h.step hM hallow hsmall hstep
  exact Run.preserves_of_steps hstep hrun ⟨[], fun _ => [], h0.accounted⟩

end Lists

/-! ## In the memory -/

/-- The chunks in use are the live blocks, each once, none with more than two units too many; there
    are at most twice as many chunks as live blocks, and one. -/
structure Accounts (x : Client β) (chunks : List Int) : Prop where
  inUse : ((chunks.filter fun c => (cellAt x.heap.mem c).status = chunkInUse).map
    (· + chunkUnit)).Perm (x.live.map Prod.fst)
  fits : ∀ e ∈ x.live, unitsFor e.2 ≤ (cellAt x.heap.mem (e.1 - chunkUnit)).units ∧
    (cellAt x.heap.mem (e.1 - chunkUnit)).units ≤ unitsFor e.2 + 2
  few : chunks.length ≤ 2 * x.live.length + 1

theorem Tiles.addr_nodup {a z : Int} (h : Tiles a T z) : (T.map Blk.addr).Nodup := by
  induction T generalizing a with
  | nil => exact List.nodup_nil
  | cons b T ih =>
    obtain ⟨rfl, hunits, hT⟩ := h
    refine List.nodup_cons.mpr ⟨fun hb => ?_, ih hT⟩
    obtain ⟨c, hc, haddr⟩ := List.mem_map.mp hb
    have hstart := hT.start_le hc
    unfold Blk.stop at hstart
    omega

/-- The status of a block of the row, as it is in the memory. -/
theorem Inv.status_inUse {findBin : Int → β} {s : Heap β} (h : Inv findBin 1 s T L) (hb : b ∈ T) :
    (cellAt s.mem b.addr).status = chunkInUse ↔ b.kind = .inUse := by
  have hstatus : (cellAt s.mem b.addr).status = b.kind.status :=
    (h.formed b hb (h.noRaw b hb)).status
  rw [hstatus]
  cases hk : b.kind with
  | raw => exact absurd hk (h.noRaw b hb)
  | free => exact iff_of_false (by decide) (by simp)
  | inUse => exact iff_of_true rfl rfl

/-- Before the first block there is nothing to account for. -/
theorem accounts_nil (h : x.live = []) : Accounts x [] := by
  refine ⟨?_, ?_, Nat.zero_le _⟩
  · rw [h]
    exact List.Perm.nil
  · rw [h]
    exact fun _ he => absurd he List.not_mem_nil

/-- The blocks in use are the live blocks. -/
theorem Accounted.owners (h : Accounted M x T L) (hinv : Inv M.findBin 1 x.heap T L) :
    ((T.filter fun b => b.kind = .inUse).map fun b => b.addr + 16).Perm
      (x.live.map Prod.fst) := by
  have hnodup : (T.map fun b => b.addr + 16).Nodup := by
    have hmap := hinv.tiles.addr_nodup.map (f := fun a => a + 16)
      fun _ _ heq => add_right_cancel heq
    rwa [List.map_map] at hmap
  refine (List.perm_ext_iff_of_nodup ?_ h.distinct).mpr fun a => ?_
  · exact hnodup.sublist (List.filter_sublist.map _)
  constructor
  · intro ha
    obtain ⟨b, hb, rfl⟩ := List.mem_map.mp ha
    obtain ⟨hb, hk⟩ := List.mem_filter.mp hb
    obtain ⟨e, he, haddr⟩ := h.owned b hb (of_decide_eq_true hk)
    exact List.mem_map.mpr ⟨e, he, haddr.symm⟩
  · intro ha
    obtain ⟨e, he, rfl⟩ := List.mem_map.mp ha
    obtain ⟨b, hb, hk, haddr, -⟩ := h.live e he
    exact List.mem_map.mpr ⟨b, List.mem_filter.mpr ⟨hb, decide_eq_true hk⟩, haddr⟩

/-- The blocks that are not free are as many as the live blocks. -/
theorem Accounted.count (h : Accounted M x T L) (hinv : Inv M.findBin 1 x.heap T L) :
    T.countP (fun b => !decide (b.kind = .free)) = x.live.length := by
  have hcount := (h.owners hinv).length_eq
  rw [List.length_map, List.length_map, ← List.countP_eq_length_filter] at hcount
  rw [← hcount]
  refine List.countP_congr fun b hb => ?_
  have hraw := hinv.noRaw b hb
  cases hk : b.kind with
  | raw => exact absurd hk hraw
  | free => exact iff_of_false (by decide) (by decide)
  | inUse => exact iff_of_true rfl rfl

/-- The chunks that the memory has in use. -/
theorem Accounted.inUse (h : Accounted M x T L) (hinv : Inv M.findBin 1 x.heap T L) :
    (((T.map Blk.addr).filter fun c => (cellAt x.heap.mem c).status = chunkInUse).map
      (· + chunkUnit)).Perm (x.live.map Prod.fst) := by
  have hsame : T.filter (fun b => (cellAt x.heap.mem b.addr).status = chunkInUse) =
      T.filter (fun b => b.kind = .inUse) :=
    List.filter_congr fun b hb => decide_eq_decide.mpr (hinv.status_inUse hb)
  have hmap : (T.map Blk.addr).filter (fun c => (cellAt x.heap.mem c).status = chunkInUse) =
      (T.filter fun b => b.kind = .inUse).map Blk.addr := by
    rw [List.filter_map, Function.comp_def, hsame]
  have hdata : ((T.filter fun b => b.kind = .inUse).map Blk.addr).map (· + chunkUnit) =
      (T.filter fun b => b.kind = .inUse).map fun b => b.addr + 16 := by
    rw [List.map_map]
    exact List.map_congr_left fun b _ => rfl
  rw [hmap, hdata]
  exact h.owners hinv

theorem Accounted.accounts (h : Accounted M x T L) : Accounts x (T.map Blk.addr) := by
  rcases h.between with ⟨-, rfl, -⟩ | ⟨-, hinv⟩
  · refine accounts_nil (List.eq_nil_iff_forall_not_mem.mpr fun e he => ?_)
    obtain ⟨b, hb, -⟩ := h.live e he
    exact absurd hb List.not_mem_nil
  refine ⟨h.inUse hinv, fun e he => ?_, ?_⟩
  · obtain ⟨b, hb, -, haddr, -⟩ := h.live e he
    have hheader : b.addr + 16 - chunkUnit = b.addr := Int.add_sub_cancel _ _
    rw [← haddr, hheader, (hinv.chunk hb).1]
    exact h.tight e he b hb haddr
  · -- the free blocks are at most one more than the others
    have hfree := countP_le_of_isChain (p := fun b : Blk => decide (b.kind = .free))
      (hinv.coalesced.imp fun b c hbc => by simpa [Apart] using hbc)
    have hall : T.length = T.countP (fun b => decide (b.kind = .free)) +
        T.countP (fun b => !decide (b.kind = .free)) := by
      rw [List.length_eq_countP_add_countP (fun b => decide (b.kind = .free))]
      simp
    have htaken := h.count hinv
    rw [List.length_map]
    omega

/-! ## A first block -/

/-- A first request gets a block, which can be freed. -/
theorem starting_takes [DecidableEq β] (hM : M.Correct) : ∃ x y p,
    Run (Guarded (fun x e => Allowed x e ∧ Small e) (step M)) starting [.malloc true 100] x ∧
    (p, 100) ∈ x.live ∧ step M x (.free p) y ∧
    Run (Guarded (fun x e => Allowed x e ∧ Small e) (step M)) starting
      [.malloc true 100, .free p] y := by
  have hallow : Allowed (starting : Client β) (.malloc true 100) := ⟨by decide, by decide⟩
  have hsmall : Small (.malloc true 100) := by
    change (100 : Int) ≤ _
    decide
  have hroomy : Roomy M starting (.malloc true 100) := Or.inr
    (show ((4096 : Int) - 4096) / 16 + (wantedUnits (unitsFor 100) + 2) < 2 ^ 31 - 1 by decide)
  obtain ⟨x, hx, hroom⟩ := starting_start.consistent.exec_ok hM starting_start.inRoom hallow hroomy
  have hrun := (Run.nil starting).snoc
    (show Guarded (fun x e => Allowed x e ∧ Small e) (step M) starting
      (.malloc true 100) x from ⟨⟨hallow, hsmall⟩, hx⟩)
  obtain ⟨T, L, h⟩ := consistent_run hM starting_start hrun
  obtain ⟨p, t, heq, hr⟩ := hM.malloc true starting_start.consistent.between hallow.1 hsmall
  have hp : p ≠ null := by
    cases hr with
    | found _ hp ht =>
      have hpos := ht.inv.addr_pos ht.mem
      rw [hp]
      change _ ≠ (0 : Int)
      omega
    | grown _ _ hp ht =>
      have hpos := ht.inv.addr_pos ht.mem
      rw [hp]
      change _ ≠ (0 : Int)
      omega
    | refused _ hno =>
      have hroom : (0 : Int) < 4096 + (wantedUnits (unitsFor 100) + 2) * 16 ∧
          4096 + (wantedUnits (unitsFor 100) + 2) * 16 < sbrkFailed := by decide
      exact absurd ⟨rfl, hroom⟩ hno
  rw [exec_malloc heq, if_neg hp] at hx
  obtain rfl := Except.ok.inj hx
  have hlive : (p, 100) ∈ (⟨t, (p, 100) :: (starting : Client β).live⟩ : Client β).live :=
    List.mem_cons_self
  have hallow' : Allowed (⟨t, (p, 100) :: (starting : Client β).live⟩ : Client β) (.free p) :=
    Or.inr ⟨_, hlive, rfl⟩
  obtain ⟨y, hy, -⟩ := h.exec_ok hM hroom hallow' trivial
  exact ⟨_, y, p, hrun, hlive, hy, hrun.snoc ⟨⟨hallow', trivial⟩, hy⟩⟩

end SnuSysProg.Heapmgr

/-! ## heapmgr2.c -/

namespace SnuSysProg.Heapmgr2
open SnuSysProg.Lib SnuSysProg.Heapmgr

variable {x₀ x : Client Bin} {es : List Move}

/-- **No memory is lost in `heapmgr2.c`.** At every point of a run the chunks in use are the live
    blocks, each once and of at most two units more than were asked for, and all others are free,
    at most one more than there are live blocks. -/
theorem heapmgr2_accounts (h0 : Start x₀)
    (hrun : Run (Guarded (fun x e => Allowed x e ∧ Small e) (step manager)) x₀ es x) :
    ∃ chunks bins, Represents findBin x.heap chunks bins ∧ Accounts x chunks := by
  obtain ⟨T, L, h⟩ := accounted_run manager_correct h0 hrun
  exact ⟨_, _, h.between.represents, h.accounts⟩

/-- After a request and its `free`. -/
theorem heapmgr2_accounts_first : ∃ x p, Run (Guarded (fun x e => Allowed x e ∧ Small e)
    (step manager)) starting [.malloc true 100, .free p] x ∧
    ∃ chunks bins, Represents findBin x.heap chunks bins ∧ Accounts x chunks := by
  obtain ⟨-, y, p, -, -, -, hrun⟩ := starting_takes manager_correct
  exact ⟨y, p, hrun, heapmgr2_accounts starting_start hrun⟩

end SnuSysProg.Heapmgr2

/-! ## heapmgr1.c -/

namespace SnuSysProg.Heapmgr1
open SnuSysProg.Lib SnuSysProg.Heapmgr

variable {x₀ x y : Client Unit} {es : List Move}

/-- **No memory is lost in `heapmgr1.c`** either, and the live blocks lie apart from each other and
    clear of all headers and footers. -/
theorem heapmgr1_accounts (h0 : Start x₀)
    (hrun : Run (Guarded (fun x e => Allowed x e ∧ Small e) (step manager)) x₀ es x) :
    ∃ chunks list, Represents findBin x.heap chunks list ∧ Accounts x chunks ∧
      (x.live.Pairwise fun d e => Disjoint (payload d) (payload e)) ∧
      (∀ e ∈ x.live, ∀ a ∈ payload e, x.heap.gHeapStart ≤ a ∧ a < x.heap.gHeapEnd ∧
        ∀ c ∈ chunks, a ∉ cellBytes c ∧ a ∉ cellBytes (footerOf x.heap.mem c)) ∧
      ∀ e y, Allowed x e → Small e → (∀ a v, e ≠ .write a v) → step manager x e y →
        Untouched x y := by
  obtain ⟨T, L, h⟩ := accounted_run manager_correct h0 hrun
  exact ⟨_, _, h.between.represents, h.accounts, h.disjoint, h.clear,
    fun e y hallow hsmall hcall hstep =>
      (h.toConsistent.step manager_correct hallow hsmall hstep).2 hcall⟩

/-- After a request and its `free`. -/
theorem heapmgr1_accounts_first : ∃ x p, Run (Guarded (fun x e => Allowed x e ∧ Small e)
    (step manager)) starting [.malloc true 100, .free p] x ∧
    ∃ chunks list, Represents findBin x.heap chunks list ∧ Accounts x chunks := by
  obtain ⟨-, y, p, -, -, -, hrun⟩ := starting_takes manager_correct
  obtain ⟨chunks, list, hr, haccounts, -⟩ := heapmgr1_accounts starting_start hrun
  exact ⟨y, p, hrun, chunks, list, hr, haccounts⟩

/-- **What was freed can be had again.** After a live block was freed, a request of at most its
    size is met without the kernel, whatever the free list has become. -/
theorem heapmgr1_reuses {e : Int × Int} {grant : Bool} {size : Int} (h0 : Start x₀)
    (hrun : Run (Guarded (fun x e => Allowed x e ∧ Small e) (step manager)) x₀ es x)
    (he : e ∈ x.live) (hfree : step manager x (.free e.1) y) (hpos : 0 < size) (hle : size ≤ e.2) :
    ∃ p t, heapmgrMalloc grant size y.heap = .ok (p, t) ∧ p ≠ null ∧
      t.asked = y.heap.asked ∧ t.gHeapEnd = y.heap.gHeapEnd := by
  obtain ⟨T, L, h⟩ := accounted_run manager_correct h0 hrun
  obtain ⟨rpre, c, post, L', rfl, -, haddr, -, hinit, hinv⟩ :=
    h.toConsistent.freesTo manager_correct he hfree
  have hold := (h.between.inv (b := c) (by simp)).2
  have hc := h.tight e he c (by simp) haddr
  have hunits := (hold.sized c (by simp)).2
  have hfreed : freed rpre c post ∈ coalesce rpre c post := by
    unfold coalesce
    simp
  have hfits : unitsFor size ≤ (freed rpre c post).units := by
    have hmore := units_le_freed hold.tiles
    unfold unitsFor at hc ⊢
    omega
  have hhit : Hit y.heap L' (unitsFor size) := by
    obtain ⟨hsame, hstatus⟩ := hinv.chunk hfreed
    exact hit_iff hinv |>.mpr ⟨_, List.mem_map.mpr ⟨_, hfreed, rfl⟩, hstatus.mpr rfl, hsame ▸ hfits⟩
  have hready : ready y.heap = y.heap := if_pos hinit
  have hsmall : size ≤ 16 * (2 ^ 31 - 1) := by
    unfold unitsFor at hc
    omega
  obtain ⟨p, t, heq, hr⟩ := manager_correct.malloc grant (Or.inr ⟨hinit, hinv⟩) hpos hsmall
  refine ⟨p, t, heq, ?_⟩
  rw [hready] at hr
  cases hr with
  | found _ hp ht hend hasked =>
    have hbpos := ht.inv.addr_pos ht.mem
    exact ⟨by rw [hp]; change _ ≠ (0 : Int); omega, hasked, hend⟩
  | grown hmiss => exact absurd ((served_iff hinv).mpr hhit) hmiss
  | refused hmiss => exact absurd ((served_iff hinv).mpr hhit) hmiss

/-- A block of 100 bytes was freed, and 40 bytes are asked for. -/
theorem heapmgr1_reuses_first : ∃ x y q, Run (Guarded (fun x e => Allowed x e ∧ Small e)
    (step manager)) starting [.malloc true 100] x ∧ step manager x (.free q) y ∧
    ∃ p t, heapmgrMalloc false 40 y.heap = .ok (p, t) ∧ p ≠ null ∧
      t.asked = y.heap.asked ∧ t.gHeapEnd = y.heap.gHeapEnd := by
  obtain ⟨x, y, q, hrun, hlive, hfree, -⟩ := starting_takes manager_correct
  have hle : (40 : Int) ≤ 100 := by decide
  exact ⟨x, y, q, hrun, hfree,
    heapmgr1_reuses starting_start hrun hlive hfree (by decide) hle⟩

end SnuSysProg.Heapmgr1
