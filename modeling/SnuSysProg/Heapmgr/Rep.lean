import Mathlib.Data.List.Perm.Subperm
import SnuSysProg.Heapmgr.Layout

/-
  What an allocator's state represents, and how the represented heap changes.

  `Rep findBin lo s T L`: the blocks `T` tile the heap of `s`, the cells of those that are not raw
  are in order, and the free lists `L` hold free blocks in the bin `findBin` gives them, linked
  forward through the headers and backward through the footers. `lo` is a lower bound on the units
  of every block. Three lemmas cover what the functions do to it: the blocks of a stretch that no
  list holds are exchanged for others (`Rep.replace`), a block leaves its list (`Rep.unlink`), a
  block joins one (`Rep.link`).
-/

namespace SnuSysProg.Heapmgr
open SnuSysProg.Lib

variable {β : Type} {findBin : Int → β} {lo : Int} {s s' t : Heap β} {T : List Blk}
  {L : β → List Int} {b c : Blk} {i : β}

/-- The units and the status of the block are in its cells. -/
structure Formed (m : Mem) (b : Blk) : Prop where
  units : (recAt m b).units = b.units
  footerUnits : (recAt m b).footerUnits = b.units
  status : (recAt m b).status = b.kind.status

theorem Formed.of_recAt {m m' : Mem} (h : Formed m b) (heq : recAt m' b = recAt m b) :
    Formed m' b := by
  constructor
  · rw [heq, h.units]
  · rw [heq, h.footerUnits]
  · rw [heq, h.status]

structure Rep (findBin : Int → β) (lo : Int) (s : Heap β) (T : List Blk) (L : β → List Int) :
    Prop where
  start : 0 < s.gHeapStart
  tiles : Tiles s.gHeapStart T s.gHeapEnd
  limit : s.gHeapEnd < 2 ^ 64 - 1
  sized : ∀ b ∈ T, lo ≤ b.units ∧ b.units < 2 ^ 31
  formed : ∀ b ∈ T, b.kind ≠ .raw → Formed s.mem b
  head : ∀ i, s.freeHead i = (L i).headD 0
  nodup : ∀ i, (L i).Nodup
  binned : ∀ i, ∀ a ∈ L i,
    ∃ b ∈ T, b.addr = a ∧ b.kind = .free ∧ 1 ≤ b.units ∧ findBin b.units = i
  linked : ∀ i, ∀ b ∈ T, b.addr ∈ L i →
    (recAt s.mem b).next = succOf 0 (L i) b.addr ∧ (recAt s.mem b).prev = predOf 0 (L i) b.addr

/-- From `s` to `t` the memory changed inside `W` only, and nothing else but the heads of the
    free lists. -/
structure Quiet (W : Set Int) (s t : Heap β) : Prop where
  mem : AgreeOff W s.mem t.mem
  brk : t.brk = s.brk
  asked : t.asked = s.asked
  gHeapStart : t.gHeapStart = s.gHeapStart
  gHeapEnd : t.gHeapEnd = s.gHeapEnd
  isInit : t.isInit = s.isInit

theorem Quiet.refl (W : Set Int) (s : Heap β) : Quiet W s s :=
  ⟨AgreeOff.refl W s.mem, rfl, rfl, rfl, rfl, rfl⟩

theorem Quiet.trans {W : Set Int} (h₁ : Quiet W s s') (h₂ : Quiet W s' t) : Quiet W s t :=
  ⟨h₁.mem.trans h₂.mem, h₂.brk.trans h₁.brk, h₂.asked.trans h₁.asked,
    h₂.gHeapStart.trans h₁.gHeapStart, h₂.gHeapEnd.trans h₁.gHeapEnd, h₂.isInit.trans h₁.isInit⟩

theorem Quiet.mono {W W' : Set Int} (hW : W ⊆ W') (h : Quiet W s t) : Quiet W' s t :=
  ⟨h.mem.mono hW, h.brk, h.asked, h.gHeapStart, h.gHeapEnd, h.isInit⟩

/-! ## First facts -/

theorem Rep.addr_pos (h : Rep findBin lo s T L) (hb : b ∈ T) : 0 < b.addr := by
  have := h.tiles.start_le hb
  have := h.start
  omega

theorem Rep.stop_lt (h : Rep findBin lo s T L) (hb : b ∈ T) : b.stop < 2 ^ 64 := by
  have := h.tiles.stop_le hb
  have := h.limit
  omega

theorem Rep.listed (h : Rep findBin lo s T L) {a : Int} (ha : a ∈ L i) :
    ∃ b ∈ T, b.addr = a ∧ b.kind = .free ∧ 1 ≤ b.units ∧ findBin b.units = i := h.binned i a ha

theorem Rep.zero_notMem (h : Rep findBin lo s T L) (i : β) : (0 : Int) ∉ L i := by
  intro h0
  obtain ⟨b, hb, hb0, -⟩ := h.listed h0
  have := h.addr_pos hb
  omega

/-- A block that some list holds is free, and filed under its size. -/
theorem Rep.of_mem_list (h : Rep findBin lo s T L) (hb : b ∈ T) (hbi : b.addr ∈ L i) :
    b.kind = .free ∧ 1 ≤ b.units ∧ findBin b.units = i := by
  obtain ⟨b', hb', haddr, hfree⟩ := h.listed hbi
  obtain rfl := h.tiles.eq_of_addr hb' hb haddr
  exact hfree

/-- A list pointer is `NULL` or leads to a block of the list. -/
theorem Rep.ptr_cases (h : Rep findBin lo s T L) {p : Int} (hp : p ∈ L i ∨ p = 0) :
    p = 0 ∨ ∃ b ∈ T, b.addr = p ∧ p ∈ L i ∧ b.kind = .free := by
  rcases hp with hp | hp
  · obtain ⟨b, hb, haddr, hfree, -⟩ := h.listed hp
    exact Or.inr ⟨b, hb, haddr, hp, hfree⟩
  · exact Or.inl hp

theorem Rep.length_list_le (h : Rep findBin lo s T L) (i : β) : (L i).length ≤ T.length := by
  have hsub : L i ⊆ T.map Blk.addr := by
    intro a ha
    obtain ⟨b, hb, haddr, -⟩ := h.listed ha
    exact List.mem_map.mpr ⟨b, hb, haddr⟩
  have := (List.subperm_of_subset (h.nodup i) hsub).length_le
  rwa [List.length_map] at this

theorem Rep.blocks_lt_fuel (h : Rep findBin lo s T L) : T.length < s.fuel := by
  have hlen := h.tiles.length_le
  unfold Heap.fuel chunkUnit
  omega

/-- The lists can be followed in memory. -/
theorem Rep.follows (h : Rep findBin lo s T L) (i : β) :
    Follows 0 (fun a => (cellAt s.mem a).link) (s.freeHead i) (L i) := by
  rw [h.head i]
  refine follows_succOf (h.nodup i) (h.zero_notMem i) fun a ha => ?_
  obtain ⟨b, hb, rfl, -⟩ := h.listed ha
  exact (h.linked i b hb ha).1

/-! ## Exchanging blocks that no list holds -/

theorem Tiles.replace {a z : Int} {pre mid mid' post : List Blk}
    (h : Tiles a (pre ++ mid ++ post) z) (hmid : ∀ x y, Tiles x mid y → Tiles x mid' y) :
    Tiles a (pre ++ mid' ++ post) z := by
  obtain ⟨y, hpm, hpost⟩ := Tiles.append_iff.mp h
  obtain ⟨x, hpre, hm⟩ := Tiles.append_iff.mp hpm
  exact Tiles.append_iff.mpr ⟨y, Tiles.append_iff.mpr ⟨x, hpre, hmid x y hm⟩, hpost⟩

theorem mem_middle {pre mid post : List Blk} :
    b ∈ pre ++ mid ++ post ↔ b ∈ mid ∨ b ∈ pre ∨ b ∈ post := by
  rw [List.mem_append, List.mem_append]
  tauto

/-- The blocks around a stretch are apart from every byte of it. -/
theorem Tiles.around {a z : Int} {pre mid post : List Blk} (h : Tiles a (pre ++ mid ++ post) z)
    (hb : b ∈ pre ∨ b ∈ post) {x : Int} (hx : x ∈ spanOf mid) : ¬ (b.addr ≤ x ∧ x < b.stop) := by
  obtain ⟨c, hc, hcx⟩ := hx
  rcases hb with hb | hb
  · rw [List.append_assoc] at h
    have := h.before hb (List.mem_append_left post hc)
    omega
  · have := h.before (List.mem_append_right pre hc) hb
    omega

theorem cells_sub_span (hu : 0 ≤ b.units) {x : Int} (hx : x ∈ b.cells) :
    b.addr ≤ x ∧ x < b.stop := by
  rw [mem_cells] at hx
  unfold Blk.footer at hx
  unfold Blk.stop
  omega

/-- A stretch of blocks that no list holds may be cut up in another way, as long as the writes
    stay inside it. -/
theorem Rep.replace {pre mid mid' post : List Blk}
    (h : Rep findBin lo s (pre ++ mid ++ post) L) (hq : Quiet (spanOf mid) s s')
    (hhead : s'.freeHead = s.freeHead) (hunlisted : ∀ b ∈ mid, ∀ i, b.addr ∉ L i)
    (hmid : ∀ x y, Tiles x mid y → Tiles x mid' y)
    (hsized : ∀ b ∈ mid', lo ≤ b.units ∧ b.units < 2 ^ 31)
    (hformed : ∀ b ∈ mid', b.kind ≠ .raw → Formed s'.mem b) :
    Rep findBin lo s' (pre ++ mid' ++ post) L := by
  have htiles := h.tiles.replace hmid
  have hrec : ∀ b, b ∈ pre ∨ b ∈ post → recAt s'.mem b = recAt s.mem b := by
    intro b hb
    refine recAt_of_agreeOff hq.mem fun x hx hxm => ?_
    have hbu := h.tiles.units_nonneg (mem_middle.mpr (Or.inr hb))
    exact h.tiles.around hb hxm (cells_sub_span hbu hx)
  have hlisted : ∀ i a, a ∈ L i → ∃ b, (b ∈ pre ∨ b ∈ post) ∧ b.addr = a ∧ b.kind = .free ∧
      1 ≤ b.units ∧ findBin b.units = i := by
    intro i a ha
    obtain ⟨b, hb, haddr, hrest⟩ := h.listed ha
    rcases mem_middle.mp hb with hbm | hb
    · exact absurd (haddr ▸ ha) (hunlisted b hbm i)
    · exact ⟨b, hb, haddr, hrest⟩
  refine ⟨hq.gHeapStart ▸ h.start, ?_, hq.gHeapEnd ▸ h.limit, ?_, ?_, ?_, h.nodup, ?_, ?_⟩
  · rw [hq.gHeapStart, hq.gHeapEnd]
    exact htiles
  · intro b hb
    rcases mem_middle.mp hb with hbm | hb
    · exact hsized b hbm
    · exact h.sized b (mem_middle.mpr (Or.inr hb))
  · intro b hb hraw
    rcases mem_middle.mp hb with hbm | hb
    · exact hformed b hbm hraw
    · exact (h.formed b (mem_middle.mpr (Or.inr hb)) hraw).of_recAt (hrec b hb)
  · intro i
    rw [hhead, h.head i]
  · intro i a ha
    obtain ⟨b, hb, hrest⟩ := hlisted i a ha
    exact ⟨b, mem_middle.mpr (Or.inr hb), hrest⟩
  · intro i b hb hbi
    -- a block with a listed address is one of the blocks around the stretch
    obtain ⟨b', hb', haddr, -⟩ := hlisted i b.addr hbi
    obtain rfl := htiles.eq_of_addr (mem_middle.mpr (Or.inr hb')) hb haddr
    rw [hrec b' hb']
    exact h.linked i b' (mem_middle.mpr (Or.inr hb')) hbi

/-! ## Leaving and joining a list -/

section Lists

variable [DecidableEq β]

/-- What `unlinkChunk` does to the records: the neighbours of `c` in its list point past it. -/
theorem Rep.unlink (h : Rep findBin lo s T L) (hci : c.addr ∈ L i)
    (hq : Quiet (cellsOf T) s s')
    (hhead : s'.freeHead = if predOf 0 (L i) c.addr = 0 then
      Function.update s.freeHead i (succOf 0 (L i) c.addr) else s.freeHead)
    (hrec : ∀ b ∈ T, recAt s'.mem b = { recAt s.mem b with
      next := if b.addr = predOf 0 (L i) c.addr then succOf 0 (L i) c.addr
        else (recAt s.mem b).next
      prev := if b.addr = succOf 0 (L i) c.addr then predOf 0 (L i) c.addr
        else (recAt s.mem b).prev }) :
    Rep findBin lo s' T (Function.update L i ((L i).erase c.addr)) := by
  have hn := h.nodup i
  have h0 := h.zero_notMem i
  have herase := fun {a : Int} => (List.Nodup.mem_erase_iff (a := a) (b := c.addr) hn)
  refine ⟨hq.gHeapStart ▸ h.start, ?_, hq.gHeapEnd ▸ h.limit, h.sized, ?_, ?_, ?_, ?_, ?_⟩
  · rw [hq.gHeapStart, hq.gHeapEnd]
    exact h.tiles
  · intro b hb hraw
    obtain ⟨hf1, hf2, hf3⟩ := h.formed b hb hraw
    refine ⟨?_, ?_, ?_⟩
    · rw [hrec b hb]
      exact hf1
    · rw [hrec b hb]
      exact hf2
    · rw [hrec b hb]
      exact hf3
  · intro j
    by_cases hji : j = i
    · subst hji
      rw [Function.update_self, headD_erase hn h0 hci, hhead]
      split
      · rw [Function.update_self]
      · rw [h.head j]
    · rw [Function.update_of_ne hji, hhead]
      split
      · rw [Function.update_of_ne hji, h.head j]
      · rw [h.head j]
  · intro j
    by_cases hji : j = i
    · subst hji
      rw [Function.update_self]
      exact hn.erase _
    · rw [Function.update_of_ne hji]
      exact h.nodup j
  · intro j a ha
    by_cases hji : j = i
    · subst hji
      rw [Function.update_self] at ha
      exact h.listed (List.mem_of_mem_erase ha)
    · rw [Function.update_of_ne hji] at ha
      exact h.listed ha
  · intro j b hb hbj
    rw [hrec b hb]
    by_cases hji : j = i
    · subst hji
      rw [Function.update_self] at hbj ⊢
      obtain ⟨hne, hbj⟩ := herase.mp hbj
      obtain ⟨hnext, hprev⟩ := h.linked j b hb hbj
      rw [succOf_erase hn h0 hci hbj hne, predOf_erase hn h0 hci hbj hne, ← hnext, ← hprev]
      exact ⟨rfl, rfl⟩
    · rw [Function.update_of_ne hji] at hbj ⊢
      -- the lists are disjoint, so no neighbour of `c` is in another list
      have hother : ∀ p, p ∈ L i ∨ p = 0 → b.addr ≠ p := by
        rintro p hp rfl
        rcases hp with hp | hp
        · exact hji ((h.of_mem_list hb hbj).2.2.symm.trans (h.of_mem_list hb hp).2.2)
        · have := h.addr_pos hb
          omega
      rw [if_neg (hother _ (predOf_mem_or 0 (L i) c.addr)),
        if_neg (hother _ (succOf_mem_or 0 (L i) c.addr))]
      exact h.linked j b hb hbj

/-- What `insertChunk` does: `c` becomes the head of its list. -/
theorem Rep.link (h : Rep findBin lo s T L) (hc : c ∈ T) (hfree : c.kind = .free)
    (hunits : 1 ≤ c.units) (hbin : findBin c.units = i) (hunlisted : ∀ j, c.addr ∉ L j)
    (hq : Quiet (cellsOf T) s s') (hhead : s'.freeHead = Function.update s.freeHead i c.addr)
    (hrec : ∀ b ∈ T, recAt s'.mem b = { recAt s.mem b with
      next := if b.addr = c.addr then (L i).headD 0 else (recAt s.mem b).next
      prev := if b.addr = c.addr then 0
        else if b.addr = (L i).headD 0 then c.addr else (recAt s.mem b).prev }) :
    Rep findBin lo s' T (Function.update L i (c.addr :: L i)) := by
  have hc0 : c.addr ≠ 0 := (h.addr_pos hc).ne'
  refine ⟨hq.gHeapStart ▸ h.start, ?_, hq.gHeapEnd ▸ h.limit, h.sized, ?_, ?_, ?_, ?_, ?_⟩
  · rw [hq.gHeapStart, hq.gHeapEnd]
    exact h.tiles
  · intro b hb hraw
    obtain ⟨hf1, hf2, hf3⟩ := h.formed b hb hraw
    refine ⟨?_, ?_, ?_⟩
    · rw [hrec b hb]
      exact hf1
    · rw [hrec b hb]
      exact hf2
    · rw [hrec b hb]
      exact hf3
  · intro j
    rw [hhead]
    by_cases hji : j = i
    · subst hji
      rw [Function.update_self, Function.update_self, List.headD_cons]
    · rw [Function.update_of_ne hji, Function.update_of_ne hji, h.head j]
  · intro j
    by_cases hji : j = i
    · subst hji
      rw [Function.update_self]
      exact List.nodup_cons.mpr ⟨hunlisted j, h.nodup j⟩
    · rw [Function.update_of_ne hji]
      exact h.nodup j
  · intro j a ha
    by_cases hji : j = i
    · subst hji
      rw [Function.update_self] at ha
      rcases List.mem_cons.mp ha with rfl | ha
      · exact ⟨c, hc, rfl, hfree, hunits, hbin⟩
      · exact h.listed ha
    · rw [Function.update_of_ne hji] at ha
      exact h.listed ha
  · intro j b hb hbj
    rw [hrec b hb]
    by_cases hji : j = i
    · subst hji
      rw [Function.update_self] at hbj ⊢
      by_cases hbc : b.addr = c.addr
      · rw [if_pos hbc, if_pos hbc, hbc, predOf_cons_self (hunlisted j) hc0, succOf, if_pos rfl]
        exact ⟨rfl, rfl⟩
      · have hbl : b.addr ∈ L j := (List.mem_cons.mp hbj).resolve_left hbc
        obtain ⟨hnext, hprev⟩ := h.linked j b hb hbl
        rw [if_neg hbc, if_neg hbc, succOf_cons_of_ne hbc, predOf, ← hprev]
        exact ⟨hnext, rfl⟩
    · rw [Function.update_of_ne hji] at hbj ⊢
      have hbc : b.addr ≠ c.addr := fun heq => hunlisted j (heq ▸ hbj)
      have hbh : b.addr ≠ (L i).headD 0 := by
        intro heq
        by_cases hnil : L i = []
        · rw [hnil] at heq
          have := h.addr_pos hb
          exact this.ne' heq
        · have hbi : b.addr ∈ L i := heq ▸ headD_mem hnil
          exact hji ((h.of_mem_list hb hbj).2.2.symm.trans (h.of_mem_list hb hbi).2.2)
      rw [if_neg hbc, if_neg hbc, if_neg hbh]
      exact h.linked j b hb hbj

end Lists

end SnuSysProg.Heapmgr
