import Mathlib.Data.Finset.Card
import SnuSysProg.Lib.Cells

/-
  Which cells of a heap are somebody's.

  `Owns h s h₀`: the heap `h` is the heap `h₀` and the cells at the addresses `s`, and no more.
  An allocation adds an address to `s`, a `free` of one of them takes it off, and a heap that
  owns nothing beyond `h₀` is `h₀` again. Where it is only known which cells are there and how
  many, counting them decides that there are no others (`Owns.of_card`).
-/

namespace SnuSysProg.Lib

variable {C : Type} {h h₀ h₁ : Cells C} {s s' : List Addr} {a x : Addr} {c : C}

structure Owns (h : Cells C) (s : List Addr) (h₀ : Cells C) : Prop where
  nodup : s.Nodup
  nonnull : nullAddr ∉ s
  live : ∀ a ∈ s, a ∈ h
  new : ∀ a ∈ s, a ∉ h₀
  rest : ∀ x, x ∉ s → h.lookup x = h₀.lookup x

theorem Owns.refl (h : Cells C) : Owns h [] h where
  nodup := List.nodup_nil
  nonnull := List.not_mem_nil
  live := fun _ ha => absurd ha List.not_mem_nil
  new := fun _ ha => absurd ha List.not_mem_nil
  rest := fun _ _ => rfl

theorem Owns.eq (h' : Owns h [] h₀) : h = h₀ :=
  Finmap.ext_lookup fun x => h'.rest x List.not_mem_nil

theorem Owns.perm (h' : Owns h s h₀) (hs : s.Perm s') : Owns h s' h₀ where
  nodup := hs.nodup_iff.mp h'.nodup
  nonnull := fun h0 => h'.nonnull (hs.mem_iff.mpr h0)
  live := fun a ha => h'.live a (hs.mem_iff.mpr ha)
  new := fun a ha => h'.new a (hs.mem_iff.mpr ha)
  rest := fun x hx => h'.rest x fun hs' => hx (hs.mem_iff.mp hs')

/-- No cell is live that is neither owned nor of the heap before. -/
theorem Owns.mem_iff (h' : Owns h s h₀) : x ∈ h ↔ x ∈ s ∨ x ∈ h₀ := by
  by_cases hx : x ∈ s
  · exact iff_of_true (h'.live x hx) (Or.inl hx)
  · rw [← Finmap.lookup_isSome, h'.rest x hx, Finmap.lookup_isSome]
    exact ⟨Or.inr, fun h => h.resolve_left hx⟩

/-- A cell that was not in use comes to the owned ones. -/
theorem Owns.insert (h' : Owns h s h₀) (hne : a ≠ nullAddr) (ha : a ∉ h) :
    Owns (h.insert a c) (a :: s) h₀ := by
  obtain ⟨hs, h0⟩ := not_or.mp fun hmem => ha (h'.mem_iff.mpr hmem)
  refine ⟨List.nodup_cons.mpr ⟨hs, h'.nodup⟩, ?_, fun x hx => ?_, fun x hx => ?_, fun x hx => ?_⟩
  · rw [List.mem_cons, not_or]
    exact ⟨Ne.symm hne, h'.nonnull⟩
  · rcases List.mem_cons.mp hx with rfl | hx
    · exact Finmap.mem_insert.mpr (Or.inl rfl)
    · exact Finmap.mem_insert.mpr (Or.inr (h'.live x hx))
  · rcases List.mem_cons.mp hx with rfl | hx
    · exact h0
    · exact h'.new x hx
  · obtain ⟨hxa, hxs⟩ := not_or.mp (mt List.mem_cons.mpr hx)
    rw [Finmap.lookup_insert_of_ne _ hxa]
    exact h'.rest x hxs

theorem Owns.alloc {A : Allocator C} (h' : Owns h s h₀) :
    Returns (allocCell A c) h fun a h₁ =>
      (a = nullAddr ∧ h₁ = h) ∨ (a ≠ nullAddr ∧ Owns h₁ (a :: s) h₀) := by
  cases hA : A.choose h with
  | none => exact Returns.intro (allocCell_none hA) (Or.inl ⟨rfl, rfl⟩)
  | some a =>
    obtain ⟨hne, hfresh⟩ := A.fresh hA
    exact Returns.intro (allocCell_some hA) (Or.inr ⟨hne, h'.insert hne hfresh⟩)

/-- `Owns.alloc`, with what the cell holds. -/
theorem Owns.allocate {A : Allocator C} (h' : Owns h s h₀) :
    Returns (allocCell A c) h fun a h₁ =>
      (a = nullAddr ∧ h₁ = h ∧ A.choose h = none) ∨
        (a ≠ nullAddr ∧ Owns h₁ (a :: s) h₀ ∧ h₁.lookup a = some c ∧ AgreeAt s h h₁) := by
  cases hA : A.choose h with
  | none => exact Returns.intro (allocCell_none hA) (Or.inl ⟨rfl, rfl, rfl⟩)
  | some a =>
    obtain ⟨hne, hfresh⟩ := A.fresh hA
    have howns := h'.insert (c := c) hne hfresh
    exact Returns.intro (allocCell_some hA) (Or.inr ⟨hne, howns, Finmap.lookup_insert _,
      AgreeAt.insert (List.nodup_cons.mp howns.nodup).1⟩)

/-- What is owned beyond a heap that itself owns. -/
theorem Owns.trans (h12 : Owns h₁ s' h) (h01 : Owns h s h₀) : Owns h₁ (s' ++ s) h₀ where
  nodup := h12.nodup.append h01.nodup fun x hs' hs => h12.new x hs' (h01.live x hs)
  nonnull h0 := (List.mem_append.mp h0).elim h12.nonnull h01.nonnull
  live x hx := by
    rcases List.mem_append.mp hx with hx | hx
    · exact h12.live x hx
    · exact h12.mem_iff.mpr (Or.inr (h01.live x hx))
  new x hx := by
    rcases List.mem_append.mp hx with hx | hx
    · exact fun h0 => h12.new x hx (h01.mem_iff.mpr (Or.inr h0))
    · exact h01.new x hx
  rest x hx := by
    obtain ⟨hs', hs⟩ := not_or.mp (mt List.mem_append.mpr hx)
    rw [h12.rest x hs', h01.rest x hs]

/-- An owned cell is given back. -/
theorem Owns.free (h' : Owns h (a :: s) h₀) :
    freeCell a h = .ok ((), h.erase a) ∧ Owns (h.erase a) s h₀ := by
  have ha : a ∈ a :: s := List.mem_cons_self ..
  obtain ⟨hout, hs⟩ := List.nodup_cons.mp h'.nodup
  have hne : ∀ x ∈ s, x ≠ a := fun x hx hxa => hout (hxa ▸ hx)
  refine ⟨freeCell_ok (fun h0 => h'.nonnull (h0 ▸ ha)) (h'.live a ha), hs,
    fun h0 => h'.nonnull (List.mem_cons_of_mem a h0), fun x hx => ?_,
    fun x hx => h'.new x (List.mem_cons_of_mem a hx), fun x hx => ?_⟩
  · exact Finmap.mem_erase.mpr ⟨hne x hx, h'.live x (List.mem_cons_of_mem a hx)⟩
  · by_cases hxa : x = a
    · rw [hxa, Finmap.lookup_erase, Finmap.lookup_eq_none.mpr (h'.new a ha)]
    · rw [Finmap.lookup_erase_ne hxa]
      exact h'.rest x (mt List.mem_cons.mp (not_or.mpr ⟨hxa, hx⟩))

/-- Writing to an owned cell. -/
theorem Owns.write (h' : Owns h s h₀) (ha : a ∈ s) :
    writeCell a c h = .ok ((), h.insert a c) ∧ Owns (h.insert a c) s h₀ := by
  refine ⟨writeCell_ok (h'.live a ha), h'.nodup, h'.nonnull, fun x hx => ?_, h'.new, fun x hx => ?_⟩
  · exact Finmap.mem_insert.mpr (Or.inr (h'.live x hx))
  · rw [Finmap.lookup_insert_of_ne _ fun hxa : x = a => hx (hxa ▸ ha)]
    exact h'.rest x hx

/-- `realloc`: the cell with new contents, where it was or elsewhere, or `NULL` and the cell as it
    is. -/
def reallocCell (A : Allocator C) (a : Addr) (c : C) : CellM C Addr := do
  let h ← get
  if a = nullAddr then allocCell A c
  else if a ∈ h then
    match A.choose (h.erase a) with
    | none => return nullAddr
    | some b =>
      set ((h.erase a).insert b c)
      return b
  else throw .dangling

theorem Owns.realloc {A : Allocator C} (h' : Owns h (a :: s) h₀) :
    Returns (reallocCell A a c) h fun b h₁ =>
      (b = nullAddr ∧ h₁ = h ∧ A.choose (h.erase a) = none) ∨
        (b ≠ nullAddr ∧ Owns h₁ (b :: s) h₀ ∧ h₁.lookup b = some c ∧ AgreeAt s h h₁) := by
  have hmem : a ∈ a :: s := List.mem_cons_self ..
  have hne : a ≠ nullAddr := fun h0 => h'.nonnull (h0 ▸ hmem)
  have hout : a ∉ s := (List.nodup_cons.mp h'.nodup).1
  have hopen : reallocCell A a c h = (match A.choose (h.erase a) with
      | none => Pure.pure nullAddr
      | some b => do
        set ((h.erase a).insert b c)
        Pure.pure b : CellM C Addr) h := by
    unfold reallocCell
    rw [bind_of_ok (get_apply h), if_neg hne, if_pos (h'.live a hmem)]
  unfold Returns
  rw [hopen]
  cases hA : A.choose (h.erase a) with
  | none => exact ⟨nullAddr, h, rfl, Or.inl ⟨rfl, rfl, rfl⟩⟩
  | some b =>
    obtain ⟨hb, hfresh⟩ := A.fresh hA
    have howns : Owns ((h.erase a).insert b c) (b :: s) h₀ := h'.free.2.insert hb hfresh
    refine ⟨b, _, rfl, Or.inr ⟨hb, howns, Finmap.lookup_insert _, fun x hx => ?_⟩⟩
    have hxb : x ≠ b := fun hxb => (List.nodup_cons.mp howns.nodup).1 (hxb ▸ hx)
    rw [Finmap.lookup_insert_of_ne _ hxb, Finmap.lookup_erase_ne fun hxa : x = a => hout (hxa ▸ hx)]

/-- The heap `h` has what `h₀` had and the cells at `s`; as many cells are no others. -/
theorem Owns.of_card (hs : s.Nodup) (hnull : nullAddr ∉ s) (hlive : ∀ a ∈ s, a ∈ h)
    (hnew : ∀ a ∈ s, a ∉ h₀) (hkeep : ∀ x ∈ h₀, h.lookup x = h₀.lookup x)
    (hcard : h.keys.card = h₀.keys.card + s.length) : Owns h s h₀ := by
  refine ⟨hs, hnull, hlive, hnew, fun x hx => ?_⟩
  by_cases hx0 : x ∈ h₀
  · exact hkeep x hx0
  · rw [Finmap.lookup_eq_none.mpr hx0, Finmap.lookup_eq_none]
    intro hmem
    have hdisj : Disjoint h₀.keys s.toFinset :=
      Finset.disjoint_left.mpr fun y hy hys =>
        hnew y (List.mem_toFinset.mp hys) (Finmap.mem_keys.mp hy)
    have hsub : h₀.keys ∪ s.toFinset ⊆ h.keys := by
      intro y hy
      rcases Finset.mem_union.mp hy with hy | hy
      · have hy0 := Finmap.mem_keys.mp hy
        refine Finmap.mem_keys.mpr ?_
        rw [← Finmap.lookup_isSome, hkeep y hy0, Finmap.lookup_isSome]
        exact hy0
      · exact Finmap.mem_keys.mpr (hlive y (List.mem_toFinset.mp hy))
    have heq : h₀.keys ∪ s.toFinset = h.keys := by
      refine Finset.eq_of_subset_of_card_le hsub ?_
      rw [Finset.card_union_of_disjoint hdisj, List.toFinset_card_of_nodup hs, hcard]
    have hin : x ∈ h₀.keys ∪ s.toFinset := heq ▸ Finmap.mem_keys.mpr hmem
    rcases Finset.mem_union.mp hin with hin | hin
    · exact hx0 (Finmap.mem_keys.mp hin)
    · exact hx (List.mem_toFinset.mp hin)

/-! ## How many cells there are -/

theorem keys_insert : (h.insert a c).keys = insert a h.keys := by
  ext x
  rw [Finmap.mem_keys, Finmap.mem_insert, Finset.mem_insert, Finmap.mem_keys]

theorem card_insert_new (ha : a ∉ h) : (h.insert a c).keys.card = h.keys.card + 1 := by
  rw [keys_insert, Finset.card_insert_of_notMem (mt Finmap.mem_keys.mp ha)]

theorem card_insert_live (ha : a ∈ h) : (h.insert a c).keys.card = h.keys.card := by
  rw [keys_insert, Finset.insert_eq_of_mem (Finmap.mem_keys.mpr ha)]

theorem card_erase (ha : a ∈ h) : (h.erase a).keys.card + 1 = h.keys.card := by
  rw [Finmap.keys_erase]
  exact Finset.card_erase_add_one (Finmap.mem_keys.mpr ha)

/-- What an allocation, a write and a `free` that succeed do to the number of cells. -/
theorem card_allocCell {A : Allocator C} (hne : a ≠ nullAddr)
    (hrun : allocCell A c h = .ok (a, h₁)) : h₁.keys.card = h.keys.card + 1 := by
  cases hA : A.choose h with
  | none =>
    rw [allocCell_none hA, Except.ok.injEq, Prod.mk.injEq] at hrun
    exact absurd hrun.1.symm hne
  | some b =>
    rw [allocCell_some hA, Except.ok.injEq, Prod.mk.injEq] at hrun
    rw [← hrun.2]
    exact card_insert_new (A.fresh hA).2

theorem card_writeCell (hrun : writeCell a c h = .ok ((), h₁)) : h₁.keys.card = h.keys.card := by
  by_cases ha : a ∈ h
  · rw [writeCell_ok ha, Except.ok.injEq, Prod.mk.injEq] at hrun
    rw [← hrun.2]
    exact card_insert_live ha
  · unfold writeCell at hrun
    rw [bind_of_ok (get_apply h), if_neg ha] at hrun
    exact absurd hrun (by simp [throw, throwThe, MonadExceptOf.throw, StateT.lift])

theorem card_freeCell (hne : a ≠ nullAddr) (hrun : freeCell a h = .ok ((), h₁)) :
    h₁.keys.card + 1 = h.keys.card := by
  by_cases ha : a ∈ h
  · rw [freeCell_ok hne ha, Except.ok.injEq, Prod.mk.injEq] at hrun
    rw [← hrun.2]
    exact card_erase ha
  · unfold freeCell at hrun
    rw [bind_of_ok (get_apply h), if_neg hne, if_neg ha] at hrun
    exact absurd hrun (by simp [throw, throwThe, MonadExceptOf.throw, StateT.lift])

end SnuSysProg.Lib
