import Mathlib.Data.List.Sort

/-
  Comparison functions in the manner of C, and `qsort`.

  A comparison function gives a negative number, zero or a positive number. The C standard says of
  `qsort` that the array is in the order of the function afterwards, and leaves open how elements
  that compare equal are arranged; it asks of the function that it is an order (`Orders`). So
  `Qsort` is any function that does that. Where no two elements compare equal there is only one
  such arrangement (`sorted_unique`).
-/

namespace SnuSysProg.Lib

variable {α β : Type*} {cmp : α → α → Int} {l l' : List α}

/-- `cmp` is the comparison function of a total preorder. -/
structure Orders (cmp : α → α → Int) : Prop where
  total : ∀ a b, cmp a b ≤ 0 ∨ cmp b a ≤ 0
  trans : ∀ a b c, cmp a b ≤ 0 → cmp b c ≤ 0 → cmp a c ≤ 0

/-- Elements may be compared through what they stand for. -/
theorem Orders.comap (h : Orders cmp) (f : β → α) : Orders fun a b => cmp (f a) (f b) :=
  ⟨fun a b => h.total (f a) (f b), fun a b c => h.trans (f a) (f b) (f c)⟩

/-- On the elements of the list `cmp` is a strict total order. -/
structure StrictlyOrders (cmp : α → α → Int) (l : List α) : Prop where
  self : ∀ a ∈ l, cmp a a = 0
  trans : ∀ a ∈ l, ∀ b ∈ l, ∀ c ∈ l, cmp a b < 0 → cmp b c < 0 → cmp a c < 0
  total : ∀ a ∈ l, ∀ b ∈ l, a ≠ b → cmp a b < 0 ∧ 0 < cmp b a ∨ cmp b a < 0 ∧ 0 < cmp a b

/-- A preorder is strict where only equal elements compare equal. -/
theorem Orders.strict (h : Orders cmp) (hswap : ∀ a b, cmp b a = -cmp a b)
    (hanti : ∀ a ∈ l, ∀ b ∈ l, cmp a b = 0 → a = b) : StrictlyOrders cmp l := by
  refine ⟨fun a _ => ?_, fun a _ b _ c _ hab hbc => ?_, fun a ha b hb hne => ?_⟩
  · have hself := hswap a a
    omega
  · have hac := h.trans a b c (Int.le_of_lt hab) (Int.le_of_lt hbc)
    have hca := hswap a c
    have hcb := hswap b c
    by_contra hnot
    have hback := h.trans c a b (by omega) (Int.le_of_lt hab)
    omega
  · have hzero : cmp a b ≠ 0 := fun heq => hne (hanti a ha b hb heq)
    have hba := hswap a b
    omega

/-- The list is in the order of `cmp`. -/
def InOrderOf (cmp : α → α → Int) (l : List α) : Prop := l.Pairwise fun a b => cmp a b ≤ 0

/-- A function that does what `qsort` does. -/
structure Qsort (α : Type*) where
  sort : (α → α → Int) → List α → List α
  perm : ∀ cmp l, (sort cmp l).Perm l
  sorted : ∀ cmp l, Orders cmp → InOrderOf cmp (sort cmp l)

/-- Insertion sort is one. -/
def Qsort.insertion (α : Type*) : Qsort α where
  sort cmp l := l.insertionSort fun a b => cmp a b ≤ 0
  perm _ l := List.perm_insertionSort _ l
  sorted cmp l h :=
    haveI : Std.Total fun a b => cmp a b ≤ 0 := ⟨h.total⟩
    haveI : IsTrans α fun a b => cmp a b ≤ 0 := ⟨h.trans⟩
    List.pairwise_insertionSort _ l

theorem Qsort.length (q : Qsort α) (cmp : α → α → Int) (l : List α) :
    (q.sort cmp l).length = l.length := (q.perm cmp l).length_eq

theorem Qsort.mem (q : Qsort α) {a : α} : a ∈ q.sort cmp l ↔ a ∈ l := (q.perm cmp l).mem_iff

/-- Two arrangements in order are the same, where only equal elements compare equal. -/
theorem sorted_unique (hanti : ∀ a ∈ l, ∀ b ∈ l, cmp a b ≤ 0 → cmp b a ≤ 0 → a = b)
    (h : InOrderOf cmp l) (h' : InOrderOf cmp l') (hperm : l.Perm l') : l = l' :=
  hperm.eq_of_pairwise
    (fun a b ha hb hab hba => hanti a ha b (hperm.symm.subset hb) hab hba) h h'

/-- Sorting references to things puts the things in order. -/
theorem Qsort.sort_comap (q : Qsort β) (hcmp : Orders cmp) (f : β → α) (l : List β) :
    ((q.sort (fun a b => cmp (f a) (f b)) l).map f).Perm (l.map f) ∧
      InOrderOf cmp ((q.sort (fun a b => cmp (f a) (f b)) l).map f) :=
  ⟨(q.perm _ l).map f, List.pairwise_map.mpr (q.sorted _ l (hcmp.comap f))⟩

end SnuSysProg.Lib
