import SnuSysProg.Lib.Sort

/-
  `dirtree.c`: directory entries and their order.

  A name is the list of its bytes, without the NUL that ends it. Of a `struct dirent` the program
  looks at the name and the type.
-/

namespace SnuSysProg.Dirtree
open SnuSysProg.Lib

/-- The bytes of a C string. -/
abbrev Str := List UInt8

def ascii (s : String) : Str := s.toList.map fun c => c.toNat.toUInt8

/-- `d_type`. -/
inductive DType where
  | unknown
  | fifo
  | chr
  | dir
  | blk
  | reg
  | lnk
  | sock
  deriving DecidableEq, Repr

/-- `struct dirent`. -/
structure Dirent where
  dName : Str
  dType : DType
  deriving DecidableEq, Repr

/-- `strcmp`: the bytes are compared as `unsigned char`s. -/
def strcmp : Str → Str → Int
  | [], [] => 0
  | [], _ :: _ => -1
  | _ :: _, [] => 1
  | a :: s, b :: t => if a = b then strcmp s t else if a < b then -1 else 1

/-- `dirent_compare`, on the entries that its arguments point to pointers to. -/
def direntCompare (e1 e2 : Dirent) : Int :=
  if e1.dType ≠ e2.dType ∧ e1.dType = .dir then -1
  else if e1.dType ≠ e2.dType ∧ e2.dType = .dir then 1
  else strcmp e1.dName e2.dName

/-- The entries that `getNext` passes over. -/
def ignored (e : Dirent) : Bool :=
  strcmp e.dName (ascii ".") = 0 || strcmp e.dName (ascii "..") = 0

/-! ## The order of strings -/

theorem strcmp_self (s : Str) : strcmp s s = 0 := by
  induction s with
  | nil => rfl
  | cons a s ih => rw [strcmp, if_pos rfl, ih]

theorem strcmp_eq_zero {s t : Str} : strcmp s t = 0 ↔ s = t := by
  constructor
  · intro h
    fun_induction strcmp s t with
    | case1 => rfl
    | case2 => exact absurd h (by decide)
    | case3 => exact absurd h (by decide)
    | case4 s b t ih => rw [ih h]
    | case5 => exact absurd h (by decide)
    | case6 => exact absurd h (by decide)
  · rintro rfl
    exact strcmp_self s

/-- Exchanging the strings turns the sign around. -/
theorem strcmp_swap (s t : Str) : strcmp t s = -strcmp s t := by
  fun_induction strcmp s t with
  | case1 => rfl
  | case2 => rfl
  | case3 => rfl
  | case4 s b t ih => rw [strcmp, if_pos rfl, ih]
  | case5 a s b t hne hlt =>
    have hnot : ¬ b < a := fun h => absurd (UInt8.lt_trans hlt h) (UInt8.lt_irrefl a)
    rw [strcmp, if_neg (Ne.symm hne), if_neg hnot]
    rfl
  | case6 a s b t hne hnot =>
    have hlt : b < a := UInt8.lt_of_le_of_ne (UInt8.not_lt.mp hnot) (Ne.symm hne)
    rw [strcmp, if_neg (Ne.symm hne), if_pos hlt]

theorem strcmp_cons_le {a b : UInt8} {s t : Str} :
    strcmp (a :: s) (b :: t) ≤ 0 ↔ a < b ∨ a = b ∧ strcmp s t ≤ 0 := by
  rw [strcmp]
  by_cases hab : a = b
  · subst hab
    rw [if_pos rfl]
    exact ⟨fun h => Or.inr ⟨rfl, h⟩, fun h => h.elim (fun hlt => absurd hlt (UInt8.lt_irrefl a))
      And.right⟩
  · rw [if_neg hab]
    by_cases hlt : a < b
    · rw [if_pos hlt]
      exact iff_of_true (by decide) (Or.inl hlt)
    · rw [if_neg hlt]
      exact iff_of_false (by decide) fun h => h.elim hlt fun hh => hab hh.1

theorem strcmp_trans {s t u : Str} (h : strcmp s t ≤ 0) (h' : strcmp t u ≤ 0) : strcmp s u ≤ 0 := by
  induction s generalizing t u with
  | nil => cases u <;> simp [strcmp]
  | cons a s ih =>
    cases t with
    | nil => exact absurd h (by simp [strcmp])
    | cons b t =>
      cases u with
      | nil => exact absurd h' (by simp [strcmp])
      | cons c u =>
        rw [strcmp_cons_le] at h h' ⊢
        obtain hab | ⟨rfl, hst⟩ := h
        · obtain hbc | ⟨rfl, -⟩ := h'
          · exact Or.inl (UInt8.lt_trans hab hbc)
          · exact Or.inl hab
        · exact h'.imp_right fun ⟨hac, htu⟩ => ⟨hac, ih hst htu⟩

theorem strcmp_total (s t : Str) : strcmp s t ≤ 0 ∨ strcmp t s ≤ 0 := by
  have hswap := strcmp_swap s t
  omega

/-- Strings that are not after each other are the same. -/
theorem strcmp_antisymm {s t : Str} (h : strcmp s t ≤ 0) (h' : strcmp t s ≤ 0) : s = t := by
  have hswap := strcmp_swap s t
  exact strcmp_eq_zero.mp (by omega)

/-! ## The order of entries -/

/-- Directories come first, and then the names decide. -/
def Before (e1 e2 : Dirent) : Prop :=
  e1.dType = .dir ∧ e2.dType ≠ .dir ∨
    (e1.dType = .dir ↔ e2.dType = .dir) ∧ strcmp e1.dName e2.dName ≤ 0

instance : DecidableRel Before := fun _ _ => inferInstanceAs (Decidable (_ ∨ _))

theorem direntCompare_le {e1 e2 : Dirent} : direntCompare e1 e2 ≤ 0 ↔ Before e1 e2 := by
  unfold direntCompare Before
  by_cases h1 : e1.dType = .dir <;> by_cases h2 : e2.dType = .dir
  · simp [h1, h2]
  · have hne : e1.dType ≠ e2.dType := fun heq => h2 (heq ▸ h1)
    rw [if_pos ⟨hne, h1⟩]
    exact iff_of_true (by decide) (Or.inl ⟨h1, h2⟩)
  · have hne : e1.dType ≠ e2.dType := fun heq => h1 (heq ▸ h2)
    rw [if_neg (fun h => h1 h.2), if_pos ⟨hne, h2⟩]
    exact iff_of_false (by decide) (by simp [h1, h2])
  · simp [h1, h2]

theorem orders_direntCompare : Orders direntCompare := by
  refine ⟨fun a b => ?_, fun a b c hab hbc => ?_⟩
  · rw [direntCompare_le, direntCompare_le]
    unfold Before
    have htotal := strcmp_total a.dName b.dName
    tauto
  · rw [direntCompare_le] at hab hbc ⊢
    unfold Before at hab hbc ⊢
    have htrans := fun h h' => strcmp_trans (s := a.dName) (t := b.dName) (u := c.dName) h h'
    tauto

/-- Entries that are not after each other have the same name. -/
theorem direntCompare_antisymm {e1 e2 : Dirent} (h : direntCompare e1 e2 ≤ 0)
    (h' : direntCompare e2 e1 ≤ 0) : e1.dName = e2.dName := by
  rw [direntCompare_le] at h h'
  unfold Before at h h'
  have hanti := fun h h' => strcmp_antisymm (s := e1.dName) (t := e2.dName) h h'
  tauto

/-- Exchanging the entries turns the sign around. -/
theorem direntCompare_swap (e1 e2 : Dirent) : direntCompare e2 e1 = -direntCompare e1 e2 := by
  unfold direntCompare
  by_cases hsame : e1.dType = e2.dType
  · rw [if_neg (fun h => h.1 hsame.symm), if_neg (fun h => h.1 hsame.symm),
      if_neg (fun h => h.1 hsame), if_neg (fun h => h.1 hsame)]
    exact strcmp_swap e1.dName e2.dName
  · by_cases h1 : e1.dType = .dir
    · have h2 : e2.dType ≠ .dir := fun h2 => hsame (h1.trans h2.symm)
      rw [if_neg (fun h => h2 h.2), if_pos ⟨Ne.symm hsame, h1⟩, if_pos ⟨hsame, h1⟩]
      rfl
    · by_cases h2 : e2.dType = .dir
      · rw [if_pos ⟨Ne.symm hsame, h2⟩, if_neg (fun h => h1 h.2), if_pos ⟨hsame, h2⟩]
      · rw [if_neg (fun h => h2 h.2), if_neg (fun h => h1 h.2), if_neg (fun h => h1 h.2),
          if_neg (fun h => h2 h.2)]
        exact strcmp_swap e1.dName e2.dName

/-- A directory is before every other entry. -/
theorem direntCompare_dir {e1 e2 : Dirent} (h1 : e1.dType = .dir) (h2 : e2.dType ≠ .dir) :
    direntCompare e1 e2 < 0 := by
  have hne : e1.dType ≠ e2.dType := fun heq => h2 (heq ▸ h1)
  unfold direntCompare
  rw [if_pos ⟨hne, h1⟩]
  decide

/-- On entries with different names it is a strict total order. -/
theorem direntCompare_strict {entries : List Dirent} (hnames : (entries.map Dirent.dName).Nodup) :
    StrictlyOrders direntCompare entries := by
  refine orders_direntCompare.strict direntCompare_swap fun a ha b hb hzero => ?_
  have hback := direntCompare_swap a b
  exact List.inj_on_of_nodup_map hnames ha hb (direntCompare_antisymm (by omega) (by omega))

end SnuSysProg.Dirtree
