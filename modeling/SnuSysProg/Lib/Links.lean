import Mathlib.Data.List.Basic
import Mathlib.Data.List.Nodup

/-
  Doubly linked lists, seen through the list of their nodes.

  In the list `l` of nodes, `succOf null l a` and `predOf null l a` are the two pointers of the
  node `a`, `null` at the ends. The three lemmas about `erase` say how unlinking a node changes
  the pointers of the others and the head; `insertAfter` links a new node behind another one.
  `Follows next a l`: the `next` pointers from `a` run through `l` and end at `null`.
-/

namespace SnuSysProg.Lib

variable {α : Type*} [DecidableEq α] {null : α}

def succOf (null : α) : List α → α → α
  | [], _ => null
  | x :: l, a => if a = x then l.headD null else succOf null l a

def predOf (null : α) : List α → α → α
  | [], _ => null
  | x :: l, a => if a = l.headD null then x else predOf null l a

variable {l : List α} {a c d : α}

omit [DecidableEq α] in
theorem headD_mem (h : l ≠ []) : l.headD null ∈ l := by
  cases l with
  | nil => exact absurd rfl h
  | cons x l => exact List.mem_cons_self ..

theorem succOf_mem_or (null : α) (l : List α) (a : α) :
    succOf null l a ∈ l ∨ succOf null l a = null := by
  induction l with
  | nil => exact Or.inr rfl
  | cons x l ih =>
    rw [succOf]
    split
    · by_cases hl : l = []
      · subst hl
        exact Or.inr rfl
      · exact Or.inl (List.mem_cons_of_mem _ (headD_mem hl))
    · exact ih.imp (List.mem_cons_of_mem _) id

theorem predOf_mem_or (null : α) (l : List α) (a : α) :
    predOf null l a ∈ l ∨ predOf null l a = null := by
  induction l with
  | nil => exact Or.inr rfl
  | cons x l ih =>
    rw [predOf]
    split
    · exact Or.inl (List.mem_cons_self ..)
    · exact ih.imp (List.mem_cons_of_mem _) id

omit [DecidableEq α] in
/-- What is not in the list is not its head. -/
theorem ne_headD (ha : a ∉ l) (hnull : a ≠ null) : a ≠ l.headD null := by
  by_cases hl : l = []
  · subst hl
    exact hnull
  · exact fun h => ha (h ▸ headD_mem hl)

theorem predOf_of_notMem (ha : a ∉ l) (hnull : a ≠ null) : predOf null l a = null := by
  induction l with
  | nil => rfl
  | cons x l ih =>
    have hl : a ∉ l := fun h => ha (List.mem_cons_of_mem _ h)
    rw [predOf, if_neg (ne_headD hl hnull), ih hl]

theorem succOf_cons_of_ne (h : a ≠ c) : succOf null (c :: l) a = succOf null l a := if_neg h

theorem predOf_cons_self (hc : c ∉ l) (hnull : c ≠ null) : predOf null (c :: l) c = null := by
  rw [predOf, if_neg (ne_headD hc hnull), predOf_of_notMem hc hnull]

/-- Only the head has no predecessor. -/
theorem predOf_eq_null_iff (hnodup : l.Nodup) (hnull : null ∉ l) (hc : c ∈ l) :
    predOf null l c = null ↔ c = l.headD null := by
  induction l with
  | nil => exact absurd hc List.not_mem_nil
  | cons x l ih =>
    obtain ⟨hx, hnodup⟩ := List.nodup_cons.mp hnodup
    have hxnull : x ≠ null := fun h => hnull (h ▸ List.mem_cons_self ..)
    have hnull' : null ∉ l := fun h => hnull (List.mem_cons_of_mem _ h)
    rw [List.headD_cons]
    rcases List.mem_cons.mp hc with rfl | hcl
    · exact iff_of_true (predOf_cons_self hx hxnull) rfl
    · have hcx : c ≠ x := fun h => hx (h ▸ hcl)
      refine iff_of_false ?_ hcx
      rw [predOf]
      split
      · exact hxnull
      · rwa [ih hnodup hnull' hcl]

/-- The two pointers agree: `a` precedes `c` if and only if `c` follows `a`. -/
theorem eq_predOf_iff (hnodup : l.Nodup) (hnull : null ∉ l) (ha : a ∈ l) (hc : c ∈ l) :
    a = predOf null l c ↔ succOf null l a = c := by
  induction l with
  | nil => exact absurd hc List.not_mem_nil
  | cons x l ih =>
    obtain ⟨hx, hnodup'⟩ := List.nodup_cons.mp hnodup
    have hnull' : null ∉ l := fun h => hnull (List.mem_cons_of_mem _ h)
    have hcnull : c ≠ null := fun h => hnull (h ▸ hc)
    rw [predOf, succOf]
    by_cases hax : a = x
    · subst hax
      rw [if_pos rfl]
      by_cases hhead : c = l.headD null
      · simp [hhead]
      · rw [if_neg hhead]
        refine iff_of_false ?_ (Ne.symm hhead)
        intro h
        rcases predOf_mem_or null l c with hmem | hnil
        · exact hx (h ▸ hmem)
        · exact hnull ((h.trans hnil) ▸ List.mem_cons_self ..)
    · have hal : a ∈ l := (List.mem_cons.mp ha).resolve_left hax
      rw [if_neg hax]
      by_cases hhead : c = l.headD null
      · rw [if_pos hhead]
        have hcl : c ∈ l := hhead ▸ headD_mem (List.ne_nil_of_mem hal)
        have hpred := (predOf_eq_null_iff hnodup' hnull' hcl).mpr hhead
        have hno : ¬ succOf null l a = c := by
          rw [← ih hnodup' hnull' hal hcl, hpred]
          exact fun h => hnull' (h ▸ hal)
        exact iff_of_false hax hno
      · rw [if_neg hhead]
        rcases List.mem_cons.mp hc with rfl | hcl
        · have hsucc : succOf null l a ≠ c := fun h => by
            rcases succOf_mem_or null l a with hmem | hnil
            · exact hx (h ▸ hmem)
            · exact hcnull (h ▸ hnil)
          refine iff_of_false (fun h => ?_) hsucc
          rw [predOf_of_notMem hx hcnull] at h
          exact hnull' (h ▸ hal)
        · exact ih hnodup' hnull' hal hcl

theorem succOf_ne_self (hnodup : l.Nodup) (hnull : null ∉ l) (ha : a ∈ l) :
    succOf null l a ≠ a := by
  induction l with
  | nil => exact absurd ha List.not_mem_nil
  | cons x l ih =>
    obtain ⟨hx, hnodup'⟩ := List.nodup_cons.mp hnodup
    have hnull' : null ∉ l := fun h => hnull (List.mem_cons_of_mem _ h)
    by_cases hax : a = x
    · subst hax
      have hanull : a ≠ null := fun h => hnull (h ▸ List.mem_cons_self ..)
      rw [succOf, if_pos rfl]
      exact (ne_headD hx hanull).symm
    · rw [succOf_cons_of_ne hax]
      exact ih hnodup' hnull' ((List.mem_cons.mp ha).resolve_left hax)

/-! ## Unlinking a node -/

theorem headD_erase (hnodup : l.Nodup) (hnull : null ∉ l) (hc : c ∈ l) :
    (l.erase c).headD null = if predOf null l c = null then succOf null l c else l.headD null := by
  rw [if_congr (predOf_eq_null_iff hnodup hnull hc) rfl rfl]
  cases l with
  | nil => exact absurd hc List.not_mem_nil
  | cons x l =>
    by_cases hxc : c = x
    · subst hxc
      simp [succOf]
    · rw [List.headD_cons, if_neg hxc, List.erase_cons_tail (by simpa using Ne.symm hxc)]
      rfl

theorem succOf_erase (hnodup : l.Nodup) (hnull : null ∉ l) (hc : c ∈ l) (ha : a ∈ l)
    (hac : a ≠ c) : succOf null (l.erase c) a =
      if a = predOf null l c then succOf null l c else succOf null l a := by
  rw [if_congr (eq_predOf_iff hnodup hnull ha hc) rfl rfl]
  induction l with
  | nil => exact absurd hc List.not_mem_nil
  | cons x l ih =>
    obtain ⟨hx, hnodup'⟩ := List.nodup_cons.mp hnodup
    have hnull' : null ∉ l := fun h => hnull (List.mem_cons_of_mem _ h)
    by_cases hxc : c = x
    · subst hxc
      have hal : a ∈ l := (List.mem_cons.mp ha).resolve_left hac
      have hne : succOf null l a ≠ c := fun h => by
        rcases succOf_mem_or null l a with hmem | hnil
        · exact hx (h ▸ hmem)
        · exact hnull (h.symm.trans hnil ▸ List.mem_cons_self ..)
      rw [List.erase_cons_head, succOf_cons_of_ne hac, if_neg hne]
    · have hcl : c ∈ l := (List.mem_cons.mp hc).resolve_left hxc
      rw [List.erase_cons_tail (by simpa using Ne.symm hxc)]
      by_cases hax : a = x
      · subst hax
        rw [succOf, if_pos rfl, headD_erase hnodup' hnull' hcl, succOf, if_pos rfl,
          succOf_cons_of_ne (Ne.symm hac)]
        refine if_congr ?_ rfl rfl
        rw [predOf_eq_null_iff hnodup' hnull' hcl]
        exact eq_comm
      · have hal : a ∈ l := (List.mem_cons.mp ha).resolve_left hax
        rw [succOf_cons_of_ne hax, succOf_cons_of_ne hax, succOf_cons_of_ne hxc,
          ih hnodup' hnull' hcl hal]

theorem predOf_erase (hnodup : l.Nodup) (hnull : null ∉ l) (hc : c ∈ l) (ha : a ∈ l)
    (hac : a ≠ c) : predOf null (l.erase c) a =
      if a = succOf null l c then predOf null l c else predOf null l a := by
  have hanull : a ≠ null := fun h => hnull (h ▸ ha)
  induction l with
  | nil => exact absurd hc List.not_mem_nil
  | cons x l ih =>
    obtain ⟨hx, hnodup'⟩ := List.nodup_cons.mp hnodup
    have hnull' : null ∉ l := fun h => hnull (List.mem_cons_of_mem _ h)
    by_cases hxc : c = x
    · subst hxc
      have hal : a ∈ l := (List.mem_cons.mp ha).resolve_left hac
      have hcnull : c ≠ null := fun h => hnull (h ▸ hc)
      rw [List.erase_cons_head, succOf, if_pos rfl, predOf_cons_self hx hcnull, predOf]
      split
      · rwa [predOf_eq_null_iff hnodup' hnull' hal]
      · rfl
    · have hcl : c ∈ l := (List.mem_cons.mp hc).resolve_left hxc
      rw [List.erase_cons_tail (by simpa using Ne.symm hxc), succOf_cons_of_ne hxc]
      by_cases hax : a = x
      · subst hax
        have hnot : a ≠ succOf null l c := fun h => by
          rcases succOf_mem_or null l c with hmem | hnil
          · exact hx (h ▸ hmem)
          · exact hanull (h.trans hnil)
        rw [if_neg hnot, predOf_cons_self hx hanull,
          predOf_cons_self (fun h => hx (List.mem_of_mem_erase h)) hanull]
      · have hal : a ∈ l := (List.mem_cons.mp ha).resolve_left hax
        have htail := ih hnodup' hnull' hcl hal
        have hhead := headD_erase hnodup' hnull' hcl
        have hpred := predOf_eq_null_iff hnodup' hnull' hcl
        have hcons : ∀ b k, predOf null (x :: k) b =
            if b = k.headD null then x else predOf null k b :=
          fun _ _ => rfl
        rw [hcons, hcons, hcons, hhead, htail]
        by_cases hc0 : c = l.headD null
        · have ha0 : a ≠ l.headD null := fun h => hac (h.trans hc0.symm)
          rw [if_pos (hpred.mpr hc0), if_pos hc0, if_neg ha0]
          split <;> rfl
        · rw [if_neg (mt hpred.mp hc0), if_neg hc0]
          by_cases ha0 : a = l.headD null
          · have hnot : a ≠ succOf null l c := fun h => by
              have hca := (eq_predOf_iff hnodup' hnull' hcl hal).mpr h.symm
              rw [(predOf_eq_null_iff hnodup' hnull' hal).mpr ha0] at hca
              exact hnull' (hca ▸ hcl)
            rw [if_pos ha0, if_neg hnot, if_pos ha0]
          · rw [if_neg ha0, if_neg ha0]

/-! ## Linking a new node behind another -/

/-- `l` with `d` directly behind `c`. -/
def insertAfter (c d : α) : List α → List α
  | [] => []
  | x :: l => if x = c then x :: d :: l else x :: insertAfter c d l

theorem headD_insertAfter (l : List α) : (insertAfter c d l).headD null = l.headD null := by
  cases l with
  | nil => rfl
  | cons x l =>
    rw [insertAfter]
    split <;> rfl

theorem mem_insertAfter (hc : c ∈ l) : a ∈ insertAfter c d l ↔ a = d ∨ a ∈ l := by
  induction l with
  | nil => exact absurd hc List.not_mem_nil
  | cons x l ih =>
    rw [insertAfter]
    split
    · simp only [List.mem_cons]
      tauto
    · next hxc =>
      have hcl : c ∈ l := (List.mem_cons.mp hc).resolve_left (Ne.symm hxc)
      rw [List.mem_cons, List.mem_cons, ih hcl]
      tauto

theorem nodup_insertAfter (hnodup : l.Nodup) (hc : c ∈ l) (hd : d ∉ l) :
    (insertAfter c d l).Nodup := by
  induction l with
  | nil => exact List.nodup_nil
  | cons x l ih =>
    obtain ⟨hx, hnodup'⟩ := List.nodup_cons.mp hnodup
    have hdx : d ≠ x := List.ne_of_not_mem_cons hd
    have hdl : d ∉ l := List.not_mem_of_not_mem_cons hd
    rw [insertAfter]
    split
    · refine List.nodup_cons.mpr ⟨?_, List.nodup_cons.mpr ⟨hdl, hnodup'⟩⟩
      exact List.not_mem_cons_of_ne_of_not_mem (Ne.symm hdx) hx
    · next hxc =>
      have hcl : c ∈ l := (List.mem_cons.mp hc).resolve_left (Ne.symm hxc)
      refine List.nodup_cons.mpr ⟨?_, ih hnodup' hcl hdl⟩
      rw [mem_insertAfter hcl]
      exact not_or.mpr ⟨Ne.symm hdx, hx⟩

theorem erase_insertAfter (hc : c ∈ l) (hd : d ∉ l) : (insertAfter c d l).erase d = l := by
  induction l with
  | nil => exact absurd hc List.not_mem_nil
  | cons x l ih =>
    have hdx : d ≠ x := List.ne_of_not_mem_cons hd
    have hdl : d ∉ l := List.not_mem_of_not_mem_cons hd
    have hbeq : ¬ (x == d) = true := by simpa using Ne.symm hdx
    rw [insertAfter]
    split
    · rw [List.erase_cons_tail hbeq, List.erase_cons_head]
    · next hxc =>
      have hcl : c ∈ l := (List.mem_cons.mp hc).resolve_left (Ne.symm hxc)
      rw [List.erase_cons_tail hbeq, ih hcl hdl]

theorem succOf_insertAfter (hc : c ∈ l) (hd : d ∉ l) (hnodup : l.Nodup) (a : α) :
    succOf null (insertAfter c d l) a =
      if a = c then d else if a = d then succOf null l c else succOf null l a := by
  induction l with
  | nil => exact absurd hc List.not_mem_nil
  | cons x l ih =>
    obtain ⟨hx, hnodup'⟩ := List.nodup_cons.mp hnodup
    have hdx : d ≠ x := List.ne_of_not_mem_cons hd
    have hdl : d ∉ l := List.not_mem_of_not_mem_cons hd
    rw [insertAfter]
    by_cases hxc : x = c
    · subst hxc
      rw [if_pos rfl, succOf, succOf, succOf, if_pos rfl, succOf]
      split
      · rfl
      · rfl
    · have hcl : c ∈ l := (List.mem_cons.mp hc).resolve_left (Ne.symm hxc)
      rw [if_neg hxc, succOf, headD_insertAfter, ih hcl hdl hnodup',
        succOf_cons_of_ne (Ne.symm hxc), succOf]
      by_cases hax : a = x
      · subst hax
        rw [if_pos rfl, if_neg hxc, if_neg (Ne.symm hdx), if_pos rfl]
      · rw [if_neg hax, if_neg hax]

theorem predOf_insertAfter (hc : c ∈ l) (hd : d ∉ l) (hnodup : l.Nodup) (hnull : null ∉ l)
    (a : α) : predOf null (insertAfter c d l) a =
      if a = d then c else if a = succOf null l c then d else predOf null l a := by
  induction l with
  | nil => exact absurd hc List.not_mem_nil
  | cons x l ih =>
    obtain ⟨hx, hnodup'⟩ := List.nodup_cons.mp hnodup
    have hdx : d ≠ x := List.ne_of_not_mem_cons hd
    have hdl : d ∉ l := List.not_mem_of_not_mem_cons hd
    have hnull' : null ∉ l := fun h => hnull (List.mem_cons_of_mem _ h)
    rw [insertAfter]
    by_cases hxc : x = c
    · subst hxc
      rw [if_pos rfl, predOf, predOf, predOf, succOf, if_pos rfl, List.headD_cons]
      split
      · rfl
      · split <;> rfl
    · have hcl : c ∈ l := (List.mem_cons.mp hc).resolve_left (Ne.symm hxc)
      rw [if_neg hxc, predOf, headD_insertAfter, ih hcl hdl hnodup' hnull',
        succOf_cons_of_ne (Ne.symm hxc), predOf]
      by_cases hhead : a = l.headD null
      · have hal : a ∈ l := hhead ▸ headD_mem (List.ne_nil_of_mem hcl)
        have had : a ≠ d := fun h => hdl (h ▸ hal)
        have hnot : a ≠ succOf null l c := fun h => by
          have hca := (eq_predOf_iff hnodup' hnull' hcl hal).mpr h.symm
          rw [(predOf_eq_null_iff hnodup' hnull' hal).mpr hhead] at hca
          exact hnull' (hca ▸ hcl)
        rw [if_pos hhead, if_neg had, if_neg hnot, if_pos hhead]
      · rw [if_neg hhead, if_neg hhead]

/-! ## Following the pointers -/

/-- From `a` the pointers `next` lead through the nodes `l`, in order, to `null`. -/
def Follows (null : α) (next : α → α) : α → List α → Prop
  | a, [] => a = null
  | a, x :: l => a = x ∧ x ≠ null ∧ Follows null next (next x) l

omit [DecidableEq α] in
theorem Follows.unique {next : α → α} {l' : List α} (h : Follows null next a l)
    (h' : Follows null next a l') : l = l' := by
  induction l generalizing a l' with
  | nil =>
    cases l' with
    | nil => rfl
    | cons y l' => exact absurd (h'.1.symm.trans h) h'.2.1
  | cons x l ih =>
    cases l' with
    | nil => exact absurd (h.1.symm.trans h') h.2.1
    | cons y l' =>
      obtain ⟨rfl, -, hl⟩ := h
      obtain ⟨rfl, -, hl'⟩ := h'
      rw [ih hl hl']

theorem follows_succOf {next : α → α} (hnodup : l.Nodup) (hnull : null ∉ l)
    (hnext : ∀ a ∈ l, next a = succOf null l a) : Follows null next (l.headD null) l := by
  induction l with
  | nil => rfl
  | cons x l ih =>
    obtain ⟨hx, hnodup'⟩ := List.nodup_cons.mp hnodup
    have hxnull : x ≠ null := fun h => hnull (h ▸ List.mem_cons_self ..)
    refine ⟨rfl, hxnull, ?_⟩
    have hfirst : next x = l.headD null := by
      rw [hnext x (List.mem_cons_self ..), succOf, if_pos rfl]
    rw [hfirst]
    refine ih hnodup' (fun h => hnull (List.mem_cons_of_mem _ h)) fun a ha => ?_
    have hax : a ≠ x := fun h => hx (h ▸ ha)
    rw [hnext a (List.mem_cons_of_mem _ ha), succOf_cons_of_ne hax]

/-- A node is the first one, or stands right behind its predecessor. -/
theorem predOf_split (hnodup : l.Nodup) (hnull : null ∉ l) (ha : a ∈ l) :
    (∃ t, l = a :: t ∧ predOf null l a = null) ∨
      ∃ s b t, l = s ++ b :: a :: t ∧ predOf null l a = b := by
  induction l with
  | nil => exact absurd ha List.not_mem_nil
  | cons x l ih =>
    obtain ⟨hx, hnodup'⟩ := List.nodup_cons.mp hnodup
    have hnull' : null ∉ l := List.not_mem_of_not_mem_cons hnull
    have hanull : a ≠ null := fun h => hnull (h ▸ ha)
    rcases List.mem_cons.mp ha with rfl | hal
    · exact Or.inl ⟨l, rfl, predOf_cons_self hx hanull⟩
    · refine Or.inr ?_
      rcases ih hnodup' hnull' hal with ⟨t, rfl, -⟩ | ⟨s, b, t, hl, hb⟩
      · exact ⟨[], x, t, rfl, if_pos rfl⟩
      · have hhead : a ≠ l.headD null := fun h => by
          have hb0 := hb.symm.trans ((predOf_eq_null_iff hnodup' hnull' hal).mpr h)
          exact hnull' (by rw [hl, hb0]; simp)
        refine ⟨x :: s, b, t, by rw [hl]; rfl, ?_⟩
        rw [predOf, if_neg hhead, hb]

theorem succOf_append_of_notMem {s : List α} (ha : a ∉ s) :
    succOf null (s ++ l) a = succOf null l a := by
  induction s with
  | nil => rfl
  | cons x s ih =>
    rw [List.cons_append, succOf_cons_of_ne (List.ne_of_not_mem_cons ha),
      ih (List.not_mem_of_not_mem_cons ha)]

/-- The predecessors are the successors in the reversed list. -/
theorem predOf_eq_succOf_reverse (hnodup : l.Nodup) (hnull : null ∉ l) (ha : a ∈ l) :
    predOf null l a = succOf null l.reverse a := by
  rcases predOf_split hnodup hnull ha with ⟨t, rfl, hp⟩ | ⟨s, b, t, rfl, hp⟩
  · have hat : a ∉ t.reverse := by simpa using (List.nodup_cons.mp hnodup).1
    rw [hp, List.reverse_cons, succOf_append_of_notMem hat, succOf, if_pos rfl]
    rfl
  · have hat : a ∉ t.reverse := by
      have hn := (List.nodup_append.mp hnodup).2.1
      simpa using (List.nodup_cons.mp (List.nodup_cons.mp hn).2).1
    have hrev : (s ++ b :: a :: t).reverse = t.reverse ++ a :: b :: s.reverse := by simp
    rw [hp, hrev, succOf_append_of_notMem hat, succOf, if_pos rfl]
    rfl

theorem follows_predOf {prev : α → α} (hnodup : l.Nodup) (hnull : null ∉ l)
    (hprev : ∀ a ∈ l, prev a = predOf null l a) :
    Follows null prev (l.reverse.headD null) l.reverse := by
  refine follows_succOf (List.nodup_reverse.mpr hnodup) (by simpa using hnull) fun a ha => ?_
  have hal : a ∈ l := List.mem_reverse.mp ha
  rw [hprev a hal, predOf_eq_succOf_reverse hnodup hnull hal]

end SnuSysProg.Lib
