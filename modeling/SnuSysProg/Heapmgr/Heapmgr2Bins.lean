import Mathlib.Data.Fin.Basic
import SnuSysProg.Heapmgr.Heapmgr2
import SnuSysProg.Heapmgr.Allocating

/-
  The bins of `heapmgr2.c`.

  `find_bin` files a chunk in the one bin whose range, as `check_heap_validity` has it, its units
  are in (`findBin_eq_iff`). `check_heap_validity` accepts every heap that is represented by blocks
  and lists (`checkHeapValidity_ok`), and the search looks through the bins `searched` names.
-/

namespace SnuSysProg.Heapmgr2
open SnuSysProg.Lib SnuSysProg.Heapmgr

/-! ## find_bin -/

theorem find?_finRange {n : Nat} {p : Fin n → Bool} {i : Fin n}
    (h : (List.finRange n).find? p = some i) : p i = true ∧ ∀ j, j < i → p j = false := by
  obtain ⟨hi, k, hk, hki, hbefore⟩ := List.find?_eq_some_iff_getElem.mp h
  refine ⟨hi, fun j hj => ?_⟩
  have hkv : k = i.val := by
    rw [← hki]
    simp
  have hjk : j.val < k := by
    rw [hkv]
    exact hj
  have := hbefore j.val hjk
  simpa using this

theorem findBin_exponential {u : Int} (hu : 1 ≤ u) (hu' : u ≤ 32) :
    ∃ i, findBin u = .exponential i ∧ inRange (.exponential i) u = true := by
  unfold findBin
  rw [if_pos hu']
  cases hi : (List.finRange exponentialBins).find? fun i => u ≤ exponentialMax i with
  | none =>
    have hlast := List.find?_eq_none.mp hi 5 (List.mem_finRange 5)
    have hmax : exponentialMax 5 = 32 := rfl
    rw [hmax] at hlast
    exact absurd (decide_eq_true hu') hlast
  | some i =>
    obtain ⟨hle, hbefore⟩ := find?_finRange hi
    have hle' : u ≤ exponentialMax i := of_decide_eq_true hle
    refine ⟨i, rfl, ?_⟩
    unfold inRange
    rw [Bool.and_eq_true, decide_eq_true_iff, decide_eq_true_iff]
    refine ⟨?_, hle'⟩
    split
    · exact hu
    · next hi0 =>
      have hlt : (⟨i.val - 1, by omega⟩ : Fin exponentialBins) < i := by
        rw [Fin.lt_def]
        dsimp only
        omega
      have hnot := of_decide_eq_false (hbefore _ hlt)
      unfold exponentialMax at hnot
      dsimp only at hnot
      omega

theorem findBin_fixed {u : Int} (hu : 33 ≤ u) (hu' : u ≤ 65536) :
    ∃ i, findBin u = .fixed i ∧ inRange (.fixed i) u = true := by
  have hbig : ¬ u ≤ maxExponentialBlockUnits := by
    have : ¬ u ≤ 32 := by omega
    exact this
  unfold findBin
  rw [if_neg hbig, if_pos hu']
  cases hi : (List.finRange fixedBins).find? fun i =>
      u ≤ minFixedBlockUnits + (i.val + 1) * fixedBlockInterval - 1 with
  | none =>
    have hlast := List.find?_eq_none.mp hi ⟨2046, by decide⟩ (List.mem_finRange _)
    refine absurd (decide_eq_true ?_) hlast
    exact hu'
  | some i =>
    obtain ⟨hle, hbefore⟩ := find?_finRange hi
    have hle' : u ≤ 33 + ((i.val : Int) + 1) * 32 - 1 := of_decide_eq_true hle
    refine ⟨i, rfl, ?_⟩
    unfold inRange fixedMin
    rw [Bool.and_eq_true, decide_eq_true_iff, decide_eq_true_iff]
    change 33 + (i.val : Int) * 32 ≤ u ∧ u ≤ 33 + (i.val : Int) * 32 + 32 - 1
    refine ⟨?_, by omega⟩
    by_cases hi0 : i.val = 0
    · omega
    · have hlt : (⟨i.val - 1, by omega⟩ : Fin fixedBins) < i := by
        rw [Fin.lt_def]
        dsimp only
        omega
      have hnot := of_decide_eq_false (hbefore _ hlt)
      simp only [minFixedBlockUnits, fixedBlockInterval] at hnot
      omega

/-- Every chunk is in the range of the bin `find_bin` gives it. -/
theorem findBin_inRange {u : Int} (hu : 1 ≤ u) : inRange (findBin u) u = true := by
  by_cases hsmall : u ≤ 32
  · obtain ⟨i, hi, hr⟩ := findBin_exponential hu hsmall
    rw [hi, hr]
  · by_cases hmid : u ≤ 65536
    · obtain ⟨i, hi, hr⟩ := findBin_fixed (by omega) hmid
      rw [hi, hr]
    · have hbin : findBin u = .large := by
        unfold findBin
        rw [if_neg hsmall, if_neg hmid]
      rw [hbin]
      exact decide_eq_true (show (65536 : Int) < u by omega)

theorem exponentialMax_mono {i j : Fin exponentialBins} (h : i ≤ j) :
    exponentialMax i ≤ exponentialMax j := by
  have hpow : 2 ^ i.val ≤ 2 ^ j.val := Nat.pow_le_pow_right (by decide) h
  unfold exponentialMax minExponentialBlockUnits
  rw [Int.one_mul, Int.one_mul]
  exact_mod_cast hpow

theorem inRange_exponential {i : Fin exponentialBins} {u : Int}
    (h : inRange (.exponential i) u = true) :
    u ≤ exponentialMax i ∧ ∀ j, j < i → exponentialMax j < u := by
  unfold inRange at h
  rw [Bool.and_eq_true, decide_eq_true_iff, decide_eq_true_iff] at h
  refine ⟨h.2, fun j hj => ?_⟩
  have hij : j.val < i.val := hj
  have hi0 : ¬ i.val = 0 := by omega
  have hle : exponentialMax j ≤ exponentialMax ⟨i.val - 1, by omega⟩ :=
    exponentialMax_mono (by rw [Fin.le_def]; dsimp only; omega)
  have hlow := h.1
  rw [if_neg hi0] at hlow
  unfold exponentialMax at hle ⊢
  dsimp only at hle
  omega

theorem inRange_fixed {i : Fin fixedBins} {u : Int} (h : inRange (.fixed i) u = true) :
    33 + (i.val : Int) * 32 ≤ u ∧ u ≤ 64 + (i.val : Int) * 32 := by
  unfold inRange fixedMin at h
  rw [Bool.and_eq_true, decide_eq_true_iff, decide_eq_true_iff] at h
  simp only [minFixedBlockUnits, fixedBlockInterval] at h
  omega

theorem inRange_large {u : Int} (h : inRange .large u = true) : 65536 < u :=
  of_decide_eq_true h

theorem exponentialMax_le (i : Fin exponentialBins) : exponentialMax i ≤ 32 :=
  exponentialMax_mono (i := i) (j := 5) (Fin.le_last i)

/-- The ranges of the bins do not overlap. -/
theorem inRange_unique {i j : Bin} {u : Int} (hi : inRange i u = true) (hj : inRange j u = true) :
    i = j := by
  cases i with
  | exponential i =>
    have hmax := exponentialMax_le i
    obtain ⟨hle, hbefore⟩ := inRange_exponential hi
    cases j with
    | exponential j =>
      obtain ⟨hle', hbefore'⟩ := inRange_exponential hj
      rcases lt_trichotomy i j with hlt | rfl | hlt
      · have := hbefore' i hlt
        omega
      · rfl
      · have := hbefore j hlt
        omega
    | fixed j =>
      have := inRange_fixed hj
      omega
    | large =>
      have := inRange_large hj
      omega
  | fixed i =>
    have hrange := inRange_fixed hi
    cases j with
    | exponential j =>
      have := exponentialMax_le j
      have := (inRange_exponential hj).1
      omega
    | fixed j =>
      have := inRange_fixed hj
      have hij : i = j := by
        apply Fin.ext
        omega
      rw [hij]
    | large =>
      have := inRange_large hj
      have := i.isLt
      unfold fixedBins at this
      omega
  | large =>
    have hrange := inRange_large hi
    cases j with
    | exponential j =>
      have := exponentialMax_le j
      have := (inRange_exponential hj).1
      omega
    | fixed j =>
      have := inRange_fixed hj
      have := j.isLt
      unfold fixedBins at this
      omega
    | large => rfl

theorem findBin_eq_iff {i : Bin} {u : Int} (hu : 1 ≤ u) :
    findBin u = i ↔ inRange i u = true := by
  constructor
  · rintro rfl
    exact findBin_inRange hu
  · exact fun h => inRange_unique (findBin_inRange hu) h

/-! ## check_heap_validity -/

variable {lo : Int} {s t : State} {T pre post : List Blk} {L : Bin → List Int} {b c : Blk}

theorem checkFreeChunk_ok (h : Rep findBin lo s T L) {i : Bin} {a : Int} (ha : a ∈ L i) :
    checkFreeChunk i a s = .ok (none, s) := by
  obtain ⟨b, hb, rfl, hfree, hunits, hbin⟩ := h.listed ha
  have hraw : b.kind ≠ .raw := by rw [hfree]; decide
  have hne := h.covers.addr_ne hb
  have hstart := h.tiles.start_le hb
  have hstop := h.tiles.stop_le hb
  have hnonneg := h.tiles.units_nonneg hb
  have hpos := h.start
  obtain ⟨hcell, hsize⟩ := h.cell_units hb hraw
  have hin : inRange i (toSize (cellAt s.mem b.addr).units) = true := by
    rw [hsize]
    exact (findBin_eq_iff hunits).mp hbin
  have hstatus := (status_eq_free_iff h hb hraw).mpr hfree
  have hlt : b.addr < s.gHeapEnd := by
    unfold Blk.stop at hstop
    omega
  have hunits0 : (cellAt s.mem b.addr).units ≠ 0 := by
    rw [hcell]
    omega
  have hvalid := chunkIsValid_ok hne (show s.gHeapStart ≠ 0 by omega)
    (show s.gHeapEnd ≠ 0 by omega) hstart hlt hunits0
  unfold checkFreeChunk
  rw [bind_of_ok (get_apply s), bind_of_ok (chunkGetUnits_ok hne), if_neg (by rw [hin]; decide),
    bind_of_ok (chunkGetStatus_ok hne), if_neg (not_not.mpr hstatus), bind_of_ok hvalid]
  rfl

theorem checkBin_ok (h : Rep findBin lo s T L) (i : Bin) : checkBin i s = .ok (true, s) := by
  have hwalk := forFreeChunks_reads (h.follows i) (h.list_le_fuel i)
    (fun a ha => checkFreeChunk_ok h ha)
  have hnone : (L i).findSome? (fun _ => (none : Option Unit)) = none := by
    rw [List.findSome?_eq_none_iff]
    exact fun _ _ => rfl
  unfold checkBin
  rw [bind_of_ok (get_apply s), bind_of_ok hwalk, hnone]
  rfl

theorem checkHeapValidity_ok (h : Rep findBin lo s T L) : checkHeapValidity s = .ok (true, s) := by
  have hpos := h.start
  have hle := h.tiles.bounds.1
  have hstart : ¬ s.gHeapStart = 0 := by omega
  have hend : ¬ s.gHeapEnd = 0 := by omega
  unfold checkHeapValidity
  rw [bind_of_ok (get_apply s), if_neg hstart, if_neg hend,
    bind_of_ok (allM_reads fun i _ => checkBin_ok h (.exponential i)), if_neg (by decide),
    bind_of_ok (allM_reads fun i _ => checkBin_ok h (.fixed i)), if_neg (by decide)]
  exact checkBin_ok h .large

theorem checks (lo : Int) : Checks findBin lo checkHeapValidity :=
  fun _ _ _ h _ => checkHeapValidity_ok h

/-! ## find_best_fit_chunk -/

/-- The bins `find_best_fit_chunk` looks into for `n` units. -/
def Searched (n : Int) : Bin → Prop
  | .exponential i => n ≤ maxExponentialBlockUnits ∧ n ≤ exponentialMax i
  | .fixed i => n ≤ maxFixedBlockUnits ∧ n ≤ fixedMin i
  | .large => True

/-- A search gave nothing and there was nothing, or it gave a large enough chunk of a bin it
    looked into. -/
def Found (s : State) (L : Bin → List Int) (n : Int) (bins : Bin → Prop) (r : Option Int) : Prop :=
  (r = none ∧ ∀ i, bins i → ∀ a ∈ L i, ¬ Fits s n a) ∨
    ∃ i a, r = some a ∧ bins i ∧ a ∈ L i ∧ Fits s n a

theorem Found.none_or_some {bins : Bin → Prop} {n : Int} {r : Option Int}
    (h : Found s L n bins r) : (r = none → ∀ i, bins i → ∀ a ∈ L i, ¬ Fits s n a) ∧
      ∀ a, r = some a → ∃ i, bins i ∧ a ∈ L i ∧ Fits s n a := by
  rcases h with ⟨rfl, hno⟩ | ⟨i, a, rfl, hi⟩
  · exact ⟨fun _ => hno, fun a ha => absurd ha (by simp)⟩
  · refine ⟨fun hnone => absurd hnone (by simp), fun a' ha' => ?_⟩
    obtain rfl : a = a' := by simpa using ha'
    exact ⟨i, hi⟩

theorem found_of {bins : Bin → Prop} {n : Int} {r : Option Int}
    (hnone : r = none → ∀ i, bins i → ∀ a ∈ L i, ¬ Fits s n a)
    (hsome : ∀ a, r = some a → ∃ i, bins i ∧ a ∈ L i ∧ Fits s n a) : Found s L n bins r := by
  cases r with
  | none => exact Or.inl ⟨rfl, hnone rfl⟩
  | some a =>
    obtain ⟨i, hi⟩ := hsome a rfl
    exact Or.inr ⟨i, a, rfl, hi⟩

theorem searchBin_found (h : Rep findBin lo s T L) (i : Bin) (n : Int) :
    ∃ r, searchBin i n s = .ok (r, s) ∧ Found s L n (fun j => j = i) r := by
  let offer : Int → Option Int := fun a =>
    if toSize (cellAt s.mem a).units ≥ n then some a else none
  have hbody : ∀ a ∈ L i, offerChunk n a s = .ok (offer a, s) := by
    intro a ha
    obtain ⟨b, hb, rfl, -⟩ := h.listed ha
    unfold offerChunk
    rw [bind_of_ok (chunkGetUnits_ok (h.covers.addr_ne hb))]
    change (if _ then _ else _ : M (Option Int)) s = .ok (if _ then _ else _, s)
    split <;> rfl
  have hwalk := forFreeChunks_reads (h.follows i) (h.list_le_fuel i) hbody
  refine ⟨(L i).findSome? offer, ?_, found_of ?_ ?_⟩
  · unfold searchBin
    rw [bind_of_ok (get_apply s), hwalk]
  · rintro hnone j rfl a ha hfit
    have := List.findSome?_eq_none_iff.mp hnone a ha
    rw [show offer a = some a from if_pos hfit] at this
    exact absurd this (by simp)
  · intro a ha
    obtain ⟨a', ha', hoffer⟩ := List.exists_of_findSome?_eq_some ha
    change (if toSize (cellAt s.mem a').units ≥ n then some a' else none) = some a at hoffer
    split at hoffer
    · next hfit =>
      obtain rfl : a' = a := by simpa using hoffer
      exact ⟨i, rfl, ha', hfit⟩
    · exact absurd hoffer (by simp)

/-- Looking into one group of bins after the other. -/
theorem found_findSomeM {γ : Type} {l : List γ} {n : Int} {P : γ → Bin → Prop}
    {f : γ → M (Option Int)}
    (hf : ∀ c ∈ l, ∃ r, f c s = .ok (r, s) ∧ Found s L n (P c) r) :
    ∃ r, l.findSomeM? f s = .ok (r, s) ∧ Found s L n (fun j => ∃ c ∈ l, P c j) r := by
  induction l with
  | nil => exact ⟨none, rfl, Or.inl ⟨rfl, fun i ⟨c, hc, _⟩ => absurd hc List.not_mem_nil⟩⟩
  | cons c l ih =>
    obtain ⟨r, hr, hfound⟩ := hf c (List.mem_cons_self ..)
    obtain ⟨r', hr', hfound'⟩ := ih fun d hd => hf d (List.mem_cons_of_mem _ hd)
    obtain ⟨hnone, hsome⟩ := hfound.none_or_some
    obtain ⟨hnone', hsome'⟩ := hfound'.none_or_some
    rw [List.findSomeM?, bind_of_ok hr]
    cases r with
    | some a =>
      obtain ⟨i, hi, ha⟩ := hsome a rfl
      exact ⟨some a, rfl, Or.inr ⟨i, a, rfl, ⟨c, List.mem_cons_self .., hi⟩, ha⟩⟩
    | none =>
      refine ⟨r', hr', found_of ?_ ?_⟩
      · rintro hn i ⟨d, hd, hi⟩
        rcases List.mem_cons.mp hd with rfl | hd
        · exact hnone rfl i hi
        · exact hnone' hn i ⟨d, hd, hi⟩
      · intro a ha
        obtain ⟨i, ⟨d, hd, hi⟩, hrest⟩ := hsome' a ha
        exact ⟨i, ⟨d, List.mem_cons_of_mem _ hd, hi⟩, hrest⟩

theorem Found.congr {bins bins' : Bin → Prop} {n : Int} {r : Option Int}
    (h : Found s L n bins r) (heq : ∀ i, bins i ↔ bins' i) : Found s L n bins' r := by
  have : bins = bins' := funext fun i => propext (heq i)
  rwa [← this]

/-- A group of bins that is skipped gives nothing. -/
theorem found_skipped (n : Int) : Found s L n (fun _ => False) none :=
  Or.inl ⟨rfl, fun _ hi => hi.elim⟩

/-- One of the two loops of `find_best_fit_chunk` over an array of bins. -/
theorem searchGroup_found {γ : Type} (h : Rep findBin lo s T L) (l : List γ) (bin : γ → Bin)
    (bound : γ → Int) (top n : Int) :
    ∃ r, (if n ≤ top then
        l.findSomeM? fun i => if n ≤ bound i then searchBin (bin i) n else pure none
      else pure none : M (Option Int)) s = .ok (r, s) ∧
      Found s L n (fun j => n ≤ top ∧ ∃ i ∈ l, j = bin i ∧ n ≤ bound i) r := by
  split
  · next hn =>
    have hone : ∀ i ∈ l, ∃ r,
        (if n ≤ bound i then searchBin (bin i) n else pure none : M (Option Int)) s = .ok (r, s) ∧
          Found s L n (fun j => j = bin i ∧ n ≤ bound i) r := by
      intro i _
      split
      · next hi =>
        obtain ⟨r, hr, hfound⟩ := searchBin_found h (bin i) n
        exact ⟨r, hr, hfound.congr fun j => ⟨fun hj => ⟨hj, hi⟩, fun hj => hj.1⟩⟩
      · next hi =>
        exact ⟨none, rfl, (found_skipped n).congr fun j => ⟨False.elim, fun hj => hi hj.2⟩⟩
    obtain ⟨r, hr, hfound⟩ := found_findSomeM hone
    exact ⟨r, hr, hfound.congr fun j => ⟨fun hj => ⟨hn, hj⟩, fun hj => hj.2⟩⟩
  · next hn =>
    exact ⟨none, rfl, (found_skipped n).congr fun j => ⟨False.elim, fun hj => hn hj.1⟩⟩

theorem findBestFitChunk_found (h : Rep findBin lo s T L) (n : Int) :
    ∃ r, findBestFitChunk n s = .ok (r.getD null, s) ∧ Found s L n (Searched n) r := by
  obtain ⟨r1, hr1, hfound1⟩ := searchGroup_found h (List.finRange exponentialBins) .exponential
    exponentialMax maxExponentialBlockUnits n
  obtain ⟨r2, hr2, hfound2⟩ := searchGroup_found h (List.finRange fixedBins) .fixed fixedMin
    maxFixedBlockUnits n
  obtain ⟨r3, hr3, hfound3⟩ := searchBin_found h .large n
  obtain ⟨hnone1, hsome1⟩ := hfound1.none_or_some
  obtain ⟨hnone2, hsome2⟩ := hfound2.none_or_some
  obtain ⟨hnone3, hsome3⟩ := hfound3.none_or_some
  unfold findBestFitChunk
  rw [bind_of_ok (show searchExponentialBins n s = _ from hr1)]
  cases r1 with
  | some a =>
    obtain ⟨j, ⟨hn, i, -, rfl, hi⟩, ha⟩ := hsome1 a rfl
    exact ⟨some a, rfl, Or.inr ⟨.exponential i, a, rfl, ⟨hn, hi⟩, ha⟩⟩
  | none =>
    dsimp only
    rw [bind_of_ok (show searchFixedBins n s = _ from hr2)]
    cases r2 with
    | some a =>
      obtain ⟨j, ⟨hn, i, -, rfl, hi⟩, ha⟩ := hsome2 a rfl
      exact ⟨some a, rfl, Or.inr ⟨.fixed i, a, rfl, ⟨hn, hi⟩, ha⟩⟩
    | none =>
      dsimp only
      rw [bind_of_ok hr3]
      refine ⟨r3, rfl, found_of ?_ ?_⟩
      · intro hn j hj
        cases j with
        | exponential i => exact hnone1 rfl _ ⟨hj.1, i, List.mem_finRange i, rfl, hj.2⟩
        | fixed i => exact hnone2 rfl _ ⟨hj.1, i, List.mem_finRange i, rfl, hj.2⟩
        | large => exact hnone3 hn _ rfl
      · intro a ha
        obtain ⟨j, rfl, hrest⟩ := hsome3 a ha
        exact ⟨.large, trivial, hrest⟩

end SnuSysProg.Heapmgr2
