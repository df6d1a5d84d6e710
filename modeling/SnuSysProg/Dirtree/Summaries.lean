import SnuSysProg.Dirtree.Listing
import SnuSysProg.Dirtree.Main
import Mathlib.Algebra.BigOperators.Ring.Finset
import Mathlib.Data.List.Perm.Basic

/-
  What the summaries count.

  `Tree.entries` are the entries at any depth below a directory, each with the directory it is in.
  The rows that the recursion prints are those of these entries in another order
  (`visits_entries`), and a row adds to the summary what is counted of its entry
  (`countEntry_eq`). So a summary is the `tally` of the entries below a root, and the grand total
  that of the entries below all roots: `update_tstats` adds up (`tally_append`). As long
  as the numbers fit their types, these are the numbers of C (`processDirs_summaries`).
-/

namespace SnuSysProg.Dirtree
open SnuSysProg.Lib

/-- The entries at any depth below the directory `dn`, with the directory each of them is in. -/
def Tree.entries : Tree → Str → List (Str × Dirent)
  | .closed _, _ => []
  | .dir entries below, dn => entries.flatMap fun entry =>
      (dn, entry) ::
        if entry.dType = .dir then (below entry.dName).entries (pathOf dn entry) else []

variable {P : Type} {env : Env P} {flags : Flags} {t : Tree} {dn : Str} {above : List Bool}
  {fuel : Nat} {entries entries' : List (Str × Dirent)}

/-- How many entries are of a type. -/
def number (k : DType) (entries : List (Str × Dirent)) : Nat :=
  entries.countP fun e => e.2.dType = k

/-- The metadata of the entries for which `fstatat` succeeds. -/
def metadataOf (env : Env P) (entries : List (Str × Dirent)) : List Stat :=
  entries.filterMap fun e => (env.stat e.1 e.2).join

/-- The sums of `st_size` and of `st_blocks`. -/
def totalSize (env : Env P) (entries : List (Str × Dirent)) : Int :=
  ((metadataOf env entries).map fun sb => sb.stSize.toInt).sum
def totalBlocks (env : Env P) (entries : List (Str × Dirent)) : Int :=
  ((metadataOf env entries).map fun sb => sb.stBlocks.toInt).sum

/-- The numbers fit `unsigned int`s. In detailed mode the sums fit `unsigned long long`s; they are
    not negative, since no size is. -/
structure Fitting (env : Env P) (flags : Flags) (entries : List (Str × Dirent)) : Prop where
  number : ∀ k ∈ [DType.dir, .reg, .lnk, .fifo, .sock], number k entries < 2 ^ 32
  size : has flags fVerbose = true → 0 ≤ totalSize env entries ∧ totalSize env entries < 2 ^ 64
  blocks : has flags fVerbose = true →
    0 ≤ totalBlocks env entries ∧ totalBlocks env entries < 2 ^ 64

/-- The summary counts the entries. -/
structure Counts (env : Env P) (flags : Flags) (entries : List (Str × Dirent)) (s : Summary) :
    Prop where
  dirs : s.dirs.toNat = number .dir entries
  files : s.files.toNat = number .reg entries
  links : s.links.toNat = number .lnk entries
  fifos : s.fifos.toNat = number .fifo entries
  socks : s.socks.toNat = number .sock entries
  size : has flags fVerbose = true → (s.size.toNat : Int) = totalSize env entries
  blocks : has flags fVerbose = true → (s.blocks.toNat : Int) = totalBlocks env entries
  plain : has flags fVerbose = false → s.size = 0 ∧ s.blocks = 0

/-! ## What a row does to the summary -/

/-- What the summary is after the row of an entry. -/
def countEntry (env : Env P) (flags : Flags) (dstats : Summary) (e : Str × Dirent) : Summary :=
  let dstats :=
    if has flags fVerbose then
      ((env.stat e.1 e.2).join.map (updateDstatsMetadata dstats)).getD dstats
    else dstats
  updateDstats dstats e.2

/-- The entry of a row. -/
def Visit.entry? : Visit → Option (Str × Dirent)
  | .row dn _ _ entry => some (dn, entry)
  | .denied _ => none

/-- Printing the name changes no count. -/
theorem print_name_dstats (flags : Flags) (l : Str) (r : Report) :
    (if 54 < l.length then r.print (l.take 51 ++ ascii "...")
      else if has flags fVerbose then r.print (padRight 54 l) else r.print l).dstats =
        r.dstats := by
  by_cases hlong : 54 < l.length
  · rw [if_pos hlong]
    rfl
  · rw [if_neg hlong]
    cases has flags fVerbose <;> rfl

theorem printRow_dstats (l : Str) (entry : Dirent) (r : Report) :
    updateDstats (printRow env l dn entry flags r).dstats entry =
      countEntry env flags r.dstats (dn, entry) := by
  have hname := print_name_dstats flags l r
  unfold printRow countEntry Env.stat
  generalize (if 54 < l.length then r.print (l.take 51 ++ ascii "...")
    else if has flags fVerbose then r.print (padRight 54 l) else r.print l) = r₀ at hname ⊢
  rw [← hname]
  dsimp only
  cases has flags fVerbose with
  | false => rfl
  | true =>
    cases env.dirfd dn with
    | none => rfl
    | some dd =>
      rw [Option.map_some, Option.join_some]
      cases hstat : env.fstatat dd entry.dName with
      | none =>
        dsimp only
        rw [hstat]
        rfl
      | some sb =>
        dsimp only
        rw [hstat]
        rfl

theorem Visit.print_dstats (r : Report) (v : Visit) :
    (v.print env flags r).dstats =
      (v.entry?.map (countEntry env flags r.dstats)).getD r.dstats := by
  cases v with
  | row dn above last entry => exact printRow_dstats _ entry r
  | denied above => rfl

/-- The summary after the rows is that after their entries. -/
theorem foldl_dstats (visits : List Visit) (r : Report) :
    (visits.foldl (Visit.print env flags) r).dstats =
      (visits.filterMap Visit.entry?).foldl (countEntry env flags) r.dstats := by
  induction visits generalizing r with
  | nil => rfl
  | cons v visits ih =>
    rw [List.foldl_cons, ih, Visit.print_dstats]
    cases v with
    | row => rfl
    | denied => rfl

theorem map_fst_withLast {α : Type} (l : List α) : (withLast l).map Prod.fst = l := by
  induction l with
  | nil => rfl
  | cons a l ih => rw [withLast, List.map_cons, ih]

/-- The rows are those of the entries of the tree. -/
theorem visits_entries (t : Tree) (dn : Str) (above : List Bool) :
    ((t.visits dn above).filterMap Visit.entry?).Perm (t.entries dn) := by
  induction t generalizing dn above with
  | closed eacces => cases eacces <;> exact List.Perm.refl _
  | dir entries below ih =>
    rw [Tree.visits_dir, List.filterMap_flatMap, Tree.entries]
    -- the same entries in each row, but in the order of the directory and with what is below
    have hrow : ∀ e : Dirent × Bool,
        ((entryVisits below dn above e).filterMap Visit.entry?).Perm
          ((dn, e.1) :: if e.1.dType = .dir then
            (below e.1.dName).entries (pathOf dn e.1) else []) := by
      intro e
      refine List.Perm.cons _ ?_
      by_cases hdir : e.1.dType = .dir
      · rw [if_pos hdir, if_pos hdir]
        exact ih _ _ _
      · rw [if_neg hdir, if_neg hdir]
        exact List.Perm.refl _
    refine (List.Perm.flatMap_left _ fun e _ => hrow e).trans ?_
    have hentries := (inOrder_perm entries).flatMap_right fun entry =>
      (dn, entry) :: if entry.dType = .dir then
        (below entry.dName).entries (pathOf dn entry) else []
    rw [← map_fst_withLast (inOrder entries), List.flatMap_map] at hentries
    exact hentries

/-! ## The sums -/

/-- What is counted of some entries, modulo the sizes of the types. -/
def tally (env : Env P) (flags : Flags) (entries : List (Str × Dirent)) : Summary where
  dirs := UInt32.ofNat (number .dir entries)
  files := UInt32.ofNat (number .reg entries)
  links := UInt32.ofNat (number .lnk entries)
  fifos := UInt32.ofNat (number .fifo entries)
  socks := UInt32.ofNat (number .sock entries)
  size := if has flags fVerbose then UInt64.ofInt (totalSize env entries) else 0
  blocks := if has flags fVerbose then UInt64.ofInt (totalBlocks env entries) else 0

theorem number_append (k : DType) (entries entries' : List (Str × Dirent)) :
    number k (entries ++ entries') = number k entries + number k entries' := List.countP_append

theorem totalSize_append (entries entries' : List (Str × Dirent)) :
    totalSize env (entries ++ entries') = totalSize env entries + totalSize env entries' := by
  rw [totalSize, metadataOf, List.filterMap_append, List.map_append, List.sum_append]
  rfl

theorem totalBlocks_append (entries entries' : List (Str × Dirent)) :
    totalBlocks env (entries ++ entries') =
      totalBlocks env entries + totalBlocks env entries' := by
  rw [totalBlocks, metadataOf, List.filterMap_append, List.map_append, List.sum_append]
  rfl

theorem tally_perm (h : entries.Perm entries') :
    tally env flags entries = tally env flags entries' := by
  have hnumber : ∀ k, number k entries = number k entries' := fun k => h.countP_eq _
  have hmetadata : (metadataOf env entries).Perm (metadataOf env entries') := h.filterMap _
  have hsize : totalSize env entries = totalSize env entries' := (hmetadata.map _).sum_eq
  have hblocks : totalBlocks env entries = totalBlocks env entries' := (hmetadata.map _).sum_eq
  simp only [tally, hnumber, hsize, hblocks]

/-- `update_tstats` adds up. -/
theorem tally_append (entries entries' : List (Str × Dirent)) :
    tally env flags (entries ++ entries') =
      updateTstats (tally env flags entries) (tally env flags entries') := by
  simp only [tally, updateTstats, number_append, totalSize_append, totalBlocks_append,
    UInt32.ofNat_add, UInt64.ofInt_add]
  cases has flags fVerbose <;> rfl

theorem updateTstats_zero (s : Summary) : updateTstats s Summary.zero = s := by
  simp [updateTstats, Summary.zero]

theorem zero_updateTstats (s : Summary) : updateTstats Summary.zero s = s := by
  simp [updateTstats, Summary.zero]

theorem updateTstats_assoc (a b c : Summary) :
    updateTstats (updateTstats a b) c = updateTstats a (updateTstats b c) := by
  simp only [updateTstats, UInt32.add_assoc, UInt64.add_assoc]

theorem tally_nil : tally env flags [] = Summary.zero := by
  unfold tally
  cases has flags fVerbose <;> rfl

theorem ofInt_toInt (x : Int64) : UInt64.ofInt x.toInt = x.toUInt64 := by
  have hbits : (BitVec.ofInt 64 x.toInt).toNat = (x.toInt % 2 ^ 64).toNat := BitVec.toNat_ofInt ..
  rw [show BitVec.ofInt 64 x.toInt = x.toBitVec from BitVec.ofInt_toInt] at hbits
  rw [UInt64.ofInt, ← hbits]
  exact UInt64.ofNat_toNat

/-- `update_dstats` adds one to the number for the type of the entry. -/
theorem updateDstats_eq (s : Summary) (dn : Str) (entry : Dirent) :
    updateDstats s entry =
      { s with
        dirs := s.dirs + UInt32.ofNat (number .dir [(dn, entry)])
        files := s.files + UInt32.ofNat (number .reg [(dn, entry)])
        links := s.links + UInt32.ofNat (number .lnk [(dn, entry)])
        fifos := s.fifos + UInt32.ofNat (number .fifo [(dn, entry)])
        socks := s.socks + UInt32.ofNat (number .sock [(dn, entry)]) } := by
  obtain ⟨name, dType⟩ := entry
  cases dType <;> simp [updateDstats, number]

theorem metadataOf_singleton (env : Env P) (e : Str × Dirent) :
    metadataOf env [e] = (env.stat e.1 e.2).join.toList := by
  rw [metadataOf, List.filterMap_cons]
  cases (env.stat e.1 e.2).join <;> rfl

/-- A row adds what is counted of its entry. -/
theorem countEntry_eq (s : Summary) (e : Str × Dirent) :
    countEntry env flags s e = updateTstats s (tally env flags [e]) := by
  unfold countEntry
  dsimp only
  rw [updateDstats_eq _ e.1 e.2, updateTstats, tally, totalSize, totalBlocks,
    metadataOf_singleton]
  cases has flags fVerbose with
  | false => simp
  | true =>
    cases (env.stat e.1 e.2).join with
    | none => simp [UInt64.ofInt]
    | some sb => simp [ofInt_toInt, updateDstatsMetadata]

theorem foldl_countEntry (s : Summary) (entries : List (Str × Dirent)) :
    entries.foldl (countEntry env flags) s = updateTstats s (tally env flags entries) := by
  induction entries generalizing s with
  | nil => rw [List.foldl_nil, tally_nil, updateTstats_zero]
  | cons e entries ih =>
    rw [List.foldl_cons, ih, countEntry_eq, updateTstats_assoc, ← tally_append]
    rfl

theorem toNat_ofInt {i : Int} (hnonneg : 0 ≤ i) (hlt : i < 2 ^ 64) :
    ((UInt64.ofInt i).toNat : Int) = i := by
  rw [UInt64.ofInt, Int.emod_eq_of_lt hnonneg hlt, UInt64.toNat_ofNat_of_lt' (by
    change i.toNat < 2 ^ 64
    omega)]
  exact Int.toNat_of_nonneg hnonneg

theorem tally_plain (hplain : has flags fVerbose = false) (entries : List (Str × Dirent)) :
    (tally env flags entries).size = 0 ∧ (tally env flags entries).blocks = 0 := by
  rw [tally, hplain]
  exact ⟨rfl, rfl⟩

/-- What fits is counted. -/
theorem tally_counts (h : Fitting env flags entries) :
    Counts env flags entries (tally env flags entries) where
  dirs := UInt32.toNat_ofNat_of_lt' (h.number .dir (by simp))
  files := UInt32.toNat_ofNat_of_lt' (h.number .reg (by simp))
  links := UInt32.toNat_ofNat_of_lt' (h.number .lnk (by simp))
  fifos := UInt32.toNat_ofNat_of_lt' (h.number .fifo (by simp))
  socks := UInt32.toNat_ofNat_of_lt' (h.number .sock (by simp))
  size hverbose := by
    rw [tally, hverbose]
    exact toNat_ofInt (h.size hverbose).1 (h.size hverbose).2
  blocks hverbose := by
    rw [tally, hverbose]
    exact toNat_ofInt (h.blocks hverbose).1 (h.blocks hverbose).2
  plain hplain := tally_plain hplain entries

/-! ## The roots -/

/-- The summary of a root, unless it cannot be opened. -/
def Tree.summary? (env : Env P) (flags : Flags) (dn : Str) : Tree → Option Summary
  | .closed _ => none
  | .dir entries below => some (tally env flags ((Tree.dir entries below).entries dn))

theorem processDir_summary (flags : Flags) (halloc : ∀ n, env.alloc n = true) (ht : env.Holds dn t)
    (hfuel : t.height ≤ fuel) (g : Totals) :
    ∃ out allocs, processDir env flags fuel dn [] g = .ok (t.summary? env flags dn,
      ⟨out, updateTstats g.tstats (tally env flags (t.entries dn)), allocs⟩) := by
  cases t with
  | closed eacces =>
    rw [processDir, show env.opendir dn = _ from ht, Tree.entries, tally_nil, updateTstats_zero]
    exact ⟨_, _, rfl⟩
  | dir entries below =>
    obtain ⟨⟨first, second, hopen, -⟩, -, -⟩ := id ht
    have hvisits : Visits env flags (processDirRecursive env flags fuel) _ dn :=
      processDirRecursive_visits halloc ht hfuel
    obtain ⟨allocs, hrun⟩ := hvisits [] ⟨⟨printHeader dn flags g.out, Summary.zero⟩, g.allocs⟩
    rw [indentation, List.flatMap_nil] at hrun
    have hsum : (((Tree.dir entries below).visits dn []).foldl (Visit.print env flags)
        ⟨printHeader dn flags g.out, Summary.zero⟩).dstats =
          tally env flags ((Tree.dir entries below).entries dn) := by
      rw [foldl_dstats, foldl_countEntry, zero_updateTstats, tally_perm (visits_entries _ _ _)]
    rw [processDir, hopen]
    dsimp only
    rw [hrun, Tree.summary?, ← hsum]
    exact ⟨_, _, rfl⟩

/-- The entries below some roots. -/
def entriesOf (roots : List (Str × Tree)) : List (Str × Dirent) :=
  roots.flatMap fun root => root.2.entries root.1

theorem entriesOf_cons (root : Str × Tree) (roots : List (Str × Tree)) :
    entriesOf (root :: roots) = root.2.entries root.1 ++ entriesOf roots := List.flatMap_cons

/-- What is counted for each root, and together. -/
theorem processDirs_tally (flags : Flags) (halloc : ∀ n, env.alloc n = true)
    {roots : List (Str × Tree)} (hroots : ∀ root ∈ roots, env.Holds root.1 root.2)
    (hfuel : ∀ root ∈ roots, root.2.height ≤ fuel) (g : Totals) :
    ∃ out allocs, processDirs env flags fuel (roots.map Prod.fst) g =
      .ok (roots.map fun root => root.2.summary? env flags root.1,
        ⟨out, updateTstats g.tstats (tally env flags (entriesOf roots)), allocs⟩) := by
  induction roots generalizing g with
  | nil =>
    rw [entriesOf, List.flatMap_nil, tally_nil, updateTstats_zero]
    exact ⟨_, _, rfl⟩
  | cons root roots ih =>
    obtain ⟨out, allocs, hroot⟩ := processDir_summary flags halloc
      (hroots root List.mem_cons_self) (hfuel root List.mem_cons_self) g
    obtain ⟨out', allocs', hrest⟩ := ih (fun r hr => hroots r (List.mem_cons_of_mem _ hr))
      (fun r hr => hfuel r (List.mem_cons_of_mem _ hr))
      ⟨out, updateTstats g.tstats (tally env flags (root.2.entries root.1)), allocs⟩
    refine ⟨out', allocs', ?_⟩
    rw [List.map_cons, processDirs, hroot]
    dsimp only [bind, Except.bind]
    rw [hrest, entriesOf_cons, tally_append, ← updateTstats_assoc]
    rfl

/-- What adds up over lists of entries adds up over the summaries of the roots. -/
theorem sum_opened {M : Type} [AddCommMonoid M] (f : Summary → M) (m : List (Str × Dirent) → M)
    (hnil : m [] = 0)
    (happend : ∀ entries entries', m (entries ++ entries') = m entries + m entries')
    {roots : List (Str × Tree)}
    (hroots : ∀ root ∈ roots, f (tally env flags (root.2.entries root.1)) =
      m (root.2.entries root.1)) :
    ((roots.filterMap fun root => root.2.summary? env flags root.1).map f).sum =
      m (entriesOf roots) := by
  induction roots with
  | nil => exact hnil.symm
  | cons root roots ih =>
    have ih := ih fun r hr => hroots r (List.mem_cons_of_mem _ hr)
    have hroot := hroots root List.mem_cons_self
    obtain ⟨dn, t⟩ := root
    rw [entriesOf_cons, happend, ← ih, ← hroot, List.filterMap_cons]
    cases t with
    | closed eacces =>
      rw [hroot, Tree.entries, hnil, zero_add]
      rfl
    | dir entries below => exact List.sum_cons

/-- The summaries add up to the total. -/
structure AddUp (summaries : List Summary) (tstats : Summary) : Prop where
  dirs : (summaries.map fun s => s.dirs.toNat).sum = tstats.dirs.toNat
  files : (summaries.map fun s => s.files.toNat).sum = tstats.files.toNat
  links : (summaries.map fun s => s.links.toNat).sum = tstats.links.toNat
  fifos : (summaries.map fun s => s.fifos.toNat).sum = tstats.fifos.toNat
  socks : (summaries.map fun s => s.socks.toNat).sum = tstats.socks.toNat
  size : (summaries.map fun s => s.size.toNat).sum = tstats.size.toNat
  blocks : (summaries.map fun s => s.blocks.toNat).sum = tstats.blocks.toNat

/-- What `dstats` is for a root: it counts the entries below, if the root could be opened. -/
def Summarises (env : Env P) (flags : Flags) (root : Str × Tree) (dstats : Option Summary) :
    Prop :=
  match root.2, dstats with
  | .closed _, none => True
  | .dir _ _, some dstats => Counts env flags (root.2.entries root.1) dstats
  | _, _ => False

/-- For a sum that is only kept in detailed mode. -/
theorem sum_opened_verbose (f : Summary → UInt64) (m : List (Str × Dirent) → Int)
    (hnil : m [] = 0)
    (happend : ∀ entries entries', m (entries ++ entries') = m entries + m entries')
    (hplain : has flags fVerbose = false → ∀ entries, f (tally env flags entries) = 0)
    {roots : List (Str × Tree)}
    (hroots : has flags fVerbose = true → ∀ root ∈ roots,
      ((f (tally env flags (root.2.entries root.1))).toNat : Int) = m (root.2.entries root.1))
    (htotal : has flags fVerbose = true →
      ((f (tally env flags (entriesOf roots))).toNat : Int) = m (entriesOf roots)) :
    ((roots.filterMap fun root => root.2.summary? env flags root.1).map
      fun s => (f s).toNat).sum = (f (tally env flags (entriesOf roots))).toNat := by
  cases hverbose : has flags fVerbose with
  | false =>
    have hzero : ∀ entries, (f (tally env flags entries)).toNat = 0 := fun entries => by
      rw [hplain hverbose entries]
      rfl
    rw [hzero]
    exact sum_opened (fun s => (f s).toNat) (fun _ => 0) rfl (fun _ _ => rfl) fun _ _ => hzero _
  | true =>
    have hsum := sum_opened (fun s => ((f s).toNat : Int)) m hnil happend (hroots hverbose)
    rw [← htotal hverbose] at hsum
    refine Int.ofNat.inj (Eq.trans ?_ hsum)
    rw [Int.ofNat_eq_natCast, Nat.cast_list_sum, List.map_map]
    rfl

theorem addUp_tally {roots : List (Str × Tree)}
    (hfits : ∀ root ∈ roots, Fitting env flags (root.2.entries root.1))
    (htotal : Fitting env flags (entriesOf roots)) :
    AddUp (roots.filterMap fun root => root.2.summary? env flags root.1)
      (tally env flags (entriesOf roots)) := by
  have hcounts := tally_counts htotal
  have hroots := fun root hroot => tally_counts (hfits root hroot)
  exact {
    dirs := (sum_opened (fun s => s.dirs.toNat) (number .dir) rfl (number_append .dir)
      fun root hroot => (hroots root hroot).dirs).trans hcounts.dirs.symm
    files := (sum_opened (fun s => s.files.toNat) (number .reg) rfl (number_append .reg)
      fun root hroot => (hroots root hroot).files).trans hcounts.files.symm
    links := (sum_opened (fun s => s.links.toNat) (number .lnk) rfl (number_append .lnk)
      fun root hroot => (hroots root hroot).links).trans hcounts.links.symm
    fifos := (sum_opened (fun s => s.fifos.toNat) (number .fifo) rfl (number_append .fifo)
      fun root hroot => (hroots root hroot).fifos).trans hcounts.fifos.symm
    socks := (sum_opened (fun s => s.socks.toNat) (number .sock) rfl (number_append .sock)
      fun root hroot => (hroots root hroot).socks).trans hcounts.socks.symm
    size := sum_opened_verbose Summary.size (totalSize env) rfl totalSize_append
      (fun hplain entries => (tally_plain hplain entries).1)
      (fun hverbose root hroot => (hroots root hroot).size hverbose) hcounts.size
    blocks := sum_opened_verbose Summary.blocks (totalBlocks env) rfl totalBlocks_append
      (fun hplain entries => (tally_plain hplain entries).2)
      (fun hverbose root hroot => (hroots root hroot).blocks hverbose) hcounts.blocks }

theorem summarises_summary? {root : Str × Tree} (h : Fitting env flags (root.2.entries root.1)) :
    Summarises env flags root (root.2.summary? env flags root.1) := by
  obtain ⟨dn, t⟩ := root
  cases t with
  | closed => exact trivial
  | dir => exact tally_counts h

/-- **The summaries.** Each of them counts the entries below its root, and the grand total is
    their sum and counts the entries below all roots. -/
theorem processDirs_summaries (halloc : ∀ n, env.alloc n = true) {roots : List (Str × Tree)}
    (hroots : ∀ root ∈ roots, env.Holds root.1 root.2)
    (hfuel : ∀ root ∈ roots, root.2.height ≤ fuel)
    (hfits : ∀ root ∈ roots, Fitting env flags (root.2.entries root.1))
    (htotal : Fitting env flags (entriesOf roots)) (out : Str) (allocs : Nat) :
    ∃ summaries g, processDirs env flags fuel (roots.map Prod.fst)
        ⟨out, Summary.zero, allocs⟩ = .ok (summaries, g) ∧
      List.Forall₂ (Summarises env flags) roots summaries ∧
      AddUp summaries.reduceOption g.tstats ∧ Counts env flags (entriesOf roots) g.tstats := by
  obtain ⟨out, allocs, hrun⟩ := processDirs_tally flags halloc hroots hfuel
    ⟨out, Summary.zero, allocs⟩
  rw [zero_updateTstats] at hrun
  refine ⟨_, _, hrun, ?_, ?_, tally_counts htotal⟩
  · rw [List.forall₂_map_right_iff, List.forall₂_same]
    exact fun root hroot => summarises_summary? (hfits root hroot)
  · have hadd := addUp_tally hfits htotal
    change AddUp ((roots.map _).filterMap id) _
    rw [List.filterMap_map]
    exact hadd

/-- The demo directories, with the metadata of the file. -/
def demoStat : Env Nat :=
  { demo (ascii "sparsefile") with
    dirfd := fun _ => some 3
    fstatat := fun _ name =>
      if name = ascii "sparsefile" then some ⟨1000, 1000, 1048576, 8⟩ else none }

/-- The directory, and one that cannot be opened. -/
def demoRoots : List (Str × Tree) :=
  [(ascii "demo", demoTree (ascii "sparsefile")), (ascii "secret", .closed false)]

theorem processDirs_summaries_demo : ∃ summaries g,
    processDirs demoStat fVerbose 3 [ascii "demo", ascii "secret"] ⟨[], Summary.zero, 0⟩ =
      .ok (summaries, g) ∧
    List.Forall₂ (Summarises demoStat fVerbose) demoRoots summaries ∧
    AddUp summaries.reduceOption g.tstats ∧
    g.tstats.dirs.toNat = 1 ∧ g.tstats.files.toNat = 1 ∧ (g.tstats.size.toNat : Int) = 1048576 := by
  have hroots : ∀ root ∈ demoRoots, demoStat.Holds root.1 root.2 :=
    List.forall_mem_cons.mpr ⟨demo_holds (by decide), List.forall_mem_singleton.mpr rfl⟩
  have hfuel : ∀ root ∈ demoRoots, root.2.height ≤ 3 := by decide
  have hfits : ∀ root ∈ demoRoots, Fitting demoStat fVerbose (root.2.entries root.1) :=
    List.forall_mem_cons.mpr ⟨⟨by decide, by decide, by decide⟩,
      List.forall_mem_singleton.mpr ⟨by decide, by decide, by decide⟩⟩
  have htotal : Fitting demoStat fVerbose (entriesOf demoRoots) := ⟨by decide, by decide, by decide⟩
  obtain ⟨summaries, g, hrun, hsummaries, hadd, hcounts⟩ :=
    processDirs_summaries (fun _ => rfl) hroots hfuel hfits htotal [] 0
  exact ⟨summaries, g, hrun, hsummaries, hadd, hcounts.dirs, hcounts.files,
    hcounts.size (by decide)⟩

end SnuSysProg.Dirtree
