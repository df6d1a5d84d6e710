import SnuSysProg.Dirtree.Arguments
import SnuSysProg.Dirtree.Summaries

/-
  What `dirtree` prints when memory is short.

  No call of `malloc` or `asprintf` has to succeed. Where one fails, `processDir_recursive` leaves
  its directory without a message, and the caller goes on with the next entry. `Tree.Shows` says
  what is shown of a tree then: of each directory the first entries, and below each of them what is
  shown of it. It also counts the places where something is left out, and there are as many of them
  as there are calls that failed (`processDirRecursive_shows`). So the whole output of a run is
  known but for these places (`main_shows`), and the summaries count the rows that are shown.
-/

namespace SnuSysProg.Dirtree
open SnuSysProg.Lib

/-- How many of the first `n` calls of `malloc` and `asprintf` fail. -/
def Env.failed {P : Type} (env : Env P) (n : Nat) : Nat :=
  (List.range n).countP fun i => !env.alloc i

/-- What is shown of the entries of `dn` from some entry on, if `shows` says what is shown of a
    directory, and in how many places something is left out. -/
inductive ShowsEntries (shows : Dirent × Bool → List Visit → Nat → Prop) (dn : Str)
    (above : List Bool) : List (Dirent × Bool) → List Visit → Nat → Prop where
  | nil : ShowsEntries shows dn above [] [] 0
  | stop (l : List (Dirent × Bool)) : ShowsEntries shows dn above l [] 1
  | file {e : Dirent × Bool} {l : List (Dirent × Bool)} {rest : List Visit} {cuts : Nat}
      (hfile : e.1.dType ≠ .dir) (hrest : ShowsEntries shows dn above l rest cuts) :
      ShowsEntries shows dn above (e :: l) (.row dn above e.2 e.1 :: rest) cuts
  | dir {e : Dirent × Bool} {l : List (Dirent × Bool)} {sub rest : List Visit} {cutsSub cuts : Nat}
      (hdir : e.1.dType = .dir) (hsub : shows e sub cutsSub)
      (hrest : ShowsEntries shows dn above l rest cuts) :
      ShowsEntries shows dn above (e :: l) (.row dn above e.2 e.1 :: sub ++ rest) (cutsSub + cuts)

/-- What is shown of a tree, and in how many places something is left out. -/
def Tree.Shows : Tree → Str → List Bool → List Visit → Nat → Prop
  | .closed eacces, dn, above, visits, cuts =>
    visits = (Tree.closed eacces).visits dn above ∧ cuts = 0
  | .dir entries below, dn, above, visits, cuts =>
    ShowsEntries (fun e => (below e.1.dName).Shows (pathOf dn e.1) (above ++ [e.2])) dn above
      (withLast (inOrder entries)) visits cuts

variable {P : Type} {env : Env P} {flags : Flags} {t : Tree} {dn : Str} {above : List Bool}
  {fuel : Nat} {visits : List Visit} {cuts : Nat} {st st' st'' : St}
  {shows : Dirent × Bool → List Visit → Nat → Prop} {l : List (Dirent × Bool)} {below : Str → Tree}

/-! ## What is left out -/

theorem ShowsEntries.sublist (h : ShowsEntries shows dn above l visits cuts)
    (hsub : ∀ e ∈ l, e.1.dType = .dir → ∀ sub cuts, shows e sub cuts →
      sub.Sublist ((below e.1.dName).visits (pathOf dn e.1) (above ++ [e.2]))) :
    visits.Sublist (l.flatMap (entryVisits below dn above)) := by
  induction h with
  | nil => exact List.nil_sublist _
  | stop l => exact List.nil_sublist _
  | file hfile _ ih =>
    rw [List.flatMap_cons, entryVisits, if_neg hfile]
    exact (ih fun e he => hsub e (List.mem_cons_of_mem _ he)).cons_cons _
  | dir hdir hshows _ ih =>
    rw [List.flatMap_cons, entryVisits, if_pos hdir]
    exact ((hsub _ List.mem_cons_self hdir _ _ hshows).append
      (ih fun e he => hsub e (List.mem_cons_of_mem _ he))).cons_cons _

/-- Nothing is shown twice, in another order, or that is not there. -/
theorem Tree.Shows.sublist (h : t.Shows dn above visits cuts) :
    visits.Sublist (t.visits dn above) := by
  induction t generalizing dn above visits cuts with
  | closed eacces =>
    obtain ⟨rfl, -⟩ := h
    exact List.Sublist.refl _
  | dir entries below ih => exact ShowsEntries.sublist h fun e _ _ sub cuts hshows => ih _ hshows

theorem ShowsEntries.whole (h : ShowsEntries shows dn above l visits 0)
    (hsub : ∀ e ∈ l, e.1.dType = .dir → ∀ sub, shows e sub 0 →
      sub = (below e.1.dName).visits (pathOf dn e.1) (above ++ [e.2])) :
    visits = l.flatMap (entryVisits below dn above) := by
  generalize hcuts : 0 = cuts at h
  induction h with
  | nil => rfl
  | stop l => exact absurd hcuts (by decide)
  | file hfile _ ih =>
    rw [List.flatMap_cons, entryVisits, if_neg hfile,
      ih (fun e he => hsub e (List.mem_cons_of_mem _ he)) hcuts, List.singleton_append]
  | dir hdir hshows _ ih =>
    obtain ⟨rfl, rfl⟩ := Nat.add_eq_zero_iff.mp hcuts.symm
    rw [List.flatMap_cons, entryVisits, if_pos hdir, hsub _ List.mem_cons_self hdir _ hshows,
      ih (fun e he => hsub e (List.mem_cons_of_mem _ he)) rfl]

/-- Where nothing is left out, everything is shown. -/
theorem Tree.Shows.whole (h : t.Shows dn above visits 0) : visits = t.visits dn above := by
  induction t generalizing dn above visits with
  | closed => exact h.1
  | dir entries below ih => exact ShowsEntries.whole h fun e _ _ sub hshows => ih _ hshows

/-! ## The recursion -/

theorem Env.failed_succ (env : Env P) (n : Nat) :
    env.failed (n + 1) = env.failed n + if env.alloc n then 0 else 1 := by
  rw [Env.failed, List.range_succ, List.countP_append, List.countP_singleton]
  cases env.alloc n <;> rfl

/-- From `st` to `st'` these visits were made, and there were so many cuts. -/
structure Follows (env : Env P) (flags : Flags) (visits : List Visit) (cuts : Nat) (st st' : St) :
    Prop where
  report : st'.report = visits.foldl (Visit.print env flags) st.report
  failed : env.failed st'.allocs = env.failed st.allocs + cuts

theorem Follows.refl (st : St) : Follows env flags [] 0 st st := ⟨rfl, rfl⟩

theorem Follows.trans {visits' : List Visit} {cuts' : Nat}
    (h : Follows env flags visits cuts st st') (h' : Follows env flags visits' cuts' st' st'') :
    Follows env flags (visits ++ visits') (cuts + cuts') st st'' where
  report := by rw [h'.report, h.report, List.foldl_append]
  failed := by rw [h'.failed, h.failed, Nat.add_assoc]

/-- A call that fails, and one that succeeds. -/
theorem Follows.call (env : Env P) (flags : Flags) (st : St) :
    Follows env flags [] (if env.alloc st.allocs then 0 else 1) st
      { st with allocs := st.allocs + 1 } := ⟨rfl, env.failed_succ _⟩

theorem asprintf_cases (env : Env P) (flags : Flags) (text : Str) (st : St) :
    (∃ st', asprintf env text st = (none, st') ∧ Follows env flags [] 1 st st') ∨
      ∃ st', asprintf env text st = (some text, st') ∧ Follows env flags [] 0 st st' := by
  have hcall := Follows.call env flags st
  cases halloc : env.alloc st.allocs with
  | false =>
    rw [halloc] at hcall
    refine Or.inl ⟨_, ?_, hcall⟩
    rw [asprintf, halloc]
    rfl
  | true =>
    rw [halloc] at hcall
    refine Or.inr ⟨_, ?_, hcall⟩
    rw [asprintf, halloc]
    rfl

/-- The two strings of `handle_pstr`, or none of them. -/
theorem handlePstr_cases (env : Env P) (flags : Flags) (above : List Bool) (entry : Dirent)
    (last : Bool) (st : St) :
    (∃ st', handlePstr env (indentation (has flags fTree) above) entry flags last st =
        (none, st') ∧ Follows env flags [] 1 st st') ∨
      ∃ st', handlePstr env (indentation (has flags fTree) above) entry flags last st =
        (some (line (has flags fTree) above last entry.dName,
          indentation (has flags fTree) (above ++ [last])), st') ∧
        Follows env flags [] 0 st st' := by
  rw [handlePstr, indentation_snoc, line]
  dsimp only
  obtain ⟨st₁, hname, hfailed⟩ | ⟨st₁, hname, hsucceeded⟩ := asprintf_cases env flags
    (indentation (has flags fTree) above ++ (if has flags fTree then
      if last then ascii "`-" else ascii "|-" else ascii "  ") ++ entry.dName) st
  · rw [hname]
    exact Or.inl ⟨st₁, rfl, hfailed⟩
  rw [hname]
  dsimp only
  obtain ⟨st₂, hnew, hfailed⟩ | ⟨st₂, hnew, hsucceeded'⟩ := asprintf_cases env flags
    (indentation (has flags fTree) above ++ (if has flags fTree then
      if last then ascii "  " else ascii "| " else ascii "  ")) st₁
  · rw [hnew]
    exact Or.inl ⟨st₂, rfl, hsucceeded.trans hfailed⟩
  · rw [hnew]
    refine Or.inr ⟨st₂, ?_, hsucceeded.trans hsucceeded'⟩
    cases has flags fTree <;> cases last <;> rfl

/-- The state after the row of an entry of `dn`. -/
def St.row (env : Env P) (flags : Flags) (dn : Str) (above : List Bool) (e : Dirent × Bool)
    (st : St) : St :=
  { st with report := Visit.print env flags st.report (.row dn above e.2 e.1) }

theorem Follows.row (dn : Str) (above : List Bool) (e : Dirent × Bool) (st : St) :
    Follows env flags [.row dn above e.2 e.1] 0 st (st.row env flags dn above e) := ⟨rfl, rfl⟩

/-- `recurse` shows what it can of the tree. -/
def ShownBy (env : Env P) (flags : Flags) (recurse : Str → Str → St → Except Stop St) (t : Tree)
    (dn : Str) : Prop :=
  ∀ above st, ∃ visits cuts st', t.Shows dn above visits cuts ∧
    Follows env flags visits cuts st st' ∧
    recurse dn (indentation (has flags fTree) above) st = .ok st'

theorem processEntries_shows {recurse : Str → Str → St → Except Stop St} {entries : List Dirent}
    (hrec : ∀ entry ∈ entries, entry.dType = .dir →
      ShownBy env flags recurse (below entry.dName) (pathOf dn entry))
    {count i : Nat} (hcount : count = i + entries.length) (st : St) :
    ∃ visits cuts st', ShowsEntries
        (fun e => (below e.1.dName).Shows (pathOf dn e.1) (above ++ [e.2])) dn above
        (withLast entries) visits cuts ∧
      Follows env flags visits cuts st st' ∧
      processEntries env flags recurse dn (indentation (has flags fTree) above) count entries i st =
        .ok st' := by
  induction entries generalizing i st with
  | nil => exact ⟨[], 0, st, .nil, .refl st, rfl⟩
  | cons entry entries ih =>
    have hlast : decide (i = count - 1) = entries.isEmpty := by
      rw [Bool.eq_iff_iff, decide_eq_true_iff, List.isEmpty_iff_length_eq_zero, hcount,
        List.length_cons]
      omega
    have hnext := fun st => ih (i := i + 1) (fun e he => hrec e (List.mem_cons_of_mem _ he))
      (by rw [hcount, List.length_cons]; omega) st
    rw [processEntries, hlast]
    -- the path
    obtain ⟨st₁, hpath, hfailed⟩ | ⟨st₁, hpath, hsucceeded⟩ :=
      asprintf_cases env flags (dn ++ ascii "/" ++ entry.dName) st
    · rw [hpath]
      exact ⟨[], 1, st₁, .stop _, hfailed, rfl⟩
    rw [hpath]
    dsimp only
    -- the name and what stands before the next rows
    obtain ⟨st₂, hpstr, hfailed⟩ | ⟨st₂, hpstr, hsucceeded'⟩ :=
      handlePstr_cases env flags above entry entries.isEmpty st₁
    · rw [hpstr]
      exact ⟨[], 1, st₂, .stop _, hsucceeded.trans hfailed, rfl⟩
    rw [hpstr]
    have hrow : Follows env flags [.row dn above entries.isEmpty entry] 0 st
        (st₂.row env flags dn above (entry, entries.isEmpty)) :=
      (hsucceeded.trans hsucceeded').trans (.row dn above (entry, entries.isEmpty) st₂)
    by_cases hdir : entry.dType = .dir
    · obtain ⟨sub, cutsSub, st₃, hsub, hfollows, hrecurse⟩ := hrec entry List.mem_cons_self hdir
        (above ++ [entries.isEmpty]) (st₂.row env flags dn above (entry, entries.isEmpty))
      obtain ⟨rest, cuts, st', hrest, hfollows', hrun⟩ := hnext st₃
      refine ⟨_, _, st', .dir hdir hsub hrest, ?_, ?_⟩
      · have hall := hrow.trans (hfollows.trans hfollows')
        rw [Nat.zero_add] at hall
        exact hall
      · dsimp only
        rw [if_pos hdir]
        exact returns_bind hrecurse hrun
    · obtain ⟨rest, cuts, st', hrest, hfollows, hrun⟩ :=
        hnext (st₂.row env flags dn above (entry, entries.isEmpty))
      refine ⟨_, _, st', .file hdir hrest, ?_, ?_⟩
      · have hall := hrow.trans hfollows
        rw [Nat.zero_add] at hall
        exact hall
      · dsimp only
        rw [if_neg hdir]
        exact hrun

/-- **The recursion.** Each call that fails cuts one directory short, and everything else is
    shown. -/
theorem processDirRecursive_shows (ht : env.Holds dn t) (hfuel : t.height ≤ fuel) :
    ShownBy env flags (processDirRecursive env flags fuel) t dn := by
  induction t generalizing dn fuel with
  | closed eacces =>
    intro above st
    obtain ⟨fuel, rfl⟩ := Tree.fuel_succ hfuel
    rw [processDirRecursive, show env.opendir dn = _ from ht]
    have hvisits : (Tree.closed eacces).Shows dn above ((Tree.closed eacces).visits dn above) 0 :=
      ⟨rfl, rfl⟩
    cases eacces with
    | true =>
      exact ⟨_, 0, { st with report := Visit.print env flags st.report (.denied above) }, hvisits,
        ⟨rfl, rfl⟩, rfl⟩
    | false => exact ⟨_, 0, st, hvisits, ⟨rfl, rfl⟩, rfl⟩
  | dir entries below ih =>
    intro above st
    obtain ⟨⟨first, second, hopen, hfills⟩, hnames, hbelow⟩ := ht
    obtain ⟨fuel, rfl⟩ := Tree.fuel_succ hfuel
    rw [processDirRecursive, hopen]
    have hcall := Follows.call env flags st
    dsimp only
    cases halloc : env.alloc st.allocs with
    | false =>
      rw [halloc] at hcall
      rw [hfills.noMemory]
      exact ⟨[], 1, _, .stop _, hcall, rfl⟩
    | true =>
      rw [halloc] at hcall
      obtain ⟨hresult, hperm, hsorted⟩ := hfills.readAndSortDirectory env.qsort
      have horder := eq_inOrder hnames hperm hsorted
      have hlen : (sortedPtrs env.qsort second).length = 0 + (inOrder entries).length := by
        rw [← horder, List.length_map, Nat.zero_add]
      have hrec : ∀ entry ∈ inOrder entries, entry.dType = .dir →
          ShownBy env flags (processDirRecursive env flags fuel) (below entry.dName)
            (pathOf dn entry) := fun entry hmem hdir => by
        have hmem := (inOrder_perm entries).subset hmem
        exact ih entry.dName (hbelow entry hmem hdir) (Tree.fuel_below hfuel hmem)
      obtain ⟨visits, cuts, st', hshows, hfollows, hrun⟩ :=
        processEntries_shows hrec hlen { st with allocs := st.allocs + 1 }
      refine ⟨visits, cuts, st', hshows, ?_, ?_⟩
      · have hall := hcall.trans hfollows
        rw [if_pos rfl, Nat.zero_add] at hall
        exact hall
      · rw [hresult]
        dsimp only
        rw [horder]
        exact hrun

/-! ## The text -/

/-- The text of a visit. -/
def Visit.text (env : Env P) (flags : Flags) (v : Visit) : Str :=
  (v.print env flags ⟨[], Summary.zero⟩).out

/-- A row is written behind what is there, and the same one whatever that is. -/
theorem printRow_out (l : Str) (entry : Dirent) (r : Report) :
    (printRow env l dn entry flags r).out =
      r.out ++ (printRow env l dn entry flags ⟨[], Summary.zero⟩).out := by
  have hname : ∀ r : Report,
      (if 54 < l.length then r.print (l.take 51 ++ ascii "...")
        else if has flags fVerbose then r.print (padRight 54 l) else r.print l).out =
      r.out ++ if 54 < l.length then l.take 51 ++ ascii "..."
        else if has flags fVerbose then padRight 54 l else l := by
    intro r
    rw [apply_ite Report.out, apply_ite Report.out, apply_ite (r.out ++ ·),
      apply_ite (r.out ++ ·)]
    rfl
  unfold printRow
  generalize hr : (if 54 < l.length then r.print (l.take 51 ++ ascii "...")
    else if has flags fVerbose then r.print (padRight 54 l) else r.print l) = r₁
  generalize hr' : (if 54 < l.length then
      Report.print ⟨[], Summary.zero⟩ (l.take 51 ++ ascii "...")
    else if has flags fVerbose then Report.print ⟨[], Summary.zero⟩ (padRight 54 l)
    else Report.print ⟨[], Summary.zero⟩ l) = r₂
  have hboth : r₁.out = r.out ++ r₂.out := by
    rw [← hr, ← hr', hname, hname, List.nil_append]
  have hprint : ∀ text, r₁.out ++ text = r.out ++ (r₂.out ++ text) := fun text => by
    rw [hboth, List.append_assoc]
  dsimp only
  cases has flags fVerbose with
  | false => exact hprint _
  | true =>
    cases env.dirfd dn with
    | none => exact hboth
    | some dd =>
      dsimp only
      cases env.fstatat dd entry.dName with
      | none =>
        simp only [if_true, Report.print, hprint, List.append_assoc]
      | some sb =>
        simp only [if_true, Report.print, hprint, List.append_assoc]

theorem Visit.print_out (r : Report) (v : Visit) :
    (v.print env flags r).out = r.out ++ v.text env flags := by
  cases v with
  | row dn above last entry => exact printRow_out _ entry r
  | denied above => rfl

theorem foldl_out (visits : List Visit) (r : Report) :
    (visits.foldl (Visit.print env flags) r).out =
      r.out ++ visits.flatMap (Visit.text env flags) := by
  induction visits generalizing r with
  | nil => exact (List.append_nil _).symm
  | cons v visits ih =>
    rw [List.foldl_cons, ih, Visit.print_out, List.flatMap_cons, List.append_assoc]

/-- The header is written behind what is there. -/
theorem printHeader_append (dn : Str) (flags : Flags) (out : Str) :
    printHeader dn flags out = out ++ printHeader dn flags [] := by
  unfold printHeader
  cases has flags fSummary <;> cases has flags fVerbose <;>
    simp only [if_true, if_false, Bool.false_eq_true, List.append_assoc, List.nil_append]

/-- The footer below the line of dashes. -/
def footerLine (dstats : Summary) (flags : Flags) : Str :=
  (if 68 < (countsLine dstats).length then (countsLine dstats).take 65 ++ ascii "..."
    else padRight 68 (countsLine dstats)) ++
  (if has flags fVerbose then
    ascii "   " ++ padLeft 14 (decimalUnsigned dstats.size) ++ ascii " " ++
      padLeft 9 (decimalUnsigned dstats.blocks)
  else []) ++ ascii "\n\n"

theorem printFooter_eq (env : Env P) (dstats : Summary) (flags : Flags) (st : St) :
    printFooter env dstats flags st =
      ⟨st.report.print (rule ++ if env.alloc st.allocs then footerLine dstats flags else []),
        st.allocs + 1⟩ := by
  unfold printFooter asprintf footerLine
  dsimp only
  cases env.alloc st.allocs with
  | false =>
    simp only [Bool.false_eq_true, if_false, List.append_nil]
  | true =>
    simp only [if_true, Report.print]
    by_cases hlong : 68 < (countsLine dstats).length
    · rw [if_pos hlong, if_pos hlong]
      cases has flags fVerbose <;> simp only [Bool.false_eq_true, if_true, if_false,
        List.append_assoc, List.append_nil]
    · rw [if_neg hlong, if_neg hlong]
      cases has flags fVerbose <;> simp only [Bool.false_eq_true, if_true, if_false,
        List.append_assoc, List.append_nil]

/-! ## The roots -/

/-- What is shown of a root. -/
structure Shown where
  visits : List Visit
  /-- In so many places something is left out of the listing. -/
  cuts : Nat
  /-- The line of the summary is not left out. -/
  counted : Bool

/-- In so many places something is left out. -/
def Shown.missing (s : Shown) : Nat := s.cuts + if s.counted then 0 else 1

/-- The entries that are shown. -/
def Shown.entries (s : Shown) : List (Str × Dirent) := s.visits.filterMap Visit.entry?

/-- The text that is shown. -/
def Shown.text (env : Env P) (flags : Flags) (root : Str × Tree) (s : Shown) : Str :=
  printHeader root.1 flags [] ++ s.visits.flatMap (Visit.text env flags) ++
    match root.2 with
    | .closed _ => []
    | .dir _ _ =>
      if has flags fSummary then
        rule ++ if s.counted then footerLine (tally env flags s.entries) flags else []
      else []

/-- The rows are rows of the root in their order, and all of them if there is no cut. -/
structure ShownOf (root : Str × Tree) (s : Shown) : Prop where
  shows : root.2.Shows root.1 [] s.visits s.cuts
  sublist : s.visits.Sublist (root.2.visits root.1 [])
  whole : s.cuts = 0 → s.visits = root.2.visits root.1 []

theorem Tree.Shows.shownOf {counted : Bool} (h : t.Shows dn [] visits cuts) :
    ShownOf (dn, t) ⟨visits, cuts, counted⟩ :=
  ⟨h, h.sublist, fun hnone => Tree.Shows.whole (hnone ▸ h)⟩

theorem processDir_shows (flags : Flags) (ht : env.Holds dn t) (hfuel : t.height ≤ fuel)
    (g : Totals) :
    ∃ s dstats allocs, ShownOf (dn, t) s ∧
      env.failed allocs = env.failed g.allocs + s.missing ∧
      processDir env flags fuel dn [] g = .ok (dstats, ⟨g.out ++ s.text env flags (dn, t),
        updateTstats g.tstats (tally env flags s.entries), allocs⟩) := by
  cases t with
  | closed eacces =>
    have hshows : (Tree.closed eacces).Shows dn [] ((Tree.closed eacces).visits dn []) 0 :=
      ⟨rfl, rfl⟩
    refine ⟨⟨_, 0, true⟩, none, g.allocs, hshows.shownOf, rfl, ?_⟩
    have hempty : Shown.entries ⟨(Tree.closed eacces).visits dn [], 0, true⟩ = [] := by
      cases eacces <;> rfl
    rw [hempty, tally_nil, updateTstats_zero, processDir, show env.opendir dn = _ from ht]
    dsimp only [Shown.text]
    rw [printHeader_append, List.append_nil]
    cases eacces with
    | true =>
      have htext : ((Tree.closed true).visits dn []).flatMap (Visit.text env flags) =
          (if has flags fTree then ascii "`-" else ascii "  ") ++
            ascii "ERROR: Permission denied\n" := List.append_nil _
      rw [if_pos rfl, List.append_assoc, htext]
    | false =>
      have htext : ((Tree.closed false).visits dn []).flatMap (Visit.text env flags) = [] := rfl
      rw [if_neg (by decide), htext, List.append_nil]
  | dir entries below =>
    obtain ⟨⟨first, second, hopen, -⟩, -, -⟩ := id ht
    have hshown : ShownBy env flags (processDirRecursive env flags fuel) _ dn :=
      processDirRecursive_shows ht hfuel
    obtain ⟨visits, cuts, st, hshows, hfollows, hrun⟩ :=
      hshown [] ⟨⟨printHeader dn flags g.out, Summary.zero⟩, g.allocs⟩
    rw [indentation, List.flatMap_nil] at hrun
    have hout : st.report.out =
        g.out ++ (printHeader dn flags [] ++ visits.flatMap (Visit.text env flags)) := by
      rw [hfollows.report, foldl_out, printHeader_append, List.append_assoc]
    have hdstats : st.report.dstats = tally env flags (visits.filterMap Visit.entry?) := by
      rw [hfollows.report, foldl_dstats, foldl_countEntry, zero_updateTstats]
    have hdir : processDir env flags fuel dn [] g =
        .ok (some st.report.dstats, (fun st' : St => ⟨st'.report.out,
          updateTstats g.tstats st.report.dstats, st'.allocs⟩)
            (if has flags fSummary then printFooter env st.report.dstats flags st else st)) := by
      rw [processDir, hopen]
      dsimp only
      rw [hrun]
      rfl
    rw [hdir]
    cases hsummary : has flags fSummary with
    | false =>
      refine ⟨⟨visits, cuts, true⟩, some st.report.dstats, st.allocs, hshows.shownOf,
        hfollows.failed, ?_⟩
      dsimp only [Shown.text, Shown.entries]
      rw [if_neg (by decide), hout, hdstats, hsummary, if_neg (by decide), List.append_nil]
    | true =>
      refine ⟨⟨visits, cuts, env.alloc st.allocs⟩, some st.report.dstats, st.allocs + 1,
        hshows.shownOf, ?_, ?_⟩
      · rw [env.failed_succ, hfollows.failed, Nat.add_assoc]
        rfl
      · dsimp only [Shown.text, Shown.entries]
        rw [if_pos rfl, printFooter_eq, hdstats, hsummary, if_pos rfl]
        dsimp only [Report.print]
        rw [hout, List.append_assoc]

theorem processDirs_shows (flags : Flags) {roots : List (Str × Tree)}
    (hroots : ∀ root ∈ roots, env.Holds root.1 root.2)
    (hfuel : ∀ root ∈ roots, root.2.height ≤ fuel) (g : Totals) :
    ∃ shown dstats allocs, List.Forall₂ ShownOf roots shown ∧
      env.failed allocs = env.failed g.allocs + (shown.map Shown.missing).sum ∧
      processDirs env flags fuel (roots.map Prod.fst) g = .ok (dstats,
        ⟨g.out ++ (List.zipWith (Shown.text env flags) roots shown).flatten,
          updateTstats g.tstats (tally env flags (shown.flatMap Shown.entries)), allocs⟩) := by
  induction roots generalizing g with
  | nil =>
    refine ⟨[], [], g.allocs, .nil, rfl, ?_⟩
    rw [List.flatMap_nil, tally_nil, updateTstats_zero, List.zipWith_nil_left, List.flatten_nil,
      List.append_nil]
    rfl
  | cons root roots ih =>
    obtain ⟨s, dstats, allocs, hs, hfailed, hroot⟩ := processDir_shows flags
      (hroots root List.mem_cons_self) (hfuel root List.mem_cons_self) g
    obtain ⟨shown, dstats', allocs', hshown, hfailed', hrest⟩ :=
      ih (fun r hr => hroots r (List.mem_cons_of_mem _ hr))
        (fun r hr => hfuel r (List.mem_cons_of_mem _ hr)) ⟨g.out ++ s.text env flags root,
          updateTstats g.tstats (tally env flags s.entries), allocs⟩
    refine ⟨s :: shown, dstats :: dstats', allocs', .cons hs hshown, ?_, ?_⟩
    · rw [hfailed', hfailed, List.map_cons, List.sum_cons, Nat.add_assoc]
    · rw [List.map_cons, processDirs, hroot]
      dsimp only [bind, Except.bind]
      rw [hrest, List.flatMap_cons, tally_append, ← updateTstats_assoc, List.zipWith_cons_cons,
        List.flatten_cons, ← List.append_assoc]
      rfl

/-- The demo directory, where the array of the directory in it cannot be allocated. -/
def demoScarce : Env Nat := { demo (ascii "sparsefile") with alloc := fun n => n ≠ 4 }

/-- There the file is left out. -/
example : main demoScarce 3 [ascii "demo", ascii "-t"] = .ok ⟨ascii "demo\n`-subdir1\n", 0⟩ := rfl

end SnuSysProg.Dirtree
