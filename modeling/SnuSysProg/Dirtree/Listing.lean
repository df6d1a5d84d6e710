import SnuSysProg.Dirtree.Printing

/-
  What `processDir_recursive` prints.

  A `Tree` says what is below a directory: its entries other than `.` and `..`, and what is below
  those of them that are directories. `Tree.visits` goes over it depth first, each directory in
  the order of `Before`. When no allocation fails the recursion does at each entry what
  `Visit.print` does (`processDirRecursive_visits`), whatever `qsort` and the order in which
  `readdir` gives the entries. In simple mode a row is the line of the entry, but only up to 54
  bytes: longer ones are cut as in detailed mode (`processDirRecursive_lists`).
-/

namespace SnuSysProg.Dirtree
open SnuSysProg.Lib

/-- A directory that cannot be opened, or one with its entries and what is below them, by name. -/
inductive Tree where
  | closed (eacces : Bool)
  | dir (entries : List Dirent) (below : Str → Tree)

/-- `"%s/%s"`. -/
def pathOf (dn : Str) (entry : Dirent) : Str := dn ++ ascii "/" ++ entry.dName

variable {P : Type} {env : Env P} {flags : Flags} {t : Tree} {dn : Str} {above : List Bool}
  {fuel : Nat}

/-- The directory `dn` is the tree, and so are those below it. In each the names are different,
    and the array is filled with the entries. -/
def Env.Holds (env : Env P) : Str → Tree → Prop
  | dn, .closed eacces => env.opendir dn = .failed eacces
  | dn, .dir entries below =>
    (∃ first second, env.opendir dn = .opened first second ∧ Fills first second entries) ∧
      (entries.map Dirent.dName).Nodup ∧
      ∀ entry ∈ entries, entry.dType = .dir → env.Holds (pathOf dn entry) (below entry.dName)

/-- What `print_row` gets for an entry of `dn`: nothing without a descriptor of the directory, and
    otherwise what `fstatat` gives. -/
def Env.stat (env : Env P) (dn : Str) (entry : Dirent) : Option (Option Stat) :=
  (env.dirfd dn).map fun dd => env.fstatat dd entry.dName

/-- All directories can be read. -/
def Tree.Readable : Tree → Prop
  | .closed _ => False
  | .dir entries below => ∀ entry ∈ entries, entry.dType = .dir → (below entry.dName).Readable

/-- Fuel that is enough. -/
def Tree.height : Tree → Nat
  | .closed _ => 1
  | .dir entries below => (entries.map fun entry => (below entry.dName).height).foldr max 0 + 1

/-! ## The lines -/

/-- The entries, directories first and then by name. -/
def inOrder (entries : List Dirent) : List Dirent := entries.insertionSort Before

/-- Each element, and whether it is the last one. -/
def withLast {α : Type} : List α → List (α × Bool)
  | [] => []
  | a :: l => (a, l.isEmpty) :: withLast l

theorem mem_of_withLast {α : Type} {l : List α} {e : α × Bool} (h : e ∈ withLast l) : e.1 ∈ l := by
  induction l with
  | nil => exact absurd h List.not_mem_nil
  | cons a l ih =>
    obtain rfl | h := List.mem_cons.mp h
    · exact List.mem_cons_self
    · exact List.mem_cons_of_mem _ (ih h)

/-- What stands before the entries of a directory. `above` says of the directory and of those it
    is in whether they are last in theirs. -/
def indentation (tree : Bool) (above : List Bool) : Str :=
  above.flatMap fun last => if tree && !last then ascii "| " else ascii "  "

/-- The line of an entry. -/
def line (tree : Bool) (above : List Bool) (last : Bool) (name : Str) : Str :=
  indentation tree above ++
    (if tree then if last then ascii "`-" else ascii "|-" else ascii "  ") ++ name

/-- A row for an entry of `dn`, or the message that a directory cannot be read. -/
inductive Visit where
  | row (dn : Str) (above : List Bool) (last : Bool) (entry : Dirent)
  | denied (above : List Bool)

/-- What the recursion does, in order. -/
def Tree.visits : Tree → Str → List Bool → List Visit
  | .closed eacces, _, above => if eacces then [.denied above] else []
  | .dir entries below, dn, above =>
    (withLast (inOrder entries)).flatMap fun e =>
      .row dn above e.2 e.1 ::
        if e.1.dType = .dir then
          (below e.1.dName).visits (pathOf dn e.1) (above ++ [e.2])
        else []

/-- The line that a visit is about. -/
def Visit.line (tree : Bool) : Visit → Str
  | .row _ above last entry => Dirtree.line tree above last entry.dName
  | .denied above => Dirtree.line tree above true (ascii "ERROR: Permission denied")

/-- The lines of the tree, depth first. -/
def Tree.lines (tree : Bool) (t : Tree) (dn : Str) (above : List Bool) : List Str :=
  (t.visits dn above).map (Visit.line tree)

/-- The text with these lines. -/
def text (lines : List Str) : Str := lines.flatMap fun l => l ++ ascii "\n"

/-- What one visit does. -/
def Visit.print (env : Env P) (flags : Flags) (r : Report) : Visit → Report
  | .row dn above last entry =>
    let r := printRow env (Dirtree.line (has flags fTree) above last entry.dName) dn entry flags r
    { r with dstats := updateDstats r.dstats entry }
  | .denied above => r.print (indentation (has flags fTree) above ++
      (if has flags fTree then ascii "`-" else ascii "  ") ++ ascii "ERROR: Permission denied\n")

/-! ## The order of a directory -/

theorem inOrder_perm (entries : List Dirent) : (inOrder entries).Perm entries :=
  List.perm_insertionSort _ entries

theorem inOrder_sorted (entries : List Dirent) : (inOrder entries).Pairwise Before := by
  have htotal : Std.Total Before := ⟨fun a b => by
    rw [← direntCompare_le, ← direntCompare_le]
    exact orders_direntCompare.total a b⟩
  have htrans : IsTrans Dirent Before := ⟨fun a b c => by
    rw [← direntCompare_le, ← direntCompare_le, ← direntCompare_le]
    exact orders_direntCompare.trans a b c⟩
  exact List.pairwise_insertionSort Before entries

/-- There is only one order of a directory. -/
theorem eq_inOrder {entries l : List Dirent} (hnames : (entries.map Dirent.dName).Nodup)
    (hperm : l.Perm entries) (hsorted : InOrderOf direntCompare l) : l = inOrder entries := by
  refine sorted_unique (fun a ha b hb hab hba => ?_) hsorted
    ((inOrder_sorted entries).imp direntCompare_le.mpr) (hperm.trans (inOrder_perm entries).symm)
  exact List.inj_on_of_nodup_map hnames (hperm.subset ha) (hperm.subset hb)
    (direntCompare_antisymm hab hba)

/-! ## The recursion -/

theorem Tree.height_below_lt {entries : List Dirent} {below : Str → Tree} {entry : Dirent}
    (hmem : entry ∈ entries) : (below entry.dName).height < (Tree.dir entries below).height := by
  rw [Tree.height]
  refine Nat.lt_succ_of_le ?_
  induction entries with
  | nil => exact absurd hmem List.not_mem_nil
  | cons e entries ih =>
    rw [List.map_cons, List.foldr_cons]
    obtain rfl | hmem := List.mem_cons.mp hmem
    · exact Nat.le_max_left _ _
    · exact Nat.le_trans (ih hmem) (Nat.le_max_right _ _)

/-- There is fuel for a directory, and what is left is enough for those in it. -/
theorem Tree.fuel_succ (h : t.height ≤ fuel) : ∃ left, fuel = left + 1 := by
  have hpos : 0 < t.height := by cases t <;> exact Nat.succ_pos _
  exact Nat.exists_eq_succ_of_ne_zero (Nat.ne_of_gt (Nat.lt_of_lt_of_le hpos h))

theorem Tree.fuel_below {entries : List Dirent} {below : Str → Tree} {entry : Dirent}
    (h : (Tree.dir entries below).height ≤ fuel + 1) (hmem : entry ∈ entries) :
    (below entry.dName).height ≤ fuel :=
  Nat.le_of_lt_succ (Nat.lt_of_lt_of_le (Tree.height_below_lt hmem) h)

theorem returns_bind {x : Except Stop St} {f : St → Except Stop St} {st st' : St}
    (hx : x = .ok st) (hf : f st = .ok st') : (do let st ← x; f st) = .ok st' := by
  rw [hx]
  exact hf

theorem indentation_snoc (tree : Bool) (above : List Bool) (last : Bool) :
    indentation tree (above ++ [last]) =
      indentation tree above ++ if tree && !last then ascii "| " else ascii "  " := by
  rw [indentation, List.flatMap_append, List.flatMap_singleton]
  rfl

theorem asprintf_succeeds (halloc : ∀ n, env.alloc n = true) (text : Str) (st : St) :
    asprintf env text st = (some text, { st with allocs := st.allocs + 1 }) := by
  rw [asprintf, if_pos (halloc _)]

/-- The two strings of `handle_pstr`. -/
theorem handlePstr_lines (halloc : ∀ n, env.alloc n = true) (entry : Dirent) (last : Bool)
    (st : St) :
    handlePstr env (indentation (has flags fTree) above) entry flags last st =
      (some (line (has flags fTree) above last entry.dName,
        indentation (has flags fTree) (above ++ [last])), { st with allocs := st.allocs + 2 }) := by
  rw [handlePstr]
  simp only [asprintf_succeeds halloc]
  rw [indentation_snoc, line]
  cases has flags fTree <;> cases last <;> rfl

/-- The visits for an entry of `dn`, and whether it is the last one. -/
def entryVisits (below : Str → Tree) (dn : Str) (above : List Bool) (e : Dirent × Bool) :
    List Visit :=
  .row dn above e.2 e.1 ::
    if e.1.dType = .dir then (below e.1.dName).visits (pathOf dn e.1) (above ++ [e.2]) else []

theorem Tree.visits_dir (entries : List Dirent) (below : Str → Tree) (dn : Str)
    (above : List Bool) :
    (Tree.dir entries below).visits dn above =
      (withLast (inOrder entries)).flatMap (entryVisits below dn above) := rfl

/-- `recurse` does what the visits of the tree do. -/
def Visits (env : Env P) (flags : Flags) (recurse : Str → Str → St → Except Stop St) (t : Tree)
    (dn : Str) : Prop :=
  ∀ above st, ∃ allocs, recurse dn (indentation (has flags fTree) above) st =
    .ok ⟨(t.visits dn above).foldl (Visit.print env flags) st.report, allocs⟩

theorem processEntries_visits (halloc : ∀ n, env.alloc n = true)
    {recurse : Str → Str → St → Except Stop St} {below : Str → Tree} {entries : List Dirent}
    (hrec : ∀ entry ∈ entries, entry.dType = .dir →
      Visits env flags recurse (below entry.dName) (pathOf dn entry))
    {count i : Nat} (hcount : count = i + entries.length) (st : St) :
    ∃ allocs, processEntries env flags recurse dn (indentation (has flags fTree) above) count
        entries i st =
      .ok ⟨((withLast entries).flatMap (entryVisits below dn above)).foldl (Visit.print env flags)
        st.report, allocs⟩ := by
  induction entries generalizing i st with
  | nil => exact ⟨st.allocs, rfl⟩
  | cons entry entries ih =>
    have hlast : decide (i = count - 1) = entries.isEmpty := by
      rw [Bool.eq_iff_iff, decide_eq_true_iff, List.isEmpty_iff_length_eq_zero, hcount,
        List.length_cons]
      omega
    rw [processEntries, asprintf_succeeds halloc]
    simp only [hlast, handlePstr_lines halloc]
    rw [withLast, List.flatMap_cons, List.foldl_append, entryVisits, List.foldl_cons]
    have hnext := fun st => ih (i := i + 1) (fun e he => hrec e (List.mem_cons_of_mem _ he))
      (by rw [hcount, List.length_cons]; omega) st
    by_cases hdir : entry.dType = .dir
    · obtain ⟨allocs, hsub⟩ := hrec entry List.mem_cons_self hdir (above ++ [entries.isEmpty])
        ⟨Visit.print env flags st.report (.row dn above entries.isEmpty entry),
          st.allocs + 1 + 2⟩
      obtain ⟨allocs', hrest⟩ := hnext ⟨_, allocs⟩
      rw [if_pos hdir, if_pos hdir]
      exact ⟨allocs', returns_bind hsub hrest⟩
    · rw [if_neg hdir, if_neg hdir]
      exact hnext _

/-- **The recursion.** It does what the visits do, one after the other. -/
theorem processDirRecursive_visits (halloc : ∀ n, env.alloc n = true) (ht : env.Holds dn t)
    (hfuel : t.height ≤ fuel) : Visits env flags (processDirRecursive env flags fuel) t dn := by
  induction t generalizing dn fuel with
  | closed eacces =>
    intro above st
    obtain ⟨fuel, rfl⟩ := Tree.fuel_succ hfuel
    rw [processDirRecursive, show env.opendir dn = _ from ht]
    refine ⟨st.allocs, ?_⟩
    cases eacces <;> rfl
  | dir entries below ih =>
    intro above st
    obtain ⟨⟨first, second, hopen, hfills⟩, hnames, hbelow⟩ := ht
    obtain ⟨fuel, rfl⟩ := Tree.fuel_succ hfuel
    obtain ⟨hresult, hperm, hsorted⟩ := hfills.readAndSortDirectory env.qsort
    have horder := eq_inOrder hnames hperm hsorted
    rw [processDirRecursive, hopen]
    simp only [halloc, hresult]
    rw [horder, Tree.visits_dir]
    refine processEntries_visits halloc (fun entry hmem hdir => ?_) ?_ _
    · have hmem := (inOrder_perm entries).subset hmem
      exact ih entry.dName (hbelow entry hmem hdir) (Tree.fuel_below hfuel hmem)
    · rw [← horder, List.length_map, Nat.zero_add]

/-! ## Simple mode -/

/-- A line of more than 54 bytes is cut. -/
def cut (l : Str) : Str := if 54 < l.length then l.take 51 ++ ascii "..." else l

theorem cut_of_le {l : Str} (h : l.length ≤ 54) : cut l = l := if_neg (Nat.not_lt_of_le h)

theorem length_cut (l : Str) : (cut l).length = min l.length 54 := by
  unfold cut
  by_cases hlong : 54 < l.length
  · rw [if_pos hlong, List.length_append, List.length_take, Nat.min_eq_left (by omega),
      Nat.min_eq_right (Nat.le_of_lt hlong)]
    rfl
  · rw [if_neg hlong, Nat.min_eq_left (Nat.le_of_not_lt hlong)]

theorem text_cons (l : Str) (lines : List Str) :
    text (l :: lines) = l ++ ascii "\n" ++ text lines := rfl

theorem length_text_cons (l : Str) (lines : List Str) :
    (text (l :: lines)).length = l.length + 1 + (text lines).length := by
  rw [text_cons, List.length_append, List.length_append]
  rfl

theorem length_text_cut (lines : List Str) :
    (text (lines.map cut)).length ≤ (text lines).length := by
  induction lines with
  | nil => exact Nat.le_refl _
  | cons l lines ih =>
    rw [List.map_cons, length_text_cons, length_text_cons, length_cut]
    omega

/-- The text with the cut lines is shorter, if one of them was too long. -/
theorem text_cut_iff {lines : List Str} :
    text (lines.map cut) = text lines ↔ ∀ l ∈ lines, l.length ≤ 54 := by
  constructor
  · intro h
    induction lines with
    | nil => exact fun _ hl => absurd hl List.not_mem_nil
    | cons l lines ih =>
      have hlen := congrArg List.length h
      have hrest := length_text_cut lines
      rw [List.map_cons, length_text_cons, length_text_cons, length_cut] at hlen
      have hshort : l.length ≤ 54 := by omega
      rw [List.map_cons, text_cons, text_cons, cut_of_le hshort] at h
      exact List.forall_mem_cons.mpr ⟨hshort, ih (List.append_cancel_left h)⟩
  · intro h
    rw [List.map_congr_left (fun l hl => cut_of_le (h l hl)), List.map_id']

theorem printRow_plain (hplain : has flags fVerbose = false) (l : Str) (entry : Dirent)
    (r : Report) : (printRow env l dn entry flags r).out = r.out ++ (cut l ++ ascii "\n") := by
  unfold printRow cut
  rw [hplain]
  by_cases hlong : 54 < l.length
  · rw [if_pos hlong, if_pos hlong]
    exact List.append_assoc _ _ _
  · rw [if_neg hlong, if_neg hlong]
    exact List.append_assoc _ _ _

/-- In a readable tree every visit is a row. -/
theorem Tree.Readable.visits (ht : t.Readable) {v : Visit} (hv : v ∈ t.visits dn above) :
    ∃ dn above last entry, v = .row dn above last entry := by
  induction t generalizing dn above with
  | closed => exact absurd ht id
  | dir entries below ih =>
    rw [Tree.visits_dir] at hv
    obtain ⟨e, he, hv⟩ := List.mem_flatMap.mp hv
    obtain rfl | hv := List.mem_cons.mp hv
    · exact ⟨_, _, _, _, rfl⟩
    · by_cases hdir : e.1.dType = .dir
      · rw [if_pos hdir] at hv
        exact ih e.1.dName (ht e.1 ((inOrder_perm entries).subset (mem_of_withLast he)) hdir) hv
      · rw [if_neg hdir] at hv
        exact absurd hv List.not_mem_nil

theorem visits_plain (hplain : has flags fVerbose = false) {visits : List Visit}
    (hrows : ∀ v ∈ visits, ∃ dn above last entry, v = .row dn above last entry) (r : Report) :
    (visits.foldl (Visit.print env flags) r).out =
      r.out ++ text ((visits.map (Visit.line (has flags fTree))).map cut) := by
  induction visits generalizing r with
  | nil => exact (List.append_nil _).symm
  | cons v visits ih =>
    obtain ⟨dn, above, last, entry, rfl⟩ := hrows v List.mem_cons_self
    rw [List.foldl_cons, ih fun v hv => hrows v (List.mem_cons_of_mem _ hv), List.map_cons,
      List.map_cons, text_cons, ← List.append_assoc]
    exact congrArg (· ++ _) (printRow_plain hplain _ _ _)

/-- **The plain listing.** It shows every line of the tree whole, if and only if none of them is
    longer than 54 bytes. -/
theorem processDirRecursive_lists (hplain : has flags fVerbose = false)
    (halloc : ∀ n, env.alloc n = true) (ht : env.Holds dn t) (hreadable : t.Readable)
    (hfuel : t.height ≤ fuel) (above : List Bool) (st : St) :
    (∃ st', processDirRecursive env flags fuel dn (indentation (has flags fTree) above) st =
        .ok st' ∧
      st'.report.out = st.report.out ++ text (t.lines (has flags fTree) dn above)) ↔
      ∀ l ∈ t.lines (has flags fTree) dn above, l.length ≤ 54 := by
  have hvisits : Visits env flags (processDirRecursive env flags fuel) t dn :=
    processDirRecursive_visits halloc ht hfuel
  obtain ⟨allocs, hrun⟩ := hvisits above st
  have hout : ((t.visits dn above).foldl (Visit.print env flags) st.report).out =
      st.report.out ++ text ((t.lines (has flags fTree) dn above).map cut) :=
    visits_plain hplain (fun v hv => hreadable.visits hv) st.report
  rw [hrun, ← text_cut_iff]
  constructor
  · intro ⟨st', hst', hwhole⟩
    obtain rfl := Except.ok.inj hst'
    exact List.append_cancel_left (hout.symm.trans hwhole)
  · intro hwhole
    exact ⟨_, rfl, hout.trans (congrArg (st.report.out ++ ·) hwhole)⟩

/-- A directory with a directory, in which there is one file. -/
def demo (name : Str) : Env Nat where
  opendir dn :=
    if dn = ascii "demo" then
      .opened (.kept [⟨ascii "subdir1", .dir⟩]) (.kept [⟨ascii "subdir1", .dir⟩])
    else if dn = ascii "demo/subdir1" then .opened (.kept [file name]) (.kept [file name])
    else .failed false
  dirfd _ := none
  fstatat _ _ := none
  getpwuid _ := none
  getgrgid _ := none
  alloc _ := true
  qsort := .insertion Nat

def demoTree (name : Str) : Tree :=
  .dir [⟨ascii "subdir1", .dir⟩] fun _ => .dir [file name] fun _ => .closed false

theorem fills_one {e : Dirent} (h : ignored e = false) : Fills (.kept [e]) (.kept [e]) [e] := by
  have hnexts : nexts (Pass.kept [e]).reads = [0] := by
    change (if ignored e then [] else [0]) = [0]
    rw [h]
    rfl
  have hfew : 1 ≤ intMax := by decide
  exact ⟨congrArg List.length hnexts, hfew, by rw [hnexts]; exact List.Perm.refl _⟩

theorem demo_holds {name : Str} (hname : ignored (file name) = false) :
    (demo name).Holds (ascii "demo") (demoTree name) := by
  refine ⟨⟨_, _, rfl, fills_one (by decide)⟩, by decide, fun entry hmem _ => ?_⟩
  obtain rfl := List.mem_singleton.mp hmem
  refine ⟨⟨_, _, rfl, fills_one hname⟩, by simp, fun entry hmem hdir => ?_⟩
  obtain rfl := List.mem_singleton.mp hmem
  exact absurd hdir (by simp [file])

theorem demoTree_readable (name : Str) : (demoTree name).Readable := by
  intro entry _ _ entry hmem hdir
  obtain rfl := List.mem_singleton.mp hmem
  exact absurd hdir (by simp [file])

/-- A short name. -/
theorem processDirRecursive_lists_demo : ∃ st',
    processDirRecursive (demo (ascii "sparsefile")) 0 3 (ascii "demo") []
      ⟨⟨[], ⟨0, 0, 0, 0, 0, 0, 0⟩⟩, 0⟩ = .ok st' ∧
    st'.report.out = ascii "  subdir1\n    sparsefile\n" :=
  (processDirRecursive_lists (by decide) (fun _ => rfl) (demo_holds (by decide))
    (demoTree_readable _) (by decide) [] _).mpr (by decide)

/-- A name that the readme shows whole. -/
def longName : Str := ascii "thisisanextremelylongfilenameforsuchasimplisticfile"

/-- The row of that file is cut. -/
theorem processDirRecursive_cuts :
    (demo longName).Holds (ascii "demo") (demoTree longName) ∧ (demoTree longName).Readable ∧
    (∃ st', processDirRecursive (demo longName) 0 3 (ascii "demo") []
        ⟨⟨[], ⟨0, 0, 0, 0, 0, 0, 0⟩⟩, 0⟩ = .ok st' ∧
      st'.report.out = ascii "  subdir1\n    thisisanextremelylongfilenameforsuchasimplistic...\n" ∧
      st'.report.out ≠ text ((demoTree longName).lines false (ascii "demo") [])) ∧
    (demoTree longName).lines false (ascii "demo") [] =
      [ascii "  subdir1", ascii "    thisisanextremelylongfilenameforsuchasimplisticfile"] := by
  exact ⟨demo_holds (by decide), demoTree_readable _, ⟨_, rfl, by decide, by decide⟩, by decide⟩

end SnuSysProg.Dirtree
