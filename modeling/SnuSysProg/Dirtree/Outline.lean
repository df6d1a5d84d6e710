import SnuSysProg.Dirtree.Summaries

/-
  Reading the tree view back.

  In the tree view a row begins with two characters for each directory around the entry, and with
  two more that are different from these: so its depth and its name can be told apart whatever the
  name is, and from the depths of the rows one gets the path of every entry. `readTree` does that.
  On the output of `dirtree -t` it gives the root and the paths of all entries below it
  (`main_readTree`), if no row is cut and no name has a newline in it. The listing without `-t`
  has no such reading: there a name may begin with spaces.
-/

namespace SnuSysProg.Dirtree
open SnuSysProg.Lib

def newline : UInt8 := 10

/-- The depth and the name of a row. -/
def readRow : Str → Option (Nat × Str)
  | a :: b :: rest =>
    if [a, b] = ascii "|-" ∨ [a, b] = ascii "`-" then some (0, rest)
    else if [a, b] = ascii "| " ∨ [a, b] = ascii "  " then
      (readRow rest).map fun row => (row.1 + 1, row.2)
    else none
  | _ => none

/-- The paths of the rows. `dirs` are the directories around the row before, the root first. -/
def readPaths : List Str → List (Nat × Str) → List Str
  | _, [] => []
  | dirs, (depth, name) :: rows =>
    let path := dirs.getD depth [] ++ ascii "/" ++ name
    path :: readPaths (dirs.take (depth + 1) ++ [path]) rows

/-- The root and the paths of the entries below it. -/
def readTree (out : Str) : Option (Str × List Str) :=
  match (out.splitOn newline).dropLast with
  | [] => none
  | root :: lines => some (root, readPaths [root] (lines.filterMap readRow))

/-- The paths of the entries of a tree, in the order of the listing. -/
def Tree.paths (t : Tree) (dn : Str) : List Str :=
  ((t.visits dn []).filterMap Visit.entry?).map fun e => pathOf e.1 e.2

variable {P : Type} {env : Env P} {flags : Flags} {t : Tree} {dn name : Str} {above : List Bool}
  {last : Bool} {fuel : Nat} {dirs : List Str} {visits : List Visit}

/-! ## Rows -/

/-- A row is read as its depth and its name. -/
theorem readRow_line : readRow (line true above last name) = some (above.length, name) := by
  induction above with
  | nil => cases last <;> rfl
  | cons l above ih =>
    have hline : line true (l :: above) last name =
        (if l then ascii "  " else ascii "| ") ++ line true above last name := by
      cases l <;> rfl
    rw [hline, List.length_cons]
    have hread : ∀ rest, readRow ((if l then ascii "  " else ascii "| ") ++ rest) =
        (readRow rest).map fun row => (row.1 + 1, row.2) := by
      intro rest
      cases l <;> rfl
    rw [hread, ih]
    rfl

/-- The depth and the name that a visit shows. -/
def Visit.row? : Visit → Option (Nat × Str)
  | .row _ above _ entry => some (above.length, entry.dName)
  | .denied _ => none

theorem readRow_visits
    (hrows : ∀ v ∈ visits, ∃ dn above last entry, v = .row dn above last entry) :
    (visits.map (Visit.line true)).filterMap readRow = visits.filterMap Visit.row? := by
  rw [List.filterMap_map]
  refine List.filterMap_congr fun v hv => ?_
  obtain ⟨dn, above, last, entry, rfl⟩ := hrows v hv
  exact readRow_line

/-! ## Paths -/

/-- The rows of a directory `dn` whose depth is that of `above` are read as the paths of its
    entries, and the directories around it are still known behind them. -/
def Reads (dn : Str) (above : List Bool) (visits : List Visit) : Prop :=
  ∀ (outer dirs : List Str) (rest : List (Nat × Str)), outer.length = above.length →
    dirs.take (above.length + 1) = outer ++ [dn] →
    ∃ dirs', dirs'.take (above.length + 1) = outer ++ [dn] ∧
      readPaths dirs (visits.filterMap Visit.row? ++ rest) =
        ((visits.filterMap Visit.entry?).map fun e => pathOf e.1 e.2) ++ readPaths dirs' rest

theorem Reads.nil : Reads dn above [] := fun _ dirs _ _ hdirs => ⟨dirs, hdirs, rfl⟩

theorem Reads.append {visits' : List Visit} (h : Reads dn above visits)
    (h' : Reads dn above visits') : Reads dn above (visits ++ visits') := by
  intro outer dirs rest hlen hdirs
  obtain ⟨dirs₁, hdirs₁, heq₁⟩ := h outer dirs (visits'.filterMap Visit.row? ++ rest) hlen hdirs
  obtain ⟨dirs₂, hdirs₂, heq₂⟩ := h' outer dirs₁ rest hlen hdirs₁
  refine ⟨dirs₂, hdirs₂, ?_⟩
  rw [List.filterMap_append, List.filterMap_append, List.map_append, List.append_assoc,
    List.append_assoc, heq₁, heq₂]

/-- An entry, and below it what is read in the directory that it is. -/
theorem Reads.entry {entry : Dirent} {below : List Visit}
    (h : below = [] ∨ Reads (pathOf dn entry) (above ++ [last]) below) :
    Reads dn above (.row dn above last entry :: below) := by
  intro outer dirs rest hlen hdirs
  have hdir : dirs.getD above.length [] = dn := by
    have hget : (dirs.take (above.length + 1))[above.length]? = some dn := by
      rw [hdirs, ← hlen, List.getElem?_concat_length]
    rw [List.getElem?_take_of_lt (Nat.lt_succ_self _)] at hget
    rw [List.getD_eq_getElem?_getD, hget]
    rfl
  have hhead : readPaths dirs ((Visit.row dn above last entry :: below).filterMap Visit.row? ++
      rest) = pathOf dn entry ::
        readPaths (outer ++ [dn] ++ [pathOf dn entry]) (below.filterMap Visit.row? ++ rest) := by
    rw [List.filterMap_cons_some (rfl : Visit.row? (.row dn above last entry) = _),
      List.cons_append, readPaths, hdir, hdirs]
    rfl
  have houter : (outer ++ [dn]).length = above.length + 1 := by
    rw [List.length_append, hlen, List.length_singleton]
  rw [hhead, List.filterMap_cons_some (rfl : Visit.entry? (.row dn above last entry) = _),
    List.map_cons]
  obtain rfl | hbelow := h
  · exact ⟨outer ++ [dn] ++ [pathOf dn entry], by rw [← houter, List.take_left], rfl⟩
  · have hlength : (above ++ [last]).length = above.length + 1 := List.length_append
    have hwhole : (outer ++ [dn] ++ [pathOf dn entry]).take ((above ++ [last]).length + 1) =
        (outer ++ [dn]) ++ [pathOf dn entry] := by
      refine List.take_of_length_le (Nat.le_of_eq ?_)
      rw [hlength, List.length_append, houter, List.length_singleton]
    obtain ⟨dirs', hdirs', heq⟩ := hbelow (outer ++ [dn]) _ rest (houter.trans hlength.symm) hwhole
    refine ⟨dirs', ?_, congrArg _ heq⟩
    have htake := congrArg (List.take (above.length + 1)) hdirs'
    rw [List.take_take, hlength, Nat.min_eq_left (Nat.le_succ _), ← houter, List.take_left] at htake
    rw [← houter]
    exact htake

/-- Every tree is read. -/
theorem Tree.reads (ht : t.Readable) (dn : Str) (above : List Bool) :
    Reads dn above (t.visits dn above) := by
  induction t generalizing dn above with
  | closed => exact absurd ht id
  | dir entries below ih =>
    rw [Tree.visits_dir]
    have hmem : ∀ e ∈ withLast (inOrder entries), e.1 ∈ entries := fun e he =>
      (inOrder_perm entries).subset (mem_of_withLast he)
    generalize withLast (inOrder entries) = l at hmem
    induction l with
    | nil => exact Reads.nil
    | cons e l ihl =>
      rw [List.flatMap_cons]
      refine Reads.append (Reads.entry ?_) (ihl fun e he => hmem e (List.mem_cons_of_mem _ he))
      by_cases hdir : e.1.dType = .dir
      · rw [if_pos hdir]
        exact Or.inr (ih e.1.dName (ht e.1 (hmem e List.mem_cons_self) hdir) _ _)
      · rw [if_neg hdir]
        exact Or.inl rfl

/-! ## The output -/

theorem text_intercalate (lines : List Str) :
    text lines = [newline].intercalate (lines ++ [[]]) := by
  induction lines with
  | nil => rfl
  | cons l lines ih =>
    obtain ⟨m, rest, hrest⟩ := List.exists_cons_of_ne_nil (List.append_ne_nil_of_right_ne_nil lines
      (List.cons_ne_nil ([] : Str) []))
    rw [text_cons, ih, List.cons_append, hrest, List.intercalate_cons_cons]
    rfl

theorem splitOn_text {lines : List Str} (h : ∀ l ∈ lines, newline ∉ l) :
    ((text lines).splitOn newline).dropLast = lines := by
  have hall : ∀ l ∈ lines ++ [[]], newline ∉ l :=
    List.forall_mem_append.mpr ⟨h, List.forall_mem_singleton.mpr List.not_mem_nil⟩
  rw [text_intercalate, List.splitOn_intercalate newline hall (by simp), List.dropLast_concat]

/-- Nothing is cut, and no name goes over two lines. -/
structure Tree.Legible (t : Tree) (dn : Str) : Prop where
  short : ∀ l ∈ t.lines true dn [], l.length ≤ 54
  names : ∀ e ∈ t.entries dn, newline ∉ e.2.dName

theorem newline_notMem_line (h : newline ∉ name) : newline ∉ line true above last name := by
  have hindent : newline ∉ indentation true above := by
    intro hmem
    obtain ⟨l, -, hl⟩ := List.mem_flatMap.mp hmem
    cases l <;> exact absurd hl (by decide)
  intro hmem
  rcases List.mem_append.mp hmem with hmem | hmem
  · rcases List.mem_append.mp hmem with hmem | hmem
    · exact hindent hmem
    · cases last <;> exact absurd hmem (by decide)
  · exact h hmem

theorem Tree.Legible.lines (h : t.Legible dn) (hreadable : t.Readable) :
    ∀ l ∈ t.lines true dn [], newline ∉ l := by
  intro l hl
  obtain ⟨v, hv, rfl⟩ := List.mem_map.mp hl
  obtain ⟨dn', above, last, entry, rfl⟩ := hreadable.visits hv
  have hentry : (dn', entry) ∈ t.entries dn :=
    (visits_entries t dn []).subset (List.mem_filterMap.mpr ⟨_, hv, rfl⟩)
  exact newline_notMem_line (h.names _ hentry)

theorem readTree_text (hreadable : t.Readable) (h : t.Legible dn) (hdn : newline ∉ dn) :
    readTree (text (dn :: t.lines true dn [])) = some (dn, t.paths dn) := by
  have hread : Reads dn [] (t.visits dn []) := Tree.reads hreadable dn []
  obtain ⟨dirs', -, hpaths⟩ := hread [] [dn] [] rfl rfl
  have hall : ∀ l ∈ dn :: t.lines true dn [], newline ∉ l :=
    List.forall_mem_cons.mpr ⟨hdn, h.lines hreadable⟩
  unfold readTree
  rw [splitOn_text hall]
  unfold Tree.lines
  rw [List.append_nil] at hpaths
  simp only [readRow_visits fun v hv => hreadable.visits hv, hpaths]
  exact congrArg (fun l => some (dn, l)) (List.append_nil _)

/-! ## `dirtree -t` -/

theorem parseArg_directory {args : Args} (hdash : dn.head? ≠ some 45)
    (hroom : args.directories.length < maxDir) :
    parseArg args dn = .ok { args with directories := args.directories ++ [dn] } := by
  rw [parseArg, if_neg hdash, if_pos hroom]

/-- A root in the tree view: its name, and the lines of the tree. -/
theorem processDir_tree (halloc : ∀ n, env.alloc n = true) (ht : env.Holds dn t)
    (hreadable : t.Readable) (hshort : ∀ l ∈ t.lines true dn [], l.length ≤ 54)
    (hfuel : t.height ≤ fuel) (g : Totals) :
    ∃ dstats tstats allocs, processDir env fTree fuel dn [] g =
      .ok (dstats, ⟨g.out ++ text (dn :: t.lines true dn []), tstats, allocs⟩) := by
  cases t with
  | closed => exact absurd hreadable id
  | dir entries below =>
    obtain ⟨⟨first, second, hopen, -⟩, -, -⟩ := id ht
    have hvisits : Visits env fTree (processDirRecursive env fTree fuel) _ dn :=
      processDirRecursive_visits halloc ht hfuel
    obtain ⟨allocs, hrun⟩ := hvisits [] ⟨⟨printHeader dn fTree g.out, Summary.zero⟩, g.allocs⟩
    rw [indentation, List.flatMap_nil] at hrun
    have hrows : ∀ v ∈ (Tree.dir entries below).visits dn [],
        ∃ dn above last entry, v = .row dn above last entry := fun v hv => hreadable.visits hv
    have hplain : has fTree fVerbose = false := by decide
    have hheader : printHeader dn fTree g.out = g.out ++ (dn ++ ascii "\n") :=
      List.append_assoc _ _ _
    have hout : (((Tree.dir entries below).visits dn []).foldl (Visit.print env fTree)
        ⟨printHeader dn fTree g.out, Summary.zero⟩).out = _ := visits_plain hplain hrows _
    have hlines : ((Tree.dir entries below).visits dn []).map (Visit.line true) =
        (Tree.dir entries below).lines true dn [] := rfl
    have htree : has fTree fTree = true := by decide
    rw [htree, hlines, text_cut_iff.mpr hshort, hheader, List.append_assoc, ← text_cons] at hout
    rw [processDir, hopen]
    dsimp only
    rw [hrun, hheader, ← hout]
    exact ⟨_, _, _, rfl⟩

/-- The output of `dirtree -t` is the root and the lines of the tree. -/
theorem main_tree (halloc : ∀ n, env.alloc n = true) (ht : env.Holds dn t)
    (hreadable : t.Readable) (hshort : ∀ l ∈ t.lines true dn [], l.length ≤ 54)
    (hfuel : t.height ≤ fuel) (hdash : dn.head? ≠ some 45) :
    main env fuel [ascii "-t", dn] = .ok ⟨text (dn :: t.lines true dn []), 0⟩ := by
  have hargs : [ascii "-t", dn].foldlM parseArg ⟨0, [], []⟩ = .ok ⟨fTree, [dn], []⟩ := by
    rw [List.foldlM_cons]
    have hflag : parseArg ⟨0, [], []⟩ (ascii "-t") = .ok ⟨fTree, [], []⟩ := rfl
    rw [hflag]
    exact congrArg (· >>= pure) (parseArg_directory hdash (by decide))
  obtain ⟨dstats, tstats, allocs, hrun⟩ :=
    processDir_tree halloc ht hreadable hshort hfuel ⟨[], Summary.zero, 0⟩
  have hdirs : processDirs env fTree fuel [dn] ⟨[], Summary.zero, 0⟩ =
      .ok ([dstats], ⟨text (dn :: t.lines true dn []), tstats, allocs⟩) := by
    rw [processDirs, hrun]
    rfl
  unfold main
  rw [hargs]
  simp only [List.length_singleton, Nat.one_ne_zero, if_false, hdirs]
  rfl

/-- **The tree view.** From the output of `dirtree -t` one can read the root and the paths of all
    entries below it. -/
theorem main_readTree (halloc : ∀ n, env.alloc n = true) (ht : env.Holds dn t)
    (hreadable : t.Readable) (hlegible : t.Legible dn) (hfuel : t.height ≤ fuel)
    (hdash : dn.head? ≠ some 45) (hdn : newline ∉ dn) :
    ∃ out, main env fuel [ascii "-t", dn] = .ok ⟨out, 0⟩ ∧
      readTree out = some (dn, t.paths dn) ∧
      (t.paths dn).Perm ((t.entries dn).map fun e => pathOf e.1 e.2) :=
  ⟨_, main_tree halloc ht hreadable hlegible.short hfuel hdash,
    readTree_text hreadable hlegible hdn, (visits_entries t dn []).map _⟩

/-- The demo directory, with a file whose name looks like a row. -/
theorem main_readTree_demo : ∃ out,
    main (demo (ascii "| |-x")) 3 [ascii "-t", ascii "demo"] = .ok ⟨out, 0⟩ ∧
    readTree out = some (ascii "demo", [ascii "demo/subdir1", ascii "demo/subdir1/| |-x"]) := by
  have hlegible : (demoTree (ascii "| |-x")).Legible (ascii "demo") := ⟨by decide, by decide⟩
  have hfuel : (demoTree (ascii "| |-x")).height ≤ 3 := by decide
  obtain ⟨out, hmain, hread, -⟩ := main_readTree (fun _ => rfl) (demo_holds (by decide))
    (demoTree_readable _) hlegible hfuel (by decide) (by decide)
  exact ⟨out, hmain, hread⟩

/-- Without `-t` two trees can look the same: `a` with the file `b` in it, and `a` beside a file
    whose name is two spaces and `b`. -/
example :
    (Tree.dir [⟨ascii "a", .dir⟩] fun _ => .dir [file (ascii "b")] fun _ => .closed false).lines
        false [] [] =
      (Tree.dir [⟨ascii "a", .dir⟩, file (ascii "  b")] fun _ => .dir [] fun _ =>
        .closed false).lines false [] [] := by
  decide

end SnuSysProg.Dirtree
