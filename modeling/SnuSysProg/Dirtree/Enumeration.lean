import SnuSysProg.Dirtree.Listing

/-
  The order in which `readdir` gives the entries does not matter.

  Two environments in which the same directories hold the same tree may enumerate every directory
  in their own order, and have their own `qsort`. `processDirRecursive_independent`: in both the
  recursion prints the same and leaves the same summary, for any flags, and also when allocations
  fail, as long as the same ones fail. It rests on `eq_inOrder`: the names in a directory are
  different, so that `dirent_compare` is a strict total order on its entries
  (`direntCompare_strict`).
-/

namespace SnuSysProg.Dirtree
open SnuSysProg.Lib

variable {P Q : Type} {env : Env P} {env' : Env Q} {flags : Flags} {t : Tree} {dn : Str}
  {fuel : Nat}

/-- Apart from what the directories hold and how `qsort` works the environments are the same. -/
structure SameSystem (env : Env P) (env' : Env Q) : Prop where
  stat : ∀ dn entry, env.stat dn entry = env'.stat dn entry
  getpwuid : env.getpwuid = env'.getpwuid
  getgrgid : env.getgrgid = env'.getgrgid
  alloc : env.alloc = env'.alloc

/-- Both recursions return, and with the same state. -/
def Agree (recurse recurse' : Str → Str → St → Except Stop St) (dn : Str) : Prop :=
  ∀ pstr st, ∃ st', recurse dn pstr st = .ok st' ∧ recurse' dn pstr st = .ok st'

/-! ## The functions that print a row -/

theorem asprintf_same (h : SameSystem env env') : asprintf env = asprintf env' := by
  funext text st
  rw [asprintf, asprintf, h.alloc]

theorem handlePstr_same (h : SameSystem env env') : handlePstr env = handlePstr env' := by
  funext pstr entry flags last st
  unfold handlePstr
  rw [asprintf_same h]

theorem printRow_same (h : SameSystem env env') : printRow env = printRow env' := by
  funext l dn entry flags r
  have hstat := h.stat dn entry
  have hmeta : metadata env = metadata env' := by
    funext entry sb
    rw [metadata, metadata, h.getpwuid, h.getgrgid]
  unfold printRow
  unfold Env.stat at hstat
  rw [hmeta]
  cases hfd : env.dirfd dn with
  | none =>
    rw [hfd] at hstat
    rw [Option.map_eq_none_iff.mp hstat.symm]
  | some dd =>
    rw [hfd] at hstat
    obtain ⟨dd', hfd', hsame⟩ := Option.map_eq_some_iff.mp hstat.symm
    rw [hfd']
    dsimp only
    rw [hsame]

/-! ## The recursion -/

theorem processEntries_same (h : SameSystem env env')
    {recurse recurse' : Str → Str → St → Except Stop St} {entries : List Dirent} {pstr : Str}
    {count i : Nat}
    (hrec : ∀ entry ∈ entries, entry.dType = .dir → Agree recurse recurse' (pathOf dn entry))
    (st : St) :
    ∃ st', processEntries env flags recurse dn pstr count entries i st = .ok st' ∧
      processEntries env' flags recurse' dn pstr count entries i st = .ok st' := by
  induction entries generalizing i st with
  | nil => exact ⟨st, rfl, rfl⟩
  | cons entry entries ih =>
    have hnext := fun st => ih (i := i + 1) (fun e he => hrec e (List.mem_cons_of_mem _ he)) st
    rw [processEntries, processEntries, ← asprintf_same h, ← handlePstr_same h, ← printRow_same h]
    by_cases hpath : env.alloc st.allocs = true
    · rw [asprintf, if_pos hpath]
      dsimp only
      obtain ⟨pstrs, st₁⟩ := handlePstr env pstr entry flags (decide (i = count - 1))
        { st with allocs := st.allocs + 1 }
      cases pstrs with
      | none => exact ⟨_, rfl, rfl⟩
      | some pstrs =>
        by_cases hdir : entry.dType = .dir
        · obtain ⟨st₂, hsub, hsub'⟩ := hrec entry List.mem_cons_self hdir pstrs.2
            ⟨⟨(printRow env pstrs.1 dn entry flags st₁.report).out, updateDstats
              (printRow env pstrs.1 dn entry flags st₁.report).dstats entry⟩, st₁.allocs⟩
          obtain ⟨st', hrest, hrest'⟩ := hnext st₂
          dsimp only
          rw [if_pos hdir, if_pos hdir]
          exact ⟨st', returns_bind hsub hrest, returns_bind hsub' hrest'⟩
        · dsimp only
          rw [if_neg hdir, if_neg hdir]
          exact hnext _
    · rw [asprintf, if_neg hpath]
      exact ⟨_, rfl, rfl⟩

theorem processDirRecursive_same (h : SameSystem env env') (ht : env.Holds dn t)
    (ht' : env'.Holds dn t) (hfuel : t.height ≤ fuel) :
    Agree (processDirRecursive env flags fuel) (processDirRecursive env' flags fuel) dn := by
  induction t generalizing dn fuel with
  | closed eacces =>
    intro pstr st
    obtain ⟨fuel, rfl⟩ := Tree.fuel_succ hfuel
    rw [processDirRecursive, processDirRecursive, show env.opendir dn = _ from ht,
      show env'.opendir dn = _ from ht']
    cases eacces with
    | true => exact ⟨_, rfl, rfl⟩
    | false => exact ⟨_, rfl, rfl⟩
  | dir entries below ih =>
    intro pstr st
    obtain ⟨⟨first, second, hopen, hfills⟩, hnames, hbelow⟩ := ht
    obtain ⟨⟨first', second', hopen', hfills'⟩, -, hbelow'⟩ := ht'
    obtain ⟨fuel, rfl⟩ := Tree.fuel_succ hfuel
    rw [processDirRecursive, processDirRecursive, hopen, hopen', ← h.alloc]
    dsimp only
    cases env.alloc st.allocs with
    | false =>
      rw [hfills.noMemory, hfills'.noMemory]
      exact ⟨_, rfl, rfl⟩
    | true =>
      obtain ⟨hresult, hperm, hsorted⟩ := hfills.readAndSortDirectory env.qsort
      obtain ⟨hresult', hperm', hsorted'⟩ := hfills'.readAndSortDirectory env'.qsort
      have horder := eq_inOrder hnames hperm hsorted
      have horder' := eq_inOrder hnames hperm' hsorted'
      have hlen : (sortedPtrs env'.qsort second').length =
          (sortedPtrs env.qsort second).length := by
        rw [← List.length_map second'.final, horder', ← horder, List.length_map]
      rw [hresult, hresult']
      dsimp only
      rw [horder, horder', hlen]
      refine processEntries_same h (fun entry hmem hdir => ?_) _
      have hmem := (inOrder_perm entries).subset hmem
      exact ih entry.dName (hbelow entry hmem hdir) (hbelow' entry hmem hdir)
        (Tree.fuel_below hfuel hmem)

/-- **The order of enumeration.** Whatever the order in which the entries of each directory come,
    the recursion returns with the same text and the same summary; and in each directory
    `dirent_compare` is a strict total order, with the directories before all other entries. -/
theorem processDirRecursive_independent (h : SameSystem env env') (ht : env.Holds dn t)
    (ht' : env'.Holds dn t) (hfuel : t.height ≤ fuel) (flags : Flags) (pstr : Str) (st : St) :
    (∃ st', processDirRecursive env flags fuel dn pstr st = .ok st' ∧
      processDirRecursive env' flags fuel dn pstr st = .ok st') ∧
    ∀ entries : List Dirent, (entries.map Dirent.dName).Nodup →
      StrictlyOrders direntCompare entries ∧
        ∀ e ∈ entries, ∀ e' ∈ entries, e.dType = .dir → e'.dType ≠ .dir → direntCompare e e' < 0 :=
  ⟨processDirRecursive_same h ht ht' hfuel pstr st, fun _ hnames =>
    ⟨direntCompare_strict hnames, fun _ _ _ _ hdir hother => direntCompare_dir hdir hother⟩⟩

/-- A directory with two files, enumerated in the order of `entries`. -/
def twoFiles (entries : List Dirent) : Env Nat where
  opendir _ := .opened (.kept entries) (.kept entries)
  dirfd _ := some 3
  fstatat _ _ := none
  getpwuid _ := none
  getgrgid _ := none
  alloc _ := true
  qsort := .insertion Nat

/-- The two orders of two files. -/
theorem processDirRecursive_independent_two :
    ∃ st', processDirRecursive (twoFiles [file [97], file [98]]) fVerbose 2 (ascii "d") []
        ⟨⟨[], ⟨0, 0, 0, 0, 0, 0, 0⟩⟩, 0⟩ = .ok st' ∧
      processDirRecursive (twoFiles [file [98], file [97]]) fVerbose 2 (ascii "d") []
        ⟨⟨[], ⟨0, 0, 0, 0, 0, 0, 0⟩⟩, 0⟩ = .ok st' := by
  have hfiles : ∀ entries : List Dirent, Fills (.kept entries) (.kept entries)
      [file [97], file [98]] → (twoFiles entries).Holds (ascii "d")
        (.dir [file [97], file [98]] fun _ => .closed false) := by
    intro entries hfills
    refine ⟨⟨_, _, rfl, hfills⟩, by decide, fun entry hmem hdir => ?_⟩
    obtain rfl | rfl := List.mem_pair.mp hmem
    · exact absurd hdir (by decide)
    · exact absurd hdir (by decide)
  exact (processDirRecursive_independent (t := .dir [file [97], file [98]] fun _ => .closed false)
    ⟨fun _ _ => rfl, rfl, rfl, rfl⟩ (hfiles _ ⟨rfl, by decide, by decide⟩)
    (hfiles _ ⟨rfl, by decide, by decide⟩) (by decide) fVerbose [] _).1

end SnuSysProg.Dirtree
