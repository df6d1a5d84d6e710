import SnuSysProg.Dirtree.Reading

/-
  `processDir_recursive` and what it calls to print a row.

  `Env` is what the program finds when it runs: the directories, the metadata of their entries,
  and which calls of `malloc` and `asprintf` succeed, counted from the first one. A stream is
  named by the path of its directory. The text on the standard output and the summary are a
  `Report`.
-/

namespace SnuSysProg.Dirtree
open SnuSysProg.Lib

/-- `unsigned int flags`. -/
abbrev Flags := UInt32

def fTree : Flags := 0x1
def fSummary : Flags := 0x2
def fVerbose : Flags := 0x4

/-- `flags & flag`. -/
def has (flags flag : Flags) : Bool := flags &&& flag != 0

/-- `struct summary`. -/
structure Summary where
  dirs : UInt32
  files : UInt32
  links : UInt32
  fifos : UInt32
  socks : UInt32
  size : UInt64
  blocks : UInt64
  deriving DecidableEq, Repr

/-- What the program reads of a `struct stat`. -/
structure Stat where
  stUid : UInt32
  stGid : UInt32
  stSize : Int64
  stBlocks : Int64
  deriving DecidableEq, Repr

/-- What `opendir` gives: a stream, with what the two passes over it give, or `NULL`. -/
inductive Opendir (P : Type) where
  | opened (first second : Pass P)
  /-- `eacces`: `errno` is `EACCES`. -/
  | failed (eacces : Bool)

/-- What the program runs in. -/
structure Env (P : Type) where
  opendir : Str → Opendir P
  dirfd : Str → Option Int
  fstatat : Int → Str → Option Stat
  getpwuid : UInt32 → Option Str
  getgrgid : UInt32 → Option Str
  /-- The call of `malloc` or `asprintf` with this number succeeds. -/
  alloc : Nat → Bool
  qsort : Qsort P

/-- The standard output, and `*dstats`. -/
structure Report where
  out : Str
  dstats : Summary
  deriving DecidableEq, Repr

structure St where
  report : Report
  /-- The calls of `malloc` and `asprintf` so far. -/
  allocs : Nat

/-- `printf`, of a text. -/
def Report.print (r : Report) (text : Str) : Report := { r with out := r.out ++ text }

/-- `%*s`, and `%-*s`. -/
def padLeft (width : Nat) (s : Str) : Str := List.replicate (width - s.length) 32 ++ s
def padRight (width : Nat) (s : Str) : Str := s ++ List.replicate (width - s.length) 32

/-- `%lld`. -/
def decimal (n : Int64) : Str :=
  (if n < 0 then ascii "-" else []) ++
    (Nat.toDigits 10 n.toInt.natAbs).map fun c => c.toNat.toUInt8

/-- `update_dstats`. -/
def updateDstats (dstats : Summary) (entry : Dirent) : Summary :=
  match entry.dType with
  | .dir => { dstats with dirs := dstats.dirs + 1 }
  | .reg => { dstats with files := dstats.files + 1 }
  | .lnk => { dstats with links := dstats.links + 1 }
  | .fifo => { dstats with fifos := dstats.fifos + 1 }
  | .sock => { dstats with socks := dstats.socks + 1 }
  | _ => dstats

/-- `update_dstats_metadata`. -/
def updateDstatsMetadata (dstats : Summary) (statbuf : Stat) : Summary :=
  { dstats with
    size := dstats.size + statbuf.stSize.toUInt64
    blocks := dstats.blocks + statbuf.stBlocks.toUInt64 }

/-- `type_into_character`. -/
def typeIntoCharacter (entry : Dirent) : Str :=
  match entry.dType with
  | .dir => ascii "d"
  | .lnk => ascii "l"
  | .chr => ascii "c"
  | .blk => ascii "b"
  | .fifo => ascii "f"
  | .sock => ascii "s"
  | .reg => ascii " "
  | _ => ascii " "

variable {P : Type}

/-- `asprintf` of a text: the text, or `none` for `-1`. -/
def asprintf (env : Env P) (text : Str) (st : St) : Option Str × St :=
  (if env.alloc st.allocs then some text else none, { st with allocs := st.allocs + 1 })

/-- `handle_pstr`: `*name_with_pstr` and `*new_pstr`, or `none` for `-1`. -/
def handlePstr (env : Env P) (pstr : Str) (entry : Dirent) (flags : Flags) (isLastElement : Bool)
    (st : St) : Option (Str × Str) × St :=
  let prefixChosen :=
    if has flags fTree then if isLastElement then ascii "`-" else ascii "|-" else ascii "  "
  match asprintf env (pstr ++ prefixChosen ++ entry.dName) st with
  | (none, st) => (none, st)
  | (some nameWithPstr, st) =>
    let prefixChosen :=
      if has flags fTree then if isLastElement then ascii "  " else ascii "| " else ascii "  "
    match asprintf env (pstr ++ prefixChosen) st with
    | (none, st) => (none, st)
    | (some newPstr, st) => (some (nameWithPstr, newPstr), st)

/-- The columns of `print_row` after the name. -/
def metadata (env : Env P) (entry : Dirent) (sb : Stat) : Str :=
  let pw := (env.getpwuid sb.stUid).getD (ascii "unknown")
  let gr := (env.getgrgid sb.stGid).getD (ascii "unknown")
  ascii "  " ++ padLeft 8 (pw.take 8) ++ ascii ":" ++ padRight 8 (gr.take 8) ++ ascii "  " ++
    padLeft 10 (decimal sb.stSize) ++ ascii "  " ++ padLeft 8 (decimal sb.stBlocks) ++
    ascii "  " ++ typeIntoCharacter entry

/-- `print_row`. -/
def printRow (env : Env P) (nameWithPstr dir : Str) (entry : Dirent) (flags : Flags)
    (r : Report) : Report :=
  let r :=
    if 54 < nameWithPstr.length then r.print (nameWithPstr.take 51 ++ ascii "...")
    else if has flags fVerbose then r.print (padRight 54 nameWithPstr)
    else r.print nameWithPstr
  if has flags fVerbose then
    match env.dirfd dir with
    | none => r
    | some dd =>
      match env.fstatat dd entry.dName with
      | none => (r.print (ascii "No such file or directory")).print (ascii "\n")
      | some sb =>
        let r := r.print (metadata env entry sb)
        { r with dstats := updateDstatsMetadata r.dstats sb }.print (ascii "\n")
  else r.print (ascii "\n")

/-- Why there is no result. -/
inductive Stop where
  | fault (fault : Fault)
  /-- The recursion is deeper than the fuel. -/
  | fuel

/-- The loop of `processDir_recursive` over the entries from `i` on. -/
def processEntries (env : Env P) (flags : Flags)
    (processDirRecursive : Str → Str → St → Except Stop St) (dn pstr : Str) (count : Nat) :
    List Dirent → Nat → St → Except Stop St
  | [], _, st => .ok st
  | entry :: entries, i, st =>
    match asprintf env (dn ++ ascii "/" ++ entry.dName) st with
    | (none, st) => .ok st
    | (some path, st) =>
      match handlePstr env pstr entry flags (i = count - 1) st with
      | (none, st) => .ok st
      | (some (nameWithPstr, newPstr), st) => do
        let report := printRow env nameWithPstr dn entry flags st.report
        let st := { st with report := { report with dstats := updateDstats report.dstats entry } }
        let st ← if entry.dType = .dir then processDirRecursive path newPstr st else .ok st
        processEntries env flags processDirRecursive dn pstr count entries (i + 1) st

/-- `processDir_recursive`. -/
def processDirRecursive (env : Env P) (flags : Flags) : Nat → Str → Str → St → Except Stop St
  | 0, _, _, _ => .error .fuel
  | fuel + 1, dn, pstr, st =>
    match env.opendir dn with
    | .failed eacces =>
      if eacces then
        .ok { st with report := st.report.print (pstr ++
          (if has flags fTree then ascii "`-" else ascii "  ") ++
          ascii "ERROR: Permission denied\n") }
      else .ok st
    | .opened first second =>
      match readAndSortDirectory env.qsort (env.alloc st.allocs) first second with
      | .error fault => .error (.fault fault)
      | .ok (_, none) => .ok { st with allocs := st.allocs + 1 }
      | .ok (count, some entries) =>
        processEntries env flags (processDirRecursive env flags fuel) dn pstr count
          (entries.map second.final) 0 { st with allocs := st.allocs + 1 }

end SnuSysProg.Dirtree
