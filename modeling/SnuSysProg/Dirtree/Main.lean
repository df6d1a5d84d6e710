import SnuSysProg.Dirtree.Printing

/-
  `processDir` and `main`.

  `Totals` is what one root directory leaves to the next: the text, `*tstats` and the number of
  allocations. `dstats` is a local variable of `processDir`; the model gives it back, so that one
  can speak of it. The usage text that `syntax` writes to the standard error is left out.
-/

namespace SnuSysProg.Dirtree

variable {P : Type}

def maxDir : Nat := 64

/-- After `memset`. -/
def Summary.zero : Summary := ⟨0, 0, 0, 0, 0, 0, 0⟩

structure Totals where
  out : Str
  tstats : Summary
  allocs : Nat

/-- `%d` of an `unsigned int`. -/
def decimalInt (n : UInt32) : Str := decimal n.toInt32.toInt64

/-- `%llu`. -/
def decimalUnsigned (n : UInt64) : Str :=
  (Nat.toDigits 10 n.toNat).map fun c => c.toNat.toUInt8

/-- The line of 100 dashes. -/
def rule : Str := List.replicate 100 45 ++ ascii "\n"

/-- `print_header`. -/
def printHeader (dn : Str) (flags : Flags) (out : Str) : Str :=
  let out :=
    if has flags fSummary then
      (if has flags fVerbose then
        out ++ padRight 54 (ascii "Name") ++ ascii "  " ++ padLeft 8 (ascii "User") ++ ascii ":" ++
          padRight 8 (ascii "Group") ++ ascii "  " ++ padLeft 10 (ascii "Size") ++ ascii "  " ++
          padLeft 8 (ascii "Blocks") ++ ascii " " ++ padLeft 1 (ascii "Type") ++ ascii " \n"
      else out ++ ascii "Name\n") ++ rule
    else out
  out ++ dn ++ ascii "\n"

/-- The line of counts in the footer. -/
def countsLine (dstats : Summary) : Str :=
  decimalInt dstats.files ++ ascii " file" ++ (if dstats.files = 1 then [] else ascii "s") ++
    ascii ", " ++ decimalInt dstats.dirs ++ ascii " director" ++
    (if dstats.dirs = 1 then ascii "y" else ascii "ies") ++ ascii ", " ++
    decimalInt dstats.links ++ ascii " link" ++ (if dstats.links = 1 then [] else ascii "s") ++
    ascii ", " ++ decimalInt dstats.fifos ++ ascii " pipe" ++
    (if dstats.fifos = 1 then [] else ascii "s") ++ ascii ", and " ++ decimalInt dstats.socks ++
    ascii " socket" ++ (if dstats.socks = 1 then [] else ascii "s")

/-- `print_footer`. -/
def printFooter (env : Env P) (dstats : Summary) (flags : Flags) (st : St) : St :=
  let st := { st with report := st.report.print rule }
  match asprintf env (countsLine dstats) st with
  | (none, st) => st
  | (some result, st) =>
    let r :=
      if 68 < result.length then st.report.print (result.take 65 ++ ascii "...")
      else st.report.print (padRight 68 result)
    let r :=
      if has flags fVerbose then
        r.print (ascii "   " ++ padLeft 14 (decimalUnsigned dstats.size) ++ ascii " " ++
          padLeft 9 (decimalUnsigned dstats.blocks))
      else r
    { st with report := r.print (ascii "\n\n") }

/-- `update_tstats`. -/
def updateTstats (tstats dstats : Summary) : Summary where
  dirs := tstats.dirs + dstats.dirs
  files := tstats.files + dstats.files
  links := tstats.links + dstats.links
  fifos := tstats.fifos + dstats.fifos
  socks := tstats.socks + dstats.socks
  size := tstats.size + dstats.size
  blocks := tstats.blocks + dstats.blocks

/-- `processDir`, and its `dstats` unless the directory could not be opened. -/
def processDir (env : Env P) (flags : Flags) (fuel : Nat) (dn pstr : Str) (g : Totals) :
    Except Stop (Option Summary × Totals) :=
  let out := printHeader dn flags g.out
  match env.opendir dn with
  | .failed eacces =>
    let error :=
      (if has flags fTree then ascii "`-" else ascii "  ") ++ ascii "ERROR: Permission denied\n"
    .ok (none, { g with out := if eacces then out ++ error else out })
  | .opened _ _ => do
    let st ← processDirRecursive env flags fuel dn pstr ⟨⟨out, Summary.zero⟩, g.allocs⟩
    let dstats := st.report.dstats
    let tstats := updateTstats g.tstats dstats
    let st := if has flags fSummary then printFooter env dstats flags st else st
    return (some dstats, ⟨st.report.out, tstats, st.allocs⟩)

/-- The loop of `main` over the directories, and the summaries of each. -/
def processDirs (env : Env P) (flags : Flags) (fuel : Nat) :
    List Str → Totals → Except Stop (List (Option Summary) × Totals)
  | [], g => .ok ([], g)
  | dn :: directories, g => do
    let (dstats, g) ← processDir env flags fuel dn [] g
    let (rest, g) ← processDirs env flags fuel directories g
    return (dstats :: rest, g)

/-- What `main` has read of its arguments, and what it printed. -/
structure Args where
  flags : Flags
  directories : List Str
  out : Str

/-- One argument. The error is the output when `syntax` ends the program. -/
def parseArg (args : Args) (arg : Str) : Except Str Args :=
  if arg.head? = some 45 then
    if strcmp arg (ascii "-t") = 0 then .ok { args with flags := args.flags ||| fTree }
    else if strcmp arg (ascii "-s") = 0 then .ok { args with flags := args.flags ||| fSummary }
    else if strcmp arg (ascii "-v") = 0 then .ok { args with flags := args.flags ||| fVerbose }
    else if strcmp arg (ascii "-h") = 0 then .error args.out
    else .error (args.out ++ ascii "\n\n")
  else if args.directories.length < maxDir then
    .ok { args with directories := args.directories ++ [arg] }
  else
    let warning := ascii "Warning: maximum number of directories exceeded, ignoring '" ++ arg ++
      ascii "'.\n"
    .ok { args with out := args.out ++ warning }

/-- The grand total. -/
def grandTotal (flags : Flags) (ndir : Nat) (tstat : Summary) : Str :=
  ascii "Analyzed " ++ decimalInt ndir.toUInt32 ++ ascii " directories:\n" ++
    ascii "  total # of files:        " ++ padLeft 16 (decimalInt tstat.files) ++ ascii "\n" ++
    ascii "  total # of directories:  " ++ padLeft 16 (decimalInt tstat.dirs) ++ ascii "\n" ++
    ascii "  total # of links:        " ++ padLeft 16 (decimalInt tstat.links) ++ ascii "\n" ++
    ascii "  total # of pipes:        " ++ padLeft 16 (decimalInt tstat.fifos) ++ ascii "\n" ++
    ascii "  total # of sockets:      " ++ padLeft 16 (decimalInt tstat.socks) ++ ascii "\n" ++
    if has flags fVerbose then
      ascii "  total file size:         " ++ padLeft 16 (decimalUnsigned tstat.size) ++
        ascii "\n" ++
        ascii "  total # of blocks:       " ++ padLeft 16 (decimalUnsigned tstat.blocks) ++
        ascii "\n"
    else []

/-- The standard output and the exit code. -/
structure Exit where
  stdout : Str
  code : Int

/-- `main`, on the arguments after the name of the program. -/
def main (env : Env P) (fuel : Nat) (argv : List Str) : Except Stop Exit :=
  match argv.foldlM parseArg ⟨0, [], []⟩ with
  | .error out => .ok ⟨out, 1⟩
  | .ok args => do
    let directories := if args.directories.length = 0 then [ascii "."] else args.directories
    let (_, g) ← processDirs env args.flags fuel directories ⟨args.out, Summary.zero, 0⟩
    let out :=
      if has args.flags fSummary && 1 < directories.length then
        g.out ++ grandTotal args.flags directories.length g.tstats
      else g.out
    return ⟨out, 0⟩

end SnuSysProg.Dirtree
