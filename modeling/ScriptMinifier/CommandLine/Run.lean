import ScriptMinifier.CommandLine.Arguments
import ScriptMinifier.Log

/-!
# The command

One call of the command: its arguments, the bytes of its standard input, the limit of the log asked
for from outside, and the tree it works in.  It either minifies standard input onto standard output
or runs over a directory; `perform` is all that it does, and the rest of the program only carries
bytes in and out.

The exit status is 0 if nothing failed, 1 if anything did, and 2 if the arguments are wrong.
-/

namespace ScriptMinifier.CommandLine

structure Exit where
  code : Nat
  stdout : Bytes
  /-- The entries of the log, each of which ends a line; `none` if the arguments are wrong. -/
  log : Option (List String)
  tree : Tree

/-- The log line by line. -/
def Exit.logLines? (e : Exit) : Option (List String) :=
  e.log.map fun entries => entries.flatMap lines

def versionText : String := "jsmin-dir 0.1.0\n"

def helpText : String :=
  "Minify every .js file in a directory, keeping each original as name-dev.js\n\n" ++
  "Usage: jsmin-dir [OPTIONS] [DIR]\n\n" ++
  "Arguments:\n" ++
  "  [DIR]  Directory to process [default: .]\n\n" ++
  "Options:\n" ++
  "  -r, --recursive                     Include sub-directories\n" ++
  "  -u, --undo                          Restore the -dev.js originals and stop\n" ++
  "  -o, --stdio                         " ++
  "Minify standard input to standard output and ignore DIR\n" ++
  "      --collapse-comment-line-breaks  " ++
  "Treat line breaks left by removed comments like any other line break\n" ++
  "      --keep-trailing-newline         End non-empty output with a line feed\n" ++
  "  -v, --verbose                       Log every file (overridden by JSMIN_LOG)\n" ++
  "  -h, --help                          Print help (see more with '--help')\n" ++
  "  -V, --version                       Print version\n"

def usageText : String :=
  "error: invalid arguments\n\nUsage: jsmin-dir [OPTIONS] [DIR]\n\n" ++
  "For more information, try '--help'.\n"

namespace Arguments

def options (a : Arguments) : Options := ⟨a.has .collapse, a.has .trailing⟩

def batchOptions (a : Arguments) : BatchOptions := ⟨a.has .recursive, a.has .undo, a.options⟩

/-- The directory, by default the one the command was called in. -/
def root (a : Arguments) : Path := utf8 (a.dir.getD ".")

def limit (a : Arguments) (asked : Option String) : Limit :=
  match asked.bind Limit.ofName? with
  | some limit => limit
  | none => some (if a.has .verbose then .debug else .info)

end Arguments

def errorEntry (what : String) (causes : List String) : LogEntry :=
  ⟨.error, [], ": ".intercalate (what :: causes), []⟩

def finish (limit : Limit) (success : Bool) (stdout : Bytes) (log : List LogEntry) (t : Tree) :
    Exit :=
  ⟨if success then 0 else 1, stdout, some (log.filterMap (LogEntry.render? limit)), t⟩

def minifyInput (a : Arguments) (limit : Limit) (stdin : Bytes) (t : Tree) : Exit :=
  let s := scan stdin
  let out := s.emitted a.options
  match s.stop with
  | none => finish limit true out (minifyLog [] s.openings (some (Stats.of stdin out))) t
  | some u =>
    let entry := errorEntry "cannot minify standard input" [u.message, u.kind.complaint]
    finish limit false out (minifyLog [] s.openings none ++ [entry]) t

def minifyDirectory (a : Arguments) (limit : Limit) (t : Tree) (here : Dir) : Exit :=
  match minifyTree t here a.root a.batchOptions with
  | .ok run =>
    let report := run.report
    finish limit report.isSuccess [] (run.log a.root ++ [report.logEntry]) run.tree
  | .error e =>
    let entry := errorEntry ("cannot process " ++ a.root.display) (e.message :: e.cause?.toList)
    finish limit false [] [entry] t

def worksOnTree (args : List String) : Bool :=
  match Arguments.parse args with
  | .ok a => !a.has .stdio
  | .error _ => false

/-- One call of the command in the directory `here`. -/
def perform (args : List String) (stdin : Bytes) (asked : Option String) (t : Tree) (here : Dir) :
    Exit :=
  match Arguments.parse args with
  | .error .usage => ⟨2, [], none, t⟩
  | .error .version => ⟨0, utf8 versionText, some [], t⟩
  | .error .help => ⟨0, utf8 helpText, some [], t⟩
  | .ok a =>
    let limit := a.limit asked
    if a.has .stdio then minifyInput a limit stdin t else minifyDirectory a limit t here

end ScriptMinifier.CommandLine
