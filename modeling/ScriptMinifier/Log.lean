import ScriptMinifier.Batch.Run
import ScriptMinifier.Terminal

/-!
# The log of a run

A log entry has a level, the spans it was written in, a message and named values.  A limit decides
which entries are shown, and also which spans: a span of a finer level than the limit is left out of
the entries inside it.  An entry is shown as its level, the names of its spans, its message, its
values and the values of its spans.  What steers a terminal is escaped in the message, and in the
message only; a line break of a path stays and makes one entry take several lines.

The log is read off what became of every file (`Batch.Run.log`), in the order in which things
happened.
-/

namespace ScriptMinifier

/-! ### Levels, spans and entries -/

inductive Level where
  | error
  | warn
  | info
  | debug
  | trace
  deriving DecidableEq, Repr

namespace Level

def rank : Level → Nat
  | error => 0
  | warn => 1
  | info => 2
  | debug => 3
  | trace => 4

def tag : Level → String
  | error => "ERROR"
  | warn => "WARN"
  | info => "INFO"
  | debug => "DEBUG"
  | trace => "TRACE"

end Level

/-- The finest level that is shown; `none` shows nothing. -/
abbrev Limit := Option Level

def Limit.shows (limit : Limit) (level : Level) : Bool :=
  match limit with
  | none => false
  | some finest => level.rank ≤ finest.rank

def Limit.ofName? : String → Option Limit
  | "off" => some none
  | "error" => some (some .error)
  | "warn" => some (some .warn)
  | "info" => some (some .info)
  | "debug" => some (some .debug)
  | "trace" => some (some .trace)
  | _ => none

abbrev LogField := String × String

/-- A stretch of work that entries are written in. -/
structure Span where
  name : String
  level : Level
  fields : List LogField
  deriving DecidableEq, Repr

/-- One entry of a log, with its spans from the outermost on. -/
structure LogEntry where
  level : Level
  spans : List Span
  message : String
  fields : List LogField
  deriving DecidableEq, Repr

/-- Values as they are shown, each behind a space. -/
def showFields (fields : List LogField) : String :=
  String.join (fields.map fun (name, value) => " " ++ name ++ "=" ++ value)

namespace LogEntry

/-- The entry under a limit that shows it. -/
def render (limit : Limit) (e : LogEntry) : String :=
  let spans := e.spans.filter fun s => limit.shows s.level
  let names := if spans.isEmpty then "" else ":".intercalate (spans.map Span.name) ++ ": "
  e.level.tag ++ " " ++ names ++ Terminal.escape e.message ++ showFields e.fields ++
    showFields (spans.flatMap Span.fields)

def render? (limit : Limit) (e : LogEntry) : Option String :=
  if limit.shows e.level then some (e.render limit) else none

end LogEntry

/-! ### What is logged -/

def minifySpan : Span := ⟨"minify", .trace, []⟩

def treeSpan (root : Path) : Span := ⟨"minify_tree", .debug, [("root", root.display)]⟩

def restoreSpan (root : Path) : Span := ⟨"restore", .debug, [("root", root.display)]⟩

def Opening.logEntry (spans : List Span) (x : Opening) : LogEntry :=
  ⟨.trace, spans ++ [minifySpan], "literal",
    [("line", toString x.position.line), ("column", toString x.position.column),
      ("regex", if x.regex then "true" else "false")]⟩

/-- The entries for minifying one text: every opening, and the counts if there are any. -/
def minifyLog (spans : List Span) (openings : List Opening) (stats : Option Stats) :
    List LogEntry :=
  openings.map (Opening.logEntry spans) ++
    stats.toList.map fun s =>
      ⟨.debug, spans ++ [minifySpan], "minified",
        [("bytes_read", toString s.bytesRead), ("bytes_written", toString s.bytesWritten)]⟩

def BatchError.logEntry (spans : List Span) (e : BatchError) : LogEntry :=
  ⟨.warn, spans, e.message, []⟩

namespace Batch

def Restored.log (spans : List Span) (r : Restored) : List LogEntry :=
  match r.failure with
  | some e => [e.logEntry spans]
  | none => [⟨.debug, spans, "restored", [("file", r.script.display)]⟩]

def Minified.log (spans : List Span) (p : Minified) : List LogEntry :=
  minifyLog spans p.openings p.stats ++
    match p.failure, p.stats with
    | some e, _ => [e.logEntry spans]
    | none, some stats =>
      [⟨.info, spans, "minified",
        [("file", p.file.display), ("bytes_in", toString stats.bytesRead),
          ("bytes_out", toString stats.bytesWritten)]⟩]
    | none, none => []

def Run.log (root : Path) (r : Run) : List LogEntry :=
  r.restored.flatMap (Restored.log [treeSpan root, restoreSpan root]) ++
    r.minified.flatMap (Minified.log [treeSpan root])

end Batch

/-- The entry that sums up a run. -/
def Report.logEntry (r : Report) : LogEntry :=
  ⟨.info, [], "done",
    [("minified", toString r.minified), ("restored", toString r.restored),
      ("failed", toString r.failures.length), ("bytes_in", toString r.bytesIn),
      ("bytes_out", toString r.bytesOut)]⟩

end ScriptMinifier
