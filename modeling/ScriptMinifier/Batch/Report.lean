import ScriptMinifier.Literal
import ScriptMinifier.Tree.Walk

/-!
# Reports

What a run over a directory comes to: how many files were minified and restored, how many bytes that
took and gave, and which files failed, in the order in which they did.
-/

namespace ScriptMinifier

/-- Why a file, or a whole run, failed. -/
inductive BatchError where
  /-- A call on a file failed. -/
  | io (path : Path) (e : OsError)
  /-- The file holds a literal that is not closed. -/
  | unterminated (path : Path) (u : Unterminated)
  /-- The name of the dev twin is taken. -/
  | devExists (path : Path)
  /-- The directory cannot be listed. -/
  | walk (path : Path) (e : OsError)
  deriving DecidableEq, Repr

namespace BatchError

/-- The path that failed. -/
def path : BatchError → Path
  | io p _ => p
  | unterminated p _ => p
  | devExists p => p
  | walk p _ => p

def message : BatchError → String
  | io p e => p.display ++ ": " ++ e.message
  | unterminated p u => p.display ++ ": " ++ u.message
  | devExists p => p.display ++ ": dev twin already exists and was not restored"
  | walk p e => "IO error for operation on " ++ p.display ++ ": " ++ e.message

/-- What is said of the error behind this one. -/
def cause? : BatchError → Option String
  | io _ e => some e.message
  | unterminated _ u => some u.message
  | devExists _ => none
  | walk _ e => some e.message

end BatchError

structure Report where
  /-- Files minified in place. -/
  minified : Nat := 0
  /-- Dev twins copied back. -/
  restored : Nat := 0
  /-- Files that failed, in order. -/
  failures : List BatchError := []
  /-- Bytes of the files minified, before. -/
  bytesIn : Nat := 0
  /-- Bytes of the files minified, after. -/
  bytesOut : Nat := 0
  deriving DecidableEq, Repr, Inhabited

/-- No file failed. -/
def Report.isSuccess (r : Report) : Bool := r.failures.isEmpty

def Report.merge (r s : Report) : Report :=
  { minified := r.minified + s.minified
    restored := r.restored + s.restored
    failures := r.failures ++ s.failures
    bytesIn := r.bytesIn + s.bytesIn
    bytesOut := r.bytesOut + s.bytesOut }

end ScriptMinifier
