/-!
# Options

Two switches decide how much of the line structure is kept.  Both are off by default.
-/

namespace ScriptMinifier

/-- What the writer of the minified text may keep or drop. -/
structure Options where
  /-- A line break left by a removed comment is treated like any other line break. -/
  collapseCommentBreaks : Bool := false
  /-- Non-empty output ends with one line feed. -/
  keepTrailingNewline : Bool := false
  deriving DecidableEq, Repr, Inhabited

end ScriptMinifier
