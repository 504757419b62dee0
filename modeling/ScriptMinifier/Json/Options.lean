import ScriptMinifier.Json.Reader
import ScriptMinifier.Literal
import ScriptMinifier.Options

/-!
# Options and literal kinds as JSON

Options are an object with two optional switches, or an array of at most two switches in the same
order.  Unknown fields are passed over; a switch given twice is refused.  A literal kind is a string
with its name, or an object with that name as its only key and `null` behind it.
-/

namespace ScriptMinifier

open Json (Text)

namespace Options

def collapseField : String := "collapse_comment_line_breaks"

def trailingField : String := "keep_trailing_newline"

/-- A switch among the fields of an object: off if it is missing, refused if it is given twice or is
no truth value. -/
def switch? (name : String) (fields : List (Text × Json)) : Option Bool :=
  match fields.filter fun field => field.1.is name with
  | [] => some false
  | [(_, .bool b)] => some b
  | _ => none

def ofJson? : Json → Option Options
  | .object fields =>
    if fields.all fun field => field.1.decode?.isSome then do
      let collapse ← switch? collapseField fields
      let trailing ← switch? trailingField fields
      some ⟨collapse, trailing⟩
    else none
  | .array [] => some {}
  | .array [.bool collapse] => some ⟨collapse, false⟩
  | .array [.bool collapse, .bool trailing] => some ⟨collapse, trailing⟩
  | _ => none

def fieldText (name : String) (b : Bool) : String :=
  "\"" ++ name ++ "\":" ++ (if b then "true" else "false")

def toJsonText (o : Options) : String :=
  "\x7b" ++ fieldText collapseField o.collapseCommentBreaks ++ "," ++
    fieldText trailingField o.keepTrailingNewline ++ "\x7d"

def parse? (text : String) : Option Options := (Json.parse? text).bind ofJson?

end Options

namespace LiteralKind

def name : LiteralKind → String
  | string => "string"
  | blockComment => "block_comment"
  | regex => "regex"

def ofText? (t : Text) : Option LiteralKind :=
  [string, blockComment, regex].find? fun k => t.is k.name

def ofJson? : Json → Option LiteralKind
  | .string t => ofText? t
  | .object [(t, .null)] => ofText? t
  | _ => none

def toJsonText (k : LiteralKind) : String := "\"" ++ k.name ++ "\""

def parse? (text : String) : Option LiteralKind := (Json.parse? text).bind ofJson?

end LiteralKind

end ScriptMinifier
