import ScriptMinifier.Json.Value

/-!
# Reading JSON

The reader takes exactly the JSON grammar: no comments, no trailing commas, no leading zeros, no
control characters in strings, nothing but blanks around the value.  Each part gives back what it
read and the rest of the text.

Nested values are read under a depth that the length of the text bounds, so the bound is never
reached (`Json.parse?`).
-/

namespace ScriptMinifier.Json

/-! ### Blanks and words -/

def isBlank (c : Char) : Bool := c == ' ' || c == '\n' || c == '\t' || c == '\r'

def skip (cs : List Char) : List Char := cs.dropWhile isBlank

def word? : List Char → List Char → Option (List Char)
  | [], cs => some cs
  | _ :: _, [] => none
  | w :: ws, c :: cs => if w = c then word? ws cs else none

/-! ### Numbers -/

def digits? (cs : List Char) : Option (List Char × List Char) :=
  match cs.takeWhile Char.isDigit with
  | [] => none
  | ds => some (ds, cs.dropWhile Char.isDigit)

/-- The digits in front of the point: a zero stands alone. -/
def whole? : List Char → Option (List Char × List Char)
  | '0' :: cs =>
    match cs with
    | c :: _ => if c.isDigit then none else some (['0'], cs)
    | [] => some (['0'], cs)
  | cs => digits? cs

def fraction? : List Char → Option (List Char × List Char)
  | '.' :: cs => (digits? cs).map fun (ds, rest) => ('.' :: ds, rest)
  | cs => some ([], cs)

def sign : List Char → List Char × List Char
  | '+' :: cs => (['+'], cs)
  | '-' :: cs => (['-'], cs)
  | cs => ([], cs)

def exponent? : List Char → Option (List Char × List Char)
  | c :: cs =>
    if c = 'e' ∨ c = 'E' then
      let (s, cs') := sign cs
      (digits? cs').map fun (ds, rest) => (c :: s ++ ds, rest)
    else some ([], c :: cs)
  | [] => some ([], [])

def magnitude? (cs : List Char) : Option (List Char × List Char) := do
  let (w, cs) ← whole? cs
  let (f, cs) ← fraction? cs
  let (e, cs) ← exponent? cs
  some (w ++ f ++ e, cs)

def number? : List Char → Option (List Char × List Char)
  | '-' :: cs => (magnitude? cs).map fun (ds, rest) => ('-' :: ds, rest)
  | cs => magnitude? cs

/-! ### Strings -/

def hex? (c : Char) : Option Nat :=
  if '0' ≤ c ∧ c ≤ '9' then some (c.toNat - '0'.toNat)
  else if 'a' ≤ c ∧ c ≤ 'f' then some (c.toNat - 'a'.toNat + 10)
  else if 'A' ≤ c ∧ c ≤ 'F' then some (c.toNat - 'A'.toNat + 10)
  else none

def escape? : Char → Option Char
  | '"' => some '"'
  | '\\' => some '\\'
  | '/' => some '/'
  | 'b' => some '\x08'
  | 'f' => some '\x0c'
  | 'n' => some '\n'
  | 'r' => some '\r'
  | 't' => some '\t'
  | _ => none

def text? : List Char → Option (Json.Text × List Char)
  | [] => none
  | '"' :: rest => some ([], rest)
  | '\\' :: 'u' :: a :: b :: c :: d :: rest =>
    match hex? a, hex? b, hex? c, hex? d with
    | some a, some b, some c, some d =>
      (text? rest).map fun (t, r) => ((((a * 16 + b) * 16 + c) * 16 + d) :: t, r)
    | _, _, _, _ => none
  | '\\' :: e :: rest =>
    match escape? e with
    | some c => (text? rest).map fun (t, r) => (c.toNat :: t, r)
    | none => none
  | c :: rest =>
    if c.toNat < 0x20 ∨ c = '\\' then none
    else (text? rest).map fun (t, r) => (c.toNat :: t, r)

/-! ### Values -/

def leaf? (cs : List Char) : Option (Json × List Char) :=
  match cs with
  | '"' :: rest => (text? rest).map fun (t, r) => (.string t, r)
  | 'n' :: _ => (word? ['n', 'u', 'l', 'l'] cs).map fun r => (.null, r)
  | 't' :: _ => (word? ['t', 'r', 'u', 'e'] cs).map fun r => (.bool true, r)
  | 'f' :: _ => (word? ['f', 'a', 'l', 's', 'e'] cs).map fun r => (.bool false, r)
  | _ => (number? cs).map fun (ds, r) => (.number ds, r)

def key? (cs : List Char) : Option (Json.Text × List Char) :=
  match skip cs with
  | '"' :: rest => do
    let (t, r) ← text? rest
    match skip r with
    | ':' :: r => some (t, r)
    | _ => none
  | _ => none

mutual

/-- A value, nested at most `depth` deep. -/
def value? : Nat → List Char → Option (Json × List Char)
  | 0, _ => none
  | depth + 1, cs =>
    match skip cs with
    | '[' :: rest =>
      match skip rest with
      | ']' :: r => some (.array [], r)
      | r => (items? depth r).map fun (vs, r) => (.array vs, r)
    | '{' :: rest =>
      match skip rest with
      | '}' :: r => some (.object [], r)
      | r => (fields? depth r).map fun (fs, r) => (.object fs, r)
    | cs => leaf? cs

def items? : Nat → List Char → Option (List Json × List Char)
  | 0, _ => none
  | depth + 1, cs => do
    let (v, r) ← value? depth cs
    match skip r with
    | ',' :: r => do
      let (vs, r) ← items? depth r
      some (v :: vs, r)
    | ']' :: r => some ([v], r)
    | _ => none

def fields? : Nat → List Char → Option (List (Json.Text × Json) × List Char)
  | 0, _ => none
  | depth + 1, cs => do
    let (k, r) ← key? cs
    let (v, r) ← value? depth r
    match skip r with
    | ',' :: r => do
      let (fs, r) ← fields? depth r
      some ((k, v) :: fs, r)
    | '}' :: r => some ([(k, v)], r)
    | _ => none

end

/-- The value that a whole text spells. -/
def parse? (text : String) : Option Json :=
  let cs := text.toList
  match value? (2 * cs.length + 1) cs with
  | some (v, rest) => if skip rest = [] then some v else none
  | none => none

end ScriptMinifier.Json
