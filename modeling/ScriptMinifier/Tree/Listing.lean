import ScriptMinifier.Tree.Build

/-!
# Listings

A listing is a tree as text, one entry a line: a letter for the kind of entry, its path, and the
bytes of a file or the target of a link.  Paths and bytes are written in hexadecimal, so a line
holds nothing but letters, digits and spaces.  A line that says something else is passed over.
-/

namespace ScriptMinifier.Listing

/-! ### Hexadecimal -/

def hex (bytes : Bytes) : List Char :=
  bytes.flatMap fun b => hexPair b.toNat

def digit? (c : Char) : Option Nat :=
  if '0' ≤ c ∧ c ≤ '9' then some (c.toNat - '0'.toNat)
  else if 'a' ≤ c ∧ c ≤ 'f' then some (c.toNat - 'a'.toNat + 10)
  else none

def unhex? : List Char → Option Bytes
  | [] => some []
  | [_] => none
  | a :: b :: rest =>
    match digit? a, digit? b, unhex? rest with
    | some a, some b, some bytes => some ((16 * a + b).toUInt8 :: bytes)
    | _, _, _ => none

/-! ### Lines -/

def entry? (line : List Char) : Option (Path × Entry) :=
  match cutAt ' ' line with
  | [['d'], path] => (unhex? path).map fun p => (p, .dir)
  | [['f'], path, data] =>
    match unhex? path, unhex? data with
    | some p, some bytes => some (p, .file bytes)
    | _, _ => none
  | [['l'], path, target] =>
    match unhex? path, unhex? target with
    | some p, some t => some (p, .link t)
    | _, _ => none
  | _ => none

def line (a : Address) (e : Entry) : String :=
  let path := hex (Path.glue a.asDir.reverse)
  String.ofList (match e with
    | .dir => 'd' :: ' ' :: path
    | .file data => 'f' :: ' ' :: path ++ ' ' :: hex data
    | .link target => 'l' :: ' ' :: path ++ ' ' :: hex target)

/-- The tree that a listing describes. -/
def read (text : String) : Tree :=
  ((cutAt '\n' text.toList).filterMap entry?).foldl (fun t (p, e) => t.place [] p e) Tree.empty

/-- The listing of a tree. -/
def write (t : Tree) : List String := t.entries.map fun (a, e) => line a e

end ScriptMinifier.Listing
