/-!
# JSON values

Values as a JSON text spells them.  A string is kept as the list of its code points and, where the
text writes halves of pairs as escapes, of those halves; `Json.Text.decode?` puts the pairs together
and refuses a half on its own.  A number is kept as it is written.
-/

namespace ScriptMinifier

/-- The content of a JSON string: code points, and halves of pairs written as escapes. -/
abbrev Json.Text := List Nat

inductive Json where
  | null
  | bool (b : Bool)
  | number (digits : List Char)
  | string (text : Json.Text)
  | array (items : List Json)
  | object (fields : List (Json.Text × Json))

namespace Json.Text

def isHigh (n : Nat) : Bool := 0xd800 ≤ n && n < 0xdc00

def isLow (n : Nat) : Bool := 0xdc00 ≤ n && n < 0xe000

def pair (high low : Nat) : Nat := 0x10000 + (high - 0xd800) * 0x400 + (low - 0xdc00)

/-- The characters of a text, if no half of a pair stands alone. -/
def decode? : Json.Text → Option (List Char)
  | [] => some []
  | [n] => if isHigh n || isLow n then none else some [Char.ofNat n]
  | n :: m :: rest =>
    if isHigh n then
      if isLow m then (decode? rest).map (Char.ofNat (pair n m) :: ·) else none
    else if isLow n then none
    else (decode? (m :: rest)).map (Char.ofNat n :: ·)

/-- The text is that of a string. -/
def is (t : Json.Text) (s : String) : Bool := decode? t == some s.toList

end Json.Text

end ScriptMinifier
