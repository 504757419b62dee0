import ScriptMinifier.Byte

/-!
# Bytes, characters and lines

The two ways between texts of characters and their UTF-8 bytes.  Not all bytes are a text, so the
way back can fail.  `cutAt` cuts a text at a character, `lines` cuts it into its lines, and
`hexPair` writes a byte as two digits.
-/

namespace ScriptMinifier

/-! ### UTF-8 -/

def utf8 (text : String) : Bytes := text.toUTF8.data.toList

/-- The text that bytes stand for, if they are UTF-8. -/
def ofUtf8? (bytes : Bytes) : Option String := String.fromUTF8? (ByteArray.mk bytes.toArray)

/-- **A text comes back from its bytes.** -/
theorem ofUtf8?_utf8 (text : String) : ofUtf8? (utf8 text) = some text := by
  have hbytes : ByteArray.mk (utf8 text).toArray = text.toByteArray := by simp [utf8]
  rw [ofUtf8?, hbytes, String.fromUTF8?, dif_pos text.isValidUTF8]
  rfl

/-! ### Cutting -/

/-- The text cut at every `sep`; empty parts are kept. -/
def cutAt (sep : Char) : List Char → List (List Char)
  | [] => [[]]
  | c :: rest =>
    if c = sep then [] :: cutAt sep rest
    else
      match cutAt sep rest with
      | [] => [[c]]
      | s :: ss => (c :: s) :: ss

/-- A line without the carriage return in front of its line feed. -/
def chompCr (line : List Char) : List Char :=
  if line.getLast? = some '\r' then line.dropLast else line

def lines (text : String) : List String :=
  (cutAt '\n' text.toList).map fun line => String.ofList (chompCr line)

/-! ### Hexadecimal digits -/

def hexPair (n : Nat) : List Char := [Nat.digitChar (n / 16), Nat.digitChar (n % 16)]

end ScriptMinifier
