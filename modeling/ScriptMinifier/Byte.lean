/-!
# Bytes of a script

A script is a list of bytes.  Nothing here decodes characters: every byte above `126` counts as
part of a word, so a character outside ASCII is never split.

* `Byte.isWord`, `Byte.isQuote`, `Byte.isOpener`, `Byte.isCloser`, `Byte.isSign`: the lexical kinds.
* `Byte.mayEndStatement`, `Byte.mayBeginStatement`: where a line break can stand for a semicolon.
* `ByteClass.of`: blank, line break or neither, with the end of input as a class of its own.
-/

namespace ScriptMinifier

abbrev Byte := UInt8

/-- A text as it is read and written. -/
abbrev Bytes := List Byte

namespace Byte

/-! ### Named bytes -/

abbrev tab : Byte := 0x09

abbrev lf : Byte := 0x0a

abbrev vt : Byte := 0x0b

abbrev ff : Byte := 0x0c

abbrev cr : Byte := 0x0d

abbrev space : Byte := 0x20

abbrev doubleQuote : Byte := 0x22

abbrev singleQuote : Byte := 0x27

abbrev star : Byte := 0x2a

abbrev plus : Byte := 0x2b

abbrev minus : Byte := 0x2d

abbrev dot : Byte := 0x2e

abbrev slash : Byte := 0x2f

abbrev leftBracket : Byte := 0x5b

abbrev backslash : Byte := 0x5c

abbrev rightBracket : Byte := 0x5d

/-! ### Lexical kinds -/

/-- The byte of an ASCII character. -/
def ofChar (c : Char) : Byte := c.toNat.toUInt8

/-- Space, tab, vertical tab or form feed. -/
def isBlank (b : Byte) : Bool := b == space || b == tab || b == vt || b == ff

def isLineBreak (b : Byte) : Bool := b == lf || b == cr

def isDigit (b : Byte) : Bool := 0x30 ≤ b && b ≤ 0x39

def isLetter (b : Byte) : Bool := (0x41 ≤ b && b ≤ 0x5a) || (0x61 ≤ b && b ≤ 0x7a)

/-- A byte of an identifier, keyword or number: letters, digits, `_`, `$`, the backslash of an
escape in an identifier, and everything above `126`. -/
def isWord (b : Byte) : Bool :=
  isLetter b || isDigit b || b == 0x5f || b == 0x24 || b == backslash || 126 < b

def isQuote (b : Byte) : Bool := b == doubleQuote || b == singleQuote

def isOpener (b : Byte) : Bool := b == 0x7b || b == leftBracket || b == 0x28

def isCloser (b : Byte) : Bool := b == 0x7d || b == rightBracket || b == 0x29

/-- Plus or minus: two of the same sign in a row fuse into one token. -/
def isSign (b : Byte) : Bool := b == plus || b == minus

/-- `!` or `~`, which stand before their operand only. -/
def isUnary (b : Byte) : Bool := b == 0x21 || b == 0x7e

/-- A byte after which a statement may be over. -/
def mayEndStatement (b : Byte) : Bool := isWord b || isCloser b || isSign b

/-- A byte with which a statement may begin. -/
def mayBeginStatement (b : Byte) : Bool :=
  isWord b || isOpener b || isSign b || isUnary b || isQuote b

end Byte

/-- What a byte is to the layout of code, with the end of input as a class of its own. -/
inductive ByteClass where
  | eof
  | whitespace
  | newline
  | other
  deriving DecidableEq, Repr

/-- The class of the next byte, `none` being the end of input. -/
def ByteClass.of : Option Byte → ByteClass
  | none => .eof
  | some b => if b.isBlank then .whitespace else if b.isLineBreak then .newline else .other

/-- **Only the end of input is of class `eof`.** -/
theorem ByteClass.of_eq_eof_iff {b : Option Byte} : ByteClass.of b = .eof ↔ b = none := by
  cases b with
  | none => simp [ByteClass.of]
  | some b =>
    simp only [ByteClass.of, reduceCtorEq, iff_false]
    split
    · simp
    · split <;> simp

end ScriptMinifier
