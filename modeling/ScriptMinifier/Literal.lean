import ScriptMinifier.Position

/-!
# Literals and how they fail

Strings and regular expressions are copied byte for byte; block comments are dropped.  Each of the
three has to be closed, and `Unterminated` names the one that was not and where it opened.

`Literal` is the part of a string or regular expression that decides which byte closes it: the
quote it opened with, or whether a regular expression is inside a `[...]` class.
-/

namespace ScriptMinifier

/-- The three kinds of text that must be closed. -/
inductive LiteralKind where
  | string
  | blockComment
  | regex
  deriving DecidableEq, Repr

namespace LiteralKind

def describe : LiteralKind → String
  | string => "string literal"
  | blockComment => "block comment"
  | regex => "regular expression literal"

def complaint (k : LiteralKind) : String := "unterminated " ++ k.describe

end LiteralKind

/-- A literal that is not closed, with the position of its first byte. -/
structure Unterminated where
  kind : LiteralKind
  opened : Position
  deriving DecidableEq, Repr

def Unterminated.message (u : Unterminated) : String :=
  u.kind.complaint ++ " at " ++ toString u.opened.line ++ ":" ++ toString u.opened.column

/-- A string or regular expression that is being copied. -/
inductive Literal where
  | string (quote : Byte)
  | regex (inClass : Bool)
  deriving DecidableEq, Repr

namespace Literal

/-- The kind that is named if the literal is not closed. -/
def kind : Literal → LiteralKind
  | string _ => .string
  | regex _ => .regex

def isRegex : Literal → Bool
  | string _ => false
  | regex _ => true

/-- The literal after one more byte that is neither a line feed nor part of an escape; `none` if
that byte closes it. -/
def next? : Literal → Byte → Option Literal
  | string quote, b => if b = quote then none else some (string quote)
  | regex inClass, b =>
    if b = Byte.slash ∧ inClass = false then none
    else if b = Byte.leftBracket then some (regex true)
    else if b = Byte.rightBracket then some (regex false)
    else some (regex inClass)

theorem kind_of_next? {l m : Literal} {b : Byte} (h : l.next? b = some m) : m.kind = l.kind := by
  cases l with
  | string quote =>
    simp only [next?] at h
    split at h
    · cases h
    · cases h
      rfl
  | regex inClass =>
    simp only [next?] at h
    split at h
    · cases h
    · split at h
      · cases h
        rfl
      · split at h <;> cases h <;> rfl

end Literal

end ScriptMinifier
