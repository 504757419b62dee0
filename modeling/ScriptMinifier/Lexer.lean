import ScriptMinifier.Literal
import ScriptMinifier.Separator
import ScriptMinifier.Word

/-!
# The lexer

The lexer takes a text with unified line breaks byte by byte.  One step (`Lexer.step`) sees a byte
and, where `Lexer.looksAhead` asks for it, the byte after it, and gives back the next state and at
most one `Piece` of the result.  It fails only on a literal that is not closed.

A piece remembers the left-hand side and the gap in front of it, so the step does not depend on the
options: those come in when a piece is written (`Piece.write`).

A byte that was consumed together with the one before it (the second byte of `//`, `/*` and `*/`,
the byte after a backslash) is *held*: the next step takes it without looking at it.

* `Lexer.operandPosition`: a slash written now would open a regular expression.
* `Lexer.step_eq_of_not_looksAhead`: a step that does not look ahead does not depend on what
  follows.
* `Lexer.finish`: which states may end.
-/

namespace ScriptMinifier

/-! ### Pieces of the result -/

/-- One byte of the result, with what decides about the separator in front of it. -/
inductive Piece where
  /-- A byte of a word, or a punctuator. -/
  | code (left : Left) (gap : Gap) (b : Byte)
  /-- The first byte of a string or regular expression. -/
  | opener (left : Left) (gap : Gap) (regex : Bool) (b : Byte)
  /-- A later byte of a string or regular expression. -/
  | inner (b : Byte)
  deriving DecidableEq, Repr

namespace Piece

/-- The byte itself. -/
def byte : Piece → Byte
  | code _ _ b => b
  | opener _ _ _ b => b
  | inner b => b

def separator? (o : Options) : Piece → Option Byte
  | code left gap b => separator left (gap.under o) b false
  | opener left gap regex b => separator left (gap.under o) b regex
  | inner _ => none

/-- The piece as it is written: its separator, then its byte. -/
def write (o : Options) (p : Piece) : Bytes := (p.separator? o).toList ++ [p.byte]

theorem write_ne_nil (o : Options) (p : Piece) : p.write o ≠ [] := by simp [write]

end Piece

/-! ### States -/

/-- What the lexer is inside of. -/
inductive Mode where
  | code
  | lineComment
  /-- `broken`: the comment holds a line break so far. -/
  | blockComment (broken : Bool)
  | literal (l : Literal)
  deriving DecidableEq, Repr

/-- The state between two bytes. -/
structure Lexer where
  mode : Mode := .code
  /-- The next byte was consumed together with the last one. -/
  held : Bool := false
  /-- What was written last. -/
  left : Left := .start
  /-- What was written last is the second sign of `++` or `--`. -/
  doubled : Bool := false
  /-- The word written last. -/
  word : Word := {}
  /-- The gap since then. -/
  gap : Gap := .none
  deriving DecidableEq, Repr

namespace Lexer

/-- The state before the first byte. -/
def initial : Lexer := {}

/-- A slash written now would begin an operand, and so a regular expression, rather than divide.
This looks only at what was written last: a closing bracket is taken for the end of an operand. -/
def operandPosition (l : Lexer) : Bool :=
  match l.left with
  | .start => true
  | .number | .stringEnd | .regexEnd => false
  | .byte b =>
    if b.isWord then l.word.isOperandKeyword
    else if b.isCloser then false
    else if b.isSign then !l.doubled
    else true

/-- The step on byte `b` needs the byte after it: everywhere but on blanks and line breaks of code
and on a held byte. -/
def looksAhead (l : Lexer) (b : Byte) : Bool :=
  !l.held && (l.mode != .code || ByteClass.of (some b) == .other)

/-! ### Steps -/

def widen (l : Lexer) (g : Gap) : Lexer := { l with gap := l.gap.widen g }

/-- The word after `b`, a byte of code. -/
def wordAfter (l : Lexer) (b : Byte) : Word :=
  if b.isWord then
    if l.gap = .none ∧ l.left.continuesWord then l.word.push b
    else
      (Word.empty (l.left == .byte Byte.dot || (l.gap == .none && l.left == .regexEnd))).push b
  else l.word

/-- `b`, a byte of code, is the second sign of `++` or `--`. -/
def doubles (l : Lexer) (b : Byte) : Bool :=
  b.isSign && l.gap == .none && !l.doubled && l.left == .byte b

/-- Takes `b` as a byte of code. -/
def token (l : Lexer) (b : Byte) : Lexer :=
  { l with
    left := if (l.wordAfter b).numeric && b.isDigit then .number else .byte b
    doubled := l.doubles b
    word := l.wordAfter b
    gap := .none }

def enter (l : Lexer) (literal : Literal) : Lexer :=
  { l with mode := .literal literal, gap := .none }

def leave (l : Lexer) (literal : Literal) : Lexer :=
  { l with
    mode := .code
    left := if literal.isRegex then .regexEnd else .stringEnd
    doubled := false }

/-- Closes a comment; `broken` tells whether it holds a line break. -/
def dropComment (l : Lexer) (broken : Bool) : Lexer :=
  { l with mode := .code }.widen (if broken then .commentBreak else .space)

def stepCode (l : Lexer) (b : Byte) (next : Option Byte) : Lexer × Option Piece :=
  match ByteClass.of (some b) with
  | .whitespace => (l.widen .space, none)
  | .newline => (l.widen .newline, none)
  | .eof | .other =>
    if b = Byte.slash ∧ next = some Byte.slash then
      ({ l with mode := .lineComment, held := true }, none)
    else if b = Byte.slash ∧ next = some Byte.star then
      ({ l with mode := .blockComment false, held := true }, none)
    else if b = Byte.slash ∧ l.operandPosition then
      (l.enter (.regex false), some (.opener l.left l.gap true b))
    else if b.isQuote then
      (l.enter (.string b), some (.opener l.left l.gap false b))
    else (l.token b, some (.code l.left l.gap b))

def stepLiteral (l : Lexer) (literal : Literal) (b : Byte) (next : Option Byte) :
    Except LiteralKind (Lexer × Option Piece) :=
  if b = Byte.lf then .error literal.kind
  else if b = Byte.backslash then
    match next with
    | none => .error literal.kind
    | some _ => .ok ({ l with held := true }, some (.inner b))
  else
    match literal.next? b with
    | none => .ok (l.leave literal, some (.inner b))
    | some literal' => .ok ({ l with mode := .literal literal' }, some (.inner b))

/-- Takes a held byte: it is copied inside a literal and dropped elsewhere. -/
def release (l : Lexer) (b : Byte) : Lexer × Option Piece :=
  ({ l with held := false },
    match l.mode with
    | .literal _ => some (.inner b)
    | _ => none)

/-- One step: `b` is the byte at hand, `next` the one after it. -/
def step (l : Lexer) (b : Byte) (next : Option Byte) : Except LiteralKind (Lexer × Option Piece) :=
  if l.held then .ok (l.release b)
  else
    match l.mode with
    | .code => .ok (l.stepCode b next)
    | .lineComment => .ok (if b = Byte.lf then l.dropComment true else l, none)
    | .blockComment broken =>
      if b = Byte.star ∧ next = some Byte.slash then
        .ok ({ l.dropComment broken with held := true }, none)
      else .ok ({ l with mode := .blockComment (broken || b == Byte.lf) }, none)
    | .literal literal => l.stepLiteral literal b next

/-- The literal that is open, if the input may not end here. -/
def finish (l : Lexer) : Option LiteralKind :=
  match l.mode with
  | .code | .lineComment => none
  | .blockComment _ => some .blockComment
  | .literal literal => some literal.kind

/-- **A step that does not look ahead does not depend on what follows.** -/
theorem step_eq_of_not_looksAhead {l : Lexer} {b : Byte} (h : l.looksAhead b = false)
    (next next' : Option Byte) : l.step b next = l.step b next' := by
  unfold step
  split
  · rfl
  · rename_i hheld
    have hmode : l.mode = .code ∧ ByteClass.of (some b) ≠ .other := by
      simpa [looksAhead, hheld] using h
    simp only [hmode.1]
    unfold stepCode
    have heof : ByteClass.of (some b) ≠ .eof := by simp [ByteClass.of_eq_eof_iff]
    cases hclass : ByteClass.of (some b) with
    | eof => exact absurd hclass heof
    | whitespace => rfl
    | newline => rfl
    | other => exact absurd hclass hmode.2

end Lexer

end ScriptMinifier
