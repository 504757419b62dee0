import ScriptMinifier.Byte

/-!
# The word written last

After most words a slash divides; after a few keywords (`return`, `typeof`, …) it opens a regular
expression.  To tell them apart it is enough to remember the first `Word.limit` bytes of the word,
whether it is longer, and whether it stands where no keyword can stand: after a full stop, or right
behind a regular expression, whose flags it then holds.

* `Word.isOperandKeyword`: the word is one of `operandKeywords`.
* `Word.length_push_le`: the memory never outgrows the longest keyword.
-/

namespace ScriptMinifier

/-- The keywords that leave a reader waiting for an operand. -/
def operandKeywords : List Bytes :=
  [ ['r', 'e', 't', 'u', 'r', 'n'],
    ['t', 'y', 'p', 'e', 'o', 'f'],
    ['i', 'n', 's', 't', 'a', 'n', 'c', 'e', 'o', 'f'],
    ['i', 'n'],
    ['o', 'f'],
    ['n', 'e', 'w'],
    ['d', 'e', 'l', 'e', 't', 'e'],
    ['v', 'o', 'i', 'd'],
    ['t', 'h', 'r', 'o', 'w'],
    ['c', 'a', 's', 'e'],
    ['d', 'o'],
    ['e', 'l', 's', 'e'],
    ['y', 'i', 'e', 'l', 'd'],
    ['a', 'w', 'a', 'i', 't'] ].map fun letters => letters.map Byte.ofChar

/-- As much of the word written last as is needed to know a keyword. -/
structure Word where
  /-- The first bytes of the word, at most `Word.limit`. -/
  letters : Bytes := []
  /-- The word is no keyword whatever its letters: it is longer, or stands where none can. -/
  masked : Bool := false
  /-- The word starts with a digit. -/
  numeric : Bool := false
  deriving DecidableEq, Repr, Inhabited

namespace Word

/-- The length of the longest keyword. -/
def limit : Nat := 10

def empty (masked : Bool) : Word := ⟨[], masked, false⟩

def push (w : Word) (b : Byte) : Word :=
  { letters := if w.letters.length = limit then w.letters else w.letters ++ [b]
    masked := w.masked || w.letters.length == limit
    numeric := if w.letters.isEmpty then b.isDigit else w.numeric }

/-- A slash after this word opens a regular expression. -/
def isOperandKeyword (w : Word) : Bool := !w.masked && operandKeywords.contains w.letters

/-- **No keyword is longer than the limit.** -/
theorem length_le_limit_of_mem {k : Bytes} (h : k ∈ operandKeywords) : k.length ≤ limit := by
  revert k
  decide

/-- **Pushing keeps the memory within the limit.** -/
theorem length_push_le {w : Word} (h : w.letters.length ≤ limit) (b : Byte) :
    (w.push b).letters.length ≤ limit := by
  simp only [push]
  split
  · exact h
  · simp only [List.length_append, List.length_singleton]
    omega

end Word

end ScriptMinifier
