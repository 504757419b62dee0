import ScriptMinifier.Byte
import ScriptMinifier.Options

/-!
# What a gap becomes

Between two tokens stands a gap: blanks, line breaks and comments in any order.  Only the widest of
them counts (`Gap.widen`), and the gap is written as at most one byte (`separator`):

* a line feed, if the gap breaks the line, the token on its left may end a statement and the one on
  its right may begin one (a break left by a comment asks only for the right-hand side);
* else a space, if the two tokens would otherwise run together;
* else nothing.

Collapsing comment breaks (`Gap.collapse`) commutes with widening, so a gap can be measured before
the options are known (`Gap.collapse_widen`).
-/

namespace ScriptMinifier

/-! ### Gaps -/

/-- The widest thing that stands between two tokens. -/
inductive Gap where
  | none
  | space
  | newline
  /-- A line break inside a comment, or the one that ends a line comment. -/
  | commentBreak
  deriving DecidableEq, Repr, Inhabited

namespace Gap

/-- The place of a gap in the order from nothing to a comment break. -/
def width : Gap → Nat
  | none => 0
  | space => 1
  | newline => 2
  | commentBreak => 3

def widen (g h : Gap) : Gap := if g.width ≤ h.width then h else g

def collapse : Gap → Gap
  | commentBreak => newline
  | g => g

/-- The gap as the options see it. -/
def under (o : Options) (g : Gap) : Gap := if o.collapseCommentBreaks then g.collapse else g

def breaksLine (g : Gap) : Bool := g == newline || g == commentBreak

@[simp]
theorem none_widen (g : Gap) : none.widen g = g := by cases g <;> rfl

@[simp]
theorem widen_none (g : Gap) : g.widen none = g := by cases g <;> rfl

theorem widen_assoc (g h k : Gap) : (g.widen h).widen k = g.widen (h.widen k) := by
  cases g <;> cases h <;> cases k <;> rfl

/-- **Only two empty gaps make an empty one.** -/
theorem widen_eq_none_iff {g h : Gap} : g.widen h = none ↔ g = none ∧ h = none := by
  cases g <;> cases h <;> decide

/-- **Collapsing and widening commute.** -/
theorem collapse_widen (g h : Gap) : (g.widen h).collapse = g.collapse.widen h.collapse := by
  cases g <;> cases h <;> rfl

theorem under_widen (o : Options) (g h : Gap) :
    (g.widen h).under o = (g.under o).widen (h.under o) := by
  simp only [under]
  split
  · exact collapse_widen g h
  · rfl

@[simp]
theorem under_eq_none_iff {o : Options} {g : Gap} : g.under o = none ↔ g = none := by
  simp only [under]
  split <;> cases g <;> decide

end Gap

/-! ### The left-hand side -/

/-- What was written last, as far as the next byte can tell. -/
inductive Left where
  /-- Nothing yet. -/
  | start
  /-- A byte of a word or a punctuator. -/
  | byte (b : Byte)
  /-- A digit of a word that starts with a digit. -/
  | number
  /-- The closing quote of a string. -/
  | stringEnd
  /-- The closing slash of a regular expression. -/
  | regexEnd
  deriving DecidableEq, Repr

namespace Left

/-- A statement may be over here. -/
def mayEndStatement : Left → Bool
  | start => false
  | byte b => b.mayEndStatement
  | number | stringEnd | regexEnd => true

/-- A word byte written right here would lengthen what stands on the left. -/
def gluesToWord : Left → Bool
  | byte b => b.isWord
  | number | regexEnd => true
  | start | stringEnd => false

/-- A word byte written right here would belong to the word on the left. -/
def continuesWord : Left → Bool
  | byte b => b.isWord
  | number => true
  | start | stringEnd | regexEnd => false

/-- `next` written right here would make a comment, a doubled sign, a fraction or a comment after a
regular expression. -/
def fusesWith (left : Left) (next : Byte) : Bool :=
  match left with
  | byte b =>
    (b == Byte.slash && (next == Byte.slash || next == Byte.star)) || (b.isSign && next == b)
  | number => next == Byte.dot
  | regexEnd => next == Byte.slash
  | start | stringEnd => false

end Left

/-! ### The separator -/

/-- The byte that stands for `gap` between `left` and a token that starts with `next`. -/
def separator (left : Left) (gap : Gap) (next : Byte) (opensRegex : Bool) : Option Byte :=
  if gap = .none ∨ left = .start then none
  else if gap.breaksLine && (gap == .commentBreak || left.mayEndStatement) &&
      (opensRegex || next.mayBeginStatement) then
    some Byte.lf
  else if (left.gluesToWord && next.isWord) || left.fusesWith next then some Byte.space
  else none

@[simp]
theorem separator_none (left : Left) (next : Byte) (opensRegex : Bool) :
    separator left .none next opensRegex = none := by simp [separator]

@[simp]
theorem separator_start (gap : Gap) (next : Byte) (opensRegex : Bool) :
    separator .start gap next opensRegex = none := by simp [separator]

/-- **Tokens that would run together are kept apart** whenever anything stood between them. -/
theorem separator_isSome {left : Left} {gap : Gap} {next : Byte} {opensRegex : Bool}
    (hgap : gap ≠ .none)
    (h : ((left.gluesToWord && next.isWord) || left.fusesWith next) = true) :
    (separator left gap next opensRegex).isSome := by
  have hstart : left ≠ .start := by
    rintro rfl
    simp [Left.gluesToWord, Left.fusesWith] at h
  simp only [separator, hgap, hstart, or_self, if_false]
  split <;> rfl

end ScriptMinifier
