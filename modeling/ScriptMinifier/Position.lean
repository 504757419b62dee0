import ScriptMinifier.Byte

/-!
# Positions and line breaks

Line feed, carriage return and the pair of both are each one line break.  `unifyBreaks` writes all
three as one line feed, and every later stage sees only the unified text.  A `Position` is the line
and column, from one, of a byte of the unified text; columns count bytes.

* `unifyBreaks_cons_cr_lf`, `unifyBreaks_cons_cr`, `unifyBreaks_cons`: the three ways a text can go
  on.
* `Position.advance`: where the byte after a given one stands.
-/

namespace ScriptMinifier

/-! ### One kind of line break -/

/-- Unifies the line breaks of a text onto a reversed start; `afterCr` tells whether the byte before
was a carriage return, whose line feed is then already written. -/
def unifyBreaksOnto (done : Bytes) (afterCr : Bool) : Bytes → Bytes
  | [] => done.reverse
  | b :: rest =>
    if b = Byte.cr then unifyBreaksOnto (Byte.lf :: done) true rest
    else if b = Byte.lf ∧ afterCr = true then unifyBreaksOnto done false rest
    else unifyBreaksOnto (b :: done) false rest

/-- The text with every line break written as one line feed. -/
def unifyBreaks (text : Bytes) : Bytes := unifyBreaksOnto [] false text

theorem unifyBreaksOnto_eq (text done : Bytes) (afterCr : Bool) :
    unifyBreaksOnto done afterCr text = done.reverse ++ unifyBreaksOnto [] afterCr text := by
  induction text generalizing done afterCr with
  | nil => simp [unifyBreaksOnto]
  | cons b rest ih =>
    simp only [unifyBreaksOnto]
    split
    · rw [ih (Byte.lf :: done), ih [Byte.lf]]
      simp
    · split
      · exact ih done false
      · rw [ih (b :: done), ih [b]]
        simp

theorem unifyBreaksOnto_true {text : Bytes} (h : text.head? ≠ some Byte.lf) :
    unifyBreaksOnto [] true text = unifyBreaks text := by
  cases text with
  | nil => rfl
  | cons b rest =>
    have hb : b ≠ Byte.lf := by simpa using h
    simp [unifyBreaks, unifyBreaksOnto, hb]

@[simp]
theorem unifyBreaks_nil : unifyBreaks [] = [] := rfl

/-- **A carriage return and the line feed after it are one line break.** -/
@[simp]
theorem unifyBreaks_cons_cr_lf (rest : Bytes) :
    unifyBreaks (Byte.cr :: Byte.lf :: rest) = Byte.lf :: unifyBreaks rest := by
  have hne : Byte.lf ≠ Byte.cr := by decide
  simp only [unifyBreaks, unifyBreaksOnto, if_true, hne, if_false, and_self]
  rw [unifyBreaksOnto_eq]
  simp

/-- **A carriage return without a line feed after it is a line break too.** -/
theorem unifyBreaks_cons_cr {rest : Bytes} (h : rest.head? ≠ some Byte.lf) :
    unifyBreaks (Byte.cr :: rest) = Byte.lf :: unifyBreaks rest := by
  rw [unifyBreaks, unifyBreaksOnto, if_pos rfl, unifyBreaksOnto_eq, unifyBreaksOnto_true h]
  simp

theorem unifyBreaks_cons {b : Byte} (h : b ≠ Byte.cr) (rest : Bytes) :
    unifyBreaks (b :: rest) = b :: unifyBreaks rest := by
  rw [unifyBreaks, unifyBreaksOnto, if_neg h, if_neg (by simp), unifyBreaksOnto_eq]
  simp [unifyBreaks]

theorem unifyBreaks_eq_nil_iff {text : Bytes} : unifyBreaks text = [] ↔ text = [] := by
  constructor
  · intro h
    cases text with
    | nil => rfl
    | cons b rest =>
      rw [unifyBreaks, unifyBreaksOnto] at h
      split at h
      · rw [unifyBreaksOnto_eq] at h
        simp at h
      · rw [if_neg (by simp), unifyBreaksOnto_eq] at h
        simp at h
  · rintro rfl
    rfl

/-! ### Lines and columns -/

/-- Line and column of a byte, both from one. -/
structure Position where
  line : Nat
  column : Nat
  deriving DecidableEq, Repr

namespace Position

def first : Position := ⟨1, 1⟩

/-- Where the byte after `b` stands if `b` stands at `p`. -/
def advance (p : Position) (b : Byte) : Position :=
  if b = Byte.lf then ⟨p.line + 1, 1⟩ else ⟨p.line, p.column + 1⟩

@[simp]
theorem advance_lf (p : Position) : p.advance Byte.lf = ⟨p.line + 1, 1⟩ := by simp [advance]

theorem advance_of_ne {b : Byte} (h : b ≠ Byte.lf) (p : Position) :
    p.advance b = ⟨p.line, p.column + 1⟩ := by simp [advance, h]

end Position

end ScriptMinifier
