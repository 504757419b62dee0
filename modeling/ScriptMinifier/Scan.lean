import ScriptMinifier.Lexer

/-!
# Scans

A scan runs the lexer over a whole text.  It yields the pieces of the result, the places where
strings and regular expressions open, and the literal that was not closed, if there is one; the
pieces in front of that literal are kept.

The loop carries the pieces in reverse.  `Scan.run_nil`, `Scan.run_error` and `Scan.run_step` are
its equations without that detail.
-/

namespace ScriptMinifier

structure Opening where
  position : Position
  regex : Bool
  deriving DecidableEq, Repr

/-- What one run of the lexer over a text yields. -/
structure Scan where
  pieces : List Piece
  openings : List Opening
  /-- The literal that was not closed. -/
  stop : Option Unterminated
  deriving DecidableEq, Repr

namespace Scan

/-- The opening that a piece at `position` stands for. -/
def openingOf (position : Position) : Piece → Option Opening
  | .opener _ _ regex _ => some ⟨position, regex⟩
  | .code .. | .inner _ => none

/-- The scan with more in front of it, given in reverse. -/
def after (pieces : List Piece) (openings : List Opening) (s : Scan) : Scan :=
  { s with pieces := pieces.reverse ++ s.pieces, openings := openings.reverse ++ s.openings }

/-- Runs the lexer from a state.  `here` is the position of the next byte, `opened` that of the byte
at which the lexer was last in code; `pieces` and `openings` are what has been found, in reverse. -/
def loop (l : Lexer) (here opened : Position) (pieces : List Piece) (openings : List Opening) :
    Bytes → Scan
  | [] => ⟨pieces.reverse, openings.reverse, l.finish.map fun kind => ⟨kind, opened⟩⟩
  | b :: rest =>
    let opened := if l.mode = .code then here else opened
    match l.step b rest.head? with
    | .error kind => ⟨pieces.reverse, openings.reverse, some ⟨kind, opened⟩⟩
    | .ok (l', piece) =>
      loop l' (here.advance b) opened (piece.toList ++ pieces)
        ((piece.bind (openingOf here)).toList ++ openings) rest

def run (l : Lexer) (here opened : Position) (text : Bytes) : Scan := loop l here opened [] [] text

theorem loop_eq_after (l : Lexer) (here opened : Position) (pieces : List Piece)
    (openings : List Opening) (text : Bytes) :
    loop l here opened pieces openings text = (run l here opened text).after pieces openings := by
  induction text generalizing l here opened pieces openings with
  | nil => simp [run, loop, after]
  | cons b rest ih =>
    simp only [run, loop]
    generalize hopened : (if l.mode = Mode.code then here else opened) = opened'
    cases hstep : l.step b rest.head? with
    | error kind => simp [after]
    | ok result =>
      obtain ⟨l', piece⟩ := result
      simp only [ih l' (here.advance b)]
      simp [after, List.append_assoc]

/-! ### Equations of a run -/

/-- **At the end of the text** only an open literal is left to report. -/
theorem run_nil (l : Lexer) (here opened : Position) :
    run l here opened [] = ⟨[], [], l.finish.map fun kind => ⟨kind, opened⟩⟩ := by
  simp [run, loop]

theorem run_error {l : Lexer} {here opened : Position} {b : Byte} {rest : Bytes}
    {kind : LiteralKind} (h : l.step b rest.head? = .error kind) :
    run l here opened (b :: rest)
      = ⟨[], [], some ⟨kind, if l.mode = .code then here else opened⟩⟩ := by
  simp [run, loop, h]

/-- **A step puts its piece in front of the rest of the run.** -/
theorem run_step {l l' : Lexer} {here opened : Position} {b : Byte} {rest : Bytes}
    {piece : Option Piece} (h : l.step b rest.head? = .ok (l', piece)) :
    run l here opened (b :: rest)
      = (run l' (here.advance b) (if l.mode = .code then here else opened) rest).after
          piece.toList (piece.bind (openingOf here)).toList := by
  rw [run, loop]
  simp only [h, List.append_nil]
  exact loop_eq_after ..

end Scan

/-- Scans a text as it is read, with line breaks of any kind. -/
def scan (text : Bytes) : Scan := Scan.run .initial .first .first (unifyBreaks text)

end ScriptMinifier
