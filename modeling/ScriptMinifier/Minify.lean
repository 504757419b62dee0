import ScriptMinifier.Fault
import ScriptMinifier.Scan
import ScriptMinifier.Text

/-!
# Minifying a text

`minify` drops comments and blanks from a script and keeps its tokens.  It succeeds with the whole
result or fails with the literal that is not closed; `emitted` is what is written in either case
(`emitted_of_minify`).

`minifyText` minifies a text of characters.  Its result is read back as UTF-8, so its type has room
for a failure there.
-/

namespace ScriptMinifier

/-! ### What a scan is written as -/

def Scan.write (o : Options) (s : Scan) : Bytes := s.pieces.flatMap (Piece.write o)

/-- The line feed that the options ask for at the end of non-empty output. -/
def Scan.trailer (o : Options) (s : Scan) : Bytes :=
  if o.keepTrailingNewline ∧ s.pieces ≠ [] then [Byte.lf] else []

/-- What a scan comes to: the minified text, or the literal that is not closed. -/
def Scan.result (o : Options) (s : Scan) : Except Unterminated Bytes :=
  match s.stop with
  | some u => .error u
  | none => .ok (s.write o ++ s.trailer o)

/-- All that is written for a scan, up to the literal that is not closed. -/
def Scan.emitted (o : Options) (s : Scan) : Bytes :=
  match s.stop with
  | some _ => s.write o
  | none => s.write o ++ s.trailer o

/-! ### Texts of bytes -/

/-- The minified text, or the literal that is not closed. -/
def minify (o : Options) (text : Bytes) : Except Unterminated Bytes := (scan text).result o

/-- All that is written while a text is minified, up to the literal that is not closed. -/
def emitted (o : Options) (text : Bytes) : Bytes := (scan text).emitted o

/-- How many bytes one run took in and gave out. -/
structure Stats where
  bytesRead : Nat
  bytesWritten : Nat
  deriving DecidableEq, Repr

def Stats.of (text out : Bytes) : Stats := ⟨text.length, out.length⟩

/-- **A result is all that was written.** -/
theorem emitted_of_minify {o : Options} {text out : Bytes} (h : minify o text = .ok out) :
    emitted o text = out := by
  simp only [minify, Scan.result] at h
  simp only [emitted, Scan.emitted]
  cases hstop : (scan text).stop with
  | some u => simp [hstop] at h
  | none => simpa [hstop] using h

/-! ### Texts of characters -/

/-- Minifies a text of characters with the default options. -/
def minifyText (text : String) : Except MinifyError String :=
  match minify {} (utf8 text) with
  | .error u => .error (.unterminated u)
  | .ok out =>
    match ofUtf8? out with
    | some result => .ok result
    | none => .error (.stream ⟨.invalidData, "the minified text is not valid UTF-8"⟩)

end ScriptMinifier
