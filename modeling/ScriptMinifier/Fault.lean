import ScriptMinifier.Literal

/-!
# Faults of streams

A stream fails with a `Fault`: a kind and a text of its own.  Only the kind `interrupted` asks for
another try.  `MinifyError` is what minifying can fail with: a literal that is not closed, or a
fault of either stream.
-/

namespace ScriptMinifier

inductive FaultKind where
  | interrupted
  | brokenPipe
  | storageFull
  | unexpectedEof
  | permissionDenied
  | wouldBlock
  | writeZero
  | invalidData
  | other
  deriving DecidableEq, Repr

structure Fault where
  kind : FaultKind
  text : String
  deriving DecidableEq, Repr

/-- The call may be tried again. -/
def Fault.interrupts (f : Fault) : Bool := f.kind == .interrupted

def Fault.writeZero : Fault := ⟨.writeZero, "failed to write the buffered data"⟩

/-- Why minifying failed. -/
inductive MinifyError where
  | unterminated (u : Unterminated)
  | stream (f : Fault)
  deriving DecidableEq, Repr

namespace MinifyError

/-- The error without its place. -/
def cause : MinifyError → String
  | unterminated u => u.kind.complaint
  | stream f => f.text

def message : MinifyError → String
  | unterminated u => u.message
  | stream f => "i/o error: " ++ f.text

end MinifyError

end ScriptMinifier
