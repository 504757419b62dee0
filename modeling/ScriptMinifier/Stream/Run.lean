import ScriptMinifier.Stream.Source
import ScriptMinifier.Stream.Sink

/-!
# Minifying over streams

`minifyStream` takes bytes from a source and puts the pieces of the lexer into a sink.  Reads and
writes take turns: a byte is taken, the byte after it is looked at if the lexer asks for it, and
only then its piece is put.  A fault of either stream ends the run; what is in the buffer is sent on
once more, and the writer is flushed only at the end of a run without faults.
-/

namespace ScriptMinifier.Stream

/-- How a run over streams ended, with both streams as it left them. -/
structure Outcome where
  result : Except MinifyError Stats
  reader : Reader
  writer : Writer

def Outcome.failed (e : MinifyError) (source : Source) (sink : Sink) : Outcome :=
  ⟨.error e, source.reader, sink.abandon⟩

/-- Puts the last line feed, if the options ask for it and anything was written, and flushes. -/
def close (o : Options) (l : Lexer) (sink : Sink) : Except Fault Unit × Sink :=
  match sink.putAll (if o.keepTrailingNewline ∧ l.left ≠ .start then [Byte.lf] else []) with
  | (.error f, sink') => (.error f, sink')
  | (.ok (), sink') => sink'.flush

def conclude (o : Options) (l : Lexer) (opened : Position) (source : Source) (sink : Sink) :
    Outcome :=
  match l.finish with
  | some kind => .failed (.unterminated ⟨kind, opened⟩) source sink
  | none =>
    match close o l sink with
    | (.error f, sink') => .failed (.stream f) source sink'
    | (.ok (), sink') => ⟨.ok ⟨source.bytesRead, sink'.written⟩, source.reader, sink'.abandon⟩

/-- The byte after `b`, if the lexer asks for it. -/
def lookahead (l : Lexer) (b : Byte) (source : Source) : Except Fault (Option Byte) × Source :=
  if l.looksAhead b then source.peek else (.ok none, source)

theorem remaining_lookahead_le {l : Lexer} {b : Byte} {source source' : Source}
    {next : Option Byte} (h : lookahead l b source = (.ok next, source')) :
    source'.remaining ≤ source.remaining := by
  unfold lookahead at h
  split at h
  · exact Source.remaining_peek_le h
  · cases h
    exact Nat.le_refl _

/-- Runs from a state of the lexer; `opened` is the position of the byte at which the lexer was last
in code. -/
def run (o : Options) (l : Lexer) (opened : Position) (source : Source) (sink : Sink) : Outcome :=
  match _hget : source.get with
  | (.error f, source₁) => .failed (.stream f) source₁ sink
  | (.ok none, source₁) => conclude o l opened source₁ sink
  | (.ok (some b), source₁) =>
    let opened' := if l.mode = .code then source₁.position else opened
    match _hnext : lookahead l b source₁ with
    | (.error f, source₂) => .failed (.stream f) source₂ sink
    | (.ok next, source₂) =>
      match l.step b next with
      | .error kind => .failed (.unterminated ⟨kind, opened'⟩) source₂ sink
      | .ok (l', piece) =>
        match sink.putAll (piece.toList.flatMap (Piece.write o)) with
        | (.error f, sink') => .failed (.stream f) source₂ sink'
        | (.ok (), sink') => run o l' opened' source₂ sink'
termination_by source.remaining
decreasing_by
  have hlt := Source.remaining_get_lt _hget
  have hle := remaining_lookahead_le _hnext
  omega

/-- Minifies all that a reader hands out into a writer, reading in chunks of `size` bytes. -/
def minifyStream (o : Options) (size : Nat) (reader : Reader) (writer : Writer) : Outcome :=
  run o .initial .first (.ofReader reader size) { writer }

end ScriptMinifier.Stream
