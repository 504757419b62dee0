import ScriptMinifier.Stream.Writer

/-!
# Sinks

A sink collects bytes in a buffer of `Sink.capacity` bytes in front of a writer.  When the buffer is
full, the next byte first sends it on.  `Sink.flush` sends on what is left and flushes the writer;
`Sink.abandon` tries once more to send on what is left after a failure, and does not flush.
-/

namespace ScriptMinifier.Stream

/-- A buffered writer that counts the bytes put into it. -/
structure Sink where
  writer : Writer
  buffer : Array Byte := #[]
  /-- The bytes put so far. -/
  written : Nat := 0
  deriving DecidableEq, Repr

namespace Sink

/-- How many bytes wait before they are sent on. -/
def capacity : Nat := 8192

/-- Sends the buffer on; what was not accepted stays in it. -/
def drain (s : Sink) : Except Fault Unit × Sink :=
  match s.writer.drain s.buffer.toList with
  | (result, rest, writer) => (result, { s with writer, buffer := rest.toArray })

def makeRoom (s : Sink) : Except Fault Unit × Sink :=
  if s.buffer.size < capacity then (.ok (), s) else s.drain

def put (s : Sink) (b : Byte) : Except Fault Unit × Sink :=
  match s.makeRoom with
  | (.error f, s') => (.error f, s')
  | (.ok (), s') => (.ok (), { s' with buffer := s'.buffer.push b, written := s'.written + 1 })

def putAll (s : Sink) : Bytes → Except Fault Unit × Sink
  | [] => (.ok (), s)
  | b :: rest =>
    match s.put b with
    | (.error f, s') => (.error f, s')
    | (.ok (), s') => s'.putAll rest

/-- Sends on what is left, then flushes the writer. -/
def flush (s : Sink) : Except Fault Unit × Sink :=
  match s.drain with
  | (.error f, s') => (.error f, s')
  | (.ok (), s') =>
    match s'.writer.flush with
    | (result, writer) => (result, { s' with writer })

/-- The writer after one last try to send on what is left, whatever comes of it. -/
def abandon (s : Sink) : Writer := s.drain.2.writer

end Sink

end ScriptMinifier.Stream
