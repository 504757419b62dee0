import ScriptMinifier.Stream.Reader

/-!
# Sources

A source hands out the bytes of a reader one at a time, with unified line breaks.  It reads in
chunks, looks at most one byte ahead, and knows the position of the byte it handed out last.  A
carriage return at the end of one chunk still pairs with a line feed at the start of the next.

* `Source.get`, `Source.peek`, `Source.unget`: take a byte, look at it, give it back.
* `Source.remaining`: a bound on the bytes that can still be taken.
* `Source.remaining_get_lt`: taking a byte lowers it, so every loop that takes bytes ends.
* `Source.remaining_peek_le`: looking ahead never raises it.
-/

namespace ScriptMinifier.Stream

/-- A byte given back, or the end of input, with its position. -/
structure Pending where
  byte : Option Byte
  position : Position
  deriving DecidableEq, Repr

/-- A reader seen byte by byte. -/
structure Source where
  reader : Reader
  /-- The room for one chunk, at least one byte. -/
  size : Nat
  /-- What is left of the last chunk. -/
  chunk : Bytes := []
  /-- The reader came to its end. -/
  exhausted : Bool := false
  /-- The bytes read so far, line breaks as they came. -/
  bytesRead : Nat := 0
  /-- A byte looked at and not yet taken. -/
  pending : Option Pending := none
  /-- The position of the next byte of the chunk. -/
  cursor : Position := .first
  /-- The position of the byte handed out last. -/
  last : Position := .first
  deriving DecidableEq, Repr

namespace Source

/-- The room for one chunk where none is asked for. -/
def defaultSize : Nat := 8192

/-- A source on a reader; a chunk has room for at least one byte. -/
def ofReader (reader : Reader) (size : Nat) : Source := { reader, size := max size 1 }

def fill (s : Source) : Except Fault Unit × Source :=
  if s.chunk ≠ [] ∨ s.exhausted then (.ok (), s)
  else
    match s.reader.readThrough s.size with
    | (.error f, reader) => (.error f, { s with reader })
    | (.ok chunk, reader) =>
      (.ok (), { s with
        reader
        chunk
        exhausted := chunk.isEmpty
        bytesRead := s.bytesRead + chunk.length })

/-- Drops the line feed that belongs to a carriage return before it. -/
def skipPairedLf (s : Source) : Source :=
  { s with chunk := if s.chunk.head? = some Byte.lf then s.chunk.tail else s.chunk }

/-- Takes the next byte; `none` is the end of input. -/
def get (s : Source) : Except Fault (Option Byte) × Source :=
  match s.pending with
  | some p => (.ok p.byte, { s with pending := none, last := p.position })
  | none =>
    match s.fill with
    | (.error f, s₁) => (.error f, s₁)
    | (.ok (), s₁) =>
      match s₁.chunk with
      | [] => (.ok none, { s₁ with last := s.cursor })
      | b :: chunk =>
        if b = Byte.cr then
          match { s₁ with chunk }.fill with
          | (.error f, s₂) => (.error f, s₂)
          | (.ok (), s₂) =>
            (.ok (some Byte.lf), { s₂.skipPairedLf with
              cursor := s.cursor.advance Byte.lf
              last := s.cursor })
        else
          (.ok (some b), { s₁ with
            chunk
            cursor := s.cursor.advance b
            last := s.cursor })

def unget (s : Source) (byte : Option Byte) : Source := { s with pending := some ⟨byte, s.last⟩ }

/-- Looks at the next byte without taking it. -/
def peek (s : Source) : Except Fault (Option Byte) × Source :=
  match s.pending with
  | some p => (.ok p.byte, s)
  | none =>
    match s.get with
    | (.error f, s₁) => (.error f, s₁)
    | (.ok byte, s₁) => (.ok byte, { s₁.unget byte with last := s.last })

def position (s : Source) : Position := s.last

/-! ### Every loop that takes bytes ends -/

/-- A bound on the bytes that can still be taken. -/
def remaining (s : Source) : Nat :=
  (s.pending.bind Pending.byte).toList.length + s.chunk.length + s.reader.bytes.length

theorem pending_fill (s : Source) : s.fill.2.pending = s.pending := by
  unfold fill
  split
  · rfl
  · split <;> rfl

theorem remaining_fill_le (s : Source) : s.fill.2.remaining ≤ s.remaining := by
  unfold fill
  split
  · exact Nat.le_refl _
  · rename_i hne
    have hchunk : s.chunk = [] := by
      by_cases h : s.chunk = []
      · exact h
      · exact absurd (Or.inl h) hne
    split
    · rename_i f reader hread
      simp [remaining, Reader.bytes_of_readThrough_error hread]
    · rename_i chunk reader hread
      have hlen := congrArg List.length (Reader.append_bytes_of_readThrough hread)
      simp only [List.length_append] at hlen
      simp only [remaining, hchunk, List.length_nil]
      omega

theorem remaining_skipPairedLf_le (s : Source) : s.skipPairedLf.remaining ≤ s.remaining := by
  have htail : (if s.chunk.head? = some Byte.lf then s.chunk.tail else s.chunk).length
      ≤ s.chunk.length := by
    split
    · rw [List.length_tail]
      exact Nat.sub_le _ _
    · exact Nat.le_refl _
  simp only [remaining, skipPairedLf]
  omega

theorem pending_get {s s' : Source} {byte : Option Byte} (h : s.get = (.ok byte, s')) :
    s'.pending = none := by
  unfold get at h
  split at h
  · cases h
    rfl
  · rename_i hp
    have hfill := pending_fill s
    split at h
    · cases h
    · rename_i s₁ hs₁
      rw [hs₁] at hfill
      split at h
      · cases h
        exact hfill.trans hp
      · rename_i c chunk hchunk
        split at h
        · have hfill₂ := pending_fill { s₁ with chunk := chunk }
          split at h
          · cases h
          · rename_i s₂ hs₂
            rw [hs₂] at hfill₂
            cases h
            exact hfill₂.trans (hfill.trans hp)
        · cases h
          exact hfill.trans hp

/-- What was taken and what is left fit into the bound before. -/
theorem remaining_get_add_le {s s' : Source} {byte : Option Byte} (h : s.get = (.ok byte, s')) :
    s'.remaining + byte.toList.length ≤ s.remaining := by
  unfold get at h
  split at h
  · rename_i p hp
    obtain ⟨hbyte, rfl⟩ : p.byte = byte ∧ { s with pending := none, last := p.position } = s' := by
      simpa using h
    simp only [remaining, hp, Option.bind_some, hbyte, Option.bind_none, Option.toList_none,
      List.length_nil]
    omega
  · have hfill := remaining_fill_le s
    split at h
    · cases h
    · rename_i s₁ hs₁
      rw [hs₁] at hfill
      split at h
      · cases h
        exact hfill
      · rename_i c chunk hchunk
        have hdrop : { s₁ with chunk := chunk }.remaining < s₁.remaining := by
          simp only [remaining, hchunk, List.length_cons]
          omega
        split at h
        · have hfill₂ := remaining_fill_le { s₁ with chunk := chunk }
          split at h
          · cases h
          · rename_i s₂ hs₂
            rw [hs₂] at hfill₂
            have hskip := remaining_skipPairedLf_le s₂
            cases h
            simp only [remaining, Option.toList_some, List.length_singleton] at *
            omega
        · cases h
          simp only [remaining, Option.toList_some, List.length_singleton] at *
          omega

/-- **Taking a byte lowers the bound.** -/
theorem remaining_get_lt {s s' : Source} {b : Byte} (h : s.get = (.ok (some b), s')) :
    s'.remaining < s.remaining := by
  have hle := remaining_get_add_le h
  simp only [Option.toList_some, List.length_singleton] at hle
  omega

/-- **Looking ahead does not raise the bound.** -/
theorem remaining_peek_le {s s' : Source} {byte : Option Byte} (h : s.peek = (.ok byte, s')) :
    s'.remaining ≤ s.remaining := by
  unfold peek at h
  split at h
  · cases h
    exact Nat.le_refl _
  · split at h
    · cases h
    · rename_i byte' s₁ hget
      have hle := remaining_get_add_le hget
      have hpending := pending_get hget
      cases h
      simp only [remaining, unget, hpending, Option.bind_none, Option.bind_some, Option.toList_none,
        List.length_nil] at hle ⊢
      omega

end Source

end ScriptMinifier.Stream
