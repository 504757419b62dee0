import ScriptMinifier.Stream.Reader

/-!
# Writers

A writer accepts bytes as its script says: each call fails, or accepts at most so many bytes; after
the script everything is accepted.  A fault other than an interruption stays: every later call
fails the same way.

`Writer.drain` calls until all bytes are accepted.  It gives back the bytes that were not.
-/

namespace ScriptMinifier.Stream

structure Writer where
  script : List Event := []
  /-- The fault of every flush. -/
  flushFault : Option Fault := none
  /-- The fault that stays. -/
  stuck : Option Fault := none
  /-- The bytes accepted so far. -/
  accepted : Array Byte := #[]
  /-- A flush was asked for. -/
  flushed : Bool := false
  deriving DecidableEq, Repr

namespace Writer

/-- Accepts the first `n` of `bytes`. -/
def accept (w : Writer) (bytes : Bytes) (n : Nat) : Writer :=
  { w with accepted := w.accepted ++ bytes.take n }

/-- One call: how many of `bytes` are accepted, or a fault. -/
def write (w : Writer) (bytes : Bytes) : Except Fault Nat × Writer :=
  match w.stuck with
  | some f => (.error f, w)
  | none =>
    match w.script with
    | [] => (.ok bytes.length, w.accept bytes bytes.length)
    | .limit n :: script =>
      (.ok (min n bytes.length), { w with script }.accept bytes (min n bytes.length))
    | .fault f :: script =>
      (.error f, { w with script, stuck := if f.interrupts then none else some f })

def flush (w : Writer) : Except Fault Unit × Writer :=
  (match w.flushFault with
    | some f => .error f
    | none => .ok (),
    { w with flushed := true })

theorem length_script_write (w : Writer) (bytes : Bytes) :
    (w.write bytes).2.script = w.script.tail ∨ (w.write bytes).2.script = w.script := by
  unfold write
  split
  · exact Or.inr rfl
  · split
    · exact Or.inr rfl
    · rename_i hscript
      exact Or.inl (by simp [accept, hscript])
    · rename_i hscript
      exact Or.inl (by simp [hscript])

theorem script_write_error {w w' : Writer} {bytes : Bytes} {f : Fault} (hstuck : w.stuck = none)
    (h : w.write bytes = (.error f, w')) : w'.script.length < w.script.length := by
  unfold write at h
  simp only [hstuck] at h
  split at h
  · cases h
  · cases h
  · rename_i f' script hscript
    cases h
    simp [hscript]

/-- Calls until all of `bytes` are accepted; the bytes that were not come back.  An interrupted call
is repeated, and a call that accepts nothing is a fault. -/
def drain (w : Writer) (bytes : Bytes) : Except Fault Unit × Bytes × Writer :=
  if _hbytes : bytes = [] then (.ok (), [], w)
  else
    match _hwrite : w.write bytes with
    | (.error f, w') =>
      if _hretry : f.interrupts ∧ w.stuck = none then w'.drain bytes else (.error f, bytes, w')
    | (.ok n, w') =>
      if _hn : n = 0 then (.error .writeZero, bytes, w') else w'.drain (bytes.drop n)
termination_by w.script.length + bytes.length
decreasing_by
  · have hlt := script_write_error _hretry.2 _hwrite
    omega
  · have hpos := List.length_pos_iff.mpr _hbytes
    have hscript := length_script_write w bytes
    rw [_hwrite] at hscript
    have hle : w'.script.length ≤ w.script.length := by
      rcases hscript with h | h
      · exact h ▸ (List.length_tail ▸ Nat.sub_le _ _)
      · exact Nat.le_of_eq (congrArg List.length h)
    rw [List.length_drop]
    omega

end Writer

end ScriptMinifier.Stream
