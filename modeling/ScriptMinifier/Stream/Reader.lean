import ScriptMinifier.Minify

/-!
# Readers

A reader holds the bytes still to come and a script that says what each call does: fail, or hand out
at most so many bytes.  After the script every call hands out at most `limit` bytes.  The history
keeps what every call gave, the latest first.

`Reader.readThrough` repeats a call as long as it is interrupted.

* `Reader.append_bytes_of_readThrough`: what a call hands out are the next bytes of the reader.
* `Reader.bytes_of_readThrough_error`: a call that fails hands out nothing.
-/

namespace ScriptMinifier.Stream

inductive Event where
  /-- The call moves at most so many bytes. -/
  | limit (n : Nat)
  /-- The call fails. -/
  | fault (f : Fault)
  deriving DecidableEq, Repr

/-- What one call of a reader gave. -/
inductive Delivery where
  | bytes (n : Nat)
  | fault (f : Fault)
  deriving DecidableEq, Repr

def Delivery.size : Delivery → Nat
  | bytes n => n
  | fault _ => 0

structure Reader where
  /-- The bytes still to be handed out. -/
  bytes : Bytes
  script : List Event := []
  /-- The limit of every call after the script. -/
  limit : Option Nat := none
  /-- What the calls so far gave, the latest first. -/
  history : List Delivery := []
  deriving DecidableEq, Repr

namespace Reader

/-- How often the reader was called. -/
def calls (r : Reader) : Nat := r.history.length

def handedOut (r : Reader) : Nat := r.history.foldr (fun d n => d.size + n) 0

def deliver (r : Reader) (n : Nat) : Bytes × Reader :=
  (r.bytes.take n,
    { r with
      bytes := r.bytes.drop n
      history := .bytes (r.bytes.take n).length :: r.history })

/-- One call with room for `size` bytes. -/
def read (r : Reader) (size : Nat) : Except Fault Bytes × Reader :=
  match r.script with
  | .fault f :: script => (.error f, { r with script, history := .fault f :: r.history })
  | .limit n :: script =>
    let (bytes, r') := { r with script }.deliver (min n size)
    (.ok bytes, r')
  | [] =>
    let (bytes, r') := r.deliver (min (r.limit.getD size) size)
    (.ok bytes, r')

/-- Calls until a call is not interrupted. -/
def readThrough (r : Reader) (size : Nat) : Except Fault Bytes × Reader :=
  match _hscript : r.script with
  | .fault f :: script =>
    if f.interrupts then
      { r with script, history := .fault f :: r.history }.readThrough size
    else r.read size
  | _ => r.read size
termination_by r.script.length
decreasing_by simp [_hscript]

/-! ### What a call does to the bytes -/

theorem append_bytes_of_read {r r' : Reader} {size : Nat} {bytes : Bytes}
    (h : r.read size = (.ok bytes, r')) : bytes ++ r'.bytes = r.bytes := by
  unfold read at h
  split at h
  · cases h
  · cases h
    simp
  · cases h
    simp

theorem bytes_of_read_error {r r' : Reader} {size : Nat} {f : Fault}
    (h : r.read size = (.error f, r')) : r'.bytes = r.bytes := by
  unfold read at h
  split at h
  · cases h
    rfl
  · cases h
  · cases h

/-- **What a call hands out are the next bytes of the reader.** -/
theorem append_bytes_of_readThrough {r r' : Reader} {size : Nat} {bytes : Bytes}
    (h : r.readThrough size = (.ok bytes, r')) : bytes ++ r'.bytes = r.bytes := by
  fun_induction readThrough r size with
  | case1 r f script hscript hf ih => exact ih h
  | case2 r f script hscript hf => exact append_bytes_of_read h
  | case3 r hscript => exact append_bytes_of_read h

/-- **A call that fails hands out nothing.** -/
theorem bytes_of_readThrough_error {r r' : Reader} {size : Nat} {f : Fault}
    (h : r.readThrough size = (.error f, r')) : r'.bytes = r.bytes := by
  fun_induction readThrough r size with
  | case1 r f script hscript hf ih => exact ih h
  | case2 r f script hscript hf => exact bytes_of_read_error h
  | case3 r hscript => exact bytes_of_read_error h

end Reader

end ScriptMinifier.Stream
