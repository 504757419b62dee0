import ScriptMinifier.Proofs.Stream.Feed

/-!
# Sources by indices

A source keeps what is left of its chunk.  Here the chunk stands in a room of fixed size, between
two indices, and a read overwrites the start of the room.  A record is kept beside it: how many
bytes were taken, what every call of the reader gave and when it was made, and every slip.  A slip
is a byte fetched from outside the room, a byte given back to a slot that is taken, or a look at a
byte that waits in the slot.

* `Indexed.toSource`: the source without indices and record.
* `Indexed.chunk_eq_cons`: the byte at the position is the head of the chunk.
* `Indexed.feed`: the calls of such a source.
-/

namespace ScriptMinifier.Stream

/-! ### Calls of a reader -/

def Delivery.of : Except Fault Bytes → Delivery
  | .ok given => .bytes given.length
  | .error f => .fault f

/-- The reader is called again: the call gave bytes, or was interrupted. -/
def Delivery.GoesOn : Delivery → Prop
  | .bytes n => 0 < n
  | .fault f => f.interrupts = true

namespace Reader

theorem history_read (r : Reader) (size : Nat) :
    (r.read size).2.history = .of (r.read size).1 :: r.history := by
  unfold read
  split
  · rfl
  · rfl
  · rfl

theorem length_le_of_read {r r' : Reader} {size : Nat} {bytes : Bytes}
    (h : r.read size = (.ok bytes, r')) : bytes.length ≤ size := by
  have htake (xs : Bytes) (n : Nat) : (xs.take (min n size)).length ≤ size := by
    rw [List.length_take]
    omega
  unfold read at h
  split at h
  · cases h
  · cases h
    exact htake _ _
  · cases h
    exact htake _ _

theorem length_script_of_read_error {r r' : Reader} {size : Nat} {f : Fault}
    (h : r.read size = (.error f, r')) : r'.script.length < r.script.length := by
  unfold read at h
  split at h
  next f' script hscript =>
    cases h
    simp [hscript]
  next => cases h
  next => cases h

theorem length_script_of_read_ok {r r' : Reader} {size : Nat} {bytes : Bytes}
    (h : r.read size = (.ok bytes, r')) : r'.script.length ≤ r.script.length := by
  unfold read at h
  split at h
  next => cases h
  next n script hscript =>
    cases h
    simp [hscript]
  next hscript =>
    cases h
    exact Nat.le_refl _

theorem readThrough_of_interrupted {r r' : Reader} {size : Nat} {f : Fault}
    (h : r.read size = (.error f, r')) (hf : f.interrupts = true) :
    r.readThrough size = r'.readThrough size := by
  unfold read at h
  split at h
  next f' script hscript =>
    cases h
    rw [readThrough]
    split
    next f'' script' hscript' =>
      obtain ⟨hevent, rfl⟩ := List.cons.inj (hscript.symm.trans hscript')
      obtain rfl := Event.fault.inj hevent
      rw [if_pos hf]
    next hnot => exact absurd hscript (hnot _ _)
  next => cases h
  next => cases h

theorem readThrough_of_not_interrupted {r : Reader} {size : Nat}
    (h : ∀ f r', r.read size = (.error f, r') → f.interrupts = false) :
    r.readThrough size = r.read size := by
  rw [readThrough]
  split
  next f script hscript =>
    have hread : r.read size
        = (.error f, { r with script, history := .fault f :: r.history }) := by
      rw [read, hscript]
    rw [if_neg (by simp [h f _ hread])]
  next => rfl

end Reader

/-! ### Rooms and records -/

/-- What must not happen to a source, or not in a run. -/
inductive Slip where
  /-- A byte is fetched from behind the room. -/
  | outside
  /-- A byte is given back while another one waits. -/
  | occupied
  /-- The next byte is looked at while it waits already. -/
  | again
  deriving DecidableEq, Repr

/-- One call of the reader. -/
structure ReadCall where
  /-- How many bytes had been taken from the chunks before it. -/
  taken : Nat
  gave : Delivery
  deriving DecidableEq, Repr

/-- A source that keeps its chunk in a room, and a record of its use. -/
structure Indexed where
  reader : Reader
  /-- The room for one chunk. -/
  room : Bytes
  /-- Where the next byte of the chunk stands. -/
  pos : Nat := 0
  /-- Where the chunk ends. -/
  len : Nat := 0
  exhausted : Bool := false
  bytesRead : Nat := 0
  pending : Option Pending := none
  cursor : Position := .first
  last : Position := .first
  /-- How many bytes were taken from the chunks. -/
  taken : Nat := 0
  /-- The calls of the reader, in order. -/
  calls : List ReadCall := []
  slips : List Slip := []
  deriving DecidableEq, Repr

namespace Indexed

/-- A source on a reader; the room has at least one byte. -/
def ofReader (reader : Reader) (size : Nat) : Indexed :=
  { reader, room := List.replicate (max size 1) 0 }

def expect (x : Indexed) (holds : Bool) (slip : Slip) : Indexed :=
  if holds then x else { x with slips := x.slips ++ [slip] }

/-- The room with what a call gave at its start. -/
def overwrite (room : Bytes) : Except Fault Bytes → Bytes
  | .ok given => given ++ room.drop given.length
  | .error _ => room

def call (x : Indexed) : Except Fault Bytes × Indexed :=
  ((x.reader.read x.room.length).1, { x with
    reader := (x.reader.read x.room.length).2
    room := overwrite x.room (x.reader.read x.room.length).1
    calls := x.calls ++ [⟨x.taken, .of (x.reader.read x.room.length).1⟩] })

theorem read_of_call {x x' : Indexed} {result : Except Fault Bytes} (h : x.call = (result, x')) :
    x.reader.read x.room.length = (result, x'.reader) := by
  obtain ⟨rfl, rfl⟩ := Prod.mk.inj h
  rfl

/-- Calls the reader until a call is not interrupted; tells whether there is a byte. -/
def refill (x : Indexed) : Except Fault Bool × Indexed :=
  match _hcall : x.call with
  | (.ok [], x') => (.ok false, { x' with exhausted := true })
  | (.ok (b :: given), x') => (.ok true, { x' with
      pos := 0
      len := (b :: given).length
      bytesRead := x'.bytesRead + (b :: given).length })
  | (.error f, x') => if f.interrupts then x'.refill else (.error f, x')
termination_by x.reader.script.length
decreasing_by exact Reader.length_script_of_read_error (read_of_call _hcall)

def fill (x : Indexed) : Except Fault Bool × Indexed :=
  if x.pos < x.len then (.ok true, x)
  else if x.exhausted then (.ok false, x)
  else x.refill

def fetch (x : Indexed) : Byte × Indexed :=
  (x.room.getD x.pos 0, x.expect (decide (x.pos < x.room.length)) .outside)

def advance (x : Indexed) : Indexed := { x with pos := x.pos + 1, taken := x.taken + 1 }

def nextRaw (x : Indexed) : Except Fault (Option Byte) × Indexed :=
  match x.fill with
  | (.error f, x₁) => (.error f, x₁)
  | (.ok false, x₁) => (.ok none, x₁)
  | (.ok true, x₁) => (.ok (some x₁.fetch.1), x₁.fetch.2.advance)

def peekRaw (x : Indexed) : Except Fault (Option Byte) × Indexed :=
  match x.fill with
  | (.error f, x₁) => (.error f, x₁)
  | (.ok false, x₁) => (.ok none, x₁)
  | (.ok true, x₁) => (.ok (some x₁.fetch.1), x₁.fetch.2)

/-- Takes the line feed that belongs to a carriage return before it. -/
def pairLf (x : Indexed) : Except Fault Unit × Indexed :=
  match x.peekRaw with
  | (.error f, x₁) => (.error f, x₁)
  | (.ok after, x₁) => (.ok (), if after = some Byte.lf then x₁.advance else x₁)

def get (x : Indexed) : Except Fault (Option Byte) × Indexed :=
  match x.pending with
  | some p => (.ok p.byte, { x with pending := none, last := p.position })
  | none =>
    match x.nextRaw with
    | (.error f, x₁) => (.error f, x₁)
    | (.ok none, x₁) => (.ok none, { x₁ with last := x.cursor })
    | (.ok (some b), x₁) =>
      if b = Byte.cr then
        match x₁.pairLf with
        | (.error f, x₂) => (.error f, x₂)
        | (.ok (), x₂) =>
          (.ok (some Byte.lf), { x₂ with
            cursor := x.cursor.advance Byte.lf
            last := x.cursor })
      else (.ok (some b), { x₁ with cursor := x.cursor.advance b, last := x.cursor })

def unget (x : Indexed) (byte : Option Byte) : Indexed :=
  { x.expect x.pending.isNone .occupied with pending := some ⟨byte, x.last⟩ }

def peek (x : Indexed) : Except Fault (Option Byte) × Indexed :=
  match x.pending with
  | some p => (.ok p.byte, x.expect false .again)
  | none =>
    match x.get with
    | (.error f, x₁) => (.error f, x₁)
    | (.ok byte, x₁) => (.ok byte, { x₁.unget byte with last := x.last })

def chunk (x : Indexed) : Bytes := (x.room.take x.len).drop x.pos

/-- The source without its indices and its record. -/
def toSource (x : Indexed) : Source where
  reader := x.reader
  size := x.room.length
  chunk := x.chunk
  exhausted := x.exhausted
  bytesRead := x.bytesRead
  pending := x.pending
  cursor := x.cursor
  last := x.last

/-! ### Indices -/

/-- The chunk stands in the room. -/
structure Fits (x : Indexed) : Prop where
  pos_le : x.pos ≤ x.len
  len_le : x.len ≤ x.room.length

theorem fits_ofReader (r : Reader) (size : Nat) : (ofReader r size).Fits :=
  ⟨Nat.le_refl 0, Nat.zero_le _⟩

theorem chunk_eq_nil {x : Indexed} (h : x.len ≤ x.pos) : x.chunk = [] := by
  rw [chunk, List.drop_eq_nil_iff, List.length_take]
  omega

theorem chunk_eq_cons {x : Indexed} (h : x.Fits) (hpos : x.pos < x.len) :
    x.chunk = x.room.getD x.pos 0 :: x.advance.chunk := by
  have hroom : x.pos < x.room.length := Nat.lt_of_lt_of_le hpos h.len_le
  have htake : x.pos < (x.room.take x.len).length := by
    rw [List.length_take]
    omega
  rw [chunk, List.drop_eq_getElem_cons htake, List.getElem_take, List.getD_eq_getElem?_getD,
    List.getElem?_eq_getElem hroom]
  rfl

theorem chunk_eq_nil_iff {x : Indexed} (h : x.Fits) : x.chunk = [] ↔ x.len ≤ x.pos := by
  constructor
  · intro hnil
    apply Nat.not_lt.mp
    intro hpos
    rw [chunk_eq_cons h hpos] at hnil
    cases hnil
  · exact chunk_eq_nil

theorem Fits.advance {x : Indexed} (h : x.Fits) (hpos : x.pos < x.len) : x.advance.Fits :=
  ⟨hpos, h.len_le⟩

theorem fetch_eq {x : Indexed} (h : x.Fits) (hpos : x.pos < x.len) :
    x.fetch = (x.room.getD x.pos 0, x) := by
  have hroom : x.pos < x.room.length := Nat.lt_of_lt_of_le hpos h.len_le
  rw [fetch, expect, if_pos (decide_eq_true hroom)]

/-! ### A bound on the bytes to come -/

def left (x : Indexed) : Nat := (x.len - x.pos) + x.reader.bytes.length

/-- A bound on the bytes that can still be taken. -/
def remaining (x : Indexed) : Nat := (x.pending.bind Pending.byte).toList.length + x.left

@[simp] theorem left_expect (x : Indexed) (holds : Bool) (slip : Slip) :
    (x.expect holds slip).left = x.left := by
  unfold expect
  split <;> rfl

@[simp] theorem pending_expect (x : Indexed) (holds : Bool) (slip : Slip) :
    (x.expect holds slip).pending = x.pending := by
  unfold expect
  split <;> rfl

@[simp] theorem pos_expect (x : Indexed) (holds : Bool) (slip : Slip) :
    (x.expect holds slip).pos = x.pos := by
  unfold expect
  split <;> rfl

@[simp] theorem len_expect (x : Indexed) (holds : Bool) (slip : Slip) :
    (x.expect holds slip).len = x.len := by
  unfold expect
  split <;> rfl

/-- Nothing is lost and no byte waits in the slot. -/
structure Keeps (x x' : Indexed) : Prop where
  left_le : x'.left ≤ x.left
  pending_eq : x'.pending = x.pending

theorem Keeps.refl (x : Indexed) : x.Keeps x := ⟨Nat.le_refl _, rfl⟩

theorem Keeps.trans {x y z : Indexed} (h : x.Keeps y) (h' : y.Keeps z) : x.Keeps z :=
  ⟨Nat.le_trans h'.left_le h.left_le, h'.pending_eq.trans h.pending_eq⟩

theorem keeps_fetch (x : Indexed) : x.Keeps x.fetch.2 :=
  ⟨Nat.le_of_eq (left_expect ..), pending_expect ..⟩

theorem keeps_advance (x : Indexed) : x.Keeps x.advance := by
  refine ⟨?_, rfl⟩
  show x.len - (x.pos + 1) + x.reader.bytes.length ≤ x.len - x.pos + x.reader.bytes.length
  omega

theorem left_call {x x' : Indexed} {result : Except Fault Bytes} (h : x.call = (result, x')) :
    x'.pos = x.pos ∧ x'.len = x.len ∧ x'.pending = x.pending ∧
      (Delivery.of result).size + x'.reader.bytes.length = x.reader.bytes.length := by
  have hread := read_of_call h
  obtain ⟨-, rfl⟩ := Prod.mk.inj h
  refine ⟨rfl, rfl, rfl, ?_⟩
  cases result with
  | ok given =>
    rw [← Reader.append_bytes_of_read hread, List.length_append]
    rfl
  | error f =>
    rw [Reader.bytes_of_read_error hread]
    exact Nat.zero_add _

theorem keeps_refill {x : Indexed} (h : x.len ≤ x.pos) :
    x.Keeps x.refill.2 ∧ (x.refill.1 = .ok true → x.refill.2.pos < x.refill.2.len) := by
  fun_induction Indexed.refill x with
  | case1 x x' hcall =>
    obtain ⟨hpos, hlen, hpending, hbytes⟩ := left_call hcall
    refine ⟨⟨?_, hpending⟩, by simp⟩
    simp only [left, hpos, hlen]
    omega
  | case2 x b given x' hcall =>
    obtain ⟨-, -, hpending, hbytes⟩ := left_call hcall
    refine ⟨⟨?_, hpending⟩, fun _ => Nat.succ_pos _⟩
    simp only [left, Delivery.of, Delivery.size] at hbytes ⊢
    omega
  | case3 x f x' hcall hf ih =>
    obtain ⟨hpos, hlen, hpending, hbytes⟩ := left_call hcall
    have hkeeps : x.Keeps x' := by
      refine ⟨?_, hpending⟩
      simp only [left, hpos, hlen]
      omega
    obtain ⟨hrest, htrue⟩ := ih (by rwa [hpos, hlen])
    exact ⟨hkeeps.trans hrest, htrue⟩
  | case4 x f x' hcall hf =>
    obtain ⟨hpos, hlen, hpending, hbytes⟩ := left_call hcall
    refine ⟨⟨?_, hpending⟩, by simp⟩
    simp only [left, hpos, hlen]
    omega

theorem keeps_fill (x : Indexed) :
    x.Keeps x.fill.2 ∧ (x.fill.1 = .ok true → x.fill.2.pos < x.fill.2.len) := by
  unfold fill
  split
  next hpos => exact ⟨.refl x, fun _ => hpos⟩
  next hpos =>
  split
  next => exact ⟨.refl x, by simp⟩
  next => exact keeps_refill (Nat.not_lt.mp hpos)

theorem keeps_pairLf (x : Indexed) : x.Keeps x.pairLf.2 := by
  have hfill := (keeps_fill x).1
  unfold pairLf peekRaw
  rcases heq : x.fill with ⟨f | _ | _, x₁⟩
  all_goals rw [heq] at hfill
  · exact hfill
  · exact hfill
  · have hfetch := hfill.trans (keeps_fetch x₁)
    dsimp only
    split
    next => exact hfetch.trans (keeps_advance _)
    next => exact hfetch

theorem left_nextRaw {x x' : Indexed} {b : Byte} (h : x.nextRaw = (.ok (some b), x')) :
    x'.left < x.left ∧ x'.pending = x.pending := by
  obtain ⟨hkeeps, hpos⟩ := keeps_fill x
  unfold nextRaw at h
  rcases heq : x.fill with ⟨f | _ | _, x₁⟩
  all_goals rw [heq] at hkeeps hpos h
  · cases h
  · cases h
  · obtain ⟨-, rfl⟩ := Prod.mk.inj h
    obtain ⟨hleft, hpending⟩ := hkeeps
    have hlt := hpos rfl
    refine ⟨Nat.lt_of_lt_of_le ?_ hleft, (keeps_fetch x₁).pending_eq.trans hpending⟩
    have hfetch := left_expect x₁ (decide (x₁.pos < x₁.room.length)) .outside
    simp only [left, advance, fetch, pos_expect, len_expect] at hfetch hlt ⊢
    omega

theorem keeps_nextRaw {x x' : Indexed} (h : x.nextRaw = (.ok none, x')) : x.Keeps x' := by
  have hkeeps := (keeps_fill x).1
  unfold nextRaw at h
  rcases heq : x.fill with ⟨f | _ | _, x₁⟩
  all_goals rw [heq] at hkeeps h
  · cases h
  · cases h
    exact hkeeps
  · cases h

theorem remaining_of_pending {x : Indexed} (h : x.pending = none) : x.remaining = x.left := by
  rw [remaining, h]
  exact Nat.zero_add _

theorem remaining_get {x x' : Indexed} {byte : Option Byte} (h : x.get = (.ok byte, x')) :
    x'.remaining + byte.toList.length ≤ x.remaining ∧ x'.pending = none := by
  unfold get at h
  rcases hp : x.pending with _ | p
  · rw [hp] at h
    rw [remaining_of_pending hp]
    have of_left {y : Indexed} {n : Nat} (hleft : y.left + n ≤ x.left)
        (hy : y.pending = x.pending) : y.remaining + n ≤ x.left ∧ y.pending = none := by
      have hnone := hy.trans hp
      rw [remaining_of_pending hnone]
      exact ⟨hleft, hnone⟩
    rcases hnext : x.nextRaw with ⟨f | _ | b, x₁⟩
    all_goals rw [hnext] at h
    · cases h
    · cases h
      obtain ⟨hleft, hpending⟩ := keeps_nextRaw hnext
      exact of_left (y := { x₁ with last := x.cursor }) hleft hpending
    · obtain ⟨hlt, hpending⟩ := left_nextRaw hnext
      dsimp only at h
      split at h
      next =>
        obtain ⟨hleft, hpending₂⟩ := keeps_pairLf x₁
        rcases hpair : x₁.pairLf with ⟨f | _, x₂⟩
        all_goals rw [hpair] at h hleft hpending₂
        · cases h
        · cases h
          exact of_left (y := { x₂ with cursor := x.cursor.advance Byte.lf, last := x.cursor })
            (Nat.lt_of_le_of_lt hleft hlt) (hpending₂.trans hpending)
      next =>
        cases h
        exact of_left (y := { x₁ with cursor := x.cursor.advance b, last := x.cursor }) hlt hpending
  · rw [hp] at h
    obtain ⟨hbyte, rfl⟩ := Prod.mk.inj h
    obtain rfl := Except.ok.inj hbyte
    refine ⟨?_, rfl⟩
    rw [remaining_of_pending rfl, remaining, hp, Nat.add_comm]
    exact Nat.le_refl _

theorem remaining_get_lt {x x' : Indexed} {b : Byte} (h : x.get = (.ok (some b), x')) :
    x'.remaining < x.remaining := (remaining_get h).1

theorem remaining_peek_le {x x' : Indexed} {byte : Option Byte} (h : x.peek = (.ok byte, x')) :
    x'.remaining ≤ x.remaining := by
  unfold peek at h
  rcases hp : x.pending with _ | p
  · rw [hp] at h
    rcases hget : x.get with ⟨f | byte', x₁⟩
    all_goals rw [hget] at h
    · cases h
    · cases h
      obtain ⟨hle, hpending⟩ := remaining_get hget
      rw [remaining_of_pending hpending, Nat.add_comm, ← left_expect] at hle
      exact hle
  · rw [hp] at h
    cases h
    rw [remaining, pending_expect, left_expect]
    exact Nat.le_refl _

def feed : Feed Indexed where
  get := get
  peek := peek
  unget := unget
  position := last
  remaining := remaining
  remaining_get_lt := remaining_get_lt
  remaining_peek_le := remaining_peek_le

end Indexed

end ScriptMinifier.Stream
