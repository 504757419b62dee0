import Mathlib.Algebra.GroupWithZero.Nat
import ScriptMinifier.Proofs.Stream.Indexed

/-!
# The record of a source

A source by indices does what the source without indices does, and its record stays in order: every
call of the reader was made when all that it had handed out was taken, and the reader was called
again behind every call but perhaps the last (`Indexed.Recorded`).  Behind the last one the source
is exhausted, or it is broken by the fault that the call gave.

Each operation is described once, by what it does to the source without indices and to the record:
`Sound.fill`, `Sound.pairLf`, `Sound.get`, `Sound.unget`, `Sound.peek`.  Together they make the run
by indices follow the run over a source (`Indexed.alike_run`), without a slip (`Indexed.slips_run`).
-/

namespace ScriptMinifier.Stream

/-! ### The record -/

/-- From `r` on, calls with room for `size` bytes gave these deliveries, in order. -/
inductive Reader.Reads (size : Nat) (r : Reader) : List Delivery → Reader → Prop
  | nil : Reads size r [] r
  | call {ds : List Delivery} {r' : Reader} (h : Reads size r ds r') :
      Reads size r (ds ++ [.of (r'.read size).1]) (r'.read size).2

namespace ReadCall

def handed (calls : List ReadCall) : Nat := (calls.map fun c => c.gave.size).sum

theorem handed_append (xs ys : List ReadCall) : handed (xs ++ ys) = handed xs + handed ys := by
  rw [handed, List.map_append, List.sum_append, handed, handed]

theorem handed_singleton (c : ReadCall) : handed [c] = c.gave.size := Nat.add_zero _

/-- Every call was made when all that the calls before it gave had been taken. -/
def Timely (calls : List ReadCall) : Prop :=
  ∀ earlier c later, calls = earlier ++ c :: later → c.taken = handed earlier

theorem timely_nil : Timely [] := by
  intro earlier c later h
  exact absurd h (by simp)

theorem Timely.concat {calls : List ReadCall} (h : Timely calls) {c : ReadCall}
    (hc : c.taken = handed calls) : Timely (calls ++ [c]) := by
  intro earlier c' later heq
  rcases List.eq_nil_or_concat later with rfl | ⟨later', last, rfl⟩
  · obtain ⟨rfl, hlast⟩ := List.append_inj' heq rfl
    obtain rfl : c = c' := by simpa using hlast
    exact hc
  · rw [List.concat_eq_append, ← List.cons_append, ← List.append_assoc] at heq
    obtain ⟨hinit, -⟩ := List.append_inj' heq rfl
    exact h earlier c' later' hinit

end ReadCall

namespace Indexed

open ReadCall (handed Timely)

variable {r : Reader} {size : Nat}

/-- The record of a source that began with the reader `r`: calls after which the reader is called
again, and then the calls in `ending`. -/
structure Recorded (r : Reader) (size : Nat) (ending : List Delivery) (x : Indexed) : Prop where
  room_length : x.room.length = max size 1
  reads : r.Reads (max size 1) (x.calls.map ReadCall.gave) x.reader
  taken_eq : x.taken + (x.len - x.pos) = x.bytesRead
  exists_front : ∃ front, x.calls = front ++ ending.map (ReadCall.mk x.bytesRead) ∧
    (∀ c ∈ front, c.gave.GoesOn) ∧ Timely front ∧ handed front = x.bytesRead

/-- What holds between any two calls. -/
structure Sound (r : Reader) (size : Nat) (x : Indexed) : Prop where
  fits : x.Fits
  recorded : x.Recorded r size (if x.exhausted then [.bytes 0] else [])
  exhausted_of_pending : ∀ p, x.pending = some p → p.byte = none → x.exhausted = true

/-- What holds behind a fault of the reader. -/
structure Broken (r : Reader) (size : Nat) (f : Fault) (x : Indexed) : Prop where
  fits : x.Fits
  recorded : x.Recorded r size [.fault f]
  lasts : f.interrupts = false

theorem sound_ofReader (r : Reader) (size : Nat) : (ofReader r size).Sound r size :=
  ⟨fits_ofReader r size,
    ⟨List.length_replicate, .nil, rfl, [], rfl, by simp, ReadCall.timely_nil, rfl⟩,
    by simp [ofReader]⟩

/-- All is taken, and the reader may be called. -/
structure Idle (r : Reader) (size : Nat) (x : Indexed) : Prop where
  fits : x.Fits
  recorded : x.Recorded r size []
  used_up : x.len ≤ x.pos
  open_ : x.exhausted = false

theorem Idle.taken_eq {x : Indexed} (h : x.Idle r size) : x.taken = x.bytesRead := by
  have htaken := h.recorded.taken_eq
  have hused := h.used_up
  omega

/-! ### Reading into the room -/

theorem call_cases {x x' : Indexed} {result : Except Fault Bytes} (h : x.call = (result, x')) :
    ∃ reader, x.reader.read x.room.length = (result, reader) ∧
      (overwrite x.room result).length = x.room.length ∧
      { x with
        reader
        room := overwrite x.room result
        calls := x.calls ++ [⟨x.taken, .of result⟩] } = x' := by
  have hread := read_of_call h
  refine ⟨x'.reader, hread, ?_, ?_⟩
  · cases result with
    | error f => rfl
    | ok given =>
      have hle := Reader.length_le_of_read hread
      rw [overwrite, List.length_append, List.length_drop]
      omega
  · rw [call, hread] at h
    exact (Prod.mk.inj h).2

/-- **A call is put on record with all bytes taken.** -/
theorem Idle.call {x x' : Indexed} {result : Except Fault Bytes}
    (h : x.Idle r size) (hcall : x.call = (result, x')) :
    x'.Fits ∧ x'.Recorded r size [.of result] := by
  obtain ⟨reader, hread, hlength, rfl⟩ := call_cases hcall
  obtain ⟨front, hcalls, hgoes, htimely, hhanded⟩ := h.recorded.exists_front
  have hroom := h.recorded.room_length
  have hreads := h.recorded.reads.call
  rw [hroom] at hread
  rw [hread] at hreads
  refine ⟨⟨h.fits.pos_le, ?_⟩,
    ⟨hlength.trans hroom, ?_, h.recorded.taken_eq, front, ?_, hgoes, htimely, hhanded⟩⟩
  · show x.len ≤ (overwrite x.room result).length
    rw [hlength]
    exact h.fits.len_le
  · show r.Reads (max size 1) (List.map ReadCall.gave (x.calls ++ [_])) _
    rw [List.map_append]
    exact hreads
  · show x.calls ++ [_] = _
    rw [hcalls, List.map_nil, List.append_nil, h.taken_eq]
    rfl

theorem Recorded.goOn {x y : Indexed} {d : Delivery} (h : x.Recorded r size [d])
    (hd : d.GoesOn) (hreader : y.reader = x.reader) (hroom : y.room.length = x.room.length)
    (hcalls : y.calls = x.calls) (hread : y.bytesRead = x.bytesRead + d.size)
    (htaken : y.taken + (y.len - y.pos) = y.bytesRead) : y.Recorded r size [] := by
  obtain ⟨front, hfront, hgoes, htimely, hhanded⟩ := h.exists_front
  refine ⟨hroom.trans h.room_length, ?_, htaken, x.calls, ?_, ?_, ?_, ?_⟩
  · rw [hcalls, hreader]
    exact h.reads
  · rw [hcalls, List.map_nil, List.append_nil]
  · intro c hc
    rw [hfront, List.map_singleton, List.mem_append, List.mem_singleton] at hc
    rcases hc with hc | rfl
    · exact hgoes c hc
    · exact hd
  · rw [hfront]
    exact htimely.concat hhanded.symm
  · rw [hfront, ReadCall.handed_append, hhanded, hread]
    exact congrArg _ (ReadCall.handed_singleton _)

/-- What filling does: the source without indices is filled too, and the record goes on. -/
structure Filled (r : Reader) (size : Nat) (x : Indexed) (result : Except Fault Bool)
    (x' : Indexed) : Prop where
  fill_eq : x.toSource.fill = (result.map fun _ => (), x'.toSource)
  slips_eq : x'.slips = x.slips
  pending_eq : x'.pending = x.pending
  of_true : result = .ok true → x'.Sound r size ∧ x'.pos < x'.len
  of_false : result = .ok false → x'.Sound r size ∧ x'.len ≤ x'.pos ∧ x'.exhausted = true
  of_error : ∀ f, result = .error f → x'.Broken r size f

theorem fill_toSource {x : Indexed} (hused : x.len ≤ x.pos) (hopen : x.exhausted = false) :
    x.toSource.fill
      = match x.reader.readThrough x.room.length with
        | (.error f, reader) => (.error f, { x.toSource with reader })
        | (.ok chunk, reader) => (.ok (), { x.toSource with
            reader
            chunk
            exhausted := chunk.isEmpty
            bytesRead := x.bytesRead + chunk.length }) := by
  have hneed : ¬ (x.toSource.chunk ≠ [] ∨ x.toSource.exhausted = true) := by
    rintro (hchunk | hend)
    · exact hchunk (chunk_eq_nil hused)
    · rw [show x.toSource.exhausted = x.exhausted from rfl, hopen] at hend
      cases hend
  rw [Source.fill, if_neg hneed]
  rfl

theorem readThrough_of_call {x x' : Indexed} {result : Except Fault Bytes}
    (hcall : x.call = (result, x')) (hresult : ∀ f, result = .error f → f.interrupts = false) :
    x.reader.readThrough x.room.length = (result, x'.reader) := by
  rw [← read_of_call hcall]
  apply Reader.readThrough_of_not_interrupted
  intro f r' hread
  exact hresult f (Prod.mk.inj ((read_of_call hcall).symm.trans hread)).1

theorem Idle.filled_of_end {x x' : Indexed} (h : x.Idle r size)
    (hcall : x.call = (.ok [], x')) :
    x.Filled r size (.ok false) { x' with exhausted := true } := by
  have hthrough := readThrough_of_call hcall (by simp)
  obtain ⟨⟨hpos, hlen⟩, hroom, hreads, htaken, hfront⟩ := h.call hcall
  obtain ⟨reader, -, hlength, rfl⟩ := call_cases hcall
  have hchunk : ((overwrite x.room (.ok [])).take x.len).drop x.pos = [] := chunk_eq_nil h.used_up
  refine ⟨?_, rfl, rfl, by simp, fun _ => ⟨⟨⟨hpos, hlen⟩, ⟨hroom, hreads, htaken, hfront⟩, by simp⟩,
    h.used_up, rfl⟩, by simp⟩
  rw [fill_toSource h.used_up h.open_, hthrough]
  simp only [toSource, chunk, hlength, hchunk]
  rfl

theorem Idle.filled_of_chunk {x x' : Indexed} {b : Byte} {given : Bytes}
    (h : x.Idle r size) (hcall : x.call = (.ok (b :: given), x'))
    (hpending : ∀ p, x.pending = some p → p.byte ≠ none) :
    x.Filled r size (.ok true) { x' with
      pos := 0
      len := (b :: given).length
      bytesRead := x'.bytesRead + (b :: given).length } := by
  have hthrough := readThrough_of_call hcall (by simp)
  have hrecorded := (h.call hcall).2
  have htaken := h.taken_eq
  obtain ⟨reader, hread, hlength, rfl⟩ := call_cases hcall
  have hfits : (b :: given).length ≤ (overwrite x.room (.ok (b :: given))).length := by
    rw [hlength]
    exact Reader.length_le_of_read hread
  have hchunk : ((overwrite x.room (.ok (b :: given))).take (b :: given).length).drop 0
      = b :: given := by
    rw [List.drop_zero, overwrite, List.take_left]
  refine ⟨?_, rfl, rfl, fun _ => ⟨⟨⟨Nat.zero_le _, hfits⟩, ?_, ?_⟩, Nat.succ_pos _⟩, by simp,
    by simp⟩
  · rw [fill_toSource h.used_up h.open_, hthrough]
    simp only [toSource, chunk, hlength, hchunk, h.open_]
    rfl
  · simp only [h.open_]
    refine hrecorded.goOn (Nat.succ_pos _) rfl rfl rfl rfl ?_
    show x.taken + ((b :: given).length - 0) = x.bytesRead + (b :: given).length
    rw [htaken]
    rfl
  · intro p hp hnone
    exact absurd hnone (hpending p hp)

theorem Idle.filled_of_fault {x x' : Indexed} {f : Fault} (h : x.Idle r size)
    (hcall : x.call = (.error f, x')) (hf : f.interrupts = false) :
    x.Filled r size (.error f) x' := by
  have hthrough := readThrough_of_call hcall (by simp [hf])
  obtain ⟨hfits, hrecorded⟩ := h.call hcall
  obtain ⟨reader, -, hlength, rfl⟩ := call_cases hcall
  refine ⟨?_, rfl, rfl, by simp, by simp, ?_⟩
  · rw [fill_toSource h.used_up h.open_, hthrough]
    rfl
  · intro f' hf'
    obtain rfl := Except.error.inj hf'
    exact ⟨hfits, hrecorded, hf⟩

theorem Idle.of_interrupted {x x' : Indexed} {f : Fault} (h : x.Idle r size)
    (hcall : x.call = (.error f, x')) (hf : f.interrupts = true) :
    x'.Idle r size ∧ x'.toSource.fill = x.toSource.fill ∧ x'.slips = x.slips ∧
      x'.pending = x.pending := by
  obtain ⟨hfits, hrecorded⟩ := h.call hcall
  have hthrough := Reader.readThrough_of_interrupted (read_of_call hcall) hf
  obtain ⟨reader, hread, hlength, rfl⟩ := call_cases hcall
  refine ⟨⟨hfits, ?_, h.used_up, h.open_⟩, ?_, rfl, rfl⟩
  · exact hrecorded.goOn hf rfl rfl rfl rfl hrecorded.taken_eq
  · rw [fill_toSource h.used_up h.open_, hthrough]
    exact fill_toSource h.used_up h.open_

theorem Idle.refill {x : Indexed} (h : x.Idle r size)
    (hpending : ∀ p, x.pending = some p → p.byte ≠ none) :
    x.Filled r size x.refill.1 x.refill.2 := by
  fun_induction Indexed.refill x with
  | case1 x x' hcall => exact h.filled_of_end hcall
  | case2 x b given x' hcall => exact h.filled_of_chunk hcall hpending
  | case3 x f x' hcall hf ih =>
    obtain ⟨hidle, hfill, hslips, hpending'⟩ := h.of_interrupted hcall hf
    have hfilled := ih hidle (by rwa [hpending'])
    exact ⟨hfill ▸ hfilled.fill_eq, hfilled.slips_eq.trans hslips,
      hfilled.pending_eq.trans hpending', hfilled.of_true, hfilled.of_false, hfilled.of_error⟩
  | case4 x f x' hcall hf => exact h.filled_of_fault hcall (by simpa using hf)

theorem Sound.fill {x : Indexed} (h : x.Sound r size) :
    x.Filled r size x.fill.1 x.fill.2 := by
  unfold Indexed.fill
  split
  next hpos =>
    have hne : x.toSource.chunk ≠ [] := by
      intro hnil
      exact absurd ((chunk_eq_nil_iff h.fits).mp hnil) (Nat.not_le.mpr hpos)
    refine ⟨?_, rfl, rfl, fun _ => ⟨h, hpos⟩, by simp, by simp⟩
    rw [Source.fill, if_pos (.inl hne)]
    rfl
  next hpos =>
  split
  next hend =>
    refine ⟨?_, rfl, rfl, by simp, fun _ => ⟨h, Nat.not_lt.mp hpos, hend⟩, by simp⟩
    rw [Source.fill, if_pos (.inr hend)]
    rfl
  next hend =>
    have hopen : x.exhausted = false := by simpa using hend
    have hrecorded := h.recorded
    rw [hopen] at hrecorded
    refine Idle.refill ⟨h.fits, hrecorded, Nat.not_lt.mp hpos, hopen⟩ ?_
    intro p hp hnone
    exact hend (h.exhausted_of_pending p hp hnone)

end Indexed

/-! ### Taking a byte -/

namespace Indexed

variable {r : Reader} {size : Nat}

/-- What taking a byte does: it is taken from the source without indices too, and the record goes
on. -/
structure Taken (r : Reader) (size : Nat) (x : Indexed) (result : Except Fault (Option Byte))
    (x' : Indexed) : Prop where
  get_eq : x.toSource.get = (result, x'.toSource)
  slips_eq : x'.slips = x.slips
  pending_eq : x'.pending = none
  of_ok : ∀ byte, result = .ok byte → x'.Sound r size ∧ (byte = none → x'.exhausted = true)
  of_error : ∀ f, result = .error f → x'.Broken r size f

theorem Sound.with {x : Indexed} (h : x.Sound r size) {pending : Option Pending}
    (cursor last : Position) (slips : List Slip)
    (hpending : ∀ p, pending = some p → p.byte = none → x.exhausted = true) :
    { x with pending, cursor, last, slips }.Sound r size := by
  obtain ⟨⟨hpos, hlen⟩, ⟨hroom, hreads, htaken, hfront⟩, -⟩ := h
  exact ⟨⟨hpos, hlen⟩, ⟨hroom, hreads, htaken, hfront⟩, hpending⟩

theorem Sound.at {x : Indexed} (h : x.Sound r size) (cursor last : Position) :
    { x with cursor, last }.Sound r size := h.with cursor last x.slips h.exhausted_of_pending

theorem Sound.advance {x : Indexed} (h : x.Sound r size) (hpos : x.pos < x.len) :
    x.advance.Sound r size := by
  obtain ⟨hfits, ⟨hroom, hreads, htaken, hfront⟩, hpending⟩ := h
  refine ⟨hfits.advance hpos, ⟨hroom, hreads, ?_, hfront⟩, hpending⟩
  show x.taken + 1 + (x.len - (x.pos + 1)) = x.bytesRead
  omega

theorem Sound.taken_of_pending {x : Indexed} {p : Pending} (h : x.Sound r size)
    (hp : x.pending = some p) :
    x.Taken r size (.ok p.byte) { x with pending := none, last := p.position } := by
  refine ⟨Source.get_of_pending (s := x.toSource) hp, rfl, rfl, ?_, by simp⟩
  intro byte hbyte
  obtain rfl := Except.ok.inj hbyte
  exact ⟨h.with x.cursor p.position x.slips (by simp), h.exhausted_of_pending p hp⟩

theorem Sound.taken_of_error {x x₁ : Indexed} {f : Fault} (hp : x.pending = none)
    (h₁ : x.Filled r size (.error f) x₁) : x.Taken r size (.error f) x₁ := by
  refine ⟨Source.get_of_fill_error (s := x.toSource) hp h₁.fill_eq, h₁.slips_eq,
    h₁.pending_eq.trans hp, by simp, ?_⟩
  intro f' hf'
  obtain rfl := Except.error.inj hf'
  exact h₁.of_error f rfl

theorem Sound.taken_of_end {x x₁ : Indexed} (hp : x.pending = none)
    (h₁ : x.Filled r size (.ok false) x₁) :
    x.Taken r size (.ok none) { x₁ with last := x.cursor } := by
  obtain ⟨hsound, hused, hend⟩ := h₁.of_false rfl
  refine ⟨Source.get_of_nil (s := x.toSource) hp h₁.fill_eq (chunk_eq_nil hused), h₁.slips_eq,
    h₁.pending_eq.trans hp, ?_, by simp⟩
  intro byte hbyte
  exact ⟨hsound.at x₁.cursor x.cursor, fun _ => hend⟩

theorem Sound.taken_of_byte {x x₁ : Indexed} (hp : x.pending = none)
    (h₁ : x.Filled r size (.ok true) x₁) (hb : x₁.room.getD x₁.pos 0 ≠ Byte.cr) :
    x.Taken r size (.ok (some (x₁.room.getD x₁.pos 0))) { x₁.advance with
      cursor := x.cursor.advance (x₁.room.getD x₁.pos 0)
      last := x.cursor } := by
  obtain ⟨hsound, hpos⟩ := h₁.of_true rfl
  refine ⟨Source.get_of_ne_cr (s := x.toSource) hp h₁.fill_eq (chunk_eq_cons hsound.fits hpos) hb,
    h₁.slips_eq, h₁.pending_eq.trans hp, ?_, by simp⟩
  intro byte hbyte
  refine ⟨(hsound.advance hpos).at _ _, ?_⟩
  rintro rfl
  cases hbyte

structure Paired (r : Reader) (size : Nat) (x : Indexed) (result : Except Fault Unit)
    (x' : Indexed) : Prop where
  exists_fill : ∃ s, x.toSource.fill = (result, s) ∧
    x'.toSource = match result with | .ok () => s.skipPairedLf | .error _ => s
  slips_eq : x'.slips = x.slips
  pending_eq : x'.pending = x.pending
  of_ok : result = .ok () → x'.Sound r size
  of_error : ∀ f, result = .error f → x'.Broken r size f

theorem skipPairedLf_of_end {x : Indexed} (h : x.len ≤ x.pos) :
    x.toSource.skipPairedLf = x.toSource := by
  have hchunk : x.toSource.chunk = [] := chunk_eq_nil h
  rw [Source.skipPairedLf, hchunk]
  exact congrArg (fun chunk => { x.toSource with chunk }) hchunk.symm

theorem skipPairedLf_of_lf {x : Indexed} (h : x.Fits) (hpos : x.pos < x.len)
    (hb : x.room.getD x.pos 0 = Byte.lf) : x.toSource.skipPairedLf = x.advance.toSource := by
  have hchunk : x.toSource.chunk = _ := chunk_eq_cons h hpos
  rw [Source.skipPairedLf, hchunk, List.head?_cons, hb, if_pos rfl]
  rfl

theorem skipPairedLf_of_ne_lf {x : Indexed} (h : x.Fits) (hpos : x.pos < x.len)
    (hb : x.room.getD x.pos 0 ≠ Byte.lf) : x.toSource.skipPairedLf = x.toSource := by
  have hchunk : x.toSource.chunk = _ := chunk_eq_cons h hpos
  rw [Source.skipPairedLf, hchunk, List.head?_cons, if_neg (by simpa using hb)]
  exact congrArg (fun chunk => { x.toSource with chunk }) hchunk.symm

/-- **Taking the paired line feed.**  It may stand in the next chunk. -/
theorem Sound.pairLf {x : Indexed} (h : x.Sound r size) :
    x.Paired r size x.pairLf.1 x.pairLf.2 := by
  have h₁ := h.fill
  unfold Indexed.pairLf peekRaw
  rcases hfill : x.fill with ⟨f | _ | _, x₁⟩
  · rw [hfill] at h₁
    refine ⟨⟨_, h₁.fill_eq, rfl⟩, h₁.slips_eq, h₁.pending_eq, by simp, ?_⟩
    intro f' hf'
    exact h₁.of_error f' (by simpa using hf')
  · rw [hfill] at h₁
    obtain ⟨hsound, hused, -⟩ := h₁.of_false rfl
    exact ⟨⟨_, h₁.fill_eq, (skipPairedLf_of_end hused).symm⟩, h₁.slips_eq, h₁.pending_eq,
      fun _ => hsound, by simp⟩
  · rw [hfill] at h₁
    obtain ⟨hsound, hpos⟩ := h₁.of_true rfl
    dsimp only
    rw [fetch_eq hsound.fits hpos]
    split
    next hb =>
      have hskip := skipPairedLf_of_lf hsound.fits hpos (Option.some.inj hb)
      exact ⟨⟨_, h₁.fill_eq, hskip.symm⟩, h₁.slips_eq, h₁.pending_eq,
        fun _ => hsound.advance hpos, by simp⟩
    next hb =>
      have hskip := skipPairedLf_of_ne_lf hsound.fits hpos (hb ∘ congrArg some)
      exact ⟨⟨_, h₁.fill_eq, hskip.symm⟩, h₁.slips_eq, h₁.pending_eq, fun _ => hsound, by simp⟩

theorem Sound.taken_of_cr_error {x x₁ x₂ : Indexed} {f : Fault}
    (hp : x.pending = none) (h₁ : x.Filled r size (.ok true) x₁)
    (hb : x₁.room.getD x₁.pos 0 = Byte.cr) (h₂ : x₁.advance.Paired r size (.error f) x₂) :
    x.Taken r size (.error f) x₂ := by
  obtain ⟨hsound, hpos⟩ := h₁.of_true rfl
  have hchunk := chunk_eq_cons hsound.fits hpos
  rw [hb] at hchunk
  obtain ⟨s, hfill, rfl⟩ := h₂.exists_fill
  refine ⟨Source.get_of_cr_error (s := x.toSource) hp h₁.fill_eq hchunk hfill,
    h₂.slips_eq.trans h₁.slips_eq, (h₂.pending_eq.trans h₁.pending_eq).trans hp, by simp, ?_⟩
  intro f' hf'
  exact h₂.of_error f' (by simpa using hf')

theorem Sound.taken_of_cr {x x₁ x₂ : Indexed} (hp : x.pending = none)
    (h₁ : x.Filled r size (.ok true) x₁) (hb : x₁.room.getD x₁.pos 0 = Byte.cr)
    (h₂ : x₁.advance.Paired r size (.ok ()) x₂) :
    x.Taken r size (.ok (some Byte.lf)) { x₂ with
      cursor := x.cursor.advance Byte.lf
      last := x.cursor } := by
  obtain ⟨hsound, hpos⟩ := h₁.of_true rfl
  have hchunk := chunk_eq_cons hsound.fits hpos
  rw [hb] at hchunk
  obtain ⟨s, hfill, hskip⟩ := h₂.exists_fill
  have hget := Source.get_of_cr (s := x.toSource) hp h₁.fill_eq hchunk hfill
  dsimp only at hskip
  rw [← hskip] at hget
  refine ⟨hget, h₂.slips_eq.trans h₁.slips_eq, (h₂.pending_eq.trans h₁.pending_eq).trans hp, ?_,
    by simp⟩
  intro byte hbyte
  refine ⟨(h₂.of_ok rfl).at _ _, ?_⟩
  rintro rfl
  cases hbyte

theorem Sound.get {x : Indexed} (h : x.Sound r size) : x.Taken r size x.get.1 x.get.2 := by
  unfold Indexed.get
  rcases hp : x.pending with _ | p
  · have h₁ := h.fill
    unfold nextRaw
    rcases hfill : x.fill with ⟨f | _ | _, x₁⟩
    · rw [hfill] at h₁
      exact Sound.taken_of_error hp h₁
    · rw [hfill] at h₁
      exact Sound.taken_of_end hp h₁
    · rw [hfill] at h₁
      obtain ⟨hsound, hpos⟩ := h₁.of_true rfl
      dsimp only
      rw [fetch_eq hsound.fits hpos]
      dsimp only
      split
      next hb =>
        have h₂ := (hsound.advance hpos).pairLf
        rcases hpair : x₁.advance.pairLf with ⟨f | _, x₂⟩
        · rw [hpair] at h₂
          exact Sound.taken_of_cr_error hp h₁ hb h₂
        · rw [hpair] at h₂
          exact Sound.taken_of_cr hp h₁ hb h₂
      next hb => exact Sound.taken_of_byte hp h₁ hb
  · exact h.taken_of_pending hp

/-! ### Looking ahead and giving back -/

/-- **A byte is given back to an empty slot.** -/
theorem Sound.unget {x : Indexed} {byte : Option Byte} (h : x.Sound r size)
    (hp : x.pending = none) (hend : byte = none → x.exhausted = true) :
    (x.unget byte).Sound r size ∧ (x.unget byte).slips = x.slips := by
  have heq : x.unget byte = { x with pending := some ⟨byte, x.last⟩ } := by
    rw [Indexed.unget, hp]
    rfl
  rw [heq]
  refine ⟨h.with x.cursor x.last x.slips ?_, rfl⟩
  intro p hpending hnone
  obtain rfl := Option.some.inj hpending
  exact hend hnone

theorem toSource_expect (x : Indexed) (holds : Bool) (slip : Slip) :
    (x.expect holds slip).toSource = x.toSource := by
  unfold expect
  split <;> rfl

theorem toSource_unget (x : Indexed) (byte : Option Byte) :
    (x.unget byte).toSource = x.toSource.unget byte := by
  unfold Indexed.unget expect
  split <;> rfl

/-- What looking ahead from an empty slot does. -/
structure Seen (r : Reader) (size : Nat) (x : Indexed) (result : Except Fault (Option Byte))
    (x' : Indexed) : Prop where
  peek_eq : x.toSource.peek = (result, x'.toSource)
  slips_eq : x'.slips = x.slips
  of_ok : ∀ byte, result = .ok byte → x'.Sound r size
  of_error : ∀ f, result = .error f → x'.Broken r size f

theorem Sound.peek {x : Indexed} (h : x.Sound r size) (hp : x.pending = none) :
    x.Seen r size x.peek.1 x.peek.2 := by
  have hget := h.get
  unfold Indexed.peek
  rcases hbyte : x.get with ⟨f | byte, x₁⟩
  · rw [hbyte] at hget
    rw [hp]
    exact ⟨Source.peek_of_get_error (s := x.toSource) hp hget.get_eq, hget.slips_eq, by simp,
      hget.of_error⟩
  · rw [hbyte] at hget
    rw [hp]
    obtain ⟨hsound, hend⟩ := hget.of_ok byte rfl
    obtain ⟨hunget, hslips⟩ := hsound.unget hget.pending_eq hend
    have hpeek := Source.peek_of_get (s := x.toSource) hp hget.get_eq
    rw [← toSource_unget] at hpeek
    exact ⟨hpeek, hslips.trans hget.slips_eq, fun _ _ => hunget.at _ _, by simp⟩

/-! ### Runs -/

/-- A run over indices is a run over a source.  It makes no slip, it is left broken by a fault of
the reader, and the end is on record when it is met. -/
def simulation (r : Reader) (size : Nat) : feed.Simulation Source.feed where
  Between x s := x.toSource = s ∧ x.Sound r size ∧ x.slips = []
  Behind x s := x.toSource = s ∧ x.Sound r size ∧ x.slips = [] ∧ x.pending = none
  AtEnd x s := x.toSource = s ∧ x.Sound r size ∧ x.slips = [] ∧ x.exhausted = true
  Failed f x s := x.toSource = s ∧ x.Broken r size f ∧ x.slips = []
  get_byte := by
    rintro x x' _ b ⟨rfl, hx, hslips⟩ (hget : x.get = _)
    have htaken := hx.get
    rw [hget] at htaken
    exact ⟨_, htaken.get_eq, rfl, (htaken.of_ok _ rfl).1, htaken.slips_eq.trans hslips,
      htaken.pending_eq⟩
  get_end := by
    rintro x x' _ ⟨rfl, hx, hslips⟩ (hget : x.get = _)
    have htaken := hx.get
    rw [hget] at htaken
    obtain ⟨hsound, hend⟩ := htaken.of_ok none rfl
    exact ⟨_, htaken.get_eq, rfl, hsound, htaken.slips_eq.trans hslips, hend rfl⟩
  get_fault := by
    rintro x x' _ f ⟨rfl, hx, hslips⟩ (hget : x.get = _)
    have htaken := hx.get
    rw [hget] at htaken
    exact ⟨_, htaken.get_eq, rfl, htaken.of_error f rfl, htaken.slips_eq.trans hslips⟩
  peek_ok := by
    rintro x x' _ next ⟨rfl, hx, hslips, hp⟩ (hpeek : x.peek = _)
    have hseen := hx.peek hp
    rw [hpeek] at hseen
    exact ⟨_, hseen.peek_eq, rfl, hseen.of_ok next rfl, hseen.slips_eq.trans hslips⟩
  peek_fault := by
    rintro x x' _ f ⟨rfl, hx, hslips, hp⟩ (hpeek : x.peek = _)
    have hseen := hx.peek hp
    rw [hpeek] at hseen
    exact ⟨_, hseen.peek_eq, rfl, hseen.of_error f rfl, hseen.slips_eq.trans hslips⟩
  position_eq := by
    rintro x _ ⟨rfl, -⟩
    rfl
  between := by
    rintro x _ ⟨hs, hx, hslips, -⟩
    exact ⟨hs, hx, hslips⟩

def run (o : Options) (size : Nat) (r : Reader) (w : Writer) : Ending Indexed :=
  feed.run o .initial .first (ofReader r size) { writer := w }

theorem toSource_ofReader (r : Reader) (size : Nat) :
    (ofReader r size).toSource = .ofReader r size := by
  have hroom : (List.replicate (max size 1) (0 : Byte)).length = max size 1 :=
    List.length_replicate
  exact congrArg (Source.mk r · [] false 0 none .first .first) hroom

/-- **A run by indices goes like the run over a source.** -/
theorem alike_run (o : Options) (size : Nat) (r : Reader) (w : Writer) :
    (simulation r size).Alike (run o size r w)
      (Source.feed.run o .initial .first (.ofReader r size) { writer := w }) :=
  (simulation r size).run o .initial .first { writer := w }
    ⟨toSource_ofReader r size, sound_ofReader r size, rfl⟩

theorem outcome_run (o : Options) (size : Nat) (r : Reader) (w : Writer) :
    ((run o size r w).map toSource).outcome = minifyStream o size r w := by
  obtain ⟨hresult, hwriter, hleft⟩ := alike_run o size r w
  have hsource : (run o size r w).source.toSource
      = (Source.feed.run o .initial .first (.ofReader r size) { writer := w }).source := by
    rcases hleft with ⟨f, -, heq, -⟩ | ⟨heq, -⟩ | ⟨-, heq, -⟩ <;> exact heq
  rw [minifyStream, run_eq_outcome, Ending.outcome, Ending.outcome, Ending.map, hresult, hwriter,
    hsource]

theorem slips_run (o : Options) (size : Nat) (r : Reader) (w : Writer) :
    (run o size r w).source.slips = [] ∧ (run o size r w).source.Fits := by
  rcases (alike_run o size r w).left with
    ⟨f, -, -, hx, hslips⟩ | ⟨-, hx, hslips, -⟩ | ⟨-, -, hx, hslips⟩
  all_goals exact ⟨hslips, hx.fits⟩

end Indexed

end ScriptMinifier.Stream
