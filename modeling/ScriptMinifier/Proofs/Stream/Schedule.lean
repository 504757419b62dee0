import ScriptMinifier.Stream.Run
import ScriptMinifier.Proofs.Step
import ScriptMinifier.Proofs.Stream.Buffer

/-!
# The schedule of the streams does not matter

A run over streams takes turns between a source and a sink.  If the reader is lively and calm and
the writer steady, neither ever fails: the source is a cursor over the unified text and the sink the
list of the bytes put into it.  So the run is a scan of that text, byte for byte (`run_of_steady`),
and what `minifyStream` gives is decided by the bytes of the reader and the options alone
(`minifyStream_of_steady`).  Neither the room for a chunk, nor how many bytes a call moves, nor how
often a call is interrupted can be told from the result.
-/

namespace ScriptMinifier

/-! ### What a scan from a state puts -/

/-- All that is put for a scan from state `l` on: its pieces, and the last line feed. -/
def Scan.emittedFrom (o : Options) (l : Lexer) (s : Scan) : Bytes :=
  s.write o ++
    if s.stop.isNone && o.keepTrailingNewline && (l.hasWritten || !s.pieces.isEmpty) then [Byte.lf]
    else []

theorem Scan.emittedFrom_initial (o : Options) (s : Scan) :
    s.emittedFrom o .initial = s.emitted o := by
  have hfresh : Lexer.initial.hasWritten = false := rfl
  cases hstop : s.stop <;> simp [emittedFrom, emitted, trailer, hstop, hfresh]

theorem Scan.emittedFrom_after {o : Options} {l l' : Lexer} {b : Byte} {next : Option Byte}
    {piece : Option Piece} (h : Lexer.Step l b next l' piece) (openings : List Opening)
    (s : Scan) :
    (s.after piece.toList openings).emittedFrom o l
      = piece.toList.flatMap (Piece.write o) ++ s.emittedFrom o l' := by
  have hwritten := h.hasWritten_eq
  cases piece with
  | none =>
    rw [Option.isSome_none, Bool.or_false] at hwritten
    simp [emittedFrom, after, write, hwritten]
  | some piece =>
    rw [Option.isSome_some, Bool.or_true] at hwritten
    simp [emittedFrom, after, write, hwritten]

namespace Stream

def resultOf (stop : Option Unterminated) (total written : Nat) : Except MinifyError Stats :=
  match stop with
  | some u => .error (.unterminated u)
  | none => .ok ⟨total, written⟩

/-! ### One turn -/

theorem lookahead_eq_ok {l : Lexer} {b : Byte} {source source' : Source} {next : Option Byte}
    (hs : source.Sound) (h : lookahead l b source = (.ok next, source')) :
    source'.Sound ∧ source'.rest = source.rest ∧ source'.next = source.next ∧
      source'.total = source.total ∧ l.step b next = l.step b source.rest.head? := by
  unfold lookahead at h
  split at h
  next =>
    have hpeeks := Source.peek_eq_ok hs h
    exact ⟨hpeeks.sound, hpeeks.rest_eq, hpeeks.next_eq, hpeeks.total_eq, by rw [hpeeks.byte_eq]⟩
  next hno =>
    cases h
    exact ⟨hs, rfl, rfl, rfl, Lexer.step_eq_of_not_looksAhead (by simpa using hno) _ _⟩

theorem lookahead_of_calm (l : Lexer) (b : Byte) {source : Source} (h : source.reader.Calm) :
    ∃ next source', lookahead l b source = (.ok next, source') ∧ source'.reader.Calm := by
  unfold lookahead
  split
  · exact Source.peek_of_calm h
  · exact ⟨_, _, rfl, h⟩

/-- **At the end of input** an open literal is reported, or the last line feed is put. -/
theorem conclude_of_steady {o : Options} {l : Lexer} {here opened : Position} {source : Source}
    {sink : Sink} (hw : sink.writer.Steady) :
    (conclude o l opened source sink).result
        = resultOf (Scan.run l here opened []).stop source.bytesRead
            (sink.written + ((Scan.run l here opened []).emittedFrom o l).length) ∧
      (conclude o l opened source sink).writer.accepted.toList
        = sink.contents ++ (Scan.run l here opened []).emittedFrom o l := by
  rw [Scan.run_nil, conclude]
  cases hfinish : l.finish with
  | some kind =>
    refine ⟨rfl, ?_⟩
    simp [Outcome.failed, Sink.accepted_abandon hw, Scan.emittedFrom, Scan.write]
  | none =>
    obtain ⟨sink₁, hput, hw₁⟩ := Sink.putAll_of_steady hw
      (if o.keepTrailingNewline ∧ l.left ≠ .start then [Byte.lf] else [])
    obtain ⟨hcontents₁, hwritten₁⟩ := Sink.putAll_eq_ok hput
    obtain ⟨sink₂, hflush, hw₂, hcontents₂, hwritten₂⟩ := Sink.flush_of_steady hw₁
    have hemitted : (if o.keepTrailingNewline ∧ l.left ≠ .start then [Byte.lf] else [])
        = (⟨[], [], none⟩ : Scan).emittedFrom o l := by
      simp [Scan.emittedFrom, Scan.write, Lexer.hasWritten_of_finish hfinish]
    simp only [close, hput, hflush]
    rw [hemitted] at hcontents₁ hwritten₁
    constructor
    · simp [resultOf, hwritten₂, hwritten₁]
    · rw [Sink.accepted_abandon hw₂, hcontents₂, hcontents₁]
      rfl

/-! ### The whole run -/

/-- **A run over steady streams is a scan of the text that is left.** -/
theorem run_of_steady (o : Options) (l : Lexer) (opened : Position) {source : Source} {sink : Sink}
    (hs : source.Sound) (hcalm : source.reader.Calm) (hw : sink.writer.Steady) :
    (run o l opened source sink).result
        = resultOf (Scan.run l source.next opened source.rest).stop source.total
            (sink.written
              + ((Scan.run l source.next opened source.rest).emittedFrom o l).length) ∧
      (run o l opened source sink).writer.accepted.toList
        = sink.contents ++ (Scan.run l source.next opened source.rest).emittedFrom o l := by
  -- on the text that is left: it gets shorter in each turn, however many reads a turn takes
  induction htext : source.rest generalizing l opened source sink with
  | nil =>
    obtain ⟨byte, source₁, hget, -⟩ := Source.get_of_calm hcalm
    have hgets := Source.get_eq_ok hs hget
    obtain rfl : byte = none := by rw [hgets.byte_eq, htext]; rfl
    have hend : source₁.bytesRead = source.total := by
      rw [← hgets.total_eq]
      exact Source.bytesRead_of_rest_eq_nil hgets.pending_eq (by rw [hgets.rest_eq, htext]; rfl)
    rw [run, hget, ← hend]
    exact conclude_of_steady hw
  | cons b text ih =>
    obtain ⟨byte, source₁, hget, hcalm₁⟩ := Source.get_of_calm hcalm
    have hgets := Source.get_eq_ok hs hget
    obtain rfl : byte = some b := by rw [hgets.byte_eq, htext]; rfl
    obtain ⟨next, source₂, hahead, hcalm₂⟩ := lookahead_of_calm l b hcalm₁
    obtain ⟨hs₂, hrest₂, hnext₂, htotal₂, hstep₂⟩ := lookahead_eq_ok hgets.sound hahead
    have hrest₁ : source₁.rest = text := by rw [hgets.rest_eq, htext]; rfl
    have hrest : source₂.rest = text := hrest₂.trans hrest₁
    have hnext : source₂.next = source.next.advance b := by
      rw [hnext₂, Source.next, hgets.pending_eq]
      exact hgets.cursor_eq
    have htotal : source₂.total = source.total := htotal₂.trans hgets.total_eq
    have hopened : source₁.position = source.next := hgets.last_eq
    rw [run, hget]
    dsimp only
    rw [hahead]
    dsimp only
    rw [hstep₂, hrest₁, hopened]
    cases hstep : l.step b text.head? with
    | error kind =>
      rw [Scan.run_error hstep]
      refine ⟨rfl, ?_⟩
      simp [Outcome.failed, Sink.accepted_abandon hw, Scan.emittedFrom, Scan.write]
    | ok result =>
      obtain ⟨l', piece⟩ := result
      obtain ⟨sink₁, hput, hw₁⟩ :=
        Sink.putAll_of_steady hw (piece.toList.flatMap (Piece.write o))
      obtain ⟨hcontents₁, hwritten₁⟩ := Sink.putAll_eq_ok hput
      obtain ⟨hresult, haccepted⟩ := ih l' _ hs₂ hcalm₂ hw₁ hrest
      dsimp only
      rw [hput]
      dsimp only
      rw [Scan.run_step hstep, Scan.emittedFrom_after (Lexer.step_eq_ok_iff.mp hstep), hresult,
        haccepted, hnext, hcontents₁, hwritten₁, htotal, List.append_assoc, List.length_append,
        Nat.add_assoc]
      exact ⟨rfl, rfl⟩

/-- The reader hands out at least one byte in every call that is not interrupted, until it has
none. -/
def Reader.Steady (r : Reader) : Prop := r.Lively ∧ r.Calm

/-- **Over steady streams minifying gives what it gives on the bytes.** -/
theorem minifyStream_of_steady (o : Options) (size : Nat) {r : Reader} {w : Writer}
    (hr : r.Steady) (hw : w.Steady) :
    (minifyStream o size r w).result
        = (match minify o r.bytes with
          | .ok out => .ok (Stats.of r.bytes out)
          | .error u => .error (.unterminated u)) ∧
      (minifyStream o size r w).writer.accepted.toList
        = w.accepted.toList ++ emitted o r.bytes := by
  have hsound := Source.sound_ofReader hr.1 size
  have hsink : ({ writer := w } : Sink).writer.Steady := hw
  have hscan : Scan.run .initial (Source.ofReader r size).next .first (Source.ofReader r size).rest
      = scan r.bytes := rfl
  have htotal : (Source.ofReader r size).total = r.bytes.length := Nat.zero_add _
  have hcontents : ({ writer := w } : Sink).contents = w.accepted.toList := List.append_nil _
  obtain ⟨hresult, haccepted⟩ := run_of_steady o .initial .first hsound hr.2 hsink
  rw [hscan, Scan.emittedFrom_initial] at hresult haccepted
  refine ⟨hresult.trans ?_, haccepted.trans ?_⟩
  · rw [minify, Scan.result, Scan.emitted, htotal]
    cases (scan r.bytes).stop <;> simp [resultOf, Stats.of]
  · rw [hcontents, emitted]

theorem Reader.steady_whole (bytes : Bytes) : ({ bytes } : Reader).Steady :=
  ⟨⟨by simp, by simp⟩, by simp [Calm]⟩

theorem Writer.steady_whole : ({} : Writer).Steady := ⟨rfl, rfl, by simp⟩

/-- **The schedule of the streams does not matter.**  With any room for chunks, any reader that
hands out the text in parts with interruptions and any writer that accepts the result in parts with
interruptions, minifying ends as it does when the text is read at once and all is accepted at once:
with the same counts or the same literal that is not closed, and with the same bytes written. -/
theorem minifyStream_schedule_free (o : Options) (size : Nat) {r : Reader} {w : Writer}
    (hr : r.Steady) (hw : w.Steady) :
    (minifyStream o size r w).result
        = (minifyStream o r.bytes.length { bytes := r.bytes } {}).result ∧
      (minifyStream o size r w).writer.accepted
        = w.accepted ++ (minifyStream o r.bytes.length { bytes := r.bytes } {}).writer.accepted ∧
      (minifyStream o size r w).result
        = (match minify o r.bytes with
          | .ok out => .ok (Stats.of r.bytes out)
          | .error u => .error (.unterminated u)) ∧
      (minifyStream o size r w).writer.accepted.toList
        = w.accepted.toList ++ emitted o r.bytes := by
  obtain ⟨hresult, haccepted⟩ := minifyStream_of_steady o size hr hw
  obtain ⟨hwhole, haccepted'⟩ :=
    minifyStream_of_steady o r.bytes.length (Reader.steady_whole r.bytes) Writer.steady_whole
  refine ⟨hresult.trans hwhole.symm, ?_, hresult, haccepted⟩
  apply Array.toList_inj.mp
  rw [haccepted, Array.toList_append, haccepted']
  rfl

/-- A line break that is cut in two, chunks of one byte, and interruptions on both sides. -/
theorem minifyStream_schedule_free_stutter :
    (minifyStream {} 0
        ⟨utf8 "a\r\n+ +b", [.limit 2, .fault ⟨.interrupted, "again"⟩], some 1, []⟩
        ⟨[.fault ⟨.interrupted, "again"⟩, .limit 1], none, none, #[], false⟩).result
      = .ok ⟨7, 6⟩ := by
  have hr : (⟨utf8 "a\r\n+ +b", [.limit 2, .fault ⟨.interrupted, "again"⟩], some 1, []⟩ :
      Reader).Steady :=
    ⟨⟨by simp [Event.Lively], by simp⟩, by simp [Reader.Calm, Event.Calm, Fault.interrupts]⟩
  have hw : (⟨[.fault ⟨.interrupted, "again"⟩, .limit 1], none, none, #[], false⟩ :
      Writer).Steady :=
    ⟨rfl, rfl, by simp [Event.Lively, Event.Calm, Fault.interrupts]⟩
  exact (minifyStream_schedule_free {} 0 hr hw).2.2.1

end Stream

end ScriptMinifier
