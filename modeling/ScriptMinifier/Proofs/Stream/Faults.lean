import ScriptMinifier.Proofs.Stream.Feed
import ScriptMinifier.Proofs.Stream.Schedule

/-!
# Faults only truncate

A fault of either stream ends a run early.  Whatever was put into the sink by then is the start of
what a run without faults puts (`Sink.contents_putAll_isPrefix`), and the writer has accepted the
start of that (`Sink.accepted_abandon_isPrefix`), also after the last try to send the buffer on.  So
the bytes of a failed run are those of the undisturbed one, cut off somewhere, and a run that ends
without a fault has written all of them and flushed the writer.

`Outcome.Within` is what one outcome may be, given what is due; `run_within` shows it of every run
by induction over its turns.
-/

namespace ScriptMinifier.Stream

/-! ### Writers that fail -/

namespace Writer

theorem flushFault_write (w : Writer) (bytes : Bytes) :
    (w.write bytes).2.flushFault = w.flushFault := by
  unfold write
  split
  · rfl
  · split <;> rfl

theorem flushFault_drain (w : Writer) (bytes : Bytes) :
    (w.drain bytes).2.2.flushFault = w.flushFault := by
  have hone {w w' : Writer} {bytes : Bytes} {result : Except Fault Nat}
      (h : w.write bytes = (result, w')) : w'.flushFault = w.flushFault := by
    rw [← flushFault_write w bytes, h]
  fun_induction drain w bytes with
  | case1 w => rfl
  | case2 w bytes hbytes f w' hwrite hretry ih => rw [ih, hone hwrite]
  | case3 w bytes hbytes f w' hwrite hretry => exact hone hwrite
  | case4 w bytes hbytes w' hwrite => exact hone hwrite
  | case5 w bytes hbytes n w' hwrite hn ih => rw [ih, hone hwrite]

theorem rest_of_drain_eq_ok {w w' : Writer} {bytes rest : Bytes}
    (h : w.drain bytes = (.ok (), rest, w')) : rest = [] := by
  fun_induction drain w bytes with
  | case1 w =>
    cases h
    rfl
  | case2 w bytes hbytes f w₁ hwrite hretry ih => exact ih h
  | case3 w bytes hbytes f w₁ hwrite hretry => cases h
  | case4 w bytes hbytes w₁ hwrite => cases h
  | case5 w bytes hbytes n w₁ hwrite hn ih => exact ih h

end Writer

/-! ### Sinks on such writers -/

namespace Sink

/-- **A writer has accepted the start of what was put**, also when the sink is given up. -/
theorem accepted_abandon_isPrefix (s : Sink) : s.abandon.accepted.toList <+: s.contents := by
  rw [← contents_drain]
  exact List.prefix_append _ _

theorem contents_makeRoom (s : Sink) : s.makeRoom.2.contents = s.contents := by
  unfold makeRoom
  split
  · rfl
  · exact s.contents_drain

theorem flushFault_makeRoom (s : Sink) :
    s.makeRoom.2.writer.flushFault = s.writer.flushFault := by
  unfold makeRoom
  split
  · rfl
  · exact s.writer.flushFault_drain s.buffer.toList

/-- **Putting bytes appends a start of them**, up to the fault if there is one. -/
theorem contents_putAll_isPrefix (s : Sink) (bytes : Bytes) :
    (s.putAll bytes).2.contents <+: s.contents ++ bytes := by
  induction bytes generalizing s with
  | nil =>
    rw [List.append_nil]
    exact List.prefix_refl _
  | cons b bytes ih =>
    have hroom := s.contents_makeRoom
    rw [putAll, put]
    cases hmake : s.makeRoom with
    | mk result s₁ =>
      rw [hmake] at hroom
      cases result with
      | error f =>
        rw [← hroom]
        exact List.prefix_append _ _
      | ok u =>
        have hput :
            ({ s₁ with buffer := s₁.buffer.push b, written := s₁.written + 1 } : Sink).contents
              = s.contents ++ [b] := by
          rw [← hroom]
          simp [contents]
        have hrest := ih { s₁ with buffer := s₁.buffer.push b, written := s₁.written + 1 }
        rwa [hput, List.append_assoc] at hrest

theorem flushFault_putAll (s : Sink) (bytes : Bytes) :
    (s.putAll bytes).2.writer.flushFault = s.writer.flushFault := by
  induction bytes generalizing s with
  | nil => rfl
  | cons b bytes ih =>
    have hroom := s.flushFault_makeRoom
    rw [putAll, put]
    cases hmake : s.makeRoom with
    | mk result s₁ =>
      rw [hmake] at hroom
      cases result with
      | error f => exact hroom
      | ok u => exact (ih _).trans hroom

theorem contents_flush (s : Sink) : s.flush.2.contents = s.contents := by
  have hdrain := s.contents_drain
  rw [flush]
  cases hd : s.drain with
  | mk result s₁ =>
    rw [hd] at hdrain
    cases result with
    | error f => exact hdrain
    | ok u => exact hdrain

/-- **A flush without a fault leaves nothing behind**: all that was put is accepted, and the writer
was flushed. -/
theorem flush_eq_ok {s s' : Sink} (h : s.flush = (.ok (), s')) :
    s'.abandon.accepted.toList = s.contents ∧ s'.written = s.written ∧
      s'.abandon.flushed = true ∧ s.writer.flushFault = none := by
  have hcontents := s.contents_flush
  have hfault := s.writer.flushFault_drain s.buffer.toList
  rw [h] at hcontents
  rw [flush, drain] at h
  cases hd : s.writer.drain s.buffer.toList with
  | mk result more =>
    obtain ⟨rest, w⟩ := more
    rw [hd] at h hfault
    cases result with
    | error f => cases h
    | ok u =>
      obtain rfl := Writer.rest_of_drain_eq_ok hd
      simp only [Writer.flush, Prod.mk.injEq] at h
      obtain ⟨hflush, rfl⟩ := h
      have hnone : w.flushFault = none := by
        cases hw : w.flushFault with
        | none => rfl
        | some f => simp [hw] at hflush
      refine ⟨?_, rfl, ?_, ?_⟩
      · rw [← hcontents]
        simp [abandon, drain, Writer.drain, contents]
      · simp [abandon, drain, Writer.drain]
      · rw [← hfault]
        exact hnone

end Sink

/-! ### Outcomes -/

/-- What an outcome may be where, without a fault, `stop` is the literal that is not closed, `stats`
are the counts and `due` is accepted. -/
structure Outcome.Within (x : Outcome) (stop : Option Unterminated) (stats : Stats) (due : Bytes)
    (flushFault : Option Fault) : Prop where
  isPrefix : x.writer.accepted.toList <+: due
  of_unterminated : ∀ u, x.result = .error (.unterminated u) → stop = some u
  of_ok : ∀ stats', x.result = .ok stats' → stop = none ∧ stats' = stats ∧
    x.writer.accepted.toList = due ∧ x.writer.flushed = true ∧ flushFault = none

theorem Outcome.within_of_fault {stop : Option Unterminated} {stats : Stats} {due : Bytes}
    {flushFault : Option Fault} {sink : Sink} (h : sink.contents <+: due) (f : Fault)
    (source : Source) :
    (Outcome.failed (.stream f) source sink).Within stop stats due flushFault :=
  ⟨sink.accepted_abandon_isPrefix.trans h, by simp [Outcome.failed], by simp [Outcome.failed]⟩

theorem Outcome.within_of_unterminated {u : Unterminated} {stats : Stats} {due : Bytes}
    {flushFault : Option Fault} {sink : Sink} (h : sink.contents <+: due) (source : Source) :
    (Outcome.failed (.unterminated u) source sink).Within (some u) stats due flushFault :=
  ⟨sink.accepted_abandon_isPrefix.trans h, by simp [Outcome.failed], by simp [Outcome.failed]⟩

/-! ### The whole run -/

theorem conclude_within (o : Options) (l : Lexer) (here opened : Position) (source : Source)
    (sink : Sink) :
    (conclude o l opened source sink).Within (Scan.run l here opened []).stop
      ⟨source.bytesRead, sink.written + ((Scan.run l here opened []).emittedFrom o l).length⟩
      (sink.contents ++ (Scan.run l here opened []).emittedFrom o l) sink.writer.flushFault := by
  rw [Scan.run_nil, conclude]
  cases hfinish : l.finish with
  | some kind => exact Outcome.within_of_unterminated (List.prefix_append _ _) source
  | none =>
    have hemitted : (if o.keepTrailingNewline ∧ l.left ≠ .start then [Byte.lf] else [])
        = (⟨[], [], none⟩ : Scan).emittedFrom o l := by
      simp [Scan.emittedFrom, Scan.write, Lexer.hasWritten_of_finish hfinish]
    simp only [close, hemitted, Option.map_none]
    have hput := sink.contents_putAll_isPrefix ((⟨[], [], none⟩ : Scan).emittedFrom o l)
    have hfault := sink.flushFault_putAll ((⟨[], [], none⟩ : Scan).emittedFrom o l)
    cases hp : sink.putAll ((⟨[], [], none⟩ : Scan).emittedFrom o l) with
    | mk result sink₁ =>
      rw [hp] at hput hfault
      cases result with
      | error f => exact Outcome.within_of_fault hput f source
      | ok u =>
        obtain ⟨hcontents, hwritten⟩ := Sink.putAll_eq_ok hp
        dsimp only
        cases hflush : sink₁.flush with
        | mk result sink₂ =>
          cases result with
          | error f =>
            refine Outcome.within_of_fault ?_ f source
            have hall := sink₁.contents_flush
            rw [hflush, hcontents] at hall
            exact hall ▸ List.prefix_refl _
          | ok u =>
            obtain ⟨haccepted, hwritten₂, hflushed, hnone⟩ := Sink.flush_eq_ok hflush
            rw [hcontents] at haccepted
            refine ⟨haccepted ▸ List.prefix_refl _, by simp, ?_⟩
            rintro stats' hstats
            obtain rfl := Except.ok.inj hstats
            exact ⟨rfl, by rw [hwritten₂, hwritten], haccepted, hflushed, hfault ▸ hnone⟩

/-- A byte was taken, and the byte behind it looked at where the lexer asks for it. -/
theorem turn_eq_ok {l : Lexer} {b : Byte} {next : Option Byte} {source source₁ source₂ : Source}
    (hs : source.Sound) (hget : source.get = (.ok (some b), source₁))
    (hahead : lookahead l b source₁ = (.ok next, source₂)) :
    source₂.Sound ∧ source.rest = b :: source₂.rest ∧ source₂.next = source.next.advance b ∧
      source₂.total = source.total ∧ source₁.position = source.next ∧
      l.step b next = l.step b source₂.rest.head? := by
  have hgets := Source.get_eq_ok hs hget
  obtain ⟨hs₂, hrest₂, hnext₂, htotal₂, hstep⟩ := lookahead_eq_ok hgets.sound hahead
  obtain ⟨text, htext⟩ := List.head?_eq_some_iff.mp hgets.byte_eq.symm
  refine ⟨hs₂, ?_, ?_, htotal₂.trans hgets.total_eq, hgets.last_eq, ?_⟩
  · rw [hrest₂, hgets.rest_eq, htext]
    rfl
  · rw [hnext₂, Source.next, hgets.pending_eq]
    exact hgets.cursor_eq
  · rw [hstep, hrest₂]

/-- **Every run stays within what is due**: it writes a start of it, reports no literal but the one
that a run without faults reports, and ends well only if all of it was written. -/
theorem run_within (o : Options) (l : Lexer) (opened : Position) {source : Source}
    (hs : source.Sound) (sink : Sink) :
    (run o l opened source sink).Within (Scan.run l source.next opened source.rest).stop
      ⟨source.total,
        sink.written + ((Scan.run l source.next opened source.rest).emittedFrom o l).length⟩
      (sink.contents ++ (Scan.run l source.next opened source.rest).emittedFrom o l)
      sink.writer.flushFault := by
  fun_induction run o l opened source sink with
  | case1 l opened source sink f source₁ hget =>
    exact Outcome.within_of_fault (List.prefix_append _ _) f source₁
  | case2 l opened source sink source₁ hget =>
    have hgets := Source.get_eq_ok hs hget
    have hrest : source.rest = [] := List.head?_eq_none_iff.mp hgets.byte_eq.symm
    have hend : source₁.bytesRead = source.total := by
      rw [← hgets.total_eq]
      exact Source.bytesRead_of_rest_eq_nil hgets.pending_eq (by rw [hgets.rest_eq, hrest]; rfl)
    rw [hrest, ← hend]
    exact conclude_within o l source.next opened source₁ sink
  | case3 l opened source sink b source₁ hget f source₂ hahead =>
    exact Outcome.within_of_fault (List.prefix_append _ _) f source₂
  | case4 l opened source sink b source₁ hget opened' next source₂ hahead kind hstep =>
    obtain ⟨-, hrest, -, -, hposition, hstep'⟩ := turn_eq_ok hs hget hahead
    rw [hrest, Scan.run_error (hstep' ▸ hstep), ← hposition]
    exact Outcome.within_of_unterminated (List.prefix_append _ _) source₂
  | case5 l opened source sink b source₁ hget next source₂ hahead l' piece hstep f sink₁ hput =>
    obtain ⟨-, hrest, -, -, -, hstep'⟩ := turn_eq_ok hs hget hahead
    have hstep := hstep' ▸ hstep
    refine Outcome.within_of_fault ?_ f source₂
    rw [hrest, Scan.run_step hstep, Scan.emittedFrom_after (Lexer.step_eq_ok_iff.mp hstep)]
    -- the fault came while the piece of this turn was put, so a start of that piece is there
    have hstart := sink.contents_putAll_isPrefix (piece.toList.flatMap (Piece.write o))
    rw [hput] at hstart
    rw [← List.append_assoc]
    exact hstart.trans (List.prefix_append _ _)
  | case6 l opened source sink b source₁ hget opened' next source₂ hahead l' piece hstep sink₁ hput
      ih =>
    obtain ⟨hs₂, hrest, hnext, htotal, hposition, hstep'⟩ := turn_eq_ok hs hget hahead
    have hstep := hstep' ▸ hstep
    obtain ⟨hcontents, hwritten⟩ := Sink.putAll_eq_ok hput
    have hfault := sink.flushFault_putAll (piece.toList.flatMap (Piece.write o))
    rw [hput] at hfault
    have hrun := ih hs₂
    rw [hcontents, hwritten, hnext, htotal, hfault, List.append_assoc, Nat.add_assoc,
      ← List.length_append, ← Scan.emittedFrom_after (Lexer.step_eq_ok_iff.mp hstep)
        (piece.bind (Scan.openingOf source.next)).toList] at hrun
    have hopened : opened' = if l.mode = .code then source.next else opened := by
      rw [← hposition]
      rfl
    rw [hrest, Scan.run_step hstep, ← hopened]
    exact hrun

/-- The run over streams without faults: the text is read at once, and all is accepted. -/
def undisturbed (o : Options) (text : Bytes) : Outcome :=
  minifyStream o text.length { bytes := text } {}

theorem accepted_undisturbed (o : Options) (text : Bytes) :
    (undisturbed o text).writer.accepted.toList = emitted o text := by
  rw [undisturbed, (minifyStream_of_steady o text.length (Reader.steady_whole text)
    Writer.steady_whole).2]
  rfl

theorem result_undisturbed (o : Options) (text : Bytes) :
    (undisturbed o text).result
      = resultOf (scan text).stop text.length (emitted o text).length := by
  rw [undisturbed, (minifyStream_of_steady o text.length (Reader.steady_whole text)
    Writer.steady_whole).1, minify, Scan.result, emitted, Scan.emitted]
  cases (scan text).stop <;> rfl

/-- **Faults only truncate.**  Let the reader hand out its bytes in parts, be interrupted and fail
at any point, and let the writer do whatever it likes.  What it accepts is a start of what it
accepts without faults; a literal that is not closed is reported only where it is reported without
faults; and a run that ends well has written everything, counted it, and flushed the writer. -/
theorem minifyStream_truncates (o : Options) (size : Nat) {r : Reader} (hr : r.Lively)
    (w : Writer) :
    (minifyStream o size r w).writer.accepted.toList
        <+: w.accepted.toList ++ (undisturbed o r.bytes).writer.accepted.toList ∧
      (∀ u, (minifyStream o size r w).result = .error (.unterminated u) →
        (undisturbed o r.bytes).result = .error (.unterminated u)) ∧
      ∀ stats, (minifyStream o size r w).result = .ok stats →
        (minifyStream o size r w).writer.accepted
            = w.accepted ++ (undisturbed o r.bytes).writer.accepted ∧
          stats.bytesWritten = (undisturbed o r.bytes).writer.accepted.size ∧
          stats.bytesRead = r.bytes.length ∧
          (minifyStream o size r w).writer.flushed = true ∧ w.flushFault = none := by
  have hsound := Source.sound_ofReader hr size
  have hscan : Scan.run .initial (Source.ofReader r size).next .first (Source.ofReader r size).rest
      = scan r.bytes := rfl
  have htotal : (Source.ofReader r size).total = r.bytes.length := Nat.zero_add _
  have hcontents : ({ writer := w } : Sink).contents = w.accepted.toList := List.append_nil _
  have hwithin := run_within o .initial .first hsound { writer := w }
  rw [hscan, Scan.emittedFrom_initial, htotal, hcontents] at hwithin
  have hdue : (scan r.bytes).emitted o = (undisturbed o r.bytes).writer.accepted.toList :=
    (accepted_undisturbed o r.bytes).symm
  rw [hdue] at hwithin
  refine ⟨hwithin.isPrefix, ?_, ?_⟩
  · intro u hu
    rw [result_undisturbed, hwithin.of_unterminated u hu]
    rfl
  · intro stats hstats
    obtain ⟨-, rfl, haccepted, hflushed, hfault⟩ := hwithin.of_ok stats hstats
    refine ⟨Array.toList_inj.mp ?_, ?_, rfl, hflushed, hfault⟩
    · rw [Array.toList_append]
      exact haccepted
    · simp

/-- A reader that fails behind its first three bytes. -/
def failingReader : Reader := ⟨utf8 "a=bc", [.limit 3, .fault ⟨.brokenPipe, "gone"⟩], none, []⟩

/-- A writer that is full after one byte. -/
def fullWriter : Writer := ⟨[.limit 1, .fault ⟨.storageFull, "full"⟩], none, none, #[], false⟩

theorem drain_fullWriter :
    (fullWriter.drain (utf8 "a=")).2.2.accepted = #[0x61] := by
  rw [Writer.drain, dif_neg (by decide)]
  change ((⟨[.fault ⟨.storageFull, "full"⟩], none, none, #[0x61], false⟩ : Writer).drain
    (utf8 "=")).2.2.accepted = #[0x61]
  rw [Writer.drain, dif_neg (by decide)]
  rfl

/-- Two bytes are put before the reader fails, and one of them is accepted. -/
theorem minifyStream_failing :
    (minifyStream {} 3 failingReader fullWriter).result
        = .error (.stream ⟨.brokenPipe, "gone"⟩) ∧
      (minifyStream {} 3 failingReader fullWriter).writer.accepted.toList = utf8 "a" := by
  let reader : Reader := ⟨utf8 "c", [.fault ⟨.brokenPipe, "gone"⟩], none, [.bytes 3]⟩
  let spent : Reader := ⟨utf8 "c", [], none, [.fault ⟨.brokenPipe, "gone"⟩, .bytes 3]⟩
  let first : Source :=
    { reader, size := 3, chunk := utf8 "=b", bytesRead := 3, cursor := ⟨1, 2⟩, last := ⟨1, 1⟩ }
  let last : Source := { reader, size := 3, bytesRead := 3, cursor := ⟨1, 4⟩, last := ⟨1, 3⟩ }
  have hread : failingReader.readThrough 3 = (.ok (utf8 "a=b"), reader) := by
    rw [Reader.readThrough]
    rfl
  have hfault : reader.readThrough 3 = (.error ⟨.brokenPipe, "gone"⟩, spent) := by
    rw [Reader.readThrough]
    rfl
  have hget : Source.feed.get (.ofReader failingReader 3) = (.ok (some 0x61), first) := by
    have hfill : (Source.ofReader failingReader 3).fill
        = (.ok (), { reader, size := 3, chunk := utf8 "a=b", bytesRead := 3 }) := by
      rw [Source.fill, if_neg (by decide),
        show (Source.ofReader failingReader 3).reader.readThrough
          (Source.ofReader failingReader 3).size = failingReader.readThrough 3 from rfl, hread]
      rfl
    exact Source.get_of_ne_cr rfl hfill rfl (by decide)
  -- the byte behind the third one is asked for, and the reader fails
  have hahead : Source.feed.lookahead ((Lexer.initial.token 0x61).token 0x3d) 0x62 last
      = (.error ⟨.brokenPipe, "gone"⟩, { last with reader := spent }) := by
    have hfill : last.fill = (.error ⟨.brokenPipe, "gone"⟩, { last with reader := spent }) := by
      rw [Source.fill, if_neg (by decide),
        show last.reader.readThrough last.size = reader.readThrough 3 from rfl, hfault]
    exact Source.peek_of_get_error rfl (Source.get_of_fill_error rfl hfill)
  have hrun : Source.feed.run {} .initial .first (.ofReader failingReader 3)
      { writer := fullWriter } = ⟨.error (.stream ⟨.brokenPipe, "gone"⟩), _, _⟩ :=
    (Feed.run_of_turn {} .first hget rfl rfl rfl).trans <|
      (Feed.run_of_turn {} _ rfl rfl rfl rfl).trans (Feed.run_of_lookahead_error {} _ _ rfl hahead)
  rw [minifyStream, run_eq_outcome, hrun]
  exact ⟨rfl, congrArg Array.toList drain_fullWriter⟩

/-- A run that fails on both sides; and one to a writer that takes one byte, is interrupted and then
takes the rest. -/
theorem minifyStream_truncates_full :
    (minifyStream {} 3 failingReader fullWriter).result
        = .error (.stream ⟨.brokenPipe, "gone"⟩) ∧
      (minifyStream {} 3 failingReader fullWriter).writer.accepted.toList = utf8 "a" ∧
      utf8 "a" <+: (undisturbed {} failingReader.bytes).writer.accepted.toList ∧
      (undisturbed {} failingReader.bytes).writer.accepted.toList = utf8 "a=bc" ∧
      ∃ run, minifyStream {} 3 { bytes := utf8 "a\r\n+ +b" }
          ⟨[.limit 1, .fault ⟨.interrupted, "again"⟩], none, none, #[], false⟩ = run ∧
        run.result = .ok ⟨7, 6⟩ ∧ run.writer.accepted.toList = utf8 "a\n+ +b" ∧
        run.writer.flushed = true := by
  have hr : failingReader.Lively := ⟨by simp [failingReader, Event.Lively], by simp [failingReader]⟩
  obtain ⟨hresult, haccepted⟩ := minifyStream_failing
  have hstart := (minifyStream_truncates {} 3 hr fullWriter).1
  rw [haccepted] at hstart
  refine ⟨hresult, haccepted, hstart, accepted_undisturbed {} failingReader.bytes, _, rfl, ?_⟩
  have hw : (⟨[.limit 1, .fault ⟨.interrupted, "again"⟩], none, none, #[], false⟩ :
      Writer).Steady := ⟨rfl, rfl, by simp [Event.Lively, Event.Calm, Fault.interrupts]⟩
  have hwhole := Reader.steady_whole (utf8 "a\r\n+ +b")
  have hok := (minifyStream_of_steady {} 3 hwhole hw).1
  obtain ⟨hall, -, -, hflushed, -⟩ :=
    (minifyStream_truncates {} 3 hwhole.1
      ⟨[.limit 1, .fault ⟨.interrupted, "again"⟩], none, none, #[], false⟩).2.2 ⟨7, 6⟩ hok
  refine ⟨hok, ?_, hflushed⟩
  rw [hall, Array.toList_append, accepted_undisturbed]
  rfl

end ScriptMinifier.Stream
