import ScriptMinifier.Proofs.Breaks
import ScriptMinifier.Proofs.LineBreaks
import ScriptMinifier.Proofs.Stream.Faults

/-!
# Minified text is not longer

Every byte of a token was read, and a separator is written only where the gap in front of its token
was not empty: it is paid for by a byte of that gap.  `Stretch.Pays` says this of one token, and
`stretches_pay` of all tokens of a text, whether its literals are closed or not.

While a run over streams goes on, the separator is written later than the gap is read.  The gap so
far is worth one byte then (`Lexer.credit`), and a step never writes more than the byte it takes and
the credit it uses up (`Lexer.Step.length_write_le`).  So the bytes put into the sink, the credit
and the bytes that are still to be taken are together no more than all bytes of the reader
(`Solvent`), in every turn of a run; and where the run stops, no more bytes have come out than were
handed out.
-/

namespace ScriptMinifier

open Lexer (Step)

/-! ### Gap by gap -/

/-- What is written for a stretch: its token, behind at most one byte, which a byte of the gap pays
for. -/
structure Stretch.Pays (s written : Stretch) : Prop where
  token_eq : written.token = s.token
  length_le_one : written.gap.length ≤ 1
  length_le : written.gap.length ≤ s.gap.length

theorem Stretch.Mirrors.pays {s : Stretch} {x : Lexeme} (h : s.Mirrors x) (o : Options)
    (left : Left) : s.Pays (x.settle o left).stretch := by
  obtain ⟨htoken, comments, hlayout, hgap⟩ := h
  have hwritten : (x.settle o left).stretch.gap
      = (separator left (x.gap.under o) x.token.first (x.token.kind == .regex)).toList :=
    bytes_ofSeparator ..
  have hone : (x.settle o left).stretch.gap.length ≤ 1 := by
    rw [hwritten]
    cases separator left (x.gap.under o) x.token.first (x.token.kind == .regex) <;> simp
  refine ⟨htoken, hone, ?_⟩
  cases hs : s.gap with
  | nil =>
    rw [hs] at hgap hlayout
    have hnone : x.gap.under o = .none := by
      rw [Gap.under_eq_none_iff, hgap]
      exact (Gap.ofLayout_eq_none_iff hlayout).mpr rfl
    rw [hwritten, hnone, separator_none]
    exact Nat.le_refl 0
  | cons b g =>
    rw [List.length_cons]
    omega

theorem Stretch.pays_settleAll {xs : List Stretch} {ys : List Lexeme}
    (h : List.Forall₂ Mirrors xs ys) (o : Options) (left : Left) :
    List.Forall₂ Pays xs ((Lexeme.settleAll o left ys).map Lexeme.stretch) := by
  induction h generalizing left with
  | nil => exact .nil
  | cons hs _ ih => exact .cons (hs.pays o left) (ih _)

theorem Reads.cut_of_stuck {l l' : Lexer} {front rest : Bytes} {pieces : List Piece}
    (h : Reads rest.head? l front pieces l')
    (hstuck : ∀ b rest', rest = b :: rest' → ∃ kind, l'.step b rest'.head? = .error kind)
    (c : Cutting) :
    Lexer.cut none l c (front ++ rest)
      = ⟨(Lexer.cut rest.head? l c front).done,
          (Lexer.cut rest.head? l c front).pending ++ rest⟩ := by
  rw [← Option.or_none (o := rest.head?)] at h ⊢
  rw [h.cut_append]
  cases rest with
  | nil => simp [Lexer.cut]
  | cons b rest =>
    obtain ⟨kind, hstep⟩ := hstuck b rest rfl
    rw [Lexer.cut, Option.or_none, hstep]

/-- **Every separator is paid for by its own gap.**  A text falls into its tokens with the gaps in
front of them, and what is written are the same tokens, each behind at most one byte and behind none
where there was no gap. -/
theorem stretches_pay (o : Options) (text : Bytes) :
    unifyBreaks text = (stretches text).flatMap Stretch.bytes ++ trailing text ∧
      ∃ written, (scan text).write o = written.flatMap Stretch.bytes ∧
        List.Forall₂ Stretch.Pays (stretches text) written := by
  obtain ⟨front, rest, l', htext, hreads, hstuck⟩ :=
    Scan.exists_reads .initial .first .first (unifyBreaks text)
  have hcutting : cutting text = _ := (congrArg _ htext).trans (hreads.cut_of_stuck hstuck {})
  have hcr : Byte.cr ∉ front := by
    intro hmem
    exact cr_notMem_unifyBreaks text (htext ▸ List.mem_append_left rest hmem)
  have hstart : Cutting.Fits (front.head?.or rest.head?) [] [] .initial {} :=
    ⟨rfl, .nil, fun _ => .initial _ rfl rfl rfl, fun _ _ => rfl⟩
  have hfits := hreads.fits hcr Lexer.coherent_initial Tracks.initial hstart
  have hmirrors : List.Forall₂ Stretch.Mirrors (stretches text) (lexemes text) := by
    rw [stretches, hcutting]
    exact List.forall₂_reverse_iff.mpr hfits.mirrors
  refine ⟨?_, _, hreads.write_eq o, Stretch.pays_settleAll hmirrors o .start⟩
  rw [stretches, trailing, hcutting, ← List.append_assoc]
  exact htext.trans (congrArg (· ++ rest) hfits.text_eq)

theorem length_unifyBreaks_le (text : Bytes) : (unifyBreaks text).length ≤ text.length := by
  induction text using breakInduction with
  | nil => exact Nat.le_refl 0
  | pair rest ih =>
    rw [unifyBreaks_cons_cr_lf]
    simp only [List.length_cons]
    omega
  | lone rest hrest ih =>
    rw [unifyBreaks_cons_cr hrest]
    simp only [List.length_cons]
    omega
  | plain b rest hb ih =>
    rw [unifyBreaks_cons hb]
    simp only [List.length_cons]
    omega

theorem length_write_le (o : Options) (text : Bytes) :
    ((scan text).write o).length ≤ text.length := by
  obtain ⟨htext, written, hwrite, hpays⟩ := stretches_pay o text
  have htokens := Stretch.length_flatMap_le (hpays.imp fun _ _ h => ⟨h.token_eq.symm, h.length_le⟩)
  have hunify := length_unifyBreaks_le text
  rw [htext, List.length_append] at hunify
  rw [hwrite]
  omega

theorem length_le_of_minify {o : Options} {text out : Bytes} (h : minify o text = .ok out) :
    out.length ≤ text.length + if o.keepTrailingNewline ∧ out ≠ [] then 1 else 0 := by
  obtain ⟨-, rfl⟩ := minify_eq_ok_iff.mp h
  have hwrite := length_write_le o text
  rw [List.length_append]
  by_cases hpieces : o.keepTrailingNewline ∧ (scan text).pieces ≠ []
  · rw [Scan.trailer, if_pos hpieces, if_pos ⟨hpieces.1, by simp⟩]
    exact Nat.add_le_add_right hwrite 1
  · rw [Scan.trailer, if_neg hpieces]
    exact Nat.le_add_right_of_le hwrite

/-! ### Byte by byte -/

/-- What the gap so far is worth: the byte that a separator would take. -/
def Lexer.credit (l : Lexer) : Nat := if l.gap = .none then 0 else 1

namespace Lexer

theorem credit_le_one (l : Lexer) : l.credit ≤ 1 := by
  rw [credit]
  split <;> omega

theorem credit_of_gap_eq {l l' : Lexer} (h : l'.gap = l.gap) : l'.credit = l.credit := by
  rw [credit, credit, h]

theorem length_separator_le (o : Options) (l : Lexer) (next : Byte) (regex : Bool) :
    (separator l.left (l.gap.under o) next regex).toList.length ≤ l.credit := by
  rw [credit]
  split
  next hgap =>
    rw [Gap.under_eq_none_iff.mpr hgap, separator_none]
    exact Nat.le_refl 0
  next => cases separator l.left (l.gap.under o) next regex <;> simp

/-- **A step writes no more than the byte it takes and the credit it uses up.** -/
theorem Step.length_write_le {l l' : Lexer} {b : Byte} {next : Option Byte} {piece : Option Piece}
    (h : Step l b next l' piece) (o : Options) :
    (piece.toList.flatMap (Piece.write o)).length + l'.credit ≤ l.credit + 1 := by
  have hcopied {l' : Lexer} (b : Byte) (hgap : l'.gap = l.gap) :
      ([Piece.inner b].flatMap (Piece.write o)).length + l'.credit ≤ l.credit + 1 := by
    rw [credit_of_gap_eq hgap]
    simp [Piece.write, Piece.separator?, Nat.add_comm]
  have hbegun {piece : Piece} {regex : Bool} {l' : Lexer} (hgap : l'.gap = .none)
      (hsep : piece.separator? o = separator l.left (l.gap.under o) piece.byte regex) :
      ([piece].flatMap (Piece.write o)).length + l'.credit ≤ l.credit + 1 := by
    have hle := length_separator_le o l piece.byte regex
    have hnone : l'.credit = 0 := by rw [credit, if_pos hgap]
    simp only [List.flatMap_cons, List.flatMap_nil, List.append_nil, Piece.write, hsep,
      List.length_append, List.length_singleton, hnone]
    omega
  have hsilent (l' : Lexer) : 0 + l'.credit ≤ l.credit + 1 := by
    have hle := l'.credit_le_one
    omega
  cases h with
  | copyHeld | escape | copy | closeLiteral => exact hcopied _ rfl
  | openRegex | openString | token => exact hbegun rfl rfl
  | dropHeld | blank | lineBreak | openLineComment | openBlockComment | lineComment
  | closeLineComment | blockComment | closeBlockComment => exact hsilent _

end Lexer

/-! ### Turn by turn -/

namespace Stream

def Reader.supply (r : Reader) : Nat := r.handedOut + r.bytes.length

theorem Reader.supply_deliver (r : Reader) (n : Nat) : (r.deliver n).2.supply = r.supply := by
  simp only [deliver, supply, handedOut, List.foldr_cons, Delivery.size, List.length_take,
    List.length_drop]
  omega

theorem Reader.supply_read (r : Reader) (size : Nat) : (r.read size).2.supply = r.supply := by
  unfold read
  split
  next f script hscript => simp [supply, handedOut, Delivery.size]
  next n script hscript => exact supply_deliver { r with script } _
  next hscript => exact supply_deliver r _

theorem Reader.supply_readThrough (r : Reader) (size : Nat) :
    (r.readThrough size).2.supply = r.supply := by
  fun_induction readThrough r size with
  | case1 r f script hscript hf ih =>
    rw [ih]
    simp [supply, handedOut, Delivery.size]
  | case2 r f script hscript hf => exact supply_read r size
  | case3 r hscript => exact supply_read r size

namespace Source

theorem supply_fill (s : Source) : s.fill.2.reader.supply = s.reader.supply := by
  have hread := s.reader.supply_readThrough s.size
  unfold fill
  split
  · rfl
  · split
    next f reader hfault =>
      rw [hfault] at hread
      exact hread
    next chunk reader hchunk =>
      rw [hchunk] at hread
      exact hread

theorem supply_get (s : Source) : s.get.2.reader.supply = s.reader.supply := by
  have hfill := s.supply_fill
  unfold get
  split
  next => rfl
  next =>
  split
  next f s₁ hs₁ =>
    rw [hs₁] at hfill
    exact hfill
  next s₁ hs₁ =>
  rw [hs₁] at hfill
  split
  next => exact hfill
  next b chunk hchunk =>
  have hfill' := { s₁ with chunk }.supply_fill
  split
  next =>
    split
    next f s₂ hs₂ =>
      rw [hs₂] at hfill'
      exact hfill'.trans hfill
    next s₂ hs₂ =>
      rw [hs₂] at hfill'
      exact hfill'.trans hfill
  next => exact hfill

theorem supply_peek (s : Source) : s.peek.2.reader.supply = s.reader.supply := by
  have hget := s.supply_get
  unfold peek
  split
  next => rfl
  next =>
  split
  next f s₁ hs₁ =>
    rw [hs₁] at hget
    exact hget
  next byte s₁ hs₁ =>
    rw [hs₁] at hget
    exact hget

end Source

theorem supply_lookahead (l : Lexer) (b : Byte) (source : Source) :
    (lookahead l b source).2.reader.supply = source.reader.supply := by
  unfold lookahead
  split
  · exact source.supply_peek
  · rfl

/-- What was put into the sink, the credit of the lexer and the bytes still to be taken are covered
by the bytes of the reader.  The writer held `given` bytes before the run; `aside` counts the bytes
that are not to be used: those the reader had handed out before, and the one at hand. -/
def Solvent (given aside : Nat) (l : Lexer) (source : Source) (sink : Sink) : Prop :=
  sink.contents.length + l.credit + source.remaining + aside ≤ given + source.reader.supply

namespace Solvent

variable {given aside : Nat} {l : Lexer} {source source₁ : Source} {sink : Sink}

theorem start (size : Nat) (r : Reader) (w : Writer) :
    Solvent w.accepted.size r.handedOut .initial (.ofReader r size) { writer := w } := by
  simp [Solvent, Lexer.credit, Lexer.initial, Sink.contents, Source.remaining, Source.ofReader,
    Reader.supply, Nat.add_comm, Nat.add_assoc]

theorem size_abandon_le (h : Solvent given aside l source sink) :
    sink.abandon.accepted.size + aside ≤ given + source.reader.handedOut := by
  have haccepted := sink.accepted_abandon_isPrefix.length_le
  rw [Array.length_toList] at haccepted
  rw [Solvent, Reader.supply, Source.remaining] at h
  omega

theorem get {byte : Option Byte} (h : Solvent given aside l source sink)
    (hget : source.get = (.ok byte, source₁)) :
    Solvent given (aside + byte.toList.length) l source₁ sink := by
  have hremaining := Source.remaining_get_add_le hget
  have hsupply : source₁.reader.supply = source.reader.supply := by rw [← source.supply_get, hget]
  rw [Solvent] at h ⊢
  omega

theorem lookahead {b : Byte} {next : Option Byte} (h : Solvent given aside l source sink)
    (hahead : lookahead l b source = (.ok next, source₁)) :
    Solvent given aside l source₁ sink := by
  have hremaining := remaining_lookahead_le hahead
  have hsupply : source₁.reader.supply = source.reader.supply := by
    rw [← supply_lookahead l b source, hahead]
  rw [Solvent] at h ⊢
  omega

/-- **A step uses no more than the byte it takes.** -/
theorem step {o : Options} {l' : Lexer} {sink' : Sink} {b : Byte} {next : Option Byte}
    {piece : Option Piece} (h : Solvent given (aside + 1) l source sink)
    (hstep : Step l b next l' piece)
    (hput : sink.putAll (piece.toList.flatMap (Piece.write o)) = (.ok (), sink')) :
    Solvent given aside l' source sink' := by
  have hwrite := hstep.length_write_le o
  rw [Solvent] at h ⊢
  rw [(Sink.putAll_eq_ok hput).1, List.length_append]
  omega

theorem of_add {n : Nat} (h : Solvent given (aside + n) l source sink) :
    Solvent given aside l source sink := by
  rw [Solvent] at h ⊢
  omega

end Solvent

/-- **A run that stops at a literal gave out no more than it was handed.** -/
theorem size_accepted_le {o : Options} {given aside : Nat} {l : Lexer} {opened : Position}
    {source : Source} {sink : Sink} (h : Solvent given aside l source sink) {u : Unterminated}
    (hrun : (run o l opened source sink).result = .error (.unterminated u)) :
    (run o l opened source sink).writer.accepted.size + aside
      ≤ given + (run o l opened source sink).reader.handedOut := by
  fun_induction run o l opened source sink with
  | case1 l opened source sink f source₁ hget => cases hrun
  | case2 l opened source sink source₁ hget =>
    have hend : Solvent given aside l source₁ sink := h.get hget
    unfold conclude at hrun ⊢
    split at hrun
    next kind hfinish => exact hend.size_abandon_le
    next =>
      split at hrun
      · cases hrun
      · cases hrun
  | case3 l opened source sink b source₁ hget f source₂ hahead => cases hrun
  | case4 l opened source sink b source₁ hget opened' next source₂ hahead kind hstep =>
    have hstop : Solvent given aside l source₂ sink := ((h.get hget).lookahead hahead).of_add
    exact hstop.size_abandon_le
  | case5 l opened source sink b source₁ hget next source₂ hahead l' piece hstep f sink₁ hput =>
    cases hrun
  | case6 l opened source sink b source₁ hget opened' next source₂ hahead l' piece hstep sink₁ hput
      ih =>
    have htaken := (h.get hget).lookahead hahead
    exact ih (htaken.step (Lexer.step_eq_ok_iff.mp hstep) hput) hrun

/-- **A run that ends well** has counted its reader's bytes and written the minified text. -/
theorem minifyStream_eq_ok {o : Options} {size : Nat} {r : Reader} {w : Writer} (hr : r.Lively)
    {stats : Stats} (h : (minifyStream o size r w).result = .ok stats) :
    ∃ out, minify o r.bytes = .ok out ∧ stats = .of r.bytes out ∧
      (minifyStream o size r w).writer.accepted.toList = w.accepted.toList ++ out := by
  have hwithin := run_within o .initial .first (Source.sound_ofReader hr size) { writer := w }
  rw [Scan.emittedFrom_initial] at hwithin
  obtain ⟨hstop, hstats, haccepted, -, -⟩ := hwithin.of_ok stats h
  have hminify : minify o r.bytes = .ok _ := minify_eq_ok_iff.mpr ⟨hstop, rfl⟩
  have htotal : (Source.ofReader r size).total = r.bytes.length := Nat.zero_add _
  refine ⟨_, hminify, ?_, ?_⟩ <;> rw [← emitted_of_minify hminify]
  · rw [hstats, htotal, Nat.zero_add]
    rfl
  · rw [minifyStream, haccepted, Sink.contents, List.append_nil]
    rfl

/-- **Output is never longer than input.**  A run that ends well counts all bytes of its reader and
all bytes it wrote, and the latter are no more than the former, but for the line feed that the
options ask for.  A run that ends at a literal gave out no more than it was handed.  And this holds
gap by gap: a separator is paid for by a byte of the gap that it stands for. -/
theorem minifyStream_never_longer (o : Options) (size : Nat) (r : Reader) (w : Writer) :
    (r.Lively → ∀ stats, (minifyStream o size r w).result = .ok stats →
      ∃ out, minify o r.bytes = .ok out ∧
        (minifyStream o size r w).writer.accepted.toList = w.accepted.toList ++ out ∧
        stats.bytesRead = r.bytes.length ∧ stats.bytesWritten = out.length ∧
        stats.bytesWritten
          ≤ stats.bytesRead + if o.keepTrailingNewline ∧ out ≠ [] then 1 else 0) ∧
      (∀ u, (minifyStream o size r w).result = .error (.unterminated u) →
        (minifyStream o size r w).writer.accepted.size + r.handedOut
          ≤ w.accepted.size + (minifyStream o size r w).reader.handedOut) ∧
      unifyBreaks r.bytes = (stretches r.bytes).flatMap Stretch.bytes ++ trailing r.bytes ∧
      ∃ written, (scan r.bytes).write o = written.flatMap Stretch.bytes ∧
        List.Forall₂ Stretch.Pays (stretches r.bytes) written := by
  refine ⟨?_, fun u hu => size_accepted_le (.start size r w) hu, stretches_pay o r.bytes⟩
  intro hr stats hstats
  obtain ⟨out, hminify, rfl, haccepted⟩ := minifyStream_eq_ok hr hstats
  exact ⟨out, hminify, haccepted, rfl, rfl, length_le_of_minify hminify⟩

/-- Six bytes that come to six and a line feed, from a reader that hands out two and then three of
them; and a string that is not closed, of which four bytes are written for six. -/
theorem minifyStream_never_longer_spread :
    (∃ run, minifyStream ⟨false, true⟩ 3 ⟨utf8 "a\n+ +b", [.limit 2, .limit 3], none, []⟩ {} = run ∧
      run.result = .ok ⟨6, 7⟩ ∧ run.writer.accepted.toList = utf8 "a\n+ +b\n") ∧
    ∃ run, minifyStream {} 3 { bytes := utf8 "a = \"b" } {} = run ∧
      run.result = .error (.unterminated ⟨.string, ⟨1, 5⟩⟩) ∧
      run.writer.accepted.toList = utf8 "a=\"b" ∧ 4 ≤ run.reader.handedOut := by
  have hr : (⟨utf8 "a\n+ +b", [.limit 2, .limit 3], none, []⟩ : Reader).Steady :=
    ⟨⟨by simp [Event.Lively], by simp⟩, by simp [Reader.Calm, Event.Calm]⟩
  have hok := (minifyStream_of_steady ⟨false, true⟩ 3 hr Writer.steady_whole).1
  obtain ⟨out, hminify, haccepted, -⟩ :=
    (minifyStream_never_longer ⟨false, true⟩ 3 _ {}).1 hr.1 ⟨6, 7⟩ hok
  obtain rfl : utf8 "a\n+ +b\n" = out := Except.ok.inj hminify
  have hstopped := minifyStream_of_steady {} 3 (Reader.steady_whole (utf8 "a = \"b"))
    Writer.steady_whole
  have hle' := (minifyStream_never_longer {} 3 { bytes := utf8 "a = \"b" } {}).2.1
    ⟨.string, ⟨1, 5⟩⟩ hstopped.1
  have hwritten : (minifyStream {} 3 { bytes := utf8 "a = \"b" } {}).writer.accepted.toList
      = utf8 "a=\"b" := hstopped.2
  rw [← Array.length_toList, hwritten] at hle'
  have hnone : ({ bytes := utf8 "a = \"b" } : Reader).handedOut = 0 := rfl
  have hfour : (utf8 "a=\"b").length = 4 := rfl
  have hzero : ({} : Writer).accepted.size = 0 := rfl
  refine ⟨⟨_, rfl, hok, haccepted⟩, _, rfl, hstopped.1, hwritten, ?_⟩
  omega

end Stream

end ScriptMinifier
