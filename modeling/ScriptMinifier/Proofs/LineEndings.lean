import ScriptMinifier.Proofs.Breaks
import ScriptMinifier.Proofs.Stream.Schedule

/-!
# Line endings do not matter

The lines of a text can end with a line feed, with a carriage return, or with both.  The texts
differ in length, so their bytes stand at other offsets and chunks cut them at other places; but all
of them come to the same unified text (`unifyBreaks_withEnding`), and a source hands out nothing
else.  So a run over streams ends in the same way on texts that are unified to the same text,
whatever the readers, writers and chunks of the two runs are (`minifyStream_of_unifyBreaks_eq`):
only the number of bytes read tells the two apart.
-/

namespace ScriptMinifier

/-! ### Texts with another line ending -/

/-- What the lines of a text end with. -/
inductive LineEnding where
  | lf
  | crlf
  | cr
  deriving DecidableEq, Repr

def LineEnding.bytes : LineEnding → Bytes
  | lf => [Byte.lf]
  | crlf => [Byte.cr, Byte.lf]
  | cr => [Byte.cr]

/-- The text with every line feed replaced by the line ending. -/
def withEnding (ending : LineEnding) (text : Bytes) : Bytes :=
  text.flatMap fun b => if b = Byte.lf then ending.bytes else [b]

theorem withEnding_cons_lf (ending : LineEnding) (text : Bytes) :
    withEnding ending (Byte.lf :: text) = ending.bytes ++ withEnding ending text := rfl

theorem withEnding_cons {b : Byte} (hb : b ≠ Byte.lf) (ending : LineEnding) (text : Bytes) :
    withEnding ending (b :: text) = b :: withEnding ending text := by
  rw [withEnding, List.flatMap_cons, if_neg hb]
  rfl

theorem head?_withEnding_cr (text : Bytes) : (withEnding .cr text).head? ≠ some Byte.lf := by
  cases text with
  | nil => simp [withEnding]
  | cons b text =>
    by_cases hb : b = Byte.lf
    · subst hb
      show some Byte.cr ≠ some Byte.lf
      decide
    · rw [withEnding_cons hb]
      simpa using hb

/-- **The unified text does not show the line ending.** -/
theorem unifyBreaks_withEnding {text : Bytes} (h : Byte.cr ∉ text) (ending : LineEnding) :
    unifyBreaks (withEnding ending text) = text := by
  induction text with
  | nil => rfl
  | cons b text ih =>
    rw [List.mem_cons, not_or] at h
    by_cases hb : b = Byte.lf
    · subst hb
      rw [withEnding_cons_lf]
      cases ending with
      | lf =>
        show unifyBreaks (Byte.lf :: withEnding .lf text) = _
        rw [unifyBreaks_cons (by decide), ih h.2]
      | crlf =>
        show unifyBreaks (Byte.cr :: Byte.lf :: withEnding .crlf text) = _
        rw [unifyBreaks_cons_cr_lf, ih h.2]
      | cr =>
        show unifyBreaks (Byte.cr :: withEnding .cr text) = _
        rw [unifyBreaks_cons_cr (head?_withEnding_cr text), ih h.2]
    · rw [withEnding_cons hb, unifyBreaks_cons (Ne.symm h.1), ih h.2]

/-! ### Two runs -/

namespace Stream

/-- **Texts that are unified to the same text are minified alike.** -/
theorem minifyStream_of_unifyBreaks_eq (o : Options) (size size' : Nat) {r r' : Reader}
    {w w' : Writer} (hbytes : unifyBreaks r'.bytes = unifyBreaks r.bytes) (hr : r.Steady)
    (hr' : r'.Steady) (hw : w.Steady) (hw' : w'.Steady) :
    (minifyStream o size' r' w').result.map Stats.bytesWritten
        = (minifyStream o size r w).result.map Stats.bytesWritten ∧
      ∃ out, (minifyStream o size r w).writer.accepted = w.accepted ++ out ∧
        (minifyStream o size' r' w').writer.accepted = w'.accepted ++ out := by
  have hscan : scan r'.bytes = scan r.bytes := by rw [scan, scan, hbytes]
  have hminify : minify o r'.bytes = minify o r.bytes := by rw [minify, minify, hscan]
  have hemitted : emitted o r'.bytes = emitted o r.bytes := by rw [emitted, emitted, hscan]
  obtain ⟨hresult, haccepted⟩ := minifyStream_of_steady o size hr hw
  obtain ⟨hresult', haccepted'⟩ := minifyStream_of_steady o size' hr' hw'
  rw [hminify] at hresult'
  rw [hemitted] at haccepted'
  refine ⟨?_, (emitted o r.bytes).toArray, Array.toList_inj.mp ?_, Array.toList_inj.mp ?_⟩
  · rw [hresult, hresult']
    cases minify o r.bytes with
    | ok out => rfl
    | error u => rfl
  · rw [haccepted, Array.toList_append]
  · rw [haccepted', Array.toList_append]

/-- **Line endings do not matter.**  A text without carriage returns, the same text with a carriage
return in front of every line feed, and the same text with carriage returns for line feeds are
minified to the same bytes and counted the same, or the same literal is reported as not closed, at
the same line and column.  This holds however each of the texts is read and its result written. -/
theorem minifyStream_withEnding (o : Options) (ending : LineEnding) (size size' : Nat)
    {r r' : Reader} {w w' : Writer} (hcr : Byte.cr ∉ r.bytes)
    (hbytes : r'.bytes = withEnding ending r.bytes) (hr : r.Steady) (hr' : r'.Steady)
    (hw : w.Steady) (hw' : w'.Steady) :
    minify o r'.bytes = minify o r.bytes ∧
      (minifyStream o size' r' w').result.map Stats.bytesWritten
        = (minifyStream o size r w).result.map Stats.bytesWritten ∧
      ∃ out, (minifyStream o size r w).writer.accepted = w.accepted ++ out ∧
        (minifyStream o size' r' w').writer.accepted = w'.accepted ++ out := by
  have hunify : unifyBreaks r'.bytes = unifyBreaks r.bytes := by
    rw [hbytes, unifyBreaks_withEnding hcr, unifyBreaks_eq_self hcr]
  refine ⟨?_, minifyStream_of_unifyBreaks_eq o size size' hunify hr hr' hw hw'⟩
  rw [minify, minify, scan, scan, hunify]

/-- An escaped line break in a string, one that ends a comment, and one at the end: read at once
with line feeds, and byte by byte with both bytes. -/
theorem minifyStream_withEnding_crlf :
    (minifyStream {} 64 { bytes := utf8 "s='\\\n'//c\nt\n" } {}).result = .ok ⟨12, 8⟩ ∧
      (minifyStream {} 64 ⟨utf8 "s='\\\r\n'//c\r\nt\r\n", [], some 1, []⟩ {}).result.map
        Stats.bytesWritten = .ok 8 := by
  have hr := Reader.steady_whole (utf8 "s='\\\n'//c\nt\n")
  have hr' : (⟨utf8 "s='\\\r\n'//c\r\nt\r\n", [], some 1, []⟩ : Reader).Steady :=
    ⟨⟨by simp, by simp⟩, by simp [Reader.Calm]⟩
  have hresult : (minifyStream {} 64 { bytes := utf8 "s='\\\n'//c\nt\n" } {}).result
      = .ok ⟨12, 8⟩ := (minifyStream_of_steady {} 64 hr Writer.steady_whole).1
  have hsame := (minifyStream_withEnding {} .crlf 64 64 (by decide) rfl hr hr' Writer.steady_whole
    Writer.steady_whole).2.1
  rw [hresult] at hsame
  exact ⟨hresult, hsame⟩

end Stream

end ScriptMinifier
