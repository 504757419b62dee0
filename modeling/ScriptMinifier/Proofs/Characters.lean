import ScriptMinifier.Proofs.Breaks
import ScriptMinifier.Proofs.Rescan
import ScriptMinifier.Proofs.Utf8

/-!
# Characters stay whole

The lexer works on bytes, cuts comments out and puts separators in, but it never does so inside a
character.  Where a byte is copied, what was written so far still goes on with what is to be read;
where something is dropped or put in, both are UTF-8 on their own, since every such place is at an
ASCII byte.  `Lexer.Aligned` says which of the two holds between any two bytes, and `Reads.aligned`
that a run keeps it.

So the result for a text of characters is always one (`isSome_ofUtf8?_of_minify`).
-/

namespace ScriptMinifier

open Lexer (Step)

/-! ### Unified line breaks -/

/-- **Unifying line breaks keeps characters whole**, also behind the start of one. -/
theorem isSome_ofUtf8?_append_unifyBreaks {front text : Bytes}
    (h : (ofUtf8? (front ++ text)).isSome = true) :
    (ofUtf8? (front ++ unifyBreaks text)).isSome = true := by
  have hcr : Byte.cr < 0x80 := by decide
  have hlf : Byte.lf < 0x80 := by decide
  induction text using breakInduction generalizing front with
  | nil => exact h
  | pair rest ih =>
    rw [isSome_ofUtf8?_ascii_iff hcr, isSome_ofUtf8?_ascii_cons_iff hlf] at h
    rw [unifyBreaks_cons_cr_lf, isSome_ofUtf8?_ascii_iff hlf]
    exact ⟨h.1, @ih [] h.2⟩
  | lone rest hhead ih =>
    rw [isSome_ofUtf8?_ascii_iff hcr] at h
    rw [unifyBreaks_cons_cr hhead, isSome_ofUtf8?_ascii_iff hlf]
    exact ⟨h.1, @ih [] h.2⟩
  | plain b rest hb ih =>
    rw [List.append_cons] at h
    rw [unifyBreaks_cons hb, List.append_cons]
    exact ih h

/-! ### ASCII bytes -/

theorem isSome_ofUtf8?_separator (left : Left) (gap : Gap) (next : Byte) (regex : Bool) :
    (ofUtf8? (separator left gap next regex).toList).isSome = true := by
  cases h : separator left gap next regex with
  | none => exact isSome_ofUtf8?_nil
  | some s =>
    have hs : s < 0x80 := by rcases separator_eq_some h with rfl | rfl <;> decide
    exact (isSome_ofUtf8?_ascii_cons_iff hs).mpr isSome_ofUtf8?_nil

theorem Byte.lt_of_isBlank {b : Byte} (h : b.isBlank = true) : b < 0x80 := by
  simp only [Byte.isBlank, Bool.or_eq_true, beq_iff_eq] at h
  rcases h with ((rfl | rfl) | rfl) | rfl <;> decide

theorem Byte.lt_of_isLineBreak {b : Byte} (h : b.isLineBreak = true) : b < 0x80 := by
  simp only [Byte.isLineBreak, Bool.or_eq_true, beq_iff_eq] at h
  rcases h with rfl | rfl <;> decide

/-! ### Steps -/

namespace Lexer

/-- How the bytes `out` written so far and the bytes `text` still to be read make characters. -/
inductive Aligned (l : Lexer) (out text : Bytes) : Prop
  /-- Right behind a byte that was copied, a character may be copied in part. -/
  | behind (hmode : l.mode.isComment = false) (hgap : l.gap = .none)
      (htext : (ofUtf8? (out ++ text)).isSome = true)
  /-- In a gap, all characters were copied or dropped. -/
  | between (hmode : l.mode = .code) (hout : (ofUtf8? out).isSome = true)
      (htext : (ofUtf8? text).isSome = true)
      (hheld : l.held = true → text.head? = some Byte.slash)
  /-- In a comment, a character may be dropped in part. -/
  | comment (hmode : l.mode.isComment = true) (hout : (ofUtf8? out).isSome = true)
      (dropped : Bytes) (htext : (ofUtf8? (dropped ++ text)).isSome = true)

namespace Aligned

variable {l l' : Lexer} {out text : Bytes} {b : Byte}

/-- **Every ASCII byte is a place to cut.** -/
theorem cut (h : l.Aligned out (b :: text)) (hb : b < 0x80) :
    (ofUtf8? out).isSome = true ∧ (ofUtf8? text).isSome = true := by
  cases h with
  | behind hmode hgap htext => exact (isSome_ofUtf8?_ascii_iff hb).mp htext
  | between hmode hout htext hheld =>
    exact ⟨hout, (isSome_ofUtf8?_ascii_cons_iff hb).mp htext⟩
  | comment hmode hout dropped htext => exact ⟨hout, ((isSome_ofUtf8?_ascii_iff hb).mp htext).2⟩

theorem widen (h : l.Aligned out (b :: text)) (hb : b < 0x80) (hmode : l'.mode = .code)
    (hheld : l'.held = true → text.head? = some Byte.slash) : l'.Aligned out text := by
  obtain ⟨hout, htext⟩ := h.cut hb
  exact .between hmode hout htext hheld

theorem open_comment (h : l.Aligned out (b :: text)) (hb : b < 0x80)
    (hmode : l'.mode.isComment = true) : l'.Aligned out text := by
  obtain ⟨hout, htext⟩ := h.cut hb
  exact .comment hmode hout [] htext

theorem drop (h : l.Aligned out (b :: text)) (hmode : l.mode.isComment = true)
    (hmode' : l'.mode.isComment = true) : l'.Aligned out text := by
  cases h with
  | behind hcode => simp [hmode] at hcode
  | between hcode => simp [hcode, Mode.isComment] at hmode
  | comment _ hout dropped htext =>
    refine .comment hmode' hout (dropped ++ [b]) ?_
    rwa [← List.append_cons]

theorem write (h : l.Aligned out (b :: text)) (hmode : l.mode.isComment = false) {sep : Bytes}
    (hsep : (ofUtf8? sep).isSome = true) (hnone : l.gap = .none → sep = [])
    (hmode' : l'.mode.isComment = false) (hgap : l'.gap = .none) :
    l'.Aligned (out ++ (sep ++ [b])) text := by
  refine .behind hmode' hgap ?_
  rw [List.append_assoc, List.append_assoc, List.singleton_append]
  cases h with
  | behind _ hgap htext => rwa [hnone hgap]
  | between _ hout htext => exact isSome_ofUtf8?_append hout (isSome_ofUtf8?_append hsep htext)
  | comment hcomment => simp [hmode] at hcomment

theorem write_separator {regex : Bool} (h : l.Aligned out (b :: text)) (hmode : l.mode = .code)
    (hmode' : l'.mode.isComment = false) (hgap : l'.gap = .none) (o : Options) :
    l'.Aligned (out ++ ((separator l.left (l.gap.under o) b regex).toList ++ [b])) text := by
  refine h.write (by simp [hmode, Mode.isComment]) (isSome_ofUtf8?_separator ..) ?_ hmode' hgap
  intro hnone
  rw [Gap.under_eq_none_iff.mpr hnone, separator_none]
  rfl

theorem of_end (h : l.Aligned out []) : (ofUtf8? out).isSome = true := by
  cases h with
  | behind hmode hgap htext => rwa [List.append_nil] at htext
  | between hmode hout => exact hout
  | comment hmode hout => exact hout

end Aligned

theorem Step.aligned_of_silent {l l' : Lexer} {b : Byte} {next : Option Byte} {out text : Bytes}
    (h : Step l b next l' none) (hnext : text.head? = next) (hl : l.Coherent)
    (ha : l.Aligned out (b :: text)) : l'.Aligned out text := by
  cases h with
  | blank hheld hmode hb =>
    exact ha.widen (Byte.lt_of_isBlank hb) hmode (by simp [Lexer.widen, hheld])
  | lineBreak hheld hmode hb =>
    exact ha.widen (Byte.lt_of_isLineBreak hb) hmode (by simp [Lexer.widen, hheld])
  | closeLineComment hheld hmode =>
    exact ha.widen (by decide) rfl (by simp [dropComment, Lexer.widen, hheld])
  | closeBlockComment hheld hmode => exact ha.widen (by decide) rfl fun _ => hnext
  | openLineComment | openBlockComment => exact ha.open_comment (by decide) rfl
  | lineComment hheld hmode =>
    have hcomment : l.mode.isComment = true := by rw [hmode, Mode.isComment]
    exact ha.drop hcomment hcomment
  | blockComment hheld hmode => exact ha.drop (by simp [hmode, Mode.isComment]) rfl
  | dropHeld hheld hmode =>
    cases hm : l.mode with
    | literal literal => exact absurd hm (hmode literal)
    | lineComment | blockComment => exact ha.drop (by simp [hm, Mode.isComment]) rfl
    | code =>
      -- the byte is the slash of a comment that was closed
      cases ha with
      | behind _ hgap => exact absurd hgap (hl.gap_ne_none hheld hm)
      | comment hcomment => simp [hm, Mode.isComment] at hcomment
      | between _ hout htext hslash =>
        obtain rfl : b = Byte.slash := by simpa using hslash hheld
        exact .between rfl hout ((isSome_ofUtf8?_ascii_cons_iff (by decide)).mp htext) (by simp)

theorem Step.aligned_of_piece {l l' : Lexer} {b : Byte} {next : Option Byte} {out text : Bytes}
    {piece : Piece} (h : Step l b next l' (some piece)) (hl : l.Coherent)
    (ha : l.Aligned out (b :: text)) (o : Options) : l'.Aligned (out ++ piece.write o) text := by
  have hcopied {l' : Lexer} {literal : Literal} (hmode : l.mode = .literal literal)
      (hmode' : l'.mode.isComment = false) (hgap : l'.gap = l.gap) :
      l'.Aligned (out ++ (Piece.inner b).write o) text :=
    ha.write (by simp [hmode, Mode.isComment]) isSome_ofUtf8?_nil (fun _ => rfl) hmode'
      (hgap.trans (hl.gap_eq_none literal hmode))
  cases h with
  | copyHeld _ hmode => exact hcopied hmode (by simp [hmode, Mode.isComment]) rfl
  | escape _ hmode => exact hcopied hmode (by simp [hmode, Mode.isComment]) rfl
  | copy _ hmode => exact hcopied hmode rfl rfl
  | closeLiteral _ hmode => exact hcopied hmode rfl rfl
  | openRegex _ hmode => exact ha.write_separator hmode rfl rfl o
  | openString _ hmode => exact ha.write_separator hmode rfl rfl o
  | token _ hmode =>
    exact ha.write_separator hmode (by simp [Lexer.token, hmode, Mode.isComment]) rfl o

end Lexer

/-! ### Runs -/

/-- **A run goes from character to character.** -/
theorem Reads.aligned {l l' : Lexer} {out text : Bytes} {pieces : List Piece}
    (h : Reads none l text pieces l') (hl : l.Coherent) (ha : l.Aligned out text) (o : Options) :
    l'.Aligned (out ++ pieces.flatMap (Piece.write o)) [] := by
  induction h generalizing out with
  | nil l =>
    rw [List.flatMap_nil, List.append_nil]
    exact ha
  | @cons l l₁ l' b text piece pieces first _ ih =>
    rw [List.flatMap_append, ← List.append_assoc]
    rw [Option.or_none] at first
    refine ih (first.coherent hl) ?_
    cases piece with
    | none =>
      rw [Option.toList_none, List.flatMap_nil, List.append_nil]
      exact first.aligned_of_silent rfl hl ha
    | some piece =>
      rw [Option.toList_some, List.flatMap_singleton]
      exact first.aligned_of_piece hl ha o

/-- **The result for a text of characters is one.** -/
theorem isSome_ofUtf8?_of_minify {o : Options} {text out : Bytes}
    (htext : (ofUtf8? text).isSome = true) (h : minify o text = .ok out) :
    (ofUtf8? out).isSome = true := by
  obtain ⟨hstop, rfl⟩ := minify_eq_ok_iff.mp h
  obtain ⟨l', hreads, -⟩ := reads_of_scan hstop
  have hunified : (ofUtf8? ([] ++ unifyBreaks text)).isSome = true :=
    isSome_ofUtf8?_append_unifyBreaks htext
  have hwrite := (hreads.aligned Lexer.coherent_initial (.behind rfl rfl hunified) o).of_end
  rw [List.nil_append] at hwrite
  refine isSome_ofUtf8?_append hwrite ?_
  rw [Scan.trailer]
  split
  · exact (isSome_ofUtf8?_ascii_cons_iff (by decide)).mpr isSome_ofUtf8?_nil
  · exact isSome_ofUtf8?_nil

/-- **UTF-8 in, UTF-8 out.**  If the text is UTF-8, then so is its result, under all options; and
minifying a text of characters fails only at a literal and gives the characters of the result for
its bytes. -/
theorem minify_keeps_utf8 :
    (∀ (o : Options) (text out : Bytes), (ofUtf8? text).isSome = true → minify o text = .ok out →
      (ofUtf8? out).isSome = true) ∧
    ∀ text : String, (∀ f, minifyText text ≠ .error (.stream f)) ∧
      (minifyText text).map utf8 = (minify {} (utf8 text)).mapError .unterminated := by
  refine ⟨fun o text out htext h => isSome_ofUtf8?_of_minify htext h, fun text => ?_⟩
  have htext : (ofUtf8? (utf8 text)).isSome = true := by
    rw [ofUtf8?_utf8]
    rfl
  rw [minifyText]
  cases h : minify {} (utf8 text) with
  | error u => exact ⟨by simp, rfl⟩
  | ok out =>
    obtain ⟨result, hresult⟩ := Option.isSome_iff_exists.mp (isSome_ofUtf8?_of_minify htext h)
    simp only [hresult]
    refine ⟨by simp, ?_⟩
    rw [Except.map, utf8_of_ofUtf8? hresult]
    rfl

/-- A comment between two names that are not ASCII. -/
theorem minify_keeps_utf8_names :
    minify {} (utf8 "é/* ü */ñ") = .ok (utf8 "é ñ") ∧ (ofUtf8? (utf8 "é ñ")).isSome = true := by
  have htext : (ofUtf8? (utf8 "é/* ü */ñ")).isSome = true := by
    rw [ofUtf8?_utf8]
    rfl
  have hminify : minify {} (utf8 "é/* ü */ñ") = .ok (utf8 "é ñ") := rfl
  exact ⟨hminify, minify_keeps_utf8.1 {} _ _ htext hminify⟩

end ScriptMinifier
