import ScriptMinifier.Proofs.Extents
import ScriptMinifier.Proofs.Rescan
import ScriptMinifier.Proofs.Unclosed

/-!
# The edges of the result

A result begins with the first byte of a token and ends with the last byte of one, so it has no
blank and no line break at either edge.  It is empty exactly if there is no token, and then the text
is nothing but layout (`OnlyLayout`, which speaks of the text as it came, with line breaks of any
kind and without the lexer).

* `OnlyLayout.vanishes`: such a text is read without a piece.
* `OnlyLayout.of_layout`: a text that is read without a piece is such a text.
* `Reads.class_head`, `Reads.class_getLast`: the first and the last piece of a run.
-/

namespace ScriptMinifier

open Lexer (Step)

/-! ### Texts without tokens -/

/-- A text of blanks, line breaks, line comments and block comments that are closed. -/
inductive OnlyLayout : Bytes → Prop
  | nil : OnlyLayout []
  | space {b : Byte} {rest : Bytes} (hb : b.isBlank = true ∨ b.isLineBreak = true)
      (hrest : OnlyLayout rest) : OnlyLayout (b :: rest)
  /-- The comment goes to the end of its line. -/
  | line {body rest : Bytes} (hbody : ∀ b ∈ body, b.isLineBreak = false)
      (hend : ∀ b, rest.head? = some b → b.isLineBreak = true) (hrest : OnlyLayout rest) :
      OnlyLayout (Byte.slash :: Byte.slash :: (body ++ rest))
  /-- The comment goes to the first star with a slash behind it. -/
  | block {body rest : Bytes} (hbody : ¬ [Byte.star, Byte.slash] <:+: body ++ [Byte.star])
      (hrest : OnlyLayout rest) :
      OnlyLayout (Byte.slash :: Byte.star :: (body ++ Byte.star :: Byte.slash :: rest))

/-- From code on, a text is read to its end without a piece. -/
def Vanishes (text : Bytes) : Prop :=
  ∀ l : Lexer, l.AtCode → ∃ l', Reads none l text [] l' ∧ l'.finish = none

namespace Vanishes

theorem nil : Vanishes [] := by
  intro l hl
  exact ⟨l, .nil l, by rw [Lexer.finish, hl.mode]⟩

theorem space {b : Byte} {text : Bytes} (hb : b.isBlank = true ∨ b.isLineBreak = true)
    (h : Vanishes text) : Vanishes (b :: text) := by
  intro l hl
  rcases hb with hb | hb
  · obtain ⟨l', hreads, hfinish⟩ := h (l.widen .space) ⟨hl.mode, hl.held⟩
    exact ⟨l', .cons (.blank hl.held hl.mode hb) hreads, hfinish⟩
  · obtain ⟨l', hreads, hfinish⟩ := h (l.widen .newline) ⟨hl.mode, hl.held⟩
    exact ⟨l', .cons (.lineBreak hl.held hl.mode hb) hreads, hfinish⟩

theorem comment {c text : Bytes} (hc : IsComment c) (h : Vanishes text) : Vanishes (c ++ text) := by
  intro l hl
  have hcrosses : Crosses (text.head?.or none) l c [] (l.dropComment (c.contains Byte.lf)) :=
    (crosses_comment_iff hl).mpr ⟨hc, rfl⟩
  obtain ⟨l', hreads, hfinish⟩ := h (l.dropComment (c.contains Byte.lf)) ⟨rfl, hl.held⟩
  exact ⟨l', hcrosses.reads.append hreads, hfinish⟩

theorem lastLine {body : Bytes} (hbody : Byte.lf ∉ body) :
    Vanishes (Byte.slash :: Byte.slash :: body) :=
  fun _ hl => ⟨_, reads_lastLine hl hbody, rfl⟩

theorem line {body text : Bytes} (hbody : Byte.lf ∉ body) (h : Vanishes (Byte.lf :: text)) :
    Vanishes (Byte.slash :: Byte.slash :: (body ++ Byte.lf :: text)) := by
  intro l hl
  have hcrosses : Crosses (text.head?.or none) l
      (Byte.slash :: Byte.slash :: (body ++ [Byte.lf])) [] (l.dropComment true) :=
    (crosses_comment_iff hl).mpr ⟨.line hbody, by rw [contains_lf_line]⟩
  have hback : (l.dropComment true).AtCode := ⟨rfl, hl.held⟩
  have hwide : (l.dropComment true).widen .newline = l.dropComment true := by
    rw [Lexer.dropComment, Lexer.widen, Lexer.widen]
    cases l.gap <;> rfl
  obtain ⟨l', hreads, hfinish⟩ := h _ hback
  have hreads : Reads none (l.dropComment true) ([Byte.lf] ++ text) [] l' := hreads
  obtain ⟨pieces₁, pieces₂, l₁, hpieces, hbreak, hrest⟩ := hreads.of_append
  obtain ⟨rfl, hl₁⟩ := hbreak.unique (.single (.lineBreak hback.held hback.mode (by decide)))
  obtain rfl : pieces₂ = [] := hpieces.symm
  rw [hl₁, hwide] at hrest
  have hall := hcrosses.reads.append hrest
  simp only [List.cons_append, List.append_assoc, List.nil_append] at hall
  exact ⟨l', hall, hfinish⟩

end Vanishes

theorem closes_unifyBreaks_iff (body : Bytes) :
    [Byte.star, Byte.slash] <:+: unifyBreaks body ++ [Byte.star] ↔
      [Byte.star, Byte.slash] <:+: body ++ [Byte.star] := by
  have hstar : unifyBreaks (body ++ [Byte.star]) = unifyBreaks body ++ [Byte.star] :=
    unifyBreaks_append (by decide) (by decide) body []
  rw [← hstar, ← closesComment_iff, closesComment_unifyBreaks, closesComment_iff]

/-- **A text of layout is read without a piece.** -/
theorem OnlyLayout.vanishes {text : Bytes} (h : OnlyLayout text) : Vanishes (unifyBreaks text) := by
  induction h with
  | nil => exact .nil
  | @space b rest hb hrest ih =>
    by_cases hcr : b = Byte.cr
    · subst hcr
      by_cases hhead : rest.head? = some Byte.lf
      · -- the two bytes are the line break that the rest begins with
        obtain ⟨rest', rfl⟩ := List.head?_eq_some_iff.mp hhead
        rw [unifyBreaks_cons_cr_lf, ← unifyBreaks_cons (show Byte.lf ≠ Byte.cr by decide)]
        exact ih
      · rw [unifyBreaks_cons_cr hhead]
        exact ih.space (.inr (by decide))
    · rw [unifyBreaks_cons hcr]
      exact ih.space hb
  | @line body rest hbody hend hrest ih =>
    have hcr : Byte.cr ∉ body := fun hmem => absurd (hbody _ hmem) (by decide)
    have hlf : Byte.lf ∉ body := fun hmem => absurd (hbody _ hmem) (by decide)
    rw [unifyBreaks_cons (by decide), unifyBreaks_cons (by decide),
      unifyBreaks_append_of_notMem hcr]
    cases rest with
    | nil =>
      rw [unifyBreaks_nil, List.append_nil]
      exact .lastLine hlf
    | cons b rest =>
      have hhead := head?_unifyBreaks_of_isLineBreak (hend b rfl) rest
      obtain ⟨u, hu⟩ := List.head?_eq_some_iff.mp hhead
      rw [hu] at ih ⊢
      exact .line hlf ih
  | @block body rest hbody hrest ih =>
    have hall := Vanishes.comment (.block (mt (closes_unifyBreaks_iff body).mp hbody)) ih
    rw [unifyBreaks_cons (by decide), unifyBreaks_cons (by decide),
      unifyBreaks_append (by decide) (by decide), unifyBreaks_cons (by decide)]
    simpa using hall

/-! ### Layout of the text as it came

The lexer finds the layout of the unified text, and a line comment at the very end lacks its line
break.  So the lemmas here are about the unified text with one more line feed. -/

theorem exists_cons_of_unifyBreaks {text u : Bytes} {c : Byte} (hc : c ≠ Byte.lf)
    (h : unifyBreaks text ++ [Byte.lf] = c :: u) :
    ∃ rest, text = c :: rest ∧ unifyBreaks rest ++ [Byte.lf] = u := by
  cases text using breakInduction with
  | nil => exact absurd (List.cons.inj h).1.symm hc
  | pair rest _ =>
    rw [unifyBreaks_cons_cr_lf] at h
    exact absurd (List.cons.inj h).1.symm hc
  | lone rest hrest _ =>
    rw [unifyBreaks_cons_cr hrest] at h
    exact absurd (List.cons.inj h).1.symm hc
  | plain b rest hb _ =>
    rw [unifyBreaks_cons hb] at h
    obtain ⟨rfl, hrest⟩ := List.cons.inj h
    exact ⟨rest, rfl, hrest⟩

theorem isLineBreak_of_unifyBreaks {text g : Bytes}
    (h : unifyBreaks text ++ [Byte.lf] = Byte.lf :: g) {b : Byte} (hb : text.head? = some b) :
    b.isLineBreak = true := by
  obtain ⟨rest, rfl⟩ := List.head?_eq_some_iff.mp hb
  by_cases hcr : b = Byte.cr
  · rw [hcr]
    decide
  · rw [unifyBreaks_cons hcr] at h
    rw [(List.cons.inj h).1]
    decide

theorem exists_line_of_unifyBreaks {text body g : Bytes} (hbody : Byte.lf ∉ body)
    (h : unifyBreaks text ++ [Byte.lf] = body ++ Byte.lf :: g) :
    ∃ rest, text = body ++ rest ∧ unifyBreaks rest ++ [Byte.lf] = Byte.lf :: g := by
  induction body generalizing text with
  | nil => exact ⟨text, rfl, h⟩
  | cons c body ih =>
    rw [List.mem_cons, not_or] at hbody
    obtain ⟨rest, rfl, hrest⟩ := exists_cons_of_unifyBreaks (Ne.symm hbody.1) h
    obtain ⟨rest', rfl, hrest'⟩ := ih hbody.2 hrest
    exact ⟨rest', rfl, hrest'⟩

theorem exists_block_of_unifyBreaks {text body g : Bytes}
    (h : unifyBreaks text ++ [Byte.lf] = body ++ Byte.star :: Byte.slash :: g) :
    ∃ p rest, text = p ++ Byte.star :: Byte.slash :: rest ∧ unifyBreaks p = body ∧
      unifyBreaks rest ++ [Byte.lf] = g := by
  rcases List.eq_nil_or_concat g with rfl | ⟨g, b, rfl⟩
  · have hlast : Byte.lf = Byte.slash := by simpa using congrArg List.getLast? h
    exact absurd hlast (by decide)
  · have hcut : unifyBreaks text ++ [Byte.lf] = (body ++ Byte.star :: Byte.slash :: g) ++ [b] := by
      rw [h]
      simp
    obtain ⟨htext, hb⟩ := List.append_inj' hcut rfl
    obtain ⟨p, r, rfl, hp, hr⟩ := exists_append_of_unifyBreaks (by decide) htext
    have hr' : unifyBreaks r ++ [Byte.lf] = Byte.slash :: (g ++ [b]) := by rw [hr, hb]; rfl
    obtain ⟨rest, rfl, hrest⟩ := exists_cons_of_unifyBreaks (by decide) hr'
    exact ⟨p, rest, rfl, hp, by rw [hrest, List.concat_eq_append]⟩

namespace OnlyLayout

theorem of_break {text g : Bytes} (h : unifyBreaks text ++ [Byte.lf] = Byte.lf :: g)
    (hg : ∀ rest, unifyBreaks rest ++ [Byte.lf] = g → OnlyLayout rest) : OnlyLayout text := by
  have hcr : Byte.cr.isLineBreak = true := by decide
  have hlf : Byte.lf.isLineBreak = true := by decide
  cases text using breakInduction with
  | nil => exact .nil
  | pair rest _ =>
    rw [unifyBreaks_cons_cr_lf] at h
    exact .space (.inr hcr) (.space (.inr hlf) (hg rest (List.cons.inj h).2))
  | lone rest hrest _ =>
    rw [unifyBreaks_cons_cr hrest] at h
    exact .space (.inr hcr) (hg rest (List.cons.inj h).2)
  | plain b rest hb _ =>
    rw [unifyBreaks_cons hb] at h
    obtain ⟨rfl, hrest⟩ := List.cons.inj h
    exact .space (.inr hlf) (hg rest hrest)

theorem of_layout {text g : Bytes} {comments : List Bytes} (h : Layout g comments)
    (hg : unifyBreaks text ++ [Byte.lf] = g) : OnlyLayout text := by
  induction h generalizing text with
  | nil => simp at hg
  | @space b g comments hb _ ih =>
    rcases hb with hb | rfl
    · have hlf : b ≠ Byte.lf := by
        rintro rfl
        exact absurd hb (by decide)
      obtain ⟨rest, rfl, hrest⟩ := exists_cons_of_unifyBreaks hlf hg
      exact .space (.inl hb) (ih hrest)
    · exact .of_break hg fun rest hrest => ih hrest
  | comment hc _ ih =>
    cases hc with
    | @line body hbody =>
      simp only [List.cons_append, List.append_assoc, List.nil_append] at hg
      obtain ⟨text₁, rfl, hg₁⟩ := exists_cons_of_unifyBreaks (by decide) hg
      obtain ⟨text₂, rfl, hg₂⟩ := exists_cons_of_unifyBreaks (by decide) hg₁
      obtain ⟨rest, rfl, hrest⟩ := exists_line_of_unifyBreaks hbody hg₂
      have hcr : Byte.cr ∉ body := by
        intro hmem
        have hmem' : Byte.cr ∈ unifyBreaks (body ++ rest) ++ [Byte.lf] := by
          rw [hg₂]
          exact List.mem_append_left _ hmem
        simp [cr_notMem_unifyBreaks, show Byte.cr ≠ Byte.lf by decide] at hmem'
      refine .line ?_ (fun b => isLineBreak_of_unifyBreaks hrest) (.of_break hrest fun _ => ih)
      intro b hb
      have hne : b ≠ Byte.lf ∧ b ≠ Byte.cr := by
        refine ⟨?_, ?_⟩ <;> rintro rfl
        · exact hbody hb
        · exact hcr hb
      simp [Byte.isLineBreak, hne]
    | @block body hbody =>
      simp only [List.cons_append, List.append_assoc, List.nil_append] at hg
      obtain ⟨text₁, rfl, hg₁⟩ := exists_cons_of_unifyBreaks (by decide) hg
      obtain ⟨text₂, rfl, hg₂⟩ := exists_cons_of_unifyBreaks (by decide) hg₁
      obtain ⟨p, rest, rfl, rfl, hrest⟩ := exists_block_of_unifyBreaks hg₂
      exact .block (mt (closes_unifyBreaks_iff p).mpr hbody) (ih hrest)

end OnlyLayout

theorem Scan.trailer_eq_nil (s : Scan) (collapse : Bool) : s.trailer ⟨collapse, false⟩ = [] := by
  simp [trailer]

theorem Scan.write_eq_nil_iff {o : Options} (s : Scan) : s.write o = [] ↔ s.pieces = [] := by
  rw [Scan.write, List.flatMap_eq_nil_iff]
  constructor
  · intro h
    exact List.eq_nil_iff_forall_not_mem.mpr fun p hp => p.write_ne_nil o (h p hp)
  · intro h
    simp [h]

/-- **Nothing is written exactly for a text of layout.** -/
theorem minify_eq_nil_iff (o : Options) (text : Bytes) :
    minify o text = .ok [] ↔ OnlyLayout text := by
  constructor
  · intro h
    obtain ⟨hstop, hnil⟩ := minify_eq_ok_iff.mp h
    have hpieces := (scan text).write_eq_nil_iff.mp (List.append_eq_nil_iff.mp hnil).1
    obtain ⟨htext, hmirrors, comments, hlayout⟩ := fits_cutting hstop
    rw [lexemes, hpieces, List.foldl_nil, List.reverse_nil, List.forall₂_nil_right_iff] at hmirrors
    rw [hmirrors, List.flatMap_nil, List.nil_append] at htext
    exact .of_layout hlayout (by rw [htext])
  · intro h
    obtain ⟨l', hreads, hfinish⟩ := h.vanishes .initial ⟨rfl, rfl⟩
    obtain ⟨hpieces, hstop⟩ := scan_of_reads hreads hfinish
    refine minify_eq_ok_iff.mpr ⟨hstop, ?_⟩
    simp [Scan.write, Scan.trailer, hpieces]

/-! ### The first byte and the last one -/

theorem Literal.IsOpened.class_of_next? {literal : Literal} {b : Byte} (h : literal.IsOpened)
    (hnone : literal.next? b = none) : ByteClass.of (some b) = .other := by
  cases literal with
  | string quote =>
    by_cases hb : b = quote
    · rw [hb]
      exact ByteClass.of_quote h
    · rw [next?, if_neg hb] at hnone
      cases hnone
  | regex inClass =>
    by_cases hb : b = Byte.slash ∧ inClass = false
    · rw [hb.1]
      exact ByteClass.of_slash
    · rw [next?, if_neg hb] at hnone
      split at hnone
      · cases hnone
      · split at hnone <;> cases hnone

def Lexer.Opened (l : Lexer) : Prop := ∀ literal, l.mode = .literal literal → literal.IsOpened

namespace Lexer.Step

variable {l l' : Lexer} {b : Byte} {next : Option Byte}

theorem opened {piece : Option Piece} (h : Step l b next l' piece) (hl : l.Opened) :
    l'.Opened := by
  intro literal hmode
  cases h with
  | copyHeld | dropHeld | escape => exact hl literal hmode
  | copy _ hlit _ _ hnext =>
    obtain rfl := Mode.literal.inj hmode
    exact (hl _ hlit).of_next? hnext
  | openRegex =>
    obtain rfl := Mode.literal.inj hmode
    trivial
  | openString _ _ hb =>
    obtain rfl := Mode.literal.inj hmode
    exact hb
  | blank _ hcode | lineBreak _ hcode | token _ hcode | lineComment _ hcode =>
    exact absurd (hcode.symm.trans hmode) (by simp)
  | openLineComment | openBlockComment | closeLineComment | blockComment | closeBlockComment
  | closeLiteral => cases hmode

theorem class_of_begins {piece : Piece} (h : Step l b next l' (some piece))
    (hmode : ∀ literal, l.mode ≠ .literal literal) : ByteClass.of (some b) = .other := by
  cases h with
  | copyHeld _ hlit | escape _ hlit | copy _ hlit | closeLiteral _ hlit =>
    exact absurd hlit (hmode _)
  | openRegex => exact ByteClass.of_slash
  | openString _ _ hb => exact ByteClass.of_quote hb
  | token _ _ hclass => exact hclass

theorem class_of_ends {piece : Piece} (h : Step l b next l' (some piece)) (hl : l.Opened)
    (hmode : ∀ literal, l'.mode ≠ .literal literal) : ByteClass.of (some b) = .other := by
  cases h with
  | copyHeld _ hlit | escape _ hlit => exact absurd hlit (hmode _)
  | copy | openRegex | openString => exact absurd rfl (hmode _)
  | token _ _ hclass => exact hclass
  | closeLiteral _ hlit _ _ hnone => exact Literal.IsOpened.class_of_next? (hl _ hlit) hnone

end Lexer.Step

/-- **The first piece of a run begins a token.** -/
theorem Reads.class_head {ahead : Option Byte} {l l' : Lexer} {text : Bytes} {pieces : List Piece}
    (h : Reads ahead l text pieces l') (hmode : ∀ literal, l.mode ≠ .literal literal)
    {piece : Piece} (hpiece : pieces.head? = some piece) :
    ByteClass.of (some piece.byte) = .other := by
  induction h with
  | nil => cases hpiece
  | @cons l l₁ l' b text first? pieces first _ ih =>
    cases first? with
    | none => exact ih first.silent.not_literal' hpiece
    | some p =>
      obtain rfl : p = piece := by simpa using hpiece
      rw [first.byte_eq]
      exact first.class_of_begins hmode

theorem Reads.not_literal {ahead : Option Byte} {l l' : Lexer} {text : Bytes} {pieces : List Piece}
    (h : Reads ahead l text pieces l') (hpieces : pieces = [])
    (hmode : ∀ literal, l'.mode ≠ .literal literal) : ∀ literal, l.mode ≠ .literal literal := by
  cases h with
  | nil => exact hmode
  | @cons _ _ _ _ _ first? _ first =>
    cases first? with
    | none => exact first.silent.not_literal
    | some p => cases hpieces

/-- **The last piece of a run that leads out of literals ends a token.** -/
theorem Reads.class_getLast {ahead : Option Byte} {l l' : Lexer} {text : Bytes}
    {pieces : List Piece} (h : Reads ahead l text pieces l') (hl : l.Opened)
    (hmode : ∀ literal, l'.mode ≠ .literal literal) {piece : Piece}
    (hpiece : pieces.getLast? = some piece) : ByteClass.of (some piece.byte) = .other := by
  induction h with
  | nil => cases hpiece
  | @cons l l₁ l' b text first? pieces first rest ih =>
    by_cases hpieces : pieces = []
    · -- nothing is written behind this piece, so no literal is open there
      rw [hpieces, List.append_nil] at hpiece
      cases first? with
      | none => cases hpiece
      | some p =>
        obtain rfl : p = piece := by simpa using hpiece
        rw [first.byte_eq]
        exact first.class_of_ends hl (rest.not_literal hpieces hmode)
    · rw [List.getLast?_append_of_ne_nil _ hpieces] at hpiece
      exact ih (first.opened hl) hmode hpiece

/-- **What is written for a text has no blank and no line break at either edge.** -/
theorem class_of_edge {o : Options} {text : Bytes} (hstop : (scan text).stop = none) {b : Byte}
    (hb : ((scan text).write o).head? = some b ∨ ((scan text).write o).getLast? = some b) :
    ByteClass.of (some b) = .other := by
  obtain ⟨l', hreads, hfinish⟩ := reads_of_scan hstop
  have hmode (literal : Literal) : Lexer.initial.mode ≠ .literal literal := by simp [Lexer.initial]
  have hmode' (literal : Literal) : l'.mode ≠ .literal literal := by
    intro hlit
    simp [Lexer.finish, hlit] at hfinish
  have hopened : Lexer.initial.Opened := fun literal hlit => absurd hlit (hmode literal)
  rw [Scan.write] at hb
  rcases hb with hb | hb
  · cases hpieces : (scan text).pieces with
    | nil => simp [hpieces] at hb
    | cons piece pieces =>
      obtain ⟨gap, hbegins, -⟩ := hreads.begins hpieces Lexer.coherent_initial hmode
      obtain ⟨regex, hsep⟩ := piece.separator?_of_begins o hbegins
      have hstart : Lexer.initial.left = .start := rfl
      rw [hstart, separator_start] at hsep
      obtain rfl : piece.byte = b := by simpa [hpieces, Piece.write, hsep] using hb
      exact hreads.class_head hmode (by rw [hpieces]; rfl)
  · rcases List.eq_nil_or_concat (scan text).pieces with hpieces | ⟨pieces, piece, hpieces⟩
    · simp [hpieces] at hb
    · obtain rfl : piece.byte = b := by simpa [hpieces, Piece.write] using hb
      exact hreads.class_getLast hopened hmode' (by simp [hpieces])

/-- **The line feed at the end** is put behind whatever was written, and changes nothing else. -/
theorem minify_keepTrailingNewline (collapse : Bool) (text : Bytes) :
    minify ⟨collapse, true⟩ text = (minify ⟨collapse, false⟩ text).map
      fun out => if out = [] then [] else out ++ [Byte.lf] := by
  have hwrite : (scan text).write ⟨collapse, true⟩ = (scan text).write ⟨collapse, false⟩ := rfl
  rw [minify, minify, Scan.result, Scan.result]
  cases (scan text).stop with
  | some u => rfl
  | none =>
    simp only [Except.map, Scan.trailer_eq_nil, List.append_nil, Scan.write_eq_nil_iff, hwrite]
    by_cases hpieces : (scan text).pieces = []
    · simp [Scan.trailer, Scan.write, hpieces]
    · simp [Scan.trailer, hpieces]

/-- **The edges of the result.**  Without a line feed at the end a result neither begins nor ends
with a blank or a line break, and it is empty exactly if the text is made of blanks, line breaks and
comments that are complete.  With one, minifying fails in the same way, and the result is that
result with a line feed behind it, if there is anything in front. -/
theorem minify_edges (collapse : Bool) (text : Bytes) :
    (∀ out, minify ⟨collapse, false⟩ text = .ok out →
      ∀ b, out.head? = some b ∨ out.getLast? = some b → b.isBlank = false ∧ b.isLineBreak = false) ∧
    (minify ⟨collapse, false⟩ text = .ok [] ↔ OnlyLayout text) ∧
    minify ⟨collapse, true⟩ text = (minify ⟨collapse, false⟩ text).map
      fun out => if out = [] then [] else out ++ [Byte.lf] := by
  refine ⟨?_, minify_eq_nil_iff _ text, minify_keepTrailingNewline collapse text⟩
  intro out h b hb
  obtain ⟨hstop, hout⟩ := minify_eq_ok_iff.mp h
  rw [Scan.trailer_eq_nil, List.append_nil] at hout
  rw [← hout] at hb
  exact ByteClass.of_eq_other_iff.mp (class_of_edge hstop hb)

/-- A name between comments, of which the last one ends with the text, and the comments alone. -/
theorem minify_edges_commented :
    (minify {} (utf8 " /* a */ b // c") = .ok (utf8 "b") ∧
      (Byte.ofChar 'b').isBlank = false ∧ (Byte.ofChar 'b').isLineBreak = false) ∧
    OnlyLayout (utf8 " /* a */ // c") := by
  have hminify : minify {} (utf8 " /* a */ b // c") = .ok (utf8 "b") := rfl
  have hnil : minify {} (utf8 " /* a */ // c") = .ok [] := rfl
  exact ⟨⟨hminify, (minify_edges false _).1 _ hminify _ (.inl rfl)⟩,
    (minify_edges false _).2.1.mp hnil⟩

end ScriptMinifier
