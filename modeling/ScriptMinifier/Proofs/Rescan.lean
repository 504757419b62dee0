import ScriptMinifier.Proofs.Reads

/-!
# Reading minified text

The pieces of a scan are written with at most one byte in front of each.  Reading that text gives
the same pieces again, each with the gap that its separator makes (`Piece.settle`):

    (scan out).pieces = (scan text).pieces.map (Piece.settle o).

The two runs are kept in step by `Lexer.bare`: the state without its layout, in which the lexer
stands on the written text when it stands in `l` on the original.  Steps that give no piece do not
move it (`Lexer.Silent.bare_eq`), and a step that gives one is retraced over what is written for the
piece (`Lexer.Step.retraced`).  Two things could go wrong there and do not: a dropped gap could make
a word longer or double a sign, but then a separator is written (`Left.keeps_of_runsInto`); and a
slash could meet a byte that makes a comment of it, but the byte behind it is either the one that
stood there before or again a separator (`Reads.not_opensComment_written`).
-/

namespace ScriptMinifier

open Lexer (Step)

/-! ### Gaps that separators make -/

def Gap.ofSeparator : Option Byte → Gap
  | .none => .none
  | .some s => if s = Byte.lf then .newline else .space

/-- The piece as it is read again: its gap is the one that its separator makes. -/
def Piece.settle (o : Options) : Piece → Piece
  | .code left gap b => .code left (Gap.ofSeparator (separator left (gap.under o) b false)) b
  | .opener left gap regex b =>
    .opener left (Gap.ofSeparator (separator left (gap.under o) b regex)) regex b
  | .inner b => .inner b

@[simp]
theorem Gap.ofSeparator_eq_none_iff {s : Option Byte} : Gap.ofSeparator s = .none ↔ s = .none := by
  cases s with
  | none => exact ⟨fun _ => rfl, fun _ => rfl⟩
  | some s =>
    rw [Gap.ofSeparator]
    split <;> simp

theorem separator_eq_some {left : Left} {gap : Gap} {next s : Byte} {regex : Bool}
    (h : separator left gap next regex = some s) : s = Byte.lf ∨ s = Byte.space := by
  unfold separator at h
  split at h
  · cases h
  · split at h
    · exact Or.inl (Option.some.inj h).symm
    · split at h
      · exact Or.inr (Option.some.inj h).symm
      · cases h

def Left.runsInto (left : Left) (b : Byte) : Bool :=
  (left.gluesToWord && b.isWord) || left.fusesWith b

/-- **A gap that keeps two tokens apart is there before and after.** -/
theorem Left.keeps_of_runsInto {left : Left} {b : Byte} (h : left.runsInto b = true) (o : Options)
    (gap : Gap) (regex : Bool) :
    Gap.ofSeparator (separator left (gap.under o) b regex) = .none ↔ gap = .none := by
  rw [Gap.ofSeparator_eq_none_iff]
  constructor
  · intro hsep
    by_cases hgap : gap = .none
    · exact hgap
    · have hunder : gap.under o ≠ .none := fun hu => hgap (Gap.under_eq_none_iff.mp hu)
      have hsome : (separator left (gap.under o) b regex).isSome := separator_isSome hunder h
      rw [hsep] at hsome
      cases hsome
  · rintro rfl
    rw [Gap.under_eq_none_iff.mpr rfl, separator_none]

theorem Left.gluesToWord_of_continuesWord {left : Left} (h : left.continuesWord = true) :
    left.gluesToWord = true := by
  cases left with
  | byte b => exact h
  | number => rfl
  | start | stringEnd | regexEnd => cases h

theorem Left.ne_regexEnd_of_not_gluesToWord {left : Left} (h : left.gluesToWord = false) :
    left ≠ .regexEnd := by
  rintro rfl
  cases h

/-! ### Tokens do not see the width of a gap -/

theorem Gap.beq_none_congr {g k : Gap} (h : g = .none ↔ k = .none) :
    (g == .none) = (k == .none) := by
  rw [Bool.eq_iff_iff, beq_iff_eq, beq_iff_eq]
  exact h

namespace Lexer

theorem wordAfter_gap {l : Lexer} {b : Byte} {gap : Gap}
    (h : l.left.runsInto b = true → (gap = .none ↔ l.gap = .none)) :
    { l with gap := gap }.wordAfter b = l.wordAfter b := by
  cases hb : b.isWord with
  | false => simp [wordAfter, hb]
  | true =>
    cases hglues : l.left.gluesToWord with
    | true =>
      have hgap := h (by simp [Left.runsInto, hglues, hb])
      simp only [wordAfter, hb, if_true, hgap, Gap.beq_none_congr hgap]
    | false =>
      -- the word starts anew whatever the gap: nothing stands here that it could lengthen
      have hcontinues : l.left.continuesWord = false := by
        rw [← Bool.not_eq_true]
        intro hc
        rw [Left.gluesToWord_of_continuesWord hc] at hglues
        cases hglues
      have hregex : (l.left == .regexEnd) = false := by
        rw [beq_eq_false_iff_ne]
        exact Left.ne_regexEnd_of_not_gluesToWord hglues
      simp [wordAfter, hb, hcontinues, hregex]

theorem doubles_gap {l : Lexer} {b : Byte} {gap : Gap}
    (h : l.left.runsInto b = true → (gap = .none ↔ l.gap = .none)) :
    { l with gap := gap }.doubles b = l.doubles b := by
  by_cases hsign : b.isSign = true ∧ l.left = .byte b
  · have hgap := h (by simp [Left.runsInto, Left.fusesWith, hsign])
    simp only [doubles, Gap.beq_none_congr hgap]
  · have hneither : (b.isSign && l.left == .byte b) = false := by
      rw [← Bool.not_eq_true, Bool.and_eq_true, beq_iff_eq]
      exact hsign
    cases hb : b.isSign
    · simp [doubles, hb]
    · rw [hb, Bool.true_and] at hneither
      simp [doubles, hneither]

/-- **What a byte of code makes of the state depends on the gap only where the two join.** -/
theorem token_gap {l : Lexer} {b : Byte} {gap : Gap}
    (h : l.left.runsInto b = true → (gap = .none ↔ l.gap = .none)) :
    { l with gap := gap }.token b = l.token b := by
  simp only [token, wordAfter_gap h, doubles_gap h]

/-! ### The state without its layout -/

/-- The state in which the lexer stands on the minified text. -/
def bare (l : Lexer) : Lexer :=
  match l.mode with
  | .literal _ => l
  | .code | .lineComment | .blockComment _ =>
    { l with mode := .code, held := false, gap := .none }

theorem bare_literal {l : Lexer} {literal : Literal} (h : l.mode = .literal literal) :
    l.bare = l := by
  rw [bare, h]

theorem bare_of_ne {l : Lexer} (h : ∀ literal, l.mode ≠ .literal literal) :
    l.bare = { l with mode := .code, held := false, gap := .none } := by
  rw [bare]
  cases hmode : l.mode with
  | literal literal => exact absurd hmode (h literal)
  | _ => rfl

theorem bare_code {l : Lexer} (hheld : l.held = false) (hmode : l.mode = .code) :
    l.bare = { l with gap := .none } := by
  rw [bare_of_ne (by simp [hmode])]
  cases l
  cases hmode
  cases hheld
  rfl

theorem bare_leave {l : Lexer} (hheld : l.held = false) (hgap : l.gap = .none)
    (literal : Literal) : (l.leave literal).bare = l.leave literal := by
  rw [bare_code (by exact hheld) rfl, ← hgap]
  rfl

theorem finish_bare {l : Lexer} (h : l.finish = none) : l.bare.finish = none := by
  rw [bare]
  cases hmode : l.mode with
  | literal literal => simpa using h
  | _ => rfl

theorem Silent.bare_eq {l l' : Lexer} (h : Silent l l') : l'.bare = l.bare := by
  rw [bare_of_ne h.not_literal, bare_of_ne h.not_literal', h.left_eq, h.doubled_eq, h.word_eq]

/-- The lexer takes the next byte right behind what was written last. -/
def Poised (l : Lexer) : Prop := l.mode = .code ∧ l.held = false ∧ l.gap = .none

theorem Step.not_poised {l l' : Lexer} {b : Byte} {next : Option Byte} (hl : l.Coherent)
    (h : Step l b next l' none) : ¬ l'.Poised := by
  rintro ⟨hcode, hfree, hgap⟩
  cases h with
  | dropHeld hheld hmode => exact hl.gap_ne_none hheld hcode hgap
  | blank hheld hmode hb =>
    rw [widen, Gap.widen_eq_none_iff] at hgap
    exact absurd hgap.2 (by decide)
  | lineBreak hheld hmode hb =>
    rw [widen, Gap.widen_eq_none_iff] at hgap
    exact absurd hgap.2 (by decide)
  | openLineComment hheld hmode => cases hcode
  | openBlockComment hheld hmode => cases hcode
  | lineComment hheld hmode hb => rw [hmode] at hcode; cases hcode
  | closeLineComment hheld hmode => exact gap_dropComment_ne_none l true hgap
  | blockComment hheld hmode hb => cases hcode
  | closeBlockComment hheld hmode => cases hfree

end Lexer

/-! ### The byte behind a written piece -/

/-- The piece begins a token behind `left`, with `gap` between them. -/
def Piece.Begins (left : Left) (gap : Gap) : Piece → Prop
  | .code left' gap' _ => left' = left ∧ gap' = gap
  | .opener left' gap' _ _ => left' = left ∧ gap' = gap
  | .inner _ => False

theorem Lexer.Step.begins {l l' : Lexer} {b : Byte} {next : Option Byte} {piece : Piece}
    (h : Step l b next l' (some piece)) (hmode : ∀ literal, l.mode ≠ .literal literal) :
    piece.Begins l.left l.gap ∧ l.mode = .code ∧ l.held = false := by
  cases h with
  | copyHeld _ hlit | escape _ hlit | copy _ hlit | closeLiteral _ hlit =>
    exact absurd hlit (hmode _)
  | openRegex hheld hcode => exact ⟨⟨rfl, rfl⟩, hcode, hheld⟩
  | openString hheld hcode => exact ⟨⟨rfl, rfl⟩, hcode, hheld⟩
  | token hheld hcode => exact ⟨⟨rfl, rfl⟩, hcode, hheld⟩

/-- **The next token begins right here, or behind a gap.** -/
theorem Reads.begins {ahead : Option Byte} {l l' : Lexer} {text : Bytes} {piece : Piece}
    {pieces pieces' : List Piece} (h : Reads ahead l text pieces' l')
    (hpieces : pieces' = piece :: pieces) (hl : l.Coherent)
    (hmode : ∀ literal, l.mode ≠ .literal literal) :
    ∃ gap, piece.Begins l.left gap ∧ (gap = .none → l.Poised ∧ text.head? = some piece.byte) := by
  induction h with
  | nil => cases hpieces
  | @cons l l₁ l' b text first? rest first hrest ih =>
    cases first? with
    | none =>
      obtain ⟨gap, hbegins, hnone⟩ := ih hpieces (first.coherent hl) first.silent.not_literal'
      rw [first.silent.left_eq] at hbegins
      exact ⟨gap, hbegins, fun hgap => absurd (hnone hgap).1 (first.not_poised hl)⟩
    | some p =>
      obtain ⟨rfl, -⟩ := List.cons.inj hpieces
      obtain ⟨hbegins, hcode, hheld⟩ := first.begins hmode
      exact ⟨l.gap, hbegins, fun hgap => ⟨⟨hcode, hheld, hgap⟩, by simp [first.byte_eq]⟩⟩

theorem Piece.separator?_of_begins {left : Left} {gap : Gap} {piece : Piece} (o : Options)
    (h : piece.Begins left gap) :
    ∃ regex, piece.separator? o = separator left (gap.under o) piece.byte regex := by
  cases piece with
  | code left' gap' b => obtain ⟨rfl, rfl⟩ := h; exact ⟨false, rfl⟩
  | opener left' gap' regex b => obtain ⟨rfl, rfl⟩ := h; exact ⟨regex, rfl⟩
  | inner b => exact h.elim

def writtenHead (o : Options) (pieces : List Piece) (ahead : Option Byte) : Option Byte :=
  (pieces.flatMap (Piece.write o)).head?.or ahead

theorem writtenHead_cons (o : Options) (piece : Piece) (pieces : List Piece)
    (ahead : Option Byte) :
    writtenHead o (piece :: pieces) ahead
      = some ((piece.separator? o).getD piece.byte) := by
  rw [writtenHead, List.flatMap_cons, Piece.write]
  cases piece.separator? o <;> rfl

/-- **A slash does not meet a byte that makes a comment of it**, unless it met one before. -/
theorem Reads.not_opensComment_written {o : Options} {ahead ahead' : Option Byte} {l l' : Lexer}
    {text : Bytes} {pieces : List Piece} (h : Reads ahead l text pieces l') (hl : l.Coherent)
    (hmode : ∀ literal, l.mode ≠ .literal literal) (hleft : l.left = .byte Byte.slash)
    (htext : ¬ OpensComment (text.head?.or ahead)) (hahead : ¬ OpensComment ahead') :
    ¬ OpensComment (writtenHead o pieces ahead') := by
  cases pieces with
  | nil => exact hahead
  | cons piece pieces =>
    obtain ⟨gap, hbegins, hnone⟩ := h.begins rfl hl hmode
    obtain ⟨regex, hsep⟩ := piece.separator?_of_begins o hbegins
    rw [writtenHead_cons, hsep, hleft]
    cases hs : separator (.byte Byte.slash) (gap.under o) piece.byte regex with
    | some s =>
      rcases separator_eq_some hs with rfl | rfl
      · simp [OpensComment, show Byte.lf ≠ Byte.slash by decide, show Byte.lf ≠ Byte.star by decide]
      · simp [OpensComment, show Byte.space ≠ Byte.slash by decide,
          show Byte.space ≠ Byte.star by decide]
    | none =>
      -- no separator: either there was no gap, or the byte does not fuse with a slash
      rw [Option.getD_none]
      intro hopens
      have hfuse : (Left.byte Byte.slash).fusesWith piece.byte = true := by
        rcases hopens with hb | hb <;> simp [Left.fusesWith, Option.some.inj hb]
      have hruns : (Left.byte Byte.slash).runsInto piece.byte = true := by
        rw [Left.runsInto, hfuse, Bool.or_true]
      have hgap : gap = .none := by
        rw [← Left.keeps_of_runsInto hruns o gap regex, hs]
        rfl
      rw [(hnone hgap).2] at htext
      exact htext hopens

/-- **Inside a literal the byte behind is the one that stood there before.** -/
theorem Reads.writtenHead_of_literal {o : Options} {ahead ahead' : Option Byte} {l l' : Lexer}
    {text : Bytes} {pieces : List Piece} {literal : Literal} (h : Reads ahead l text pieces l')
    (hmode : l.mode = .literal literal) (hfinish : l'.finish = none) :
    writtenHead o pieces ahead' = text.head?.or ahead ∧ text ≠ [] := by
  cases h with
  | nil => simp [Lexer.finish, hmode] at hfinish
  | @cons _ l₁ _ b text piece pieces first rest =>
    rw [first.piece_of_literal hmode]
    refine ⟨?_, by simp⟩
    rw [Option.toList_some, List.singleton_append, writtenHead_cons]
    rfl

/-! ### Retracing a run -/

/-- A run that opens no comment. -/
structure ReadsPlain (ahead : Option Byte) (l : Lexer) (text : Bytes) (pieces : List Piece)
    (l' : Lexer) : Prop where
  reads : Reads ahead l text pieces l'
  comments_eq_zero : Lexer.comments ahead l text = 0

namespace ReadsPlain

theorem nil (ahead : Option Byte) (l : Lexer) : ReadsPlain ahead l [] [] l := ⟨.nil l, rfl⟩

theorem single {ahead : Option Byte} {l l' : Lexer} {b : Byte} {piece : Option Piece}
    (h : Step l b ahead l' piece) (hmode : l'.mode.isComment = false) :
    ReadsPlain ahead l [b] piece.toList l' := by
  refine ⟨.single h, ?_⟩
  have hfirst : Step l b (([] : Bytes).head?.or ahead) l' piece := h
  rw [hfirst.comments_cons, if_neg (by simp [hmode]), Lexer.comments]

theorem append {ahead : Option Byte} {l l₁ l' : Lexer} {text₁ text₂ : Bytes}
    {pieces₁ pieces₂ : List Piece} (h₁ : ReadsPlain (text₂.head?.or ahead) l text₁ pieces₁ l₁)
    (h₂ : ReadsPlain ahead l₁ text₂ pieces₂ l') :
    ReadsPlain ahead l (text₁ ++ text₂) (pieces₁ ++ pieces₂) l' := by
  refine ⟨h₁.reads.append h₂.reads, ?_⟩
  rw [h₁.reads.comments_append, h₁.comments_eq_zero, h₂.comments_eq_zero]

end ReadsPlain

/-- **A separator is read as a gap and nothing else.** -/
theorem readsPlain_separator {l : Lexer} {left : Left} {gap : Gap} {b : Byte} {regex : Bool}
    (hheld : l.held = false) (hmode : l.mode = .code) (ahead : Option Byte) :
    ReadsPlain ahead { l with gap := .none } (separator left gap b regex).toList []
      { l with gap := Gap.ofSeparator (separator left gap b regex) } := by
  cases hsep : separator left gap b regex with
  | none => exact .nil ahead _
  | some s =>
    rcases separator_eq_some hsep with rfl | rfl
    · have hstep : Step { l with gap := .none } Byte.lf ahead { l with gap := .newline } none :=
        .lineBreak hheld hmode (by decide)
      exact .single hstep (by simp [hmode, Mode.isComment])
    · have hstep : Step { l with gap := .none } Byte.space ahead { l with gap := .space } none :=
        .blank hheld hmode (by decide)
      exact .single hstep (by simp [hmode, Mode.isComment])

theorem readsPlain_behind_separator {l l' : Lexer} {left : Left} {gap : Gap} {b : Byte}
    {regex : Bool} {next : Option Byte} {piece : Piece} (hheld : l.held = false)
    (hmode : l.mode = .code) (hmode' : l'.mode.isComment = false)
    (h : Step { l with gap := Gap.ofSeparator (separator left gap b regex) } b next l'
      (some piece)) :
    ReadsPlain next l.bare ((separator left gap b regex).toList ++ [b]) [piece] l' := by
  rw [Lexer.bare_code hheld hmode]
  have hsep : ReadsPlain (([b] : Bytes).head?.or next) { l with gap := .none }
      (separator left gap b regex).toList []
      { l with gap := Gap.ofSeparator (separator left gap b regex) } :=
    readsPlain_separator hheld hmode (some b)
  exact hsep.append (.single h hmode')

/-- What the byte behind has to be for a step to go as it went. -/
structure Retraceable (l : Lexer) (b : Byte) (next : Option Byte) : Prop where
  not_opensComment : l.mode = .code → b = Byte.slash → ¬ OpensComment next
  ne_none : ∀ literal, l.mode = .literal literal → l.held = false → b = Byte.backslash →
    next ≠ none

namespace Lexer

/-- **A step that gives a piece is retraced over what is written for it.** -/
theorem Step.retraced {o : Options} {l l' : Lexer} {b : Byte} {next next' : Option Byte}
    {piece : Piece} (h : Step l b next l' (some piece)) (hl : l.Coherent)
    (hnext : Retraceable l b next') :
    ReadsPlain next' l.bare (piece.write o) [piece.settle o] l'.bare := by
  cases h with
  | copyHeld hheld hmode =>
    rw [bare_literal hmode, bare_literal (by exact hmode)]
    exact .single (.copyHeld hheld hmode) (by simp [hmode, Mode.isComment])
  | openRegex hheld hmode hold hoperand =>
    rw [bare_literal (l := l.enter _) rfl]
    exact readsPlain_behind_separator hheld hmode rfl
      (.openRegex hheld hmode (hnext.not_opensComment hmode rfl) hoperand)
  | openString hheld hmode hb =>
    rw [bare_literal (l := l.enter _) rfl]
    exact readsPlain_behind_separator hheld hmode rfl (.openString hheld hmode hb)
  | token hheld hmode hclass hquote hslash =>
    -- the gap may have changed, but not where the word or the doubled sign depends on it
    have htoken :
        { l with gap := Gap.ofSeparator (separator l.left (l.gap.under o) b false) }.token b
          = l.token b := token_gap fun hruns => Left.keeps_of_runsInto hruns o l.gap false
    have hbare : (l.token b).bare = l.token b := bare_code hheld hmode
    rw [hbare]
    refine readsPlain_behind_separator hheld hmode (by simp [Lexer.token, hmode, Mode.isComment]) ?_
    rw [← htoken]
    exact .token hheld hmode hclass hquote fun hb =>
      ⟨hnext.not_opensComment hmode hb, (hslash hb).2⟩
  | escape hheld hmode =>
    obtain ⟨c, rfl⟩ := Option.ne_none_iff_exists'.mp (hnext.ne_none _ hmode hheld rfl)
    rw [bare_literal hmode, bare_literal (by exact hmode)]
    exact .single (.escape hheld hmode) (by simp [hmode, Mode.isComment])
  | copy hheld hmode hlf hback hlit =>
    rw [bare_literal hmode, bare_literal rfl]
    exact .single (.copy hheld hmode hlf hback hlit) rfl
  | closeLiteral hheld hmode hlf hback hlit =>
    rw [bare_literal hmode, bare_leave hheld (hl.gap_eq_none _ hmode)]
    exact .single (.closeLiteral hheld hmode hlf hback hlit) rfl

end Lexer

/-- **The byte behind a written piece lets the step go as it went.** -/
theorem Reads.retraceable (o : Options) {ahead ahead' : Option Byte} {l l₁ l' : Lexer} {b : Byte}
    {text : Bytes} {piece : Piece} {pieces : List Piece} (hahead : ¬ OpensComment ahead')
    (first : Step l b (text.head?.or ahead) l₁ (some piece)) (rest : Reads ahead l₁ text pieces l')
    (hl : l₁.Coherent) (hfinish : l'.finish = none) :
    Retraceable l b (writtenHead o pieces ahead') := by
  generalize hnext : text.head?.or ahead = next at first
  cases first with
  | openRegex hheld hmode hold hoperand =>
    refine ⟨fun _ _ => ?_, by simp [hmode]⟩
    rwa [(rest.writtenHead_of_literal rfl hfinish).1, hnext]
  | openString hheld hmode hb =>
    exact ⟨fun _ he => absurd he (Byte.ne_slash_of_isQuote hb), by simp [hmode]⟩
  | token hheld hmode hclass hquote hslash =>
    -- a division sign: what follows may be moved next to it
    refine ⟨fun _ he => ?_, by simp [hmode]⟩
    subst he hnext
    refine rest.not_opensComment_written hl (by simp [Lexer.token, hmode]) ?_ (hslash rfl).1 hahead
    simp [Lexer.token, show Byte.slash.isDigit = false by decide]
  | escape hheld hmode =>
    refine ⟨by simp [hmode], fun _ _ _ _ => ?_⟩
    rw [(rest.writtenHead_of_literal hmode hfinish).1, hnext]
    simp
  | copyHeld hheld hmode => exact ⟨by simp [hmode], by simp [hheld]⟩
  | copy _ hmode _ hback => exact ⟨by simp [hmode], fun _ _ _ he => absurd he hback⟩
  | closeLiteral _ hmode _ hback => exact ⟨by simp [hmode], fun _ _ _ he => absurd he hback⟩

/-- **A run is retraced over what is written for its pieces**, without a comment. -/
theorem Reads.retraced (o : Options) {ahead : Option Byte} {l l' : Lexer} {text : Bytes}
    {pieces : List Piece} (hahead : ¬ OpensComment ahead) (h : Reads none l text pieces l')
    (hl : l.Coherent) (hfinish : l'.finish = none) :
    ReadsPlain ahead l.bare (pieces.flatMap (Piece.write o)) (pieces.map (Piece.settle o))
      l'.bare := by
  induction h with
  | nil l => exact .nil ahead l.bare
  | @cons l l₁ l' b text piece pieces first rest ih =>
    have hrest := ih (first.coherent hl) hfinish
    cases piece with
    | none =>
      -- a gap or a comment: nothing is written, and the bare lexer stays where it is
      rwa [first.silent.bare_eq] at hrest
    | some piece =>
      have hnext := Reads.retraceable o hahead first rest (first.coherent hl) hfinish
      exact (first.retraced hl hnext).append hrest

/-! ### Scanning minified text -/

theorem cr_notMem_write {o : Options} {text : Bytes} {pieces : List Piece} (hcr : Byte.cr ∉ text)
    (h : ∀ piece ∈ pieces, piece.byte ∈ text) : Byte.cr ∉ pieces.flatMap (Piece.write o) := by
  intro hmem
  obtain ⟨piece, hpiece, hwrite⟩ := List.mem_flatMap.mp hmem
  rw [Piece.write, List.mem_append, List.mem_singleton, Option.mem_toList] at hwrite
  rcases hwrite with hsep | hbyte
  · have hlayout : Byte.cr = Byte.lf ∨ Byte.cr = Byte.space := by
      cases piece with
      | code left gap b => exact separator_eq_some hsep
      | opener left gap regex b => exact separator_eq_some hsep
      | inner b => cases hsep
    exact absurd hlayout (by decide)
  · exact hcr (hbyte ▸ h piece hpiece)

theorem cr_notMem_trailer (o : Options) (s : Scan) : Byte.cr ∉ s.trailer o := by
  rw [Scan.trailer]
  split <;> decide

theorem not_opensComment_trailer (o : Options) (s : Scan) :
    ¬ OpensComment ((s.trailer o).head?.or none) := by
  rw [Scan.trailer, OpensComment]
  split <;> decide

theorem readsPlain_trailer {l : Lexer} (h : l.finish = none) (o : Options) (s : Scan) :
    ∃ l', ReadsPlain none l.bare (s.trailer o) [] l' ∧ l'.finish = none := by
  rw [Scan.trailer]
  split
  · have hbare : l.bare = { l with mode := .code, held := false, gap := .none } := by
      refine Lexer.bare_of_ne fun literal hmode => ?_
      simp [Lexer.finish, hmode] at h
    have hstep : Step l.bare Byte.lf none (l.bare.widen .newline) none := by
      rw [hbare]
      exact .lineBreak rfl rfl (by decide)
    refine ⟨l.bare.widen .newline, .single hstep ?_, ?_⟩ <;> rw [hbare] <;> rfl
  · exact ⟨l.bare, .nil none l.bare, Lexer.finish_bare h⟩

/-- **Minified text is read without a comment**: first what is written for the pieces, then the last
line feed. -/
theorem readsPlain_of_minify {o : Options} {text out : Bytes} (h : minify o text = .ok out) :
    unifyBreaks out = (scan text).write o ++ (scan text).trailer o ∧
      ∃ l l', ReadsPlain (((scan text).trailer o).head?.or none) .initial ((scan text).write o)
          ((scan text).pieces.map (Piece.settle o)) l ∧
        ReadsPlain none l ((scan text).trailer o) [] l' ∧ l'.finish = none := by
  obtain ⟨hstop, rfl⟩ := minify_eq_ok_iff.mp h
  obtain ⟨l', hreads, hfinish⟩ := reads_of_scan hstop
  have hcr : Byte.cr ∉ (scan text).write o ++ (scan text).trailer o := by
    rw [List.mem_append, not_or]
    exact ⟨cr_notMem_write (cr_notMem_unifyBreaks text) hreads.byte_mem, cr_notMem_trailer o _⟩
  obtain ⟨l'', htrailer, hfinish'⟩ := readsPlain_trailer hfinish o (scan text)
  exact ⟨unifyBreaks_eq_self hcr, l'.bare, l'',
    Reads.retraced o (not_opensComment_trailer o (scan text)) hreads Lexer.coherent_initial hfinish,
    htrailer, hfinish'⟩

/-- **Minified text is read as the same pieces**, each with the gap that its separator makes, and
without a comment. -/
theorem scan_of_minify {o : Options} {text out : Bytes} (h : minify o text = .ok out) :
    (scan out).pieces = (scan text).pieces.map (Piece.settle o) ∧ (scan out).stop = none ∧
      comments out = 0 := by
  obtain ⟨hunify, l, l', hwrite, htrailer, hfinish⟩ := readsPlain_of_minify h
  have hwritten := hwrite.append htrailer
  rw [List.append_nil, ← hunify] at hwritten
  obtain ⟨hpieces, hstop⟩ := scan_of_reads hwritten.reads hfinish
  exact ⟨hpieces, hstop, hwritten.comments_eq_zero⟩

end ScriptMinifier
