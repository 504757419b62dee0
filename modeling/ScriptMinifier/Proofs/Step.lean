import ScriptMinifier.Lexer

/-!
# The transitions of the lexer

`Lexer.step` is one function with many branches.  `Lexer.Step` names them: a constructor for each
thing that can happen to a byte, with its guard, the state it leads to and the piece it gives.
`Lexer.step_eq_ok_iff` says that the two agree, so a proof about a step is a case analysis over the
constructors and never opens the function.

* `Lexer.Coherent`: what holds between any two bytes.  A byte held in code is the end of a comment,
  so the gap is not empty there; inside a literal it is.
* `Lexer.Step.coherent`: every transition keeps it.
* `Lexer.Step.silent`: a transition without a piece changes only the layout.
* `Lexer.Step.hasWritten_eq`: a piece was given exactly if something was written.
-/

namespace ScriptMinifier

/-! ### Bytes that code takes as they are -/

theorem ByteClass.of_eq_other_iff {b : Byte} :
    ByteClass.of (some b) = .other ↔ b.isBlank = false ∧ b.isLineBreak = false := by
  rw [ByteClass.of]
  cases hblank : b.isBlank
  · cases hbreak : b.isLineBreak <;> simp
  · simp

theorem ByteClass.of_slash : ByteClass.of (some Byte.slash) = .other := by decide

theorem Byte.eq_of_isQuote {b : Byte} (h : b.isQuote = true) :
    b = Byte.doubleQuote ∨ b = Byte.singleQuote := by
  simpa [Byte.isQuote] using h

theorem ByteClass.of_quote {b : Byte} (h : b.isQuote = true) : ByteClass.of (some b) = .other := by
  rcases Byte.eq_of_isQuote h with rfl | rfl <;> decide

theorem Byte.ne_slash_of_isQuote {b : Byte} (h : b.isQuote = true) : b ≠ Byte.slash := by
  rcases Byte.eq_of_isQuote h with rfl | rfl <;> decide

theorem Byte.not_isBlank_of_isLineBreak {b : Byte} (h : b.isLineBreak = true) :
    b.isBlank = false := by
  have hb : b = Byte.lf ∨ b = Byte.cr := by simpa [Byte.isLineBreak] using h
  rcases hb with rfl | rfl <;> decide

/-! ### The transitions -/

def OpensComment (next : Option Byte) : Prop := next = some Byte.slash ∨ next = some Byte.star

namespace Lexer

/-- `Step l b next l' piece`: in state `l` the byte `b`, with `next` behind it, leads to `l'` and
gives `piece`. -/
inductive Step : Lexer → Byte → Option Byte → Lexer → Option Piece → Prop
  | copyHeld {l : Lexer} {literal : Literal} {b : Byte} {next : Option Byte}
      (hheld : l.held = true) (hmode : l.mode = .literal literal) :
      Step l b next { l with held := false } (some (.inner b))
  | dropHeld {l : Lexer} {b : Byte} {next : Option Byte}
      (hheld : l.held = true) (hmode : ∀ literal, l.mode ≠ .literal literal) :
      Step l b next { l with held := false } none
  | blank {l : Lexer} {b : Byte} {next : Option Byte}
      (hheld : l.held = false) (hmode : l.mode = .code) (hb : b.isBlank = true) :
      Step l b next (l.widen .space) none
  | lineBreak {l : Lexer} {b : Byte} {next : Option Byte}
      (hheld : l.held = false) (hmode : l.mode = .code) (hb : b.isLineBreak = true) :
      Step l b next (l.widen .newline) none
  | openLineComment {l : Lexer} (hheld : l.held = false) (hmode : l.mode = .code) :
      Step l Byte.slash (some Byte.slash) { l with mode := .lineComment, held := true } none
  | openBlockComment {l : Lexer} (hheld : l.held = false) (hmode : l.mode = .code) :
      Step l Byte.slash (some Byte.star) { l with mode := .blockComment false, held := true } none
  | openRegex {l : Lexer} {next : Option Byte}
      (hheld : l.held = false) (hmode : l.mode = .code) (hnext : ¬ OpensComment next)
      (hoperand : l.operandPosition = true) :
      Step l Byte.slash next (l.enter (.regex false)) (some (.opener l.left l.gap true Byte.slash))
  | openString {l : Lexer} {b : Byte} {next : Option Byte}
      (hheld : l.held = false) (hmode : l.mode = .code) (hb : b.isQuote = true) :
      Step l b next (l.enter (.string b)) (some (.opener l.left l.gap false b))
  | token {l : Lexer} {b : Byte} {next : Option Byte}
      (hheld : l.held = false) (hmode : l.mode = .code)
      (hclass : ByteClass.of (some b) = .other) (hquote : b.isQuote = false)
      (hslash : b = Byte.slash → ¬ OpensComment next ∧ l.operandPosition = false) :
      Step l b next (l.token b) (some (.code l.left l.gap b))
  | lineComment {l : Lexer} {b : Byte} {next : Option Byte}
      (hheld : l.held = false) (hmode : l.mode = .lineComment) (hb : b ≠ Byte.lf) :
      Step l b next l none
  | closeLineComment {l : Lexer} {next : Option Byte}
      (hheld : l.held = false) (hmode : l.mode = .lineComment) :
      Step l Byte.lf next (l.dropComment true) none
  | blockComment {l : Lexer} {broken : Bool} {b : Byte} {next : Option Byte}
      (hheld : l.held = false) (hmode : l.mode = .blockComment broken)
      (hb : ¬ (b = Byte.star ∧ next = some Byte.slash)) :
      Step l b next { l with mode := .blockComment (broken || b == Byte.lf) } none
  | closeBlockComment {l : Lexer} {broken : Bool}
      (hheld : l.held = false) (hmode : l.mode = .blockComment broken) :
      Step l Byte.star (some Byte.slash) { l.dropComment broken with held := true } none
  | escape {l : Lexer} {literal : Literal} {c : Byte}
      (hheld : l.held = false) (hmode : l.mode = .literal literal) :
      Step l Byte.backslash (some c) { l with held := true } (some (.inner Byte.backslash))
  | copy {l : Lexer} {literal literal' : Literal} {b : Byte} {next : Option Byte}
      (hheld : l.held = false) (hmode : l.mode = .literal literal) (hlf : b ≠ Byte.lf)
      (hback : b ≠ Byte.backslash) (hlit : literal.next? b = some literal') :
      Step l b next { l with mode := .literal literal' } (some (.inner b))
  | closeLiteral {l : Lexer} {literal : Literal} {b : Byte} {next : Option Byte}
      (hheld : l.held = false) (hmode : l.mode = .literal literal) (hlf : b ≠ Byte.lf)
      (hback : b ≠ Byte.backslash) (hlit : literal.next? b = none) :
      Step l b next (l.leave literal) (some (.inner b))

theorem Step.step_eq {l l' : Lexer} {b : Byte} {next : Option Byte} {piece : Option Piece}
    (h : Step l b next l' piece) : l.step b next = .ok (l', piece) := by
  cases h with
  | copyHeld hheld hmode => simp [step, hheld, release, hmode]
  | dropHeld hheld hmode =>
    cases hm : l.mode with
    | literal literal => exact absurd hm (hmode literal)
    | _ => simp [step, hheld, release, hm]
  | blank hheld hmode hb => simp [step, hheld, hmode, stepCode, ByteClass.of, hb]
  | lineBreak hheld hmode hb =>
    simp [step, hheld, hmode, stepCode, ByteClass.of, hb, Byte.not_isBlank_of_isLineBreak hb]
  | openLineComment hheld hmode => simp [step, hheld, hmode, stepCode, ByteClass.of_slash]
  | openBlockComment hheld hmode =>
    simp [step, hheld, hmode, stepCode, ByteClass.of_slash, show Byte.star ≠ Byte.slash by decide]
  | openRegex hheld hmode hnext hoperand =>
    rw [OpensComment, not_or] at hnext
    simp [step, hheld, hmode, stepCode, ByteClass.of_slash, hnext, hoperand]
  | openString hheld hmode hb =>
    simp [step, hheld, hmode, stepCode, ByteClass.of_quote hb, Byte.ne_slash_of_isQuote hb, hb]
  | token hheld hmode hclass hquote hslash =>
    by_cases hb : b = Byte.slash
    · obtain ⟨hnext, hoperand⟩ := hslash hb
      rw [OpensComment, not_or] at hnext
      simp [step, hheld, hmode, stepCode, hclass, hquote, hnext, hoperand]
    · simp [step, hheld, hmode, stepCode, hclass, hquote, hb]
  | lineComment hheld hmode hb => simp [step, hheld, hmode, hb]
  | closeLineComment hheld hmode => simp [step, hheld, hmode]
  | blockComment hheld hmode hb => simp [step, hheld, hmode, hb]
  | closeBlockComment hheld hmode => simp [step, hheld, hmode]
  | escape hheld hmode =>
    simp [step, hheld, hmode, stepLiteral, show Byte.backslash ≠ Byte.lf by decide]
  | copy hheld hmode hlf hback hlit => simp [step, hheld, hmode, stepLiteral, hlf, hback, hlit]
  | closeLiteral hheld hmode hlf hback hlit =>
    simp [step, hheld, hmode, stepLiteral, hlf, hback, hlit]

theorem Step.of_stepCode {l l' : Lexer} {b : Byte} {next : Option Byte} {piece : Option Piece}
    (hheld : l.held = false) (hmode : l.mode = .code) (h : l.stepCode b next = (l', piece)) :
    Step l b next l' piece := by
  cases hblank : b.isBlank with
  | true =>
    simp only [stepCode, ByteClass.of, hblank, if_true, Prod.mk.injEq] at h
    obtain ⟨rfl, rfl⟩ := h
    exact .blank hheld hmode hblank
  | false =>
    cases hbreak : b.isLineBreak with
    | true =>
      simp only [stepCode, ByteClass.of, hblank, hbreak, if_true, Bool.false_eq_true, if_false,
        Prod.mk.injEq] at h
      obtain ⟨rfl, rfl⟩ := h
      exact .lineBreak hheld hmode hbreak
    | false =>
      have hclass := ByteClass.of_eq_other_iff.mpr ⟨hblank, hbreak⟩
      simp only [stepCode, hclass] at h
      split at h
      next hc =>
        obtain ⟨rfl, rfl⟩ := hc
        cases h
        exact .openLineComment hheld hmode
      next hline =>
      split at h
      next hc =>
        obtain ⟨rfl, rfl⟩ := hc
        cases h
        exact .openBlockComment hheld hmode
      next hblock =>
      have hnext : b = Byte.slash → ¬ OpensComment next := by
        rintro hb (rfl | rfl)
        · exact hline ⟨hb, rfl⟩
        · exact hblock ⟨hb, rfl⟩
      split at h
      next hc =>
        obtain ⟨rfl, hoperand⟩ := hc
        cases h
        exact .openRegex hheld hmode (hnext rfl) hoperand
      next hregex =>
      split at h
      next hquote =>
        cases h
        exact .openString hheld hmode hquote
      next hquote =>
        cases h
        refine .token hheld hmode hclass (by simpa using hquote) fun hb => ⟨hnext hb, ?_⟩
        rw [not_and] at hregex
        simpa using hregex hb

theorem Step.of_stepLiteral {l l' : Lexer} {literal : Literal} {b : Byte} {next : Option Byte}
    {piece : Option Piece} (hheld : l.held = false) (hmode : l.mode = .literal literal)
    (h : l.stepLiteral literal b next = .ok (l', piece)) : Step l b next l' piece := by
  unfold stepLiteral at h
  split at h
  next => cases h
  next hlf =>
  split at h
  next hback =>
    subst hback
    cases next with
    | none => cases h
    | some c =>
      cases h
      exact .escape hheld hmode
  next hback =>
  cases hlit : literal.next? b with
  | none =>
    rw [hlit] at h
    cases h
    exact .closeLiteral hheld hmode hlf hback hlit
  | some literal' =>
    rw [hlit] at h
    cases h
    exact .copy hheld hmode hlf hback hlit

/-- **The transitions are what the step does.** -/
theorem step_eq_ok_iff {l l' : Lexer} {b : Byte} {next : Option Byte} {piece : Option Piece} :
    l.step b next = .ok (l', piece) ↔ Step l b next l' piece := by
  refine ⟨fun h => ?_, Step.step_eq⟩
  rw [step] at h
  cases hheld : l.held with
  | true =>
    rw [if_pos hheld] at h
    cases hmode : l.mode with
    | literal literal =>
      simp only [release, hmode, Except.ok.injEq, Prod.mk.injEq] at h
      obtain ⟨rfl, rfl⟩ := h
      exact hmode ▸ .copyHeld hheld hmode
    | _ =>
      simp only [release, hmode, Except.ok.injEq, Prod.mk.injEq] at h
      obtain ⟨rfl, rfl⟩ := h
      exact hmode ▸ .dropHeld hheld (by simp [hmode])
  | false =>
    rw [if_neg (by simp [hheld])] at h
    cases hmode : l.mode with
    | code =>
      rw [hmode] at h
      exact .of_stepCode hheld hmode (Except.ok.inj h)
    | lineComment =>
      rw [hmode] at h
      by_cases hb : b = Byte.lf
      · subst hb
        cases h
        exact .closeLineComment hheld hmode
      · rw [if_neg hb] at h
        cases h
        exact .lineComment hheld hmode hb
    | blockComment broken =>
      rw [hmode] at h
      by_cases hb : b = Byte.star ∧ next = some Byte.slash
      · obtain ⟨rfl, rfl⟩ := hb
        cases h
        exact .closeBlockComment hheld hmode
      · simp only [if_neg hb] at h
        cases h
        exact .blockComment hheld hmode hb
    | literal literal =>
      rw [hmode] at h
      exact .of_stepLiteral hheld hmode h

/-- The lexer is in code and takes the next byte for what it is. -/
structure AtCode (l : Lexer) : Prop where
  mode : l.mode = .code
  held : l.held = false

/-! ### What every transition keeps -/

/-- The gap is not empty behind a comment that is just being closed, and empty inside a literal. -/
structure Coherent (l : Lexer) : Prop where
  gap_ne_none : l.held = true → l.mode = .code → l.gap ≠ .none
  gap_eq_none : ∀ literal, l.mode = .literal literal → l.gap = .none

theorem coherent_initial : initial.Coherent := ⟨by simp [initial], by simp [initial]⟩

theorem gap_dropComment_ne_none (l : Lexer) (broken : Bool) :
    (l.dropComment broken).gap ≠ .none := by
  intro h
  rw [dropComment, widen, Gap.widen_eq_none_iff] at h
  cases broken <;> simp at h

theorem Step.coherent {l l' : Lexer} {b : Byte} {next : Option Byte} {piece : Option Piece}
    (h : Step l b next l' piece) (hl : l.Coherent) : l'.Coherent := by
  cases h with
  | copyHeld hheld hmode => exact ⟨by simp, hl.gap_eq_none⟩
  | dropHeld hheld hmode => exact ⟨by simp, hl.gap_eq_none⟩
  | blank hheld hmode hb => exact ⟨by simp [widen, hheld], by simp [widen, hmode]⟩
  | lineBreak hheld hmode hb => exact ⟨by simp [widen, hheld], by simp [widen, hmode]⟩
  | openLineComment hheld hmode => exact ⟨by simp, by simp⟩
  | openBlockComment hheld hmode => exact ⟨by simp, by simp⟩
  | openRegex hheld hmode hnext hoperand => exact ⟨by simp [enter], by simp [enter]⟩
  | openString hheld hmode hb => exact ⟨by simp [enter], by simp [enter]⟩
  | token hheld hmode hclass hquote hslash =>
    exact ⟨by simp [Lexer.token, hheld], by simp [Lexer.token]⟩
  | lineComment hheld hmode hb => exact hl
  | closeLineComment hheld hmode =>
    exact ⟨fun _ _ => gap_dropComment_ne_none l true, by simp [dropComment, widen]⟩
  | blockComment hheld hmode hb => exact ⟨by simp, by simp⟩
  | closeBlockComment hheld hmode =>
    exact ⟨fun _ _ => gap_dropComment_ne_none l _, by simp [dropComment, widen]⟩
  | escape hheld hmode => exact ⟨by simp [hmode], hl.gap_eq_none⟩
  | copy hheld hmode hlf hback hlit => exact ⟨by simp, fun _ _ => hl.gap_eq_none _ hmode⟩
  | closeLiteral hheld hmode hlf hback hlit => exact ⟨by simp [leave, hheld], by simp [leave]⟩

/-- Both states are outside literals, and nothing was written between them. -/
structure Silent (l l' : Lexer) : Prop where
  not_literal : ∀ literal, l.mode ≠ .literal literal
  not_literal' : ∀ literal, l'.mode ≠ .literal literal
  left_eq : l'.left = l.left
  doubled_eq : l'.doubled = l.doubled
  word_eq : l'.word = l.word

/-- **A transition without a piece changes only the layout.** -/
theorem Step.silent {l l' : Lexer} {b : Byte} {next : Option Byte} (h : Step l b next l' none) :
    Silent l l' := by
  cases h with
  | dropHeld hheld hmode => exact ⟨hmode, hmode, rfl, rfl, rfl⟩
  | blank hheld hmode hb => exact ⟨by simp [hmode], by simp [widen, hmode], rfl, rfl, rfl⟩
  | lineBreak hheld hmode hb => exact ⟨by simp [hmode], by simp [widen, hmode], rfl, rfl, rfl⟩
  | openLineComment hheld hmode => exact ⟨by simp [hmode], by simp, rfl, rfl, rfl⟩
  | openBlockComment hheld hmode => exact ⟨by simp [hmode], by simp, rfl, rfl, rfl⟩
  | lineComment hheld hmode hb => exact ⟨by simp [hmode], by simp [hmode], rfl, rfl, rfl⟩
  | closeLineComment hheld hmode =>
    exact ⟨by simp [hmode], by simp [dropComment, widen], rfl, rfl, rfl⟩
  | blockComment hheld hmode hb => exact ⟨by simp [hmode], by simp, rfl, rfl, rfl⟩
  | closeBlockComment hheld hmode =>
    exact ⟨by simp [hmode], by simp [dropComment, widen], rfl, rfl, rfl⟩

theorem Step.piece_of_literal {l l' : Lexer} {b : Byte} {next : Option Byte} {piece : Option Piece}
    {literal : Literal} (h : Step l b next l' piece) (hmode : l.mode = .literal literal) :
    piece = some (.inner b) := by
  cases h with
  | dropHeld hheld hne => exact absurd hmode (hne literal)
  | copyHeld | escape | copy | closeLiteral => rfl
  | _ => simp_all

def hasWritten (l : Lexer) : Bool :=
  match l.mode with
  | .literal _ => true
  | .code | .lineComment | .blockComment _ => l.left != .start

theorem left_token_ne_start (l : Lexer) (b : Byte) : (l.token b).left ≠ .start := by
  rw [token]
  split <;> simp

theorem left_leave_ne_start (l : Lexer) (literal : Literal) : (l.leave literal).left ≠ .start := by
  rw [leave]
  split <;> simp

/-- **Something has been written exactly if a piece was given.** -/
theorem Step.hasWritten_eq {l l' : Lexer} {b : Byte} {next : Option Byte} {piece : Option Piece}
    (h : Step l b next l' piece) : l'.hasWritten = (l.hasWritten || piece.isSome) := by
  cases h with
  | copyHeld hheld hmode => simp [hasWritten, hmode]
  | dropHeld hheld hmode => simp [hasWritten]
  | blank hheld hmode hb => simp [hasWritten, widen]
  | lineBreak hheld hmode hb => simp [hasWritten, widen]
  | openLineComment hheld hmode => simp [hasWritten, hmode]
  | openBlockComment hheld hmode => simp [hasWritten, hmode]
  | openRegex hheld hmode hnext hoperand => simp [hasWritten, enter]
  | openString hheld hmode hb => simp [hasWritten, enter]
  | token hheld hmode hclass hquote hslash =>
    have hmode' : (l.token b).mode = .code := hmode
    simp [hasWritten, hmode', left_token_ne_start]
  | lineComment hheld hmode hb => simp
  | closeLineComment hheld hmode => simp [hasWritten, dropComment, widen, hmode]
  | blockComment hheld hmode hb => simp [hasWritten, hmode]
  | closeBlockComment hheld hmode => simp [hasWritten, dropComment, widen, hmode]
  | escape hheld hmode => simp [hasWritten, hmode]
  | copy hheld hmode hlf hback hlit => simp [hasWritten]
  | closeLiteral hheld hmode hlf hback hlit =>
    have hmode' (literal : Literal) : (l.leave literal).mode = .code := rfl
    simp [hasWritten, hmode', left_leave_ne_start]

theorem hasWritten_of_finish {l : Lexer} (h : l.finish = none) :
    l.hasWritten = (l.left != .start) := by
  rw [hasWritten]
  cases hmode : l.mode with
  | literal literal => simp [finish, hmode] at h
  | _ => rfl

end Lexer

end ScriptMinifier
