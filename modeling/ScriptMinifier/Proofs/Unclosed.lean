import ScriptMinifier.Proofs.Breaks
import ScriptMinifier.Proofs.Stream.Schedule

/-!
# Literals that are not closed

Minifying fails exactly where a string, a regular expression or a block comment is opened in code
and not closed.  `OpensUnclosed` says this of an offset of the text as it came, without the lexer's
modes: a block comment needs a star and a slash somewhere behind it; a string needs its quote, and a
regular expression a slash outside brackets, among the bytes up to the end of the line that are not
escaped (`unescaped`).  What the lexer contributes is only how it came to the opening byte, and
whether a slash opens an operand there (`ReachesCode`).

The lexer knows nothing of what follows.  `Lexer.open?` does: it is the literal that the lexer is
inside of, if the rest of the text does not close it.  No step inside a literal changes it
(`Lexer.Step.open?_eq`), so a scan stops at the literal that is open from its opening byte on
(`Scan.stop_run_iff`).
-/

namespace ScriptMinifier

open Lexer (Step)

/-! ### The literal that the rest of a text leaves open -/

/-- A rest of a text closes the literal; with `held`, its first byte belongs to an escape. -/
def Literal.closedBy : Literal → Bool → Bytes → Bool
  | _, _, [] => false
  | literal, true, _ :: rest => literal.closedBy false rest
  | literal, false, b :: rest =>
    if b = Byte.lf then false
    else if b = Byte.backslash then literal.closedBy true rest
    else
      match literal.next? b with
      | none => true
      | some literal' => literal'.closedBy false rest

def closesComment : Bytes → Bool
  | [] => false
  | b :: rest => (b == Byte.star && rest.head? == some Byte.slash) || closesComment rest

theorem closesComment_iff {text : Bytes} :
    closesComment text = true ↔ [Byte.star, Byte.slash] <:+: text := by
  induction text with
  | nil => simp [closesComment]
  | cons b rest ih =>
    rw [closesComment, Bool.or_eq_true, ih, List.infix_cons_iff]
    refine or_congr_left ?_
    cases rest with
    | nil => simp [List.cons_prefix_cons]
    | cons c rest =>
      simp only [List.head?_cons, Bool.and_eq_true, beq_iff_eq, Option.some.injEq,
        List.cons_prefix_cons, List.nil_prefix, and_true]
      constructor <;> rintro ⟨rfl, rfl⟩ <;> exact ⟨rfl, rfl⟩

namespace Lexer

/-- The literal that the lexer is inside of, if `text` does not close it. -/
def open? (l : Lexer) (text : Bytes) : Option LiteralKind :=
  match l.mode with
  | .code | .lineComment => none
  | .blockComment _ =>
    if closesComment (if l.held then text.tail else text) then none else some .blockComment
  | .literal literal => if literal.closedBy l.held text then none else some literal.kind

theorem open?_of_code {l : Lexer} (h : l.mode = .code) (text : Bytes) : l.open? text = none := by
  rw [open?, h]

theorem open?_nil (l : Lexer) : l.open? [] = l.finish := by
  rw [open?, finish]
  cases l.mode with
  | literal literal => simp [Literal.closedBy]
  | blockComment broken => simp [closesComment]
  | code | lineComment => rfl

/-- **Inside a literal or a comment a step does not change what is left open.** -/
theorem Step.open?_eq {l l' : Lexer} {b : Byte} {rest : Bytes} {piece : Option Piece}
    (h : Step l b rest.head? l' piece) (hmode : l.mode ≠ .code) :
    l'.open? rest = l.open? (b :: rest) := by
  generalize hnext : rest.head? = next at h
  cases h with
  | copyHeld hheld hlit => simp [open?, hlit, hheld, Literal.closedBy]
  | dropHeld hheld hnot =>
    cases hm : l.mode with
    | literal literal => exact absurd hm (hnot literal)
    | code => exact absurd hm hmode
    | lineComment => simp [open?, hm]
    | blockComment broken => simp [open?, hm, hheld]
  | blank _ hcode | lineBreak _ hcode | openLineComment _ hcode | openBlockComment _ hcode
  | openRegex _ hcode | openString _ hcode | token _ hcode => exact absurd hcode hmode
  | lineComment hheld hline hb => simp [open?, hline]
  | closeLineComment hheld hline => simp [open?, hline, dropComment, widen]
  | blockComment hheld hblock hb =>
    have hnot : (b == Byte.star && rest.head? == some Byte.slash) = false := by
      rw [hnext]
      simpa using hb
    simp [open?, hblock, hheld, closesComment, hnot]
  | closeBlockComment hheld hblock =>
    simp [open?, hblock, hheld, dropComment, widen, closesComment, hnext]
  | escape hheld hlit =>
    simp [open?, hlit, hheld, Literal.closedBy, show Byte.backslash ≠ Byte.lf by decide]
  | copy hheld hlit hlf hback hnext? =>
    simp [open?, hlit, hheld, Literal.closedBy, hlf, hback, hnext?, Literal.kind_of_next? hnext?]
  | closeLiteral hheld hlit hlf hback hnext? =>
    simp [open?, hlit, hheld, Literal.closedBy, hlf, hback, hnext?, leave]

/-- **A step fails at the literal that is left open.** -/
theorem open?_of_step_error {l : Lexer} {b : Byte} {rest : Bytes} {kind : LiteralKind}
    (h : l.step b rest.head? = .error kind) :
    l.mode ≠ .code ∧ l.open? (b :: rest) = some kind := by
  rw [step] at h
  split at h
  next => cases h
  next hheld =>
  have hheld : l.held = false := by simpa using hheld
  cases hmode : l.mode with
  | code => simp [hmode] at h
  | lineComment => simp [hmode] at h
  | blockComment broken =>
    simp only [hmode] at h
    split at h <;> cases h
  | literal literal =>
    refine ⟨by simp, ?_⟩
    simp only [hmode, stepLiteral] at h
    rw [open?, hmode]
    by_cases hlf : b = Byte.lf
    · rw [if_pos hlf] at h
      obtain rfl := Except.error.inj h
      simp [Literal.closedBy, hheld, hlf]
    · rw [if_neg hlf] at h
      by_cases hback : b = Byte.backslash
      · rw [if_pos hback] at h
        cases rest with
        | nil =>
          obtain rfl := Except.error.inj h
          simp [Literal.closedBy, hheld, hback]
        | cons c rest => cases h
      · rw [if_neg hback] at h
        cases hnext : literal.next? b <;> simp [hnext] at h

end Lexer

/-- **A literal that is left open stays open** over any part of the text. -/
theorem Reads.open?_eq_some {l l' : Lexer} {text post : Bytes} {pieces : List Piece}
    {kind : LiteralKind} (h : Reads post.head? l text pieces l')
    (hopen : l.open? (text ++ post) = some kind) : l'.open? post = some kind := by
  induction h with
  | nil => exact hopen
  | @cons l l₁ l' b text piece pieces first _ ih =>
    have hmode : l.mode ≠ .code := by
      intro hcode
      rw [Lexer.open?_of_code hcode] at hopen
      cases hopen
    have hfirst : Step l b (text ++ post).head? l₁ piece := by rwa [List.head?_append]
    exact ih (hfirst.open?_eq hmode ▸ hopen)

/-- The byte `b` opens in state `l` what `rest` does not close. -/
def Lexer.LeavesOpen (l : Lexer) (b : Byte) (rest : Bytes) (kind : LiteralKind) : Prop :=
  l.AtCode ∧ ∃ l' piece, Step l b rest.head? l' piece ∧ l'.open? rest = some kind

def Lexer.OpensLater (l : Lexer) (here : Position) (text : Bytes) (u : Unterminated) : Prop :=
  ∃ pre b post pieces l', text = pre ++ b :: post ∧ Reads (some b) l pre pieces l' ∧
    l'.LeavesOpen b post u.kind ∧ u.opened = pre.foldl Position.advance here

namespace Lexer

theorem LeavesOpen.iff_of_step {l l₁ : Lexer} {b : Byte} {rest : Bytes} {piece : Option Piece}
    {kind : LiteralKind} (h : Step l b rest.head? l₁ piece) :
    l.LeavesOpen b rest kind ↔ l.AtCode ∧ l₁.open? rest = some kind := by
  refine and_congr_right fun _ => ⟨?_, fun hopen => ⟨l₁, piece, h, hopen⟩⟩
  rintro ⟨l', piece', h', hopen⟩
  have hsame := h.step_eq.symm.trans h'.step_eq
  simp only [Except.ok.injEq, Prod.mk.injEq] at hsame
  rw [hsame.1, hopen]

theorem OpensLater.cons_iff {l l₁ : Lexer} {here : Position} {b : Byte} {rest : Bytes}
    {piece : Option Piece} {u : Unterminated} (h : Step l b rest.head? l₁ piece) :
    l.OpensLater here (b :: rest) u ↔
      (l.LeavesOpen b rest u.kind ∧ u.opened = here) ∨ l₁.OpensLater (here.advance b) rest u := by
  constructor
  · rintro ⟨pre, c, post, pieces, l', htext, hreads, hleaves, hopened⟩
    cases hreads with
    | nil =>
      obtain ⟨rfl, rfl⟩ := List.cons.inj htext
      exact Or.inl ⟨hleaves, hopened⟩
    | @cons _ l₂ _ _ pre piece' pieces first hrest =>
      obtain ⟨rfl, rfl⟩ := List.cons.inj htext
      have hfirst : Step l b (pre ++ c :: post).head? l₂ piece' := by rwa [List.head?_append]
      have hsame := h.step_eq.symm.trans hfirst.step_eq
      simp only [Except.ok.injEq, Prod.mk.injEq] at hsame
      obtain ⟨rfl, rfl⟩ := hsame
      exact Or.inr ⟨pre, c, post, pieces, l', rfl, hrest, hleaves, hopened⟩
  · rintro (⟨hleaves, hopened⟩ | ⟨pre, c, post, pieces, l', rfl, hreads, hleaves, hopened⟩)
    · exact ⟨[], b, rest, [], l, rfl, .nil l, hleaves, hopened⟩
    · rw [List.head?_append] at h
      exact ⟨b :: pre, c, post, _, l', rfl, hreads.cons h, hleaves, hopened⟩

theorem Step.open?_iff {l l₁ : Lexer} {here opened : Position} {b : Byte} {rest : Bytes}
    {piece : Option Piece} {u : Unterminated} (h : Step l b rest.head? l₁ piece) :
    (l₁.open? rest = some u.kind ∧ u.opened = if l.mode = .code then here else opened) ↔
      (l.open? (b :: rest) = some u.kind ∧ u.opened = opened) ∨
      (l.LeavesOpen b rest u.kind ∧ u.opened = here) := by
  rw [LeavesOpen.iff_of_step h]
  by_cases hmode : l.mode = .code
  · rw [if_pos hmode, open?_of_code hmode]
    constructor
    · rintro ⟨hopen, hopened⟩
      cases hheld : l.held with
      | false => exact Or.inr ⟨⟨⟨hmode, hheld⟩, hopen⟩, hopened⟩
      | true =>
        -- a held byte of code is dropped, and the lexer stays in code
        have hstay := h.step_eq
        rw [step, if_pos hheld] at hstay
        have hl₁ : { l with held := false } = l₁ := congrArg Prod.fst (Except.ok.inj hstay)
        have hcode : l₁.mode = .code := by
          rw [← hl₁]
          exact hmode
        rw [open?_of_code hcode] at hopen
        cases hopen
    · rintro (⟨hopen, -⟩ | ⟨⟨-, hopen⟩, hopened⟩)
      · cases hopen
      · exact ⟨hopen, hopened⟩
  · rw [if_neg hmode, h.open?_eq hmode]
    constructor
    · exact Or.inl
    · rintro (hopen | ⟨⟨hcode, -⟩, -⟩)
      · exact hopen
      · exact absurd hcode.mode hmode

end Lexer

/-- **Where a scan stops**: at the literal it is inside of, if the text does not close it, or at one
that is opened later on. -/
theorem Scan.stop_run_iff {l : Lexer} {here opened : Position} {text : Bytes} {u : Unterminated} :
    (Scan.run l here opened text).stop = some u ↔
      (l.open? text = some u.kind ∧ u.opened = opened) ∨ l.OpensLater here text u := by
  induction text generalizing l here opened with
  | nil =>
    rw [Scan.run_nil, Lexer.open?_nil]
    constructor
    · intro h
      obtain ⟨kind, hkind, rfl⟩ := Option.map_eq_some_iff.mp h
      exact Or.inl ⟨hkind, rfl⟩
    · rintro (⟨hkind, hopened⟩ | ⟨pre, b, post, -, -, htext, -⟩)
      · rw [hkind, ← hopened]
        rfl
      · simp at htext
  | cons b rest ih =>
    cases hstep : l.step b rest.head? with
    | error kind =>
      obtain ⟨hmode, hopen⟩ := Lexer.open?_of_step_error hstep
      rw [Scan.run_error hstep, hopen, if_neg hmode]
      constructor
      · intro h
        obtain rfl := Option.some.inj h
        exact Or.inl ⟨rfl, rfl⟩
      · rintro (⟨hkind, hopened⟩ | ⟨pre, c, post, pieces, l', htext, hreads, hleaves, -⟩)
        · rw [Option.some.inj hkind, ← hopened]
        · -- no run gets past a failing step
          cases hreads with
          | nil => exact absurd hleaves.1.mode hmode
          | @cons _ l₁ _ _ pre piece pieces first _ =>
            obtain ⟨rfl, htail⟩ := List.cons.inj htext
            have hrest : rest = pre ++ c :: post := htail
            rw [hrest, List.head?_append] at hstep
            cases first.step_eq.symm.trans hstep
    | ok result =>
      obtain ⟨l₁, piece⟩ := result
      have hfirst := Lexer.step_eq_ok_iff.mp hstep
      rw [Scan.run_step hstep, Lexer.OpensLater.cons_iff hfirst, ← or_assoc,
        ← Lexer.Step.open?_iff hfirst]
      exact ih

/-! ### Bytes that can close a literal -/

/-- The bytes of a text that do not belong to an escape.  An escape is a backslash and the byte
behind it, or the whole line break behind it. -/
def unescaped : Bytes → Bytes
  | [] => []
  | b :: rest => if b = Byte.backslash then unescaped (dropOne rest) else b :: unescaped rest
termination_by text => text.length
decreasing_by
  · have hle := length_dropOne_le rest
    rw [List.length_cons]
    omega
  · rw [List.length_cons]
    omega

def firstLine (text : Bytes) : Bytes := text.takeWhile fun b => !b.isLineBreak

/-- The bytes of a text that stand outside brackets; `inside` tells whether it begins inside. -/
def outsideBrackets : Bool → Bytes → Bytes
  | _, [] => []
  | true, b :: rest =>
    if b = Byte.rightBracket then outsideBrackets false rest else outsideBrackets true rest
  | false, b :: rest =>
    if b = Byte.leftBracket then outsideBrackets true rest else b :: outsideBrackets false rest

namespace Literal

def EndsAmong : Literal → Bytes → Prop
  | string quote, bytes => quote ∈ bytes
  | regex inClass, bytes => Byte.slash ∈ outsideBrackets inClass bytes

theorem not_endsAmong_nil (literal : Literal) : ¬ literal.EndsAmong [] := by
  cases literal with
  | string quote => simp [EndsAmong]
  | regex inClass => simp [EndsAmong, outsideBrackets]

theorem endsAmong_of_next? {literal : Literal} {b : Byte} (h : literal.next? b = none)
    (bytes : Bytes) : literal.EndsAmong (b :: bytes) := by
  cases literal with
  | string quote =>
    have hb : b = quote := by simpa [next?] using h
    simp [EndsAmong, hb]
  | regex inClass =>
    rw [next?] at h
    split at h
    next hclose =>
      obtain ⟨rfl, rfl⟩ := hclose
      simp [EndsAmong, outsideBrackets, show Byte.slash ≠ Byte.leftBracket by decide]
    next =>
      split at h
      · cases h
      · split at h <;> cases h

theorem endsAmong_cons {literal literal' : Literal} {b : Byte} (h : literal.next? b = some literal')
    (bytes : Bytes) : literal.EndsAmong (b :: bytes) ↔ literal'.EndsAmong bytes := by
  cases literal with
  | string quote =>
    rw [next?] at h
    split at h
    next => cases h
    next hb =>
      cases h
      simp [EndsAmong, Ne.symm hb]
  | regex inClass =>
    have hbrackets : Byte.leftBracket ≠ Byte.rightBracket := by decide
    rw [next?] at h
    split at h
    next => cases h
    next hopen =>
    split at h
    next hb =>
      cases h
      cases inClass <;> simp [EndsAmong, outsideBrackets, hb, hbrackets]
    next hleft =>
    split at h
    next hb =>
      cases h
      have hslash : Byte.slash ≠ Byte.rightBracket := by decide
      cases inClass <;> simp [EndsAmong, outsideBrackets, hb, hbrackets.symm, hslash]
    next hright =>
      cases h
      cases inClass with
      | true => simp [EndsAmong, outsideBrackets, hright]
      | false =>
        have hne : Byte.slash ≠ b := by
          rintro rfl
          exact hopen ⟨rfl, rfl⟩
        simp [EndsAmong, outsideBrackets, hleft, hne]

theorem closedBy_true (literal : Literal) (text : Bytes) :
    literal.closedBy true text = literal.closedBy false text.tail := by
  cases text <;> rfl

/-- **A literal is closed by one of the bytes of its line that are not escaped.** -/
theorem closedBy_unifyBreaks_iff {literal : Literal} {text : Bytes} :
    literal.closedBy false (unifyBreaks text) = true ↔
      literal.EndsAmong (firstLine (unescaped text)) := by
  fun_induction unescaped text generalizing literal with
  | case1 => simpa [closedBy, firstLine] using literal.not_endsAmong_nil
  | case2 rest ih =>
    rw [unifyBreaks_cons (by decide), ← ih, unifyBreaks_dropOne, ← closedBy_true]
    simp [closedBy, show Byte.backslash ≠ Byte.lf by decide]
  | case3 b rest hback ih =>
    cases hbreak : b.isLineBreak with
    | true =>
      obtain ⟨rest', hrest⟩ :=
        List.head?_eq_some_iff.mp (head?_unifyBreaks_of_isLineBreak hbreak rest)
      have hline : firstLine (b :: unescaped rest) = [] := by simp [firstLine, hbreak]
      rw [hrest, hline, closedBy, if_pos rfl]
      simpa using literal.not_endsAmong_nil
    | false =>
      have hb : b ≠ Byte.cr ∧ b ≠ Byte.lf := by
        simpa [Byte.isLineBreak, and_comm] using hbreak
      have hline : firstLine (b :: unescaped rest) = b :: firstLine (unescaped rest) := by
        simp [firstLine, hbreak]
      rw [unifyBreaks_cons hb.1, hline, closedBy, if_neg hb.2, if_neg hback]
      cases hnext : literal.next? b with
      | none => simpa using endsAmong_of_next? hnext _
      | some literal' => rw [endsAmong_cons hnext, ← ih]

end Literal

theorem closesComment_cons {b : Byte} (hb : b ≠ Byte.star) (rest : Bytes) :
    closesComment (b :: rest) = closesComment rest := by
  simp [closesComment, hb]

theorem closesComment_unifyBreaks (text : Bytes) :
    closesComment (unifyBreaks text) = closesComment text := by
  induction text using breakInduction with
  | nil => rfl
  | pair rest ih =>
    rw [unifyBreaks_cons_cr_lf, closesComment_cons (by decide), closesComment_cons (by decide),
      closesComment_cons (by decide), ih]
  | lone rest hrest ih =>
    rw [unifyBreaks_cons_cr hrest, closesComment_cons (by decide), closesComment_cons (by decide),
      ih]
  | plain b rest hb ih =>
    have hhead :
        ((unifyBreaks rest).head? == some Byte.slash) = (rest.head? == some Byte.slash) := by
      rw [Bool.eq_iff_iff, beq_iff_eq, beq_iff_eq]
      exact head?_unifyBreaks (by decide) (by decide) rest
    rw [unifyBreaks_cons hb, closesComment, closesComment, ih, hhead]

/-! ### Openings in the text as it came -/

/-- The lexer comes to the byte at offset `i` in code, and is then in state `l`. -/
structure ReachesCode (text : Bytes) (i : Nat) (l : Lexer) : Prop where
  reads : ∃ pieces, Reads (text.drop i).head? .initial (unifyBreaks (text.take i)) pieces l
  atCode : l.AtCode

/-- **A literal is opened at offset `i` and not closed.** -/
inductive OpensUnclosed (text : Bytes) (i : Nat) : LiteralKind → Prop
  | blockComment {l : Lexer} {rest : Bytes} (reaches : ReachesCode text i l)
      (drop_eq : text.drop i = Byte.slash :: Byte.star :: rest)
      (not_closed : ¬ [Byte.star, Byte.slash] <:+: rest) : OpensUnclosed text i .blockComment
  | string {l : Lexer} {quote : Byte} {rest : Bytes} (reaches : ReachesCode text i l)
      (isQuote : quote.isQuote = true) (drop_eq : text.drop i = quote :: rest)
      (not_closed : quote ∉ firstLine (unescaped rest)) : OpensUnclosed text i .string
  | regex {l : Lexer} {rest : Bytes} (reaches : ReachesCode text i l)
      (operand : l.operandPosition = true) (drop_eq : text.drop i = Byte.slash :: rest)
      (not_comment : ¬ OpensComment rest.head?)
      (not_closed : Byte.slash ∉ outsideBrackets false (firstLine (unescaped rest))) :
      OpensUnclosed text i .regex

theorem Lexer.open?_of_literal {l : Lexer} {literal : Literal} {text : Bytes} {kind : LiteralKind}
    (hmode : l.mode = .literal literal) (hheld : l.held = false) :
    l.open? (unifyBreaks text) = some kind ↔
      ¬ literal.EndsAmong (firstLine (unescaped text)) ∧ literal.kind = kind := by
  rw [← Literal.closedBy_unifyBreaks_iff, Lexer.open?, hmode, hheld]
  dsimp only
  split
  next h => simp [h]
  next h => simp [h]

theorem Lexer.LeavesOpen.opensUnclosed {text rest : Bytes} {i : Nat} {b : Byte} {l : Lexer}
    {kind : LiteralKind} (hdrop : text.drop i = b :: rest) (hreach : ReachesCode text i l)
    (h : l.LeavesOpen b (unifyBreaks rest) kind) : OpensUnclosed text i kind := by
  obtain ⟨hl, l', piece, hstep, hopen⟩ := h
  generalize hnext : (unifyBreaks rest).head? = next at hstep
  cases hstep with
  | copyHeld hheld | dropHeld hheld =>
    rw [hl.held] at hheld
    cases hheld
  | blank hheld hmode hb => rw [open?_of_code (by exact hmode)] at hopen; cases hopen
  | lineBreak hheld hmode hb => rw [open?_of_code (by exact hmode)] at hopen; cases hopen
  | token hheld hmode => rw [open?_of_code (by exact hmode)] at hopen; cases hopen
  | openLineComment hheld hmode => cases hopen
  | openBlockComment hheld hmode =>
    rw [head?_unifyBreaks (by decide) (by decide)] at hnext
    obtain ⟨rest', rfl⟩ := List.head?_eq_some_iff.mp hnext
    rw [unifyBreaks_cons (by decide), open?] at hopen
    simp only [if_true, List.tail_cons, closesComment_unifyBreaks] at hopen
    split at hopen
    next => cases hopen
    next hclosed =>
      cases hopen
      exact .blockComment hreach hdrop fun hinfix => hclosed (closesComment_iff.mpr hinfix)
  | openRegex hheld hmode hcomment hoperand =>
    obtain ⟨hends, rfl⟩ := (open?_of_literal rfl (by exact hheld)).mp hopen
    refine .regex hreach hoperand hdrop ?_ hends
    rwa [← opensComment_unifyBreaks, hnext]
  | openString hheld hmode hb =>
    obtain ⟨hends, rfl⟩ := (open?_of_literal rfl (by exact hheld)).mp hopen
    exact .string hreach hb hdrop hends
  | lineComment hheld hmode | closeLineComment hheld hmode | blockComment hheld hmode
  | closeBlockComment hheld hmode | escape hheld hmode | copy hheld hmode
  | closeLiteral hheld hmode =>
    rw [hl.mode] at hmode
    cases hmode

theorem OpensUnclosed.leavesOpen {text : Bytes} {i : Nat} {kind : LiteralKind}
    (h : OpensUnclosed text i kind) :
    ∃ l b rest, text.drop i = b :: rest ∧ b ≠ Byte.cr ∧ b ≠ Byte.lf ∧ ReachesCode text i l ∧
      l.LeavesOpen b (unifyBreaks rest) kind := by
  cases h with
  | @blockComment l rest reaches drop_eq not_closed =>
    have hclosed : closesComment rest = false := by
      rw [← Bool.not_eq_true, closesComment_iff]
      exact not_closed
    have hrest := unifyBreaks_cons (show Byte.star ≠ Byte.cr by decide) rest
    have hstep : Step l Byte.slash (unifyBreaks (Byte.star :: rest)).head?
        { l with mode := .blockComment false, held := true } none := by
      rw [hrest]
      exact .openBlockComment reaches.atCode.held reaches.atCode.mode
    refine ⟨l, _, _, drop_eq, by decide, by decide, reaches, reaches.atCode, _, _, hstep, ?_⟩
    rw [hrest, Lexer.open?]
    simp [closesComment_unifyBreaks, hclosed]
  | @string l quote rest reaches isQuote drop_eq not_closed =>
    have hquote : quote ≠ Byte.cr ∧ quote ≠ Byte.lf := by
      rcases Byte.eq_of_isQuote isQuote with rfl | rfl <;> decide
    have hmode : (l.enter (.string quote)).mode = .literal (.string quote) := rfl
    exact ⟨l, _, _, drop_eq, hquote.1, hquote.2, reaches, reaches.atCode, _, _,
      .openString reaches.atCode.held reaches.atCode.mode isQuote,
      (Lexer.open?_of_literal hmode reaches.atCode.held).mpr ⟨not_closed, rfl⟩⟩
  | @regex l rest reaches operand drop_eq not_comment not_closed =>
    have hmode : (l.enter (.regex false)).mode = .literal (.regex false) := rfl
    exact ⟨l, _, _, drop_eq, by decide, by decide, reaches, reaches.atCode, _, _,
      .openRegex reaches.atCode.held reaches.atCode.mode
        (fun hopens => not_comment (opensComment_unifyBreaks.mp hopens)) operand,
      (Lexer.open?_of_literal hmode reaches.atCode.held).mpr ⟨not_closed, rfl⟩⟩

theorem Lexer.LeavesOpen.ne_lf {l : Lexer} {b : Byte} {rest : Bytes} {kind : LiteralKind}
    (h : l.LeavesOpen b rest kind) : b ≠ Byte.lf := by
  rintro rfl
  obtain ⟨hl, l', piece, hstep, hopen⟩ := h
  have hbreak : Step l Byte.lf rest.head? (l.widen .newline) none :=
    .lineBreak hl.held hl.mode (by decide)
  have hsame := hbreak.step_eq.symm.trans hstep.step_eq
  simp only [Except.ok.injEq, Prod.mk.injEq] at hsame
  rw [← hsame.1, open?_of_code (by exact hl.mode)] at hopen
  cases hopen

/-- **A scan stops at a literal that is opened and not closed**, and only there. -/
theorem scan_stop_iff {text : Bytes} {u : Unterminated} :
    (scan text).stop = some u ↔
      ∃ i, OpensUnclosed text i u.kind ∧ u.opened = positionAt text i := by
  have hinitial : ∀ text, Lexer.initial.open? text = none := Lexer.open?_of_code rfl
  rw [scan, Scan.stop_run_iff, hinitial]
  constructor
  · rintro (⟨hopen, -⟩ | ⟨pre, b, post, pieces, l, htext, hreads, hleaves, hopened⟩)
    · cases hopen
    · obtain ⟨p, r, rfl, rfl, rfl⟩ := exists_append_of_unifyBreaks hleaves.ne_lf htext
      have hdrop : (p ++ b :: r).drop p.length = b :: r := List.drop_left
      have htake : (p ++ b :: r).take p.length = p := List.take_left
      have hreach : ReachesCode (p ++ b :: r) p.length l := by
        refine ⟨⟨pieces, ?_⟩, hleaves.1⟩
        rwa [hdrop, htake]
      refine ⟨p.length, hleaves.opensUnclosed hdrop hreach, ?_⟩
      rw [hopened, ← foldl_advance_take, htake]
  · rintro ⟨i, hunclosed, hopened⟩
    obtain ⟨l, b, rest, hdrop, hcr, hlf, hreach, hleaves⟩ := hunclosed.leavesOpen
    obtain ⟨pieces, hreads⟩ := hreach.reads
    refine Or.inr ⟨unifyBreaks (text.take i), b, unifyBreaks rest, pieces, l, ?_, ?_, hleaves, ?_⟩
    · rw [← unifyBreaks_append hcr hlf, ← hdrop, List.take_append_drop]
    · rwa [hdrop] at hreads
    · rw [hopened, foldl_advance_take]

/-- **Only one literal can be left open**: the lexer does not come back to code behind it. -/
theorem OpensUnclosed.not_lt {text : Bytes} {i j : Nat} {kind kind' : LiteralKind}
    (hi : OpensUnclosed text i kind) (hj : OpensUnclosed text j kind') : ¬ j < i := by
  intro hlt
  obtain ⟨n, rfl⟩ : ∃ n, i = j + (n + 1) := ⟨i - j - 1, by omega⟩
  obtain ⟨l, b, rest, hdrop, hcr, hlf, ⟨⟨pieces, hreads⟩, hcode⟩, -⟩ := hi.leavesOpen
  obtain ⟨l', c, rest', hdrop', hcr', hlf', ⟨⟨pieces', hreads'⟩, -⟩, -, l₁, piece, hstep, hopen⟩ :=
    hj.leavesOpen
  have htake : text.take (j + (n + 1)) = text.take j ++ c :: rest'.take n := by
    rw [List.take_add, hdrop', List.take_succ_cons]
  have hrest' : rest' = rest'.take n ++ b :: rest := by
    rw [← hdrop, ← List.drop_drop, hdrop', List.drop_succ_cons, List.take_append_drop]
  rw [htake, unifyBreaks_append hcr' hlf', hdrop] at hreads
  obtain ⟨pieces₁, pieces₂, l₂, -, hbefore, hbehind⟩ := hreads.of_append
  rw [hdrop'] at hreads'
  obtain ⟨-, rfl⟩ := hreads'.unique hbefore
  rw [hrest', unifyBreaks_append hcr hlf] at hstep hopen
  cases hbehind with
  | cons first hinside =>
    rw [List.head?_append] at hstep
    have hsame := hstep.step_eq.symm.trans first.step_eq
    simp only [Except.ok.injEq, Prod.mk.injEq] at hsame
    rw [hsame.1] at hopen
    have hahead : (b :: rest).head? = (b :: unifyBreaks rest).head? := rfl
    rw [hahead] at hinside
    -- what is left open at `j` is still open at `l`, which is in code
    have hstill := hinside.open?_eq_some hopen
    rw [Lexer.open?_of_code hcode.mode] at hstill
    cases hstill

namespace Stream

/-- **Minifying fails exactly at a literal that is opened and not closed.**  Over streams without
faults, the literal that is reported is the first one that is opened in code and not closed, with
the line and column of its first byte, counted in the text as it came; and if there is none,
minifying succeeds. -/
theorem minifyStream_unterminated_iff (o : Options) (size : Nat) {r : Reader} {w : Writer}
    (hr : r.Steady) (hw : w.Steady) :
    (∀ u, (minifyStream o size r w).result = .error (.unterminated u) ↔
      ∃ i, OpensUnclosed r.bytes i u.kind ∧ (∀ j kind, OpensUnclosed r.bytes j kind → i ≤ j) ∧
        u.opened = positionAt r.bytes i) ∧
    ((∃ stats, (minifyStream o size r w).result = .ok stats) ↔
      ∀ i kind, ¬ OpensUnclosed r.bytes i kind) := by
  rw [(minifyStream_of_steady o size hr hw).1, minify, Scan.result]
  have hstop (u : Unterminated) : (scan r.bytes).stop = some u ↔
      ∃ i, OpensUnclosed r.bytes i u.kind ∧ (∀ j kind, OpensUnclosed r.bytes j kind → i ≤ j) ∧
        u.opened = positionAt r.bytes i := by
    rw [scan_stop_iff]
    refine exists_congr fun i => and_congr_right fun hi => ?_
    exact (and_iff_right fun j kind hj => Nat.le_of_not_lt (hi.not_lt hj)).symm
  cases hscan : (scan r.bytes).stop with
  | some u =>
    refine ⟨fun u' => ?_, ?_⟩
    · rw [← hstop, hscan]
      simp
    · obtain ⟨i, hi, -⟩ := scan_stop_iff.mp hscan
      constructor
      · rintro ⟨stats, hstats⟩
        cases hstats
      · intro hnone
        exact absurd hi (hnone i u.kind)
  | none =>
    refine ⟨fun u' => ?_, ?_⟩
    · rw [← hstop, hscan]
      simp
    · refine ⟨fun _ i kind hi => ?_, fun _ => ⟨_, rfl⟩⟩
      have hsome : (scan r.bytes).stop = some ⟨kind, positionAt r.bytes i⟩ :=
        scan_stop_iff.mpr ⟨i, hi, rfl⟩
      rw [hscan] at hsome
      cases hsome

/-- A string on the second line that goes on behind an escaped line break of two bytes. -/
theorem minifyStream_unterminated_escaped_break :
    ∃ i, OpensUnclosed (utf8 "a\r\n='\\\r\nb") i .string ∧
      positionAt (utf8 "a\r\n='\\\r\nb") i = ⟨2, 2⟩ := by
  have hr := Reader.steady_whole (utf8 "a\r\n='\\\r\nb")
  have hfails := (minifyStream_of_steady {} 4 hr Writer.steady_whole).1
  obtain ⟨i, hi, -, hopened⟩ := ((minifyStream_unterminated_iff {} 4 hr Writer.steady_whole).1
    ⟨.string, ⟨2, 2⟩⟩).mp hfails
  exact ⟨i, hi, hopened.symm⟩

end Stream

end ScriptMinifier
