import ScriptMinifier.Proofs.Grammar
import ScriptMinifier.Proofs.Layout

/-!
# How far literals and comments reach

`Crosses ahead l c pieces l'` says that the lexer leaves code at the first byte of `c` and is back
in code right behind `c`, and not before.  There are four ways to do so.  A comment is crossed
without a piece (`crosses_comment_iff`), and a string or regular expression byte for byte: it is
crossed exactly if it is the shortest text of its grammar that stands there (`crosses_literal_iff`).

The lexer takes a literal byte by byte and its grammar takes it item by item, but both know at every
byte what may still follow (`Returns.mem_remainder`, `returns_of_mem_remainder`).
-/

namespace ScriptMinifier

open Lexer (Step)
open scoped Computability

/-! ### Ways back to code -/

/-- The lexer goes on until it is back in code, and stops there. -/
inductive Returns (ahead : Option Byte) : Lexer → Bytes → List Piece → Lexer → Prop
  | here {l : Lexer} (hl : l.AtCode) : Returns ahead l [] [] l
  | step {l l₁ l' : Lexer} {b : Byte} {text : Bytes} {piece : Option Piece} {pieces : List Piece}
      (away : ¬ l.AtCode) (first : Step l b (text.head?.or ahead) l₁ piece)
      (rest : Returns ahead l₁ text pieces l') :
      Returns ahead l (b :: text) (piece.toList ++ pieces) l'

/-- The lexer leaves code at the first byte of a text, and is back in code right behind it. -/
inductive Crosses (ahead : Option Byte) : Lexer → Bytes → List Piece → Lexer → Prop
  | leave {l l₁ l' : Lexer} {b : Byte} {text : Bytes} {piece : Option Piece} {pieces : List Piece}
      (hl : l.AtCode) (first : Step l b (text.head?.or ahead) l₁ piece) (away : ¬ l₁.AtCode)
      (rest : Returns ahead l₁ text pieces l') :
      Crosses ahead l (b :: text) (piece.toList ++ pieces) l'

theorem Returns.reads {ahead : Option Byte} {l l' : Lexer} {text : Bytes} {pieces : List Piece}
    (h : Returns ahead l text pieces l') : Reads ahead l text pieces l' := by
  induction h with
  | here hl => exact .nil _
  | step _ first _ ih => exact .cons first ih

theorem Crosses.reads {ahead : Option Byte} {l l' : Lexer} {text : Bytes} {pieces : List Piece}
    (h : Crosses ahead l text pieces l') : Reads ahead l text pieces l' := by
  cases h with
  | leave hl first away rest => exact .cons first rest.reads

theorem Returns.eq_nil {ahead : Option Byte} {l l' : Lexer} {text : Bytes} {pieces : List Piece}
    (h : Returns ahead l text pieces l') (hl : l.AtCode) : text = [] ∧ pieces = [] ∧ l' = l := by
  cases h with
  | here _ => exact ⟨rfl, rfl, rfl⟩
  | step away => exact absurd hl away

theorem Lexer.not_atCode_of_mode {l : Lexer} (h : l.mode ≠ .code) : ¬ l.AtCode :=
  fun hl => h hl.mode

theorem Lexer.not_atCode_of_held {l : Lexer} (h : l.held = true) : ¬ l.AtCode := by
  intro hl
  rw [hl.held] at h
  cases h

/-! ### Comments -/

namespace Lexer.Step

variable {l l' : Lexer} {b : Byte} {next : Option Byte} {piece : Option Piece}

theorem of_lineComment (h : Step l b next l' piece) (hmode : l.mode = .lineComment)
    (hheld : l.held = false) :
    piece = none ∧ ((b ≠ Byte.lf ∧ l' = l) ∨ (b = Byte.lf ∧ l' = l.dropComment true)) := by
  cases h with
  | lineComment _ _ hb => exact ⟨rfl, .inl ⟨hb, rfl⟩⟩
  | closeLineComment => exact ⟨rfl, .inr ⟨rfl, rfl⟩⟩
  | _ => simp_all

theorem of_blockComment {broken : Bool} (h : Step l b next l' piece)
    (hmode : l.mode = .blockComment broken) (hheld : l.held = false) :
    piece = none ∧
      ((¬ (b = Byte.star ∧ next = some Byte.slash) ∧
          l' = { l with mode := .blockComment (broken || b == Byte.lf) }) ∨
        (b = Byte.star ∧ next = some Byte.slash ∧
          l' = { l.dropComment broken with held := true })) := by
  cases h with
  | blockComment _ hmode' hb =>
    obtain rfl := Mode.blockComment.inj (hmode.symm.trans hmode')
    exact ⟨rfl, .inl ⟨hb, rfl⟩⟩
  | closeBlockComment _ hmode' =>
    obtain rfl := Mode.blockComment.inj (hmode.symm.trans hmode')
    exact ⟨rfl, .inr ⟨rfl, rfl, rfl⟩⟩
  | _ => simp_all

theorem of_held (h : Step l b next l' piece) (hheld : l.held = true) :
    l' = { l with held := false } ∧ ((∀ literal, l.mode ≠ .literal literal) → piece = none) := by
  cases h with
  | copyHeld _ hmode => exact ⟨rfl, fun hne => absurd hmode (hne _)⟩
  | dropHeld => exact ⟨rfl, fun _ => rfl⟩
  | _ => simp_all

/-- **Code is left in four ways.** -/
theorem leaves_code (h : Step l b next l' piece) (hl : l.AtCode) (haway : ¬ l'.AtCode) :
    (b = Byte.slash ∧ next = some Byte.slash ∧ piece = none ∧
        l' = { l with mode := .lineComment, held := true }) ∨
      (b = Byte.slash ∧ next = some Byte.star ∧ piece = none ∧
        l' = { l with mode := .blockComment false, held := true }) ∨
      (b = Byte.slash ∧ ¬ OpensComment next ∧ l.operandPosition = true ∧
        piece = some (.opener l.left l.gap true b) ∧ l' = l.enter (.regex false)) ∨
      (b.isQuote = true ∧ piece = some (.opener l.left l.gap false b) ∧
        l' = l.enter (.string b)) := by
  cases h with
  | openLineComment => exact .inl ⟨rfl, rfl, rfl, rfl⟩
  | openBlockComment => exact .inr (.inl ⟨rfl, rfl, rfl, rfl⟩)
  | openRegex _ _ hnext hoperand => exact .inr (.inr (.inl ⟨rfl, hnext, hoperand, rfl, rfl⟩))
  | openString _ _ hb => exact .inr (.inr (.inr ⟨hb, rfl, rfl⟩))
  | blank | lineBreak | token => exact absurd ⟨hl.mode, hl.held⟩ haway
  | copyHeld hheld | dropHeld hheld => exact absurd hl (Lexer.not_atCode_of_held hheld)
  | lineComment _ hmode | closeLineComment _ hmode | blockComment _ hmode
  | closeBlockComment _ hmode | escape _ hmode | copy _ hmode | closeLiteral _ hmode =>
    exact absurd hl (Lexer.not_atCode_of_mode (by simp [hmode]))

end Lexer.Step

theorem returns_held_iff {ahead : Option Byte} {l l' : Lexer} {m : Bytes} {pieces : List Piece}
    (hheld : l.held = true) (hmode : ∀ literal, l.mode ≠ .literal literal) :
    Returns ahead l m pieces l' ↔
      ∃ b m', m = b :: m' ∧ Returns ahead { l with held := false } m' pieces l' := by
  constructor
  · intro h
    cases h with
    | here hl => exact absurd hl (Lexer.not_atCode_of_held hheld)
    | step _ first rest =>
      obtain ⟨rfl, hpiece⟩ := first.of_held hheld
      obtain rfl := hpiece hmode
      exact ⟨_, _, rfl, rest⟩
  · rintro ⟨b, m', rfl, h⟩
    exact .step (Lexer.not_atCode_of_held hheld) (.dropHeld hheld hmode) h

theorem returns_line_iff {ahead : Option Byte} {l l' : Lexer} {m : Bytes} {pieces : List Piece}
    (hmode : l.mode = .lineComment) (hheld : l.held = false) :
    Returns ahead l m pieces l' ↔
      ∃ body, m = body ++ [Byte.lf] ∧ Byte.lf ∉ body ∧ pieces = [] ∧ l' = l.dropComment true := by
  have haway : ¬ l.AtCode := l.not_atCode_of_mode (by simp [hmode])
  have hback : (l.dropComment true).AtCode := ⟨rfl, hheld⟩
  constructor
  · intro h
    induction m generalizing pieces with
    | nil =>
      cases h with
      | here hl => exact absurd hl haway
    | cons b m ih =>
      cases h with
      | step _ first rest =>
        obtain ⟨rfl, ⟨hb, rfl⟩ | ⟨rfl, rfl⟩⟩ := first.of_lineComment hmode hheld
        · obtain ⟨body, rfl, hbody, hpieces, hl'⟩ := ih rest
          exact ⟨b :: body, rfl, by simp [Ne.symm hb, hbody], hpieces, hl'⟩
        · obtain ⟨rfl, rfl, rfl⟩ := rest.eq_nil hback
          exact ⟨[], rfl, by simp, rfl, rfl⟩
  · rintro ⟨body, rfl, hbody, rfl, rfl⟩
    induction body with
    | nil => exact .step haway (.closeLineComment hheld hmode) (.here hback)
    | cons b body ih =>
      rw [List.mem_cons, not_or] at hbody
      exact .step haway (.lineComment hheld hmode (Ne.symm hbody.1)) (ih hbody.2)

theorem infix_closes_cons {b : Byte} {body : Bytes} (ahead : Option Byte) :
    [Byte.star, Byte.slash] <:+: b :: (body ++ [Byte.star]) ↔
      (b = Byte.star ∧ (body ++ [Byte.star, Byte.slash]).head?.or ahead = some Byte.slash) ∨
        [Byte.star, Byte.slash] <:+: body ++ [Byte.star] := by
  rw [List.infix_cons_iff, List.cons_prefix_cons]
  refine or_congr_left (and_congr eq_comm ?_)
  cases body <;>
    simp only [List.nil_append, List.cons_append, List.cons_prefix_cons, List.nil_prefix, and_true,
      List.head?_cons, Option.some_or, Option.some.injEq] <;>
    exact eq_comm

theorem broken_cons (broken : Bool) (b : Byte) (body : Bytes) :
    ((broken || b == Byte.lf) || body.contains Byte.lf)
      = (broken || (b :: body).contains Byte.lf) := by
  rw [List.contains_cons, Bool.or_assoc, Bool.beq_comm]

theorem returns_closing_iff {ahead : Option Byte} {l l' : Lexer} {m : Bytes} {pieces : List Piece}
    {broken : Bool} (hheld : l.held = false) :
    Returns ahead { l.dropComment broken with held := true } m pieces l' ↔
      (∃ b, m = [b]) ∧ pieces = [] ∧ l' = l.dropComment broken := by
  have hback : ({ l.dropComment broken with held := false } : Lexer) = l.dropComment broken := by
    rw [← hheld]
    rfl
  have hl : (l.dropComment broken).AtCode := ⟨rfl, hheld⟩
  rw [returns_held_iff rfl (by rintro literal ⟨⟩)]
  dsimp only
  rw [hback]
  constructor
  · rintro ⟨b, m', rfl, h⟩
    obtain ⟨rfl, rfl, rfl⟩ := h.eq_nil hl
    exact ⟨⟨b, rfl⟩, rfl, rfl⟩
  · rintro ⟨⟨b, rfl⟩, rfl, rfl⟩
    exact ⟨b, [], rfl, .here hl⟩

theorem returns_block_iff {ahead : Option Byte} {l l' : Lexer} {m : Bytes} {pieces : List Piece}
    {broken : Bool} (hmode : l.mode = .blockComment broken) (hheld : l.held = false) :
    Returns ahead l m pieces l' ↔
      ∃ body, m = body ++ [Byte.star, Byte.slash] ∧
        ¬ [Byte.star, Byte.slash] <:+: body ++ [Byte.star] ∧
        pieces = [] ∧ l' = l.dropComment (broken || body.contains Byte.lf) := by
  constructor
  · intro h
    induction m generalizing l pieces broken with
    | nil =>
      cases h with
      | here hl => exact absurd hl (Lexer.not_atCode_of_mode (by simp [hmode]))
    | cons b m ih =>
      cases h with
      | step _ first rest =>
        obtain ⟨rfl, ⟨hb, rfl⟩ | ⟨rfl, hnext, rfl⟩⟩ := first.of_blockComment hmode hheld
        · obtain ⟨body, rfl, hbody, hpieces, hl'⟩ :=
            ih (l := { l with mode := .blockComment (broken || b == Byte.lf) }) rfl hheld rest
          refine ⟨b :: body, rfl, ?_, hpieces, ?_⟩
          · rw [List.cons_append, infix_closes_cons ahead, not_or]
            exact ⟨hb, hbody⟩
          · rw [hl', broken_cons]
            rfl
        · obtain ⟨⟨c, rfl⟩, rfl, rfl⟩ := (returns_closing_iff hheld).mp rest
          obtain rfl := Option.some.inj hnext
          exact ⟨[], rfl, by decide, rfl, by rw [List.contains_nil, Bool.or_false]⟩
  · rintro ⟨body, rfl, hbody, rfl, rfl⟩
    induction body generalizing l broken with
    | nil =>
      have hclose : Returns ahead { l.dropComment broken with held := true } [Byte.slash] []
          (l.dropComment broken) := (returns_closing_iff hheld).mpr ⟨⟨_, rfl⟩, rfl, rfl⟩
      rw [List.contains_nil, Bool.or_false]
      exact .step (l.not_atCode_of_mode (by simp [hmode])) (.closeBlockComment hheld hmode) hclose
    | cons b body ih =>
      rw [List.cons_append, infix_closes_cons ahead, not_or] at hbody
      have hrest := ih (l := { l with mode := .blockComment (broken || b == Byte.lf) }) rfl hheld
        hbody.2
      rw [broken_cons] at hrest
      exact .step (l.not_atCode_of_mode (by simp [hmode])) (.blockComment hheld hmode hbody.1) hrest

/-! ### Strings and regular expressions -/

theorem Lexer.Step.of_literal {l l' : Lexer} {literal : Literal} {b : Byte} {next : Option Byte}
    {piece : Option Piece} (h : Step l b next l' piece) (hmode : l.mode = .literal literal)
    (hheld : l.held = false) :
    (b = Byte.backslash ∧ l' = { l with held := true }) ∨
      (b ≠ Byte.lf ∧ b ≠ Byte.backslash ∧
        ((literal.next? b = none ∧ l' = l.leave literal) ∨
          ∃ literal', literal.next? b = some literal' ∧
            l' = { l with mode := .literal literal' })) := by
  cases h with
  | copyHeld hheld' => simp [hheld] at hheld'
  | escape => exact .inl ⟨rfl, rfl⟩
  | copy _ hmode' hlf hback hlit =>
    obtain rfl := Mode.literal.inj (hmode.symm.trans hmode')
    exact .inr ⟨hlf, hback, .inr ⟨_, hlit, rfl⟩⟩
  | closeLiteral _ hmode' hlf hback hlit =>
    obtain rfl := Mode.literal.inj (hmode.symm.trans hmode')
    exact .inr ⟨hlf, hback, .inl ⟨hlit, rfl⟩⟩
  | _ => simp_all

/-- **A literal that is over is one of its grammar**, and was copied. -/
theorem Returns.mem_remainder {ahead : Option Byte} {l l' : Lexer} {literal : Literal} {m : Bytes}
    {pieces : List Piece} (h : Returns ahead l m pieces l') (hmode : l.mode = .literal literal)
    (hopened : literal.IsOpened) :
    m ∈ literal.remainder l.held ∧ pieces = m.map Piece.inner := by
  induction m generalizing l literal pieces with
  | nil =>
    cases h with
    | here hl => exact absurd hl (Lexer.not_atCode_of_mode (by simp [hmode]))
  | cons b m ih =>
    cases h with
    | step _ first rest =>
      obtain rfl := first.piece_of_literal hmode
      cases hheld : l.held with
      | true =>
        obtain ⟨rfl, -⟩ := first.of_held hheld
        obtain ⟨hmem, rfl⟩ := ih (l := { l with held := false }) rest hmode hopened
        exact ⟨Literal.cons_mem_remainder_held.mpr hmem, rfl⟩
      | false =>
        rw [Literal.cons_mem_remainder hopened]
        rcases first.of_literal hmode hheld with ⟨hb, rfl⟩ | ⟨hlf, hback, ⟨hnone, rfl⟩ |
          ⟨literal', hsome, rfl⟩⟩
        · obtain ⟨hmem, rfl⟩ := ih (l := { l with held := true }) rest hmode hopened
          exact ⟨.inl ⟨hb, hmem⟩, rfl⟩
        · obtain ⟨rfl, rfl, -⟩ := rest.eq_nil ⟨rfl, hheld⟩
          exact ⟨.inr ⟨hlf, hback, .inl ⟨hnone, rfl⟩⟩, rfl⟩
        · obtain ⟨hmem, rfl⟩ :=
            ih (l := { l with mode := .literal literal' }) rest rfl (hopened.of_next? hsome)
          have hmem' : m ∈ literal'.remainder false := hheld ▸ hmem
          exact ⟨.inr ⟨hlf, hback, .inr ⟨literal', hsome, hmem'⟩⟩, rfl⟩

theorem returns_of_mem_remainder (ahead : Option Byte) {l : Lexer} {literal : Literal} {m : Bytes}
    (h : m ∈ literal.remainder l.held) (hmode : l.mode = .literal literal)
    (hopened : literal.IsOpened) : ∃ l', Returns ahead l m (m.map Piece.inner) l' := by
  induction m generalizing l literal with
  | nil => exact absurd h (literal.nil_notMem_remainder l.held)
  | cons b m ih =>
    have haway : ¬ l.AtCode := l.not_atCode_of_mode (by simp [hmode])
    cases hheld : l.held with
    | true =>
      rw [hheld, Literal.cons_mem_remainder_held] at h
      obtain ⟨l', hl'⟩ := ih (l := { l with held := false }) h hmode hopened
      exact ⟨l', .step haway (.copyHeld hheld hmode) hl'⟩
    | false =>
      rw [hheld, Literal.cons_mem_remainder hopened] at h
      rcases h with ⟨rfl, hmem⟩ | ⟨hlf, hback, ⟨hnone, rfl⟩ | ⟨literal', hsome, hmem⟩⟩
      · obtain ⟨l', hl'⟩ := ih (l := { l with held := true }) hmem hmode hopened
        cases m with
        | nil => exact absurd hmem (literal.nil_notMem_remainder true)
        | cons c m => exact ⟨l', .step haway (.escape hheld hmode) hl'⟩
      · have hleave : (l.leave literal).AtCode := ⟨rfl, hheld⟩
        exact ⟨_, .step haway (.closeLiteral hheld hmode hlf hback hnone) (.here hleave)⟩
      · obtain ⟨l', hl'⟩ := ih (l := { l with mode := .literal literal' }) (hheld ▸ hmem) rfl
          (hopened.of_next? hsome)
        exact ⟨l', .step haway (.copy hheld hmode hlf hback hsome) hl'⟩

/-! ### What is crossed -/

theorem contains_lf_line (body : Bytes) :
    List.contains (Byte.slash :: Byte.slash :: (body ++ [Byte.lf])) Byte.lf = true := by simp

theorem contains_lf_block (body : Bytes) :
    List.contains (Byte.slash :: Byte.star :: (body ++ [Byte.star, Byte.slash])) Byte.lf
      = (false || body.contains Byte.lf) := by
  have hne : Byte.lf ≠ Byte.slash ∧ Byte.lf ≠ Byte.star := by decide
  simp [hne]

namespace Lexer.AtCode

variable {ahead : Option Byte} {l l' : Lexer} {m : Bytes} {pieces : List Piece}

theorem dropComment_eq (hl : l.AtCode) (mode : Mode) (broken : Bool) :
    ({ l with mode := mode, held := false } : Lexer).dropComment broken = l.dropComment broken := by
  rw [← hl.held]
  rfl

theorem returns_openedLine_iff (hl : l.AtCode) :
    Returns ahead { l with mode := .lineComment, held := true } m pieces l' ↔
      ∃ b body, m = b :: (body ++ [Byte.lf]) ∧ Byte.lf ∉ body ∧ pieces = [] ∧
        l' = l.dropComment true := by
  rw [returns_held_iff rfl (by rintro literal ⟨⟩), ← hl.dropComment_eq .lineComment]
  constructor
  · rintro ⟨b, m', rfl, h⟩
    obtain ⟨body, rfl, hbody⟩ := (returns_line_iff rfl rfl).mp h
    exact ⟨b, body, rfl, hbody⟩
  · rintro ⟨b, body, rfl, hbody⟩
    exact ⟨b, _, rfl, (returns_line_iff rfl rfl).mpr ⟨body, rfl, hbody⟩⟩

theorem returns_openedBlock_iff (hl : l.AtCode) :
    Returns ahead { l with mode := .blockComment false, held := true } m pieces l' ↔
      ∃ b body, m = b :: (body ++ [Byte.star, Byte.slash]) ∧
        ¬ [Byte.star, Byte.slash] <:+: body ++ [Byte.star] ∧ pieces = [] ∧
        l' = l.dropComment (false || body.contains Byte.lf) := by
  rw [returns_held_iff rfl (by rintro literal ⟨⟩)]
  simp only [← hl.dropComment_eq (.blockComment false)]
  constructor
  · rintro ⟨b, m', rfl, h⟩
    obtain ⟨body, rfl, hbody⟩ := (returns_block_iff rfl rfl).mp h
    exact ⟨b, body, rfl, hbody⟩
  · rintro ⟨b, body, rfl, hbody⟩
    exact ⟨b, _, rfl, (returns_block_iff rfl rfl).mpr ⟨body, rfl, hbody⟩⟩

theorem returns_enter_iff (hl : l.AtCode) {literal : Literal} (hopened : literal.IsOpened) :
    (∃ l', Returns ahead (l.enter literal) m pieces l') ↔
      m ∈ literal.tail ∧ pieces = m.map Piece.inner := by
  have hheld : (l.enter literal).held = false := hl.held
  have hremainder : literal.remainder (l.enter literal).held = literal.tail := by
    rw [hheld]
    rfl
  constructor
  · rintro ⟨l', h⟩
    have hmem := h.mem_remainder rfl hopened
    rwa [hremainder] at hmem
  · rintro ⟨hm, rfl⟩
    exact returns_of_mem_remainder ahead (hremainder ▸ hm) rfl hopened

end Lexer.AtCode

/-- **What is crossed is a comment, a string or a regular expression.** -/
theorem Crosses.comment_or_literal {ahead : Option Byte} {l l' : Lexer} {c : Bytes}
    {pieces : List Piece} (h : Crosses ahead l c pieces l') :
    (IsComment c ∧ pieces = [] ∧ l' = l.dropComment (c.contains Byte.lf)) ∨
      ∃ b m literal, c = b :: m ∧ Literal.IsOpened literal ∧ m ∈ literal.tail ∧
        pieces = .opener l.left l.gap literal.isRegex b :: m.map .inner ∧
        (literal = .string b ∨ (literal = .regex false ∧ b = Byte.slash ∧
          ¬ OpensComment (m.head?.or ahead) ∧ l.operandPosition = true)) := by
  cases h with
  | @leave _ _ b m _ _ hl first away rest =>
    rcases first.leaves_code hl away with ⟨rfl, hnext, rfl, rfl⟩ | ⟨rfl, hnext, rfl, rfl⟩ |
      ⟨rfl, hnext, hoperand, rfl, rfl⟩ | ⟨hb, rfl, rfl⟩
    · obtain ⟨b, body, rfl, hbody, rfl, rfl⟩ := hl.returns_openedLine_iff.mp rest
      obtain rfl := Option.some.inj hnext
      exact .inl ⟨.line hbody, rfl, by rw [contains_lf_line]⟩
    · obtain ⟨b, body, rfl, hbody, rfl, rfl⟩ := hl.returns_openedBlock_iff.mp rest
      obtain rfl := Option.some.inj hnext
      exact .inl ⟨.block hbody, rfl, by rw [contains_lf_block]⟩
    · have hopened : (Literal.regex false).IsOpened := trivial
      obtain ⟨hm, rfl⟩ := (hl.returns_enter_iff hopened).mp ⟨_, rest⟩
      exact .inr ⟨_, m, .regex false, rfl, hopened, hm, rfl, .inr ⟨rfl, rfl, hnext, hoperand⟩⟩
    · have hopened : (Literal.string b).IsOpened := hb
      obtain ⟨hm, rfl⟩ := (hl.returns_enter_iff hopened).mp ⟨_, rest⟩
      exact .inr ⟨b, m, .string b, rfl, hopened, hm, rfl, .inl rfl⟩

/-- **Comments are crossed without a piece**, and leave a gap. -/
theorem crosses_comment_iff {ahead : Option Byte} {l l' : Lexer} {c : Bytes} (hl : l.AtCode) :
    Crosses ahead l c [] l' ↔ IsComment c ∧ l' = l.dropComment (c.contains Byte.lf) := by
  constructor
  · intro h
    rcases h.comment_or_literal with ⟨hc, -, hl'⟩ | ⟨b, m, literal, -, -, -, hpieces, -⟩
    · exact ⟨hc, hl'⟩
    · cases hpieces
  · rintro ⟨hc, rfl⟩
    cases hc with
    | @line body hbody =>
      rw [contains_lf_line]
      exact .leave hl (.openLineComment hl.held hl.mode) (Lexer.not_atCode_of_held rfl)
        (hl.returns_openedLine_iff.mpr ⟨_, body, rfl, hbody, rfl, rfl⟩)
    | @block body hbody =>
      rw [contains_lf_block]
      exact .leave hl (.openBlockComment hl.held hl.mode) (Lexer.not_atCode_of_held rfl)
        (hl.returns_openedBlock_iff.mpr ⟨_, body, rfl, hbody, rfl, rfl⟩)

/-- A text of the language at the start of `rest`, and no shorter one is there. -/
structure IsShortest (L : Language Byte) (rest c : Bytes) : Prop where
  mem : c ∈ L
  isPrefix : c <+: rest
  least : ∀ m ∈ L, m <+: rest → c.length ≤ m.length

/-- **The string or regular expression at the start of `rest`**; `operand` tells whether an operand
is expected there. -/
inductive IsLiteral (operand : Bool) (rest : Bytes) : Bytes → Prop
  | string {quote : Byte} {c : Bytes} (isQuote : quote.isQuote = true)
      (shortest : IsShortest (Grammar.string quote) rest c) : IsLiteral operand rest c
  | regex {c : Bytes} (expected : operand = true) (not_comment : ¬ OpensComment rest.tail.head?)
      (shortest : IsShortest Grammar.regex rest c) : IsLiteral operand rest c

/-- **No literal begins with another.** -/
theorem isShortest_of_mem {L : Language Byte} {b : Byte} {literal : Literal} {m after : Bytes}
    (hopened : literal.IsOpened) (hL : ∀ w ∈ L, ∃ m ∈ literal.tail, w = b :: m) (hm : b :: m ∈ L) :
    IsShortest L (b :: m ++ after) (b :: m) := by
  refine ⟨hm, List.prefix_append _ _, fun w hw hprefix => ?_⟩
  obtain ⟨m', hm', rfl⟩ := hL w hw
  obtain ⟨m'', hm'', heq⟩ := hL _ hm
  obtain ⟨-, rfl⟩ := List.cons.inj heq
  rcases List.prefix_or_prefix_of_prefix hprefix (List.prefix_append _ after) with ⟨k, hk⟩ | hle
  · rw [List.cons_append, List.cons.injEq] at hk
    obtain ⟨-, rfl⟩ := hk
    obtain rfl := Literal.eq_nil_of_mem_remainder hopened false hm' hm''
    rw [List.append_nil]
  · exact hle.length_le

theorem exists_tail_of_mem_string {quote : Byte} {w : Bytes} (h : w ∈ Grammar.string quote) :
    ∃ m ∈ (Literal.string quote).tail, w = quote :: m := by
  obtain ⟨x, hx, m, hm, rfl⟩ := Language.mem_mul.mp h
  obtain rfl : x = [quote] := hx
  exact ⟨m, hm, rfl⟩

theorem exists_tail_of_mem_regex {w : Bytes} (h : w ∈ Grammar.regex) :
    ∃ m ∈ (Literal.regex false).tail, w = Byte.slash :: m := by
  obtain ⟨x, hx, m, hm, rfl⟩ := Language.mem_mul.mp h
  obtain rfl : x = [Byte.slash] := hx
  exact ⟨m, (Literal.cons_mem_regex.mp h).2.1, rfl⟩

/-- **Strings and regular expressions are crossed byte for byte.** -/
theorem crosses_literal_iff {l : Lexer} {c after : Bytes} (hl : l.AtCode) :
    (∃ pieces l', pieces ≠ [] ∧ Crosses after.head? l c pieces l') ↔
      IsLiteral l.operandPosition (c ++ after) c := by
  constructor
  · rintro ⟨pieces, l', hpieces, h⟩
    rcases h.comment_or_literal with ⟨-, hnil, -⟩ |
      ⟨b, m, literal, rfl, hopened, hm, -, rfl | ⟨rfl, rfl, hnext, hoperand⟩⟩
    · exact absurd hnil hpieces
    · exact .string hopened (isShortest_of_mem hopened (fun _ => exists_tail_of_mem_string)
        (Literal.cons_mem_string.mpr ⟨rfl, hm⟩))
    · have hhead : ¬ OpensComment (m ++ after).head? := by rwa [List.head?_append]
      have hslash : m.head? ≠ some Byte.slash := by
        intro hslash
        rw [hslash] at hnext
        exact hnext (.inl rfl)
      exact .regex hoperand hhead (isShortest_of_mem hopened (fun _ => exists_tail_of_mem_regex)
        (Literal.cons_mem_regex.mpr ⟨rfl, hm, hslash⟩))
  · intro h
    cases h with
    | @string quote _ hquote hshortest =>
      obtain ⟨m, hm, rfl⟩ := exists_tail_of_mem_string hshortest.mem
      have hopened : (Literal.string quote).IsOpened := hquote
      obtain ⟨l', hl'⟩ := (hl.returns_enter_iff hopened).mpr ⟨hm, rfl⟩
      refine ⟨_, l', ?_, .leave hl (.openString hl.held hl.mode hquote)
        (Lexer.not_atCode_of_mode (by rintro ⟨⟩)) hl'⟩
      exact List.cons_ne_nil _ _
    | regex hoperand hnext hshortest =>
      obtain ⟨m, hm, rfl⟩ := exists_tail_of_mem_regex hshortest.mem
      have hopened : (Literal.regex false).IsOpened := trivial
      obtain ⟨l', hl'⟩ := (hl.returns_enter_iff hopened).mpr ⟨hm, rfl⟩
      have hnext' : ¬ OpensComment (m.head?.or after.head?) := by rwa [← List.head?_append]
      refine ⟨_, l', ?_, .leave hl (.openRegex hl.held hl.mode hnext' hoperand)
        (Lexer.not_atCode_of_mode (by rintro ⟨⟩)) hl'⟩
      exact List.cons_ne_nil _ _

/-! ### What is written -/

theorem Crosses.write_eq {ahead : Option Byte} {l l' : Lexer} {c : Bytes} {pieces : List Piece}
    (h : Crosses ahead l c pieces l') (hpieces : pieces ≠ []) (o : Options) :
    ∃ sep : Option Byte, pieces.flatMap (Piece.write o) = sep.toList ++ c := by
  rcases h.comment_or_literal with ⟨-, hnil, -⟩ | ⟨b, m, literal, rfl, -, -, rfl, -⟩
  · exact absurd hnil hpieces
  · refine ⟨separator l.left (l.gap.under o) b literal.isRegex, ?_⟩
    have hinner : (m.map Piece.inner).flatMap (Piece.write o) = m := by
      simp [List.flatMap_map, Piece.write, Piece.separator?, Piece.byte]
    rw [List.flatMap_cons, hinner, Piece.write, List.append_assoc]
    rfl

theorem emitted_append {text p rest : Bytes} {pieces : List Piece} {l : Lexer}
    (htext : unifyBreaks text = p ++ rest) (hp : Reads rest.head? .initial p pieces l)
    (o : Options) : ∃ tail, emitted o text = pieces.flatMap (Piece.write o) ++ tail := by
  obtain ⟨here, opened, hpieces, -⟩ := Scan.run_append hp .first .first
  rw [← htext] at hpieces
  have hwrite : (scan text).write o = pieces.flatMap (Piece.write o)
      ++ (Scan.run l here opened rest).pieces.flatMap (Piece.write o) := by
    rw [Scan.write, scan, hpieces, List.flatMap_append]
  rw [emitted, Scan.emitted, hwrite]
  split
  · exact ⟨_, rfl⟩
  · exact ⟨_, List.append_assoc ..⟩

theorem reads_lastLine {l : Lexer} {body : Bytes} (hl : l.AtCode) (hbody : Byte.lf ∉ body) :
    Reads none l (Byte.slash :: Byte.slash :: body) []
      { l with mode := .lineComment, held := false } := by
  have hlines : Reads none { l with mode := .lineComment, held := false } body []
      { l with mode := .lineComment, held := false } := by
    induction body with
    | nil => exact .nil _
    | cons b body ih =>
      rw [List.mem_cons, not_or] at hbody
      exact .cons (.lineComment rfl rfl (Ne.symm hbody.1)) (ih hbody.2)
  exact .cons (.openLineComment hl.held hl.mode)
    (.cons (.dropHeld rfl (by rintro literal ⟨⟩)) hlines)

/-- **How far literals and comments reach.**  Wherever the lexer comes to in code, the comments that
it crosses from there are those that begin there, and it writes nothing for them; the strings and
regular expressions that it crosses are the shortest ones of their grammar that begin there, and all
that is written has them in one piece.  A line comment without a line feed takes the rest. -/
theorem crosses_iff {text p rest : Bytes} {pieces : List Piece} {l : Lexer}
    (htext : unifyBreaks text = p ++ rest) (hp : Reads rest.head? .initial p pieces l)
    (hl : l.AtCode) :
    (∀ c after, rest = c ++ after →
      ((∃ l', Crosses after.head? l c [] l') ↔ IsComment c) ∧
      ((∃ written l', written ≠ [] ∧ Crosses after.head? l c written l') ↔
        IsLiteral l.operandPosition rest c)) ∧
    (∀ c after written l', rest = c ++ after → Crosses after.head? l c written l' → written ≠ [] →
      ∀ o, ∃ (sep : Option Byte) (tail : Bytes),
        written.flatMap (Piece.write o) = sep.toList ++ c ∧
        emitted o text = pieces.flatMap (Piece.write o) ++ (sep.toList ++ c) ++ tail) ∧
    (∀ body, rest = Byte.slash :: Byte.slash :: body → Byte.lf ∉ body →
      Reads none l rest [] { l with mode := .lineComment, held := false }) := by
  refine ⟨?_, ?_, ?_⟩
  · rintro c after rfl
    refine ⟨?_, crosses_literal_iff hl⟩
    constructor
    · rintro ⟨l', h⟩
      exact ((crosses_comment_iff hl).mp h).1
    · intro hc
      exact ⟨_, (crosses_comment_iff hl).mpr ⟨hc, rfl⟩⟩
  · rintro c after written l' rfl h hwritten o
    obtain ⟨sep, hsep⟩ := h.write_eq hwritten o
    have hreads : Reads after.head? .initial (p ++ c) (pieces ++ written) l' := by
      rw [List.head?_append] at hp
      exact hp.append h.reads
    rw [← List.append_assoc] at htext
    obtain ⟨tail, htail⟩ := emitted_append htext hreads o
    rw [List.flatMap_append, hsep] at htail
    exact ⟨sep, tail, hsep, htail⟩
  · rintro body rfl hbody
    exact reads_lastLine hl hbody

/-- A slash in square brackets does not close a regular expression. -/
theorem crosses_slash_in_brackets :
    ∃ pieces l written l', Reads (some Byte.slash) .initial (utf8 "a=") pieces l ∧
      Crosses (utf8 ";").head? l (utf8 "/[/]/") written l' ∧
      IsLiteral l.operandPosition (utf8 "/[/]/;") (utf8 "/[/]/") ∧
      ∃ sep tail, emitted {} (utf8 "a=/[/]/;")
        = pieces.flatMap (Piece.write {}) ++ (Option.toList sep ++ utf8 "/[/]/") ++ tail := by
  obtain ⟨pieces, l, hreads, hl, written, l', hwritten, hcrosses⟩ : ∃ pieces l,
      Reads (some Byte.slash) .initial (utf8 "a=") pieces l ∧ l.AtCode ∧
      ∃ written l', written ≠ [] ∧ Crosses (utf8 ";").head? l (utf8 "/[/]/") written l' := by
    have haway {l : Lexer} {literal : Literal} (h : l.mode = .literal literal) : ¬ l.AtCode :=
      l.not_atCode_of_mode (by simp [h])
    refine ⟨_, _, .cons (Lexer.step_eq_ok_iff.mp rfl)
      (.cons (Lexer.step_eq_ok_iff.mp rfl) (.nil _)), ⟨rfl, rfl⟩, _, _, ?_,
      .leave ⟨rfl, rfl⟩ (Lexer.step_eq_ok_iff.mp rfl) (haway rfl)
        (.step (haway rfl) (Lexer.step_eq_ok_iff.mp rfl) (.step (haway rfl)
          (Lexer.step_eq_ok_iff.mp rfl) (.step (haway rfl) (Lexer.step_eq_ok_iff.mp rfl)
            (.step (haway rfl) (Lexer.step_eq_ok_iff.mp rfl) (.here ⟨rfl, rfl⟩)))))⟩
    exact List.cons_ne_nil _ _
  have htext : unifyBreaks (utf8 "a=/[/]/;") = utf8 "a=" ++ utf8 "/[/]/;" := by decide
  obtain ⟨hiff, hemitted, -⟩ := crosses_iff htext hreads hl
  obtain ⟨sep, tail, -, htail⟩ :=
    hemitted (utf8 "/[/]/") (utf8 ";") written l' rfl hcrosses hwritten {}
  exact ⟨pieces, l, written, l', hreads, hcrosses,
    (hiff (utf8 "/[/]/") (utf8 ";") rfl).2.mp ⟨written, l', hwritten, hcrosses⟩, sep, tail, htail⟩

end ScriptMinifier
