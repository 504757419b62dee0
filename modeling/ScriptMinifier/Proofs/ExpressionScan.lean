import ScriptMinifier.Proofs.Breaks
import ScriptMinifier.Proofs.ExpressionTokens
import ScriptMinifier.Proofs.Extents

/-!
# Programs keep their tokens

The lexer reads a program mark by mark.  The symbol of a mark is written as it is, behind at most
one separator (`Copies`); its padding only widens the gap (`reads_filler`).  So what is written is a
row of the same symbols with other paddings (`reads_marks`), and two things have to be seen:

* A slash divides.  The lexer takes one for a division exactly behind what ends an operand, and
  `Symbol.After` says that it knows such an end for each symbol, with the second sign behind a name
  told from the first by the lexer's own account of doubled signs.
* No gap between two signs is lost, and none is made, so the same signs join.

The minified program therefore has the tokens of the program (`Program.munch_minify`).
-/

namespace ScriptMinifier

open Lexer (Step)

/-! ### Code that is written as it is -/

/-- The lexer goes from `l` to `l'` over `text`, and writes it as it is behind the separator that
its first byte asks for. -/
def Copies (o : Options) (ahead : Option Byte) (l : Lexer) (text : Bytes) (l' : Lexer) : Prop :=
  ∃ pieces, Reads ahead l text pieces l' ∧
    pieces.flatMap (Piece.write o)
      = (separator l.left (l.gap.under o) (text.headD 0) false).toList ++ text

/-- A byte that code takes as it is, whatever stands around it. -/
def Byte.isPlain (b : Byte) : Bool :=
  !(b.isBlank || b.isLineBreak || b.isQuote || b == Byte.slash)

theorem Byte.isPlain_iff {b : Byte} :
    b.isPlain = true ↔
      ByteClass.of (some b) = .other ∧ b.isQuote = false ∧ b ≠ Byte.slash := by
  rw [ByteClass.of_eq_other_iff]
  simp [Byte.isPlain, and_assoc]

theorem Byte.isPlain_of_isWord {b : Byte} (h : b.isWord = true) : b.isPlain = true := by
  by_contra hplain
  simp only [Byte.isPlain, Byte.isBlank, Byte.isLineBreak, Byte.isQuote, Bool.not_eq_true',
    Bool.not_eq_false, Bool.or_eq_true, beq_iff_eq] at hplain
  rcases hplain with (((((rfl | rfl) | rfl) | rfl) | rfl | rfl) | rfl | rfl) | rfl <;>
    exact absurd h (by decide)

theorem Byte.isWord_of_inName {b : Byte} (h : b.inName = true) : b.isWord = true := by
  simp only [Byte.inName, Byte.beginsName, Bool.or_eq_true] at h
  rcases h with ((h | h) | h) | h <;> simp [Byte.isWord, h]

theorem Byte.isPlain_of_inName {b : Byte} (h : b.inName = true) : b.isPlain = true :=
  Byte.isPlain_of_isWord (Byte.isWord_of_inName h)

namespace Lexer

theorem AtCode.token {l : Lexer} (h : l.AtCode) (b : Byte) : (l.token b).AtCode := ⟨h.mode, h.held⟩

theorem AtCode.tokens {l : Lexer} (h : l.AtCode) (text : Bytes) :
    (text.foldl Lexer.token l).AtCode := by
  induction text generalizing l with
  | nil => exact h
  | cons b text ih => exact ih (h.token b)

theorem gap_tokens (l : Lexer) {text : Bytes} (h : text ≠ []) :
    (text.foldl Lexer.token l).gap = .none := by
  induction text generalizing l with
  | nil => exact absurd rfl h
  | cons b text ih =>
    cases text with
    | nil => rfl
    | cons c text => exact ih (l.token b) (List.cons_ne_nil c text)

theorem left_token (l : Lexer) {b : Byte} (hb : b.isDigit = false) :
    (l.token b).left = .byte b := by
  simp [token, hb]

end Lexer

namespace Copies

variable {o : Options} {ahead : Option Byte} {l l₁ l' : Lexer}

/-- **Texts that are written as they are can be put end to end**, if no gap comes between them. -/
theorem append {text₁ text₂ : Bytes} (h₁ : Copies o (text₂.head?.or ahead) l text₁ l₁)
    (hne : text₁ ≠ []) (hgap : l₁.gap = .none) (h₂ : Copies o ahead l₁ text₂ l') :
    Copies o ahead l (text₁ ++ text₂) l' := by
  obtain ⟨pieces₁, hreads₁, hwrite₁⟩ := h₁
  obtain ⟨pieces₂, hreads₂, hwrite₂⟩ := h₂
  have hunder : l₁.gap.under o = .none := Gap.under_eq_none_iff.mpr hgap
  have hhead : (text₁ ++ text₂).headD 0 = text₁.headD 0 := by
    cases text₁ with
    | nil => exact absurd rfl hne
    | cons b text₁ => rfl
  rw [hunder, separator_none] at hwrite₂
  refine ⟨pieces₁ ++ pieces₂, hreads₁.append hreads₂, ?_⟩
  rw [List.flatMap_append, hwrite₁, hwrite₂, hhead, List.append_assoc]
  rfl

theorem token (hl : l.AtCode) {b : Byte} (hclass : ByteClass.of (some b) = .other)
    (hquote : b.isQuote = false)
    (hslash : b = Byte.slash → ¬ OpensComment ahead ∧ l.operandPosition = false) :
    Copies o ahead l [b] (l.token b) := by
  refine ⟨[.code l.left l.gap b], .single (.token hl.held hl.mode hclass hquote hslash), ?_⟩
  simp [Piece.write, Piece.separator?, Piece.byte]

theorem tokens (hl : l.AtCode) {text : Bytes} (hne : text ≠ [])
    (hplain : ∀ b ∈ text, b.isPlain = true) :
    Copies o ahead l text (text.foldl Lexer.token l) := by
  induction text generalizing l with
  | nil => exact absurd rfl hne
  | cons b text ih =>
    obtain ⟨hclass, hquote, hslash⟩ := Byte.isPlain_iff.mp (hplain b List.mem_cons_self)
    have hfirst {ahead : Option Byte} : Copies o ahead l [b] (l.token b) :=
      .token hl hclass hquote fun hb => absurd hb hslash
    cases text with
    | nil => exact hfirst
    | cons c text =>
      have hrest := ih (hl.token b) (List.cons_ne_nil c text)
        fun x hx => hplain x (List.mem_cons_of_mem b hx)
      exact append hfirst (List.cons_ne_nil b []) rfl hrest

end Copies

/-! ### Words -/

namespace Lexer

/-- What was written last is the word `word`, or one that cannot be a keyword. -/
structure Spells (l : Lexer) (word : Bytes) : Prop where
  gap : l.gap = .none
  continues : l.left.continuesWord = true
  letters : l.word.masked = true ∨ l.word.letters = word

theorem continuesWord_token (l : Lexer) {b : Byte} (hb : b.isWord = true) :
    (l.token b).left.continuesWord = true := by
  rw [token]
  split
  · rfl
  · exact hb

namespace Spells

theorem begins {l : Lexer} {b : Byte} (hl : l.left.continuesWord = false) (hb : b.isWord = true) :
    Spells (l.token b) [b] := by
  refine ⟨rfl, continuesWord_token l hb, .inr ?_⟩
  simp [token, wordAfter, hb, hl, Word.empty, Word.push, Word.limit]

theorem token {l : Lexer} {word : Bytes} (h : Spells l word) {b : Byte} (hb : b.isWord = true) :
    Spells (l.token b) (word ++ [b]) := by
  refine ⟨rfl, continuesWord_token l hb, ?_⟩
  have hword : (l.token b).word = l.word.push b := by
    show l.wordAfter b = l.word.push b
    rw [wordAfter, if_pos hb, if_pos ⟨h.gap, h.continues⟩]
  rw [hword, Word.push]
  -- a full memory masks the word, so its letters need not be known any more
  by_cases hfull : l.word.letters.length = Word.limit
  · left
    simp [hfull]
  · rcases h.letters with hmasked | hletters
    · left
      simp [hmasked]
    · right
      rw [hletters] at hfull
      simp [hfull, hletters]

theorem tokens {l : Lexer} {word text : Bytes} (h : Spells l word)
    (htext : ∀ b ∈ text, b.isWord = true) : Spells (text.foldl Lexer.token l) (word ++ text) := by
  induction text generalizing l word with
  | nil => rwa [List.append_nil]
  | cons b text ih =>
    have hrest := ih (h.token (htext b List.mem_cons_self))
      fun x hx => htext x (List.mem_cons_of_mem b hx)
    rwa [List.append_assoc] at hrest

theorem operandPosition {l : Lexer} {word : Bytes} (h : Spells l word)
    (hword : word ∉ operandKeywords) : l.operandPosition = false := by
  have hkeyword : l.word.isOperandKeyword = false := by
    rw [Word.isOperandKeyword]
    rcases h.letters with hmasked | hletters
    · simp [hmasked]
    · simp [hletters, hword]
  have hcontinues := h.continues
  rw [Lexer.operandPosition]
  cases hleft : l.left with
  | byte b =>
    rw [hleft] at hcontinues
    exact (if_pos hcontinues).trans hkeyword
  | start =>
    rw [hleft] at hcontinues
    cases hcontinues
  | number | stringEnd | regexEnd => rfl

end Spells

theorem operandPosition_ident {l : Lexer} (hl : l.left.continuesWord = false) (x : Ident) :
    (x.bytes.foldl Lexer.token l).operandPosition = false := by
  have hbegins := Spells.begins hl (Byte.isWord_of_inName (Byte.inName_of_beginsName x.begins))
  exact (hbegins.tokens fun b hb => Byte.isWord_of_inName (x.inside b hb)).operandPosition
    x.notKeyword

theorem exists_spells_digits {l : Lexer} (hl : l.gap = .none ∨ l.left.continuesWord = false)
    (d : Digits) : ∃ front, Spells (d.bytes.foldl Lexer.token l) (front ++ d.bytes) := by
  have hfirst := Byte.isWord_of_isDigit (d.isDigit d.first List.mem_cons_self)
  have hrest : ∀ b ∈ d.rest, b.isWord = true := fun b hb =>
    Byte.isWord_of_isDigit (d.isDigit b (List.mem_cons_of_mem d.first hb))
  cases hcontinues : l.left.continuesWord with
  | false => exact ⟨[], (Spells.begins hcontinues hfirst).tokens hrest⟩
  | true =>
    have hgap : l.gap = .none := hl.resolve_right (by simp [hcontinues])
    have hword : Spells l l.word.letters := ⟨hgap, hcontinues, .inr rfl⟩
    have hall := (hword.token hfirst).tokens hrest
    rw [List.append_assoc] at hall
    exact ⟨l.word.letters, hall⟩

theorem operandPosition_digits {l : Lexer} (hl : l.gap = .none ∨ l.left.continuesWord = false)
    (d : Digits) : (d.bytes.foldl Lexer.token l).operandPosition = false := by
  obtain ⟨front, hspells⟩ := exists_spells_digits hl d
  refine hspells.operandPosition fun hkeyword => ?_
  have hletters : ∀ k ∈ operandKeywords, ∀ b ∈ k, b.isDigit = false := by decide +kernel
  have hdigit := hletters _ hkeyword d.first (by simp [Digits.bytes])
  rw [d.isDigit d.first List.mem_cons_self] at hdigit
  cases hdigit

theorem operandPosition_numeral {l : Lexer} (hl : l.left.continuesWord = false) (n : Numeral) :
    (n.bytes.foldl Lexer.token l).operandPosition = false := by
  rw [Numeral.bytes, Numeral.point, List.foldl_append]
  cases n.fraction with
  | none => exact operandPosition_digits (.inr hl) n.whole
  | some digits => exact operandPosition_digits (l := Lexer.token _ Byte.dot) (.inl rfl) digits

end Lexer

/-! ### Strings -/

theorem reads_quotedBody {ahead : Option Byte} {quote : Byte} {body : Bytes} {l : Lexer}
    (h : QuotedBody quote body) (hmode : l.mode = .literal (.string quote))
    (hheld : l.held = false) : Reads ahead l body (body.map .inner) l := by
  have hlf {b : Byte} (hb : b.isLineBreak = false) : b ≠ Byte.lf := by
    rintro rfl
    cases hb
  induction h with
  | nil => exact .nil l
  | @plain b body hquote hback hbreak _ ih =>
    have hnext : (Literal.string quote).next? b = some (.string quote) := if_neg hquote
    have hstep : Step l b (body.head?.or ahead) { l with mode := .literal (.string quote) }
        (some (.inner b)) := .copy hheld hmode (hlf hbreak) hback hnext
    rw [← hmode] at hstep
    exact .cons hstep ih
  | @escape c body hbreak _ ih =>
    have hstep : Step l Byte.backslash (some c) { l with held := true }
        (some (.inner Byte.backslash)) := .escape hheld hmode
    have hcopy : Step { l with held := true } c (body.head?.or ahead) { l with held := false }
        (some (.inner c)) := .copyHeld rfl hmode
    rw [← hheld] at hcopy
    exact .cons hstep (.cons hcopy ih)

/-- **A string is written as it is.** -/
theorem Copies.quoted {o : Options} {ahead : Option Byte} {l : Lexer} (hl : l.AtCode) (q : Quoted) :
    Copies o ahead l q.bytes ((l.enter (.string q.quote)).leave (.string q.quote)) := by
  have hback : q.quote ≠ Byte.backslash := Byte.ne_of_isQuote q.isQuote (by decide)
  have hlf : q.quote ≠ Byte.lf := Byte.ne_of_isQuote q.isQuote (by decide)
  have hopen : Reads ((q.body ++ [q.quote]).head?.or ahead) l [q.quote]
      [.opener l.left l.gap false q.quote] (l.enter (.string q.quote)) :=
    .single (.openString hl.held hl.mode q.isQuote)
  have hbody : Reads (([q.quote] : Bytes).head?.or ahead) (l.enter (.string q.quote)) q.body
      (q.body.map .inner) (l.enter (.string q.quote)) :=
    reads_quotedBody q.closed rfl hl.held
  have hends : (Literal.string q.quote).next? q.quote = none := if_pos rfl
  have hstep : Step (l.enter (.string q.quote)) q.quote ahead
      ((l.enter (.string q.quote)).leave (.string q.quote)) (some (.inner q.quote)) :=
    .closeLiteral hl.held rfl hlf hback hends
  refine ⟨_, hopen.append (hbody.append (.single hstep)), ?_⟩
  simp [Quoted.bytes, Piece.write, Piece.separator?, Piece.byte, List.flatMap_map]

/-! ### Paddings -/

theorem reads_comment (ahead : Option Byte) {l : Lexer} {c : Bytes} (hc : IsComment c)
    (hl : l.AtCode) : ∃ gap, gap ≠ .none ∧ Reads ahead l c [] { l with gap := gap } := by
  have hcrosses : Crosses ahead l c [] (l.dropComment (c.contains Byte.lf)) :=
    (crosses_comment_iff hl).mpr ⟨hc, rfl⟩
  have hreads := hcrosses.reads
  rw [Lexer.dropComment, ← hl.mode] at hreads
  exact ⟨_, l.gap_dropComment_ne_none (c.contains Byte.lf), hreads⟩

theorem step_space {l : Lexer} {b : Byte} (hb : b.isSpace = true) (next : Option Byte)
    (hl : l.AtCode) : ∃ gap, gap ≠ .none ∧ Step l b next { l with gap := gap } none := by
  have hne {gap : Gap} (hgap : gap ≠ .none) : l.gap.widen gap ≠ .none :=
    fun hwiden => hgap (Gap.widen_eq_none_iff.mp hwiden).2
  by_cases hblank : b.isBlank = true
  · exact ⟨_, hne (by decide), .blank hl.held hl.mode hblank⟩
  · have hbreak : b.isLineBreak = true := by
      rcases Byte.eq_of_isSpace hb with rfl | rfl | rfl | rfl | rfl <;>
        first | rfl | exact absurd rfl hblank
    exact ⟨_, hne (by decide), .lineBreak hl.held hl.mode hbreak⟩

/-- **White space and comments leave a gap and nothing else.** -/
theorem reads_filler (ahead : Option Byte) {l : Lexer} {g : Bytes} (h : Filler g) (hl : l.AtCode) :
    ∃ gap, (gap = .none ↔ l.gap = .none ∧ g = []) ∧
      Reads ahead l (unifyBreaks g) [] { l with gap := gap } := by
  induction h generalizing l with
  | nil => exact ⟨l.gap, by simp, .nil l⟩
  | @space b g hb _ ih =>
    -- what stands behind the first byte, once a gap is there
    have hcons (c : Byte) (hc : c.isSpace = true) : ∃ gap, gap ≠ .none ∧
        Reads ahead l (c :: unifyBreaks g) [] { l with gap := gap } := by
      obtain ⟨gap₁, hgap₁, hstep⟩ := step_space hc ((unifyBreaks g).head?.or ahead) hl
      obtain ⟨gap, hgap, hreads⟩ := ih (l := { l with gap := gap₁ }) ⟨hl.mode, hl.held⟩
      exact ⟨gap, fun hnone => hgap₁ (hgap.mp hnone).1, .cons hstep hreads⟩
    have hiff {gap : Gap} (hgap : gap ≠ .none) : gap = .none ↔ l.gap = .none ∧ b :: g = [] := by
      simp [hgap]
    by_cases hcr : b = Byte.cr
    · subst hcr
      by_cases hlf : g.head? = some Byte.lf
      · -- the two bytes are one line break, that of `g`
        obtain ⟨g, rfl⟩ := List.head?_eq_some_iff.mp hlf
        obtain ⟨gap, hgap, hreads⟩ := ih hl
        refine ⟨gap, hiff fun hnone => absurd (hgap.mp hnone).2 (List.cons_ne_nil _ _), ?_⟩
        rwa [unifyBreaks_cons (by decide), ← unifyBreaks_cons_cr_lf] at hreads
      · obtain ⟨gap, hgap, hreads⟩ := hcons Byte.lf (by decide)
        exact ⟨gap, hiff hgap, by rwa [unifyBreaks_cons_cr hlf]⟩
    · obtain ⟨gap, hgap, hreads⟩ := hcons b hb
      exact ⟨gap, hiff hgap, by rwa [unifyBreaks_cons hcr]⟩
  | @comment c g hc hcr _ ih =>
    obtain ⟨gap₁, hgap₁, hcomment⟩ := reads_comment ((unifyBreaks g).head?.or ahead) hc hl
    obtain ⟨gap, hgap, hreads⟩ := ih (l := { l with gap := gap₁ }) ⟨hl.mode, hl.held⟩
    refine ⟨gap, ?_, ?_⟩
    · simp [hgap, hgap₁, hc.ne_nil]
    · rw [unifyBreaks_append_of_notMem hcr]
      exact hcomment.append hreads

/-! ### Symbols -/

namespace Symbol

def Ready (s : Symbol) (l : Lexer) : Prop :=
  match s with
  | .ident _ | .numeral _ => l.left.continuesWord = false
  | .operator .divide | .half _ false => l.operandPosition = false
  | .half s true => l.left = .byte s.byte ∧ l.gap = .none ∧ l.doubled = false
  | _ => True

structure After (s : Symbol) (l : Lexer) : Prop where
  operand : s.endsOperand = true → l.operandPosition = false
  apart : s.endsOperand = false → l.left.continuesWord = false
  sign : ∀ t, s.sign? = some t → l.left = .byte t.byte
  half : ∀ t, s = .half t false → l.doubled = false

end Symbol

/-- **The lexer knows enough in front of a mark**, if it did behind the one before it. -/
theorem Mark.Fits.ready {m n : Mark} {l : Lexer} (h : m.Fits n) (hafter : m.symbol.After l)
    (hgap : m.pad.text = [] → l.gap = .none) : n.symbol.Ready l := by
  rw [Mark.Fits] at h
  cases hn : n.symbol with
  | ident x =>
    rw [hn] at h
    exact hafter.apart h
  | numeral x =>
    rw [hn] at h
    exact hafter.apart h
  | operator op =>
    rw [hn] at h
    cases op with
    | divide => exact hafter.operand h
    | _ => exact trivial
  | half s second =>
    rw [hn] at h
    cases second with
    | false => exact hafter.operand h
    | true =>
      exact ⟨hafter.sign s (by rw [h.1]; rfl), hgap h.2, hafter.half s h.1⟩
  | quoted | leftParen | rightParen | semicolon | assign | negation | sign => exact trivial

namespace Symbol

variable {l : Lexer}

theorem After.of_byte {s : Symbol} {b : Byte} (hl : l.left = .byte b) (hb : b.isWord = false)
    (hends : s.endsOperand = false) (hsign : s.sign? = none) : s.After l := by
  refine ⟨fun h => ?_, fun _ => ?_, fun t ht => ?_, fun t ht => ?_⟩
  · rw [hends] at h
    cases h
  · rw [hl]
    exact hb
  · rw [hsign] at ht
    cases ht
  · rw [ht] at hsign
    cases hsign

theorem After.of_operand {s : Symbol} (hl : l.operandPosition = false)
    (hends : s.endsOperand = true) (hsign : s.sign? = none) : s.After l := by
  refine ⟨fun _ => hl, fun h => ?_, fun t ht => ?_, fun t ht => ?_⟩
  · rw [hends] at h
    cases h
  · rw [hsign] at ht
    cases ht
  · rw [ht] at hsign
    cases hsign

end Symbol

theorem Sign.not_isDigit_byte (s : Sign) : s.byte.isDigit = false := by cases s <;> decide

theorem Sign.kinds_byte (s : Sign) :
    s.byte.isWord = false ∧ s.byte.isCloser = false ∧ s.byte.isSign = true := by
  cases s <;> decide

theorem Lexer.operandPosition_sign {l : Lexer} {s : Sign} (h : l.left = .byte s.byte) :
    l.operandPosition = !l.doubled := by
  obtain ⟨hword, hcloser, hsign⟩ := s.kinds_byte
  simp [Lexer.operandPosition, h, hword, hcloser, hsign]

theorem Symbol.after_half {l : Lexer} {s : Sign} {second : Bool}
    (h : (Symbol.half s second).Ready l) : (Symbol.half s second).After (l.token s.byte) := by
  have hleft := l.left_token s.not_isDigit_byte
  have hdoubled : (l.token s.byte).doubled = second := by
    show l.doubles s.byte = second
    cases second with
    | false =>
      -- behind an operand the sign written last, if there is one, has doubled already
      rw [Lexer.doubles]
      by_cases hbyte : l.left = .byte s.byte
      · have hoperand := Lexer.operandPosition_sign hbyte
        rw [show l.operandPosition = false from h] at hoperand
        simp [← hoperand]
      · simp [hbyte]
    | true =>
      obtain ⟨hbyte, hgap, hdoubled⟩ := h
      simp [Lexer.doubles, s.kinds_byte.2.2, hbyte, hgap, hdoubled]
  refine ⟨fun hends => ?_, fun _ => ?_, fun t ht => ?_, fun t ht => ?_⟩
  · rw [Lexer.operandPosition_sign hleft, hdoubled]
    cases second with
    | false => cases hends
    | true => rfl
  · rw [hleft]
    exact s.kinds_byte.1
  · cases ht
    exact hleft
  · cases ht
    exact hdoubled

/-- **What the lexer knows behind a symbol** that it took byte by byte. -/
theorem Symbol.after_tokens {s : Symbol} {l : Lexer} (hs : ∀ q, s ≠ .quoted q) (h : s.Ready l) :
    s.After (s.bytes.foldl Lexer.token l) := by
  cases s with
  | ident x => exact .of_operand (Lexer.operandPosition_ident h x) rfl rfl
  | numeral n => exact .of_operand (Lexer.operandPosition_numeral h n) rfl rfl
  | quoted q => exact absurd rfl (hs q)
  | rightParen =>
    have hleft : (l.token 0x29).left = .byte 0x29 := l.left_token (by decide)
    refine .of_operand ?_ rfl rfl
    show (l.token 0x29).operandPosition = false
    rw [Lexer.operandPosition, hleft]
    rfl
  | operator op => cases op <;> exact .of_byte (Lexer.left_token _ (by decide)) (by decide) rfl rfl
  | sign s =>
    have hleft := l.left_token s.not_isDigit_byte
    refine ⟨nofun, fun _ => ?_, fun t ht => ?_, nofun⟩
    · show (l.token s.byte).left.continuesWord = false
      rw [hleft]
      exact s.kinds_byte.1
    · cases ht
      exact hleft
  | half s second => exact after_half h
  | leftParen | semicolon | assign | negation =>
    exact .of_byte (Lexer.left_token _ (by decide)) (by decide) rfl rfl

theorem Numeral.isPlain_of_mem (n : Numeral) : ∀ b ∈ n.bytes, b.isPlain = true := by
  intro b hb
  have hdigit {b : Byte} (hb : b.isDigit = true) : b.isPlain = true :=
    Byte.isPlain_of_inName (Byte.inName_of_isDigit hb)
  rcases List.mem_cons.mp hb with rfl | hb
  · exact hdigit (n.whole.isDigit _ List.mem_cons_self)
  · have hnumber := n.inNumber_of_mem b hb
    rw [Byte.inNumber, Bool.or_eq_true, beq_iff_eq] at hnumber
    rcases hnumber with hb | rfl
    · exact hdigit hb
    · decide

theorem Ident.isPlain_of_mem (x : Ident) : ∀ b ∈ x.bytes, b.isPlain = true := by
  intro b hb
  rcases List.mem_cons.mp hb with rfl | hb
  · exact Byte.isPlain_of_inName (Byte.inName_of_beginsName x.begins)
  · exact Byte.isPlain_of_inName (x.inside b hb)

theorem QuotedBody.not_isLineBreak {quote : Byte} {body : Bytes} (h : QuotedBody quote body) :
    ∀ b ∈ body, b.isLineBreak = false := by
  have hback : Byte.backslash.isLineBreak = false := by decide
  induction h with
  | nil => simp
  | plain _ _ hbreak _ ih => simpa [hbreak] using ih
  | escape hbreak _ ih => simpa [hback, hbreak] using ih

namespace Symbol

theorem isPlain_of_mem {s : Symbol} (hquoted : ∀ q, s ≠ .quoted q)
    (hdivide : s ≠ .operator .divide) : ∀ b ∈ s.bytes, b.isPlain = true := by
  have hall {bs : Bytes} (h : bs.all Byte.isPlain = true) : ∀ b ∈ bs, b.isPlain = true :=
    List.all_eq_true.mp h
  cases s with
  | ident x => exact x.isPlain_of_mem
  | numeral n => exact n.isPlain_of_mem
  | quoted q => exact absurd rfl (hquoted q)
  | operator op =>
    cases op with
    | divide => exact absurd rfl hdivide
    | _ => exact hall (by decide)
  | sign s => cases s <;> exact hall (by decide)
  | half s second => cases s <;> cases second <;> exact hall (by decide)
  | leftParen | rightParen | semicolon | assign | negation => exact hall (by decide)

theorem bytes_ne_nil (s : Symbol) : s.bytes ≠ [] := by
  rw [bytes_eq_cons]
  exact List.cons_ne_nil _ _

/-- **A symbol is written as it is**, and the lexer knows what it was. -/
theorem copies {o : Options} {ahead : Option Byte} {l : Lexer} (s : Symbol) (hl : l.AtCode)
    (h : s.Ready l) (hahead : s = .operator .divide → ¬ OpensComment ahead) :
    ∃ l', Copies o ahead l s.bytes l' ∧ l'.AtCode ∧ l'.gap = .none ∧ s.After l' := by
  by_cases hquoted : ∃ q, s = .quoted q
  · obtain ⟨q, rfl⟩ := hquoted
    exact ⟨_, .quoted hl q, ⟨rfl, hl.held⟩, rfl, .of_operand rfl rfl rfl⟩
  · rw [not_exists] at hquoted
    have hcopies : Copies o ahead l s.bytes (s.bytes.foldl Lexer.token l) := by
      by_cases hdivide : s = .operator .divide
      · subst hdivide
        exact .token hl ByteClass.of_slash rfl fun _ => ⟨hahead rfl, h⟩
      · exact .tokens hl s.bytes_ne_nil (isPlain_of_mem hquoted hdivide)
    exact ⟨_, hcopies, hl.tokens _, l.gap_tokens s.bytes_ne_nil, after_tokens hquoted h⟩

theorem not_isLineBreak (s : Symbol) : ∀ b ∈ s.bytes, b.isLineBreak = false := by
  by_cases hquoted : ∃ q, s = .quoted q
  · obtain ⟨q, rfl⟩ := hquoted
    have hquote : q.quote.isLineBreak = false := by
      rcases Byte.eq_of_isQuote q.isQuote with hq | hq <;> rw [hq] <;> decide
    intro b hb
    simp only [bytes, Quoted.bytes, List.mem_cons, List.mem_append, List.not_mem_nil,
      or_false] at hb
    rcases hb with rfl | hb | rfl
    · exact hquote
    · exact q.closed.not_isLineBreak b hb
    · exact hquote
  · rw [not_exists] at hquoted
    by_cases hdivide : s = .operator .divide
    · subst hdivide
      intro b hb
      rw [List.mem_singleton.mp hb]
      decide
    · intro b hb
      have hplain := isPlain_of_mem hquoted hdivide b hb
      exact (ByteClass.of_eq_other_iff.mp (Byte.isPlain_iff.mp hplain).1).2

theorem first_of_sign? {s : Symbol} {t : Sign} (h : s.sign? = some t) : s.first = t.byte := by
  cases s <;> first | cases h; rfl | cases h

end Symbol

/-! ### Rows of marks -/

theorem Padding.exists_separator (left : Left) (gap : Gap) (next : Byte) :
    ∃ pad : Padding, pad.text = (separator left gap next false).toList := by
  cases hsep : separator left gap next false with
  | none => exact ⟨.empty, rfl⟩
  | some b =>
    have hb : b.isSpace = true := by
      rcases separator_eq_some hsep with rfl | rfl <;> decide
    exact ⟨.ofSpace b hb, rfl⟩

namespace Mark

theorem not_opensComment {m : Mark} {ms : List Mark} (h : (m :: ms).IsChain Fits)
    (hm : m.symbol = .operator .divide) : ¬ OpensComment (m.pad.text ++ text ms).head? := by
  by_cases hpad : m.pad.text = []
  · rw [hpad, List.nil_append]
    cases ms with
    | nil => simp [OpensComment]
    | cons n ms =>
      have hfits := (List.isChain_cons_cons.mp h).1
      rw [← List.append_nil (text (n :: ms)), head?_text_cons]
      exact (hfits.not_operator (by rw [hm]; rfl) (by rw [hm]; rfl)).2
  · exact (Symbol.operator .divide).stops_of_isSpace (m.pad.head?_append hpad (text ms))

theorem unifyBreaks_text (pad : Padding) (n : Mark) (ms : List Mark) :
    unifyBreaks (pad.text ++ text (n :: ms))
      = unifyBreaks pad.text ++ (n.symbol.bytes ++ unifyBreaks (n.pad.text ++ text ms)) := by
  have hbreak := n.symbol.not_isLineBreak
  have hcr : Byte.cr ∉ n.symbol.bytes := fun hmem => absurd (hbreak _ hmem) (by decide)
  have hlf : Byte.lf ∉ n.symbol.bytes := fun hmem => absurd (hbreak _ hmem) (by decide)
  rw [text_cons, ← unifyBreaks_append_of_notMem hcr]
  rw [Symbol.bytes_eq_cons, List.mem_cons, not_or] at hcr hlf
  rw [Symbol.bytes_eq_cons, List.cons_append, unifyBreaks_append (Ne.symm hcr.1) (Ne.symm hlf.1),
    unifyBreaks_cons (Ne.symm hcr.1)]

theorem joins_congr {m n n' : Mark} {pad : Padding} (hn : n'.symbol = n.symbol)
    (hpad : ∀ s, m.symbol.sign? = some s → n.symbol.sign? = some s →
      (pad.text = [] ↔ m.pad.text = [])) :
    joins ⟨m.symbol, pad⟩ n' = m.joins n := by
  rw [Bool.eq_iff_iff, joins_iff, joins_iff, hn]
  constructor
  · rintro ⟨hempty, s, hm, hn⟩
    exact ⟨(hpad s hm hn).mp hempty, s, hm, hn⟩
  · rintro ⟨hempty, s, hm, hn⟩
    exact ⟨(hpad s hm hn).mpr hempty, s, hm, hn⟩

end Mark

/-- **Between two equal signs a separator is written exactly if something stood there.** -/
theorem separator_sign_eq_none_iff (o : Options) (s : Sign) (gap : Gap) :
    separator (.byte s.byte) (gap.under o) s.byte false = none ↔ gap = .none := by
  have hruns : (Left.byte s.byte).runsInto s.byte = true := by cases s <;> decide
  rw [← Left.keeps_of_runsInto hruns o gap false, Gap.ofSeparator_eq_none_iff]

/-- **A row of marks is written as a row that is alike.** -/
theorem reads_marks (o : Options) {m : Mark} {ms : List Mark} {l : Lexer}
    (h : (m :: ms).IsChain Mark.Fits) (hl : l.AtCode) (hgap : l.gap = .none)
    (hafter : m.symbol.After l) :
    ∃ pieces l' pad ms', Reads none l (unifyBreaks (m.pad.text ++ Mark.text ms)) pieces l' ∧
      l'.AtCode ∧ Mark.Alike (m :: ms) (⟨m.symbol, pad⟩ :: ms') ∧
      pieces.flatMap (Piece.write o) = pad.text ++ Mark.text ms' := by
  induction ms generalizing m l with
  | nil =>
    obtain ⟨gap, -, hreads⟩ := reads_filler none m.pad.filler hl
    rw [Mark.text_nil, List.append_nil]
    exact ⟨[], _, .empty, [], hreads, ⟨hl.mode, hl.held⟩, .single rfl, rfl⟩
  | cons n ms ih =>
    obtain ⟨hfits, hchain⟩ := List.isChain_cons_cons.mp h
    -- the padding of `m`, the symbol of `n`, and all that stands behind it
    obtain ⟨gap, hnone, hfiller⟩ := reads_filler
      ((n.symbol.bytes ++ unifyBreaks (n.pad.text ++ Mark.text ms)).head?.or none)
      m.pad.filler hl
    have hempty : gap = .none ↔ m.pad.text = [] := by simpa [hgap] using hnone
    have hready : n.symbol.Ready { l with gap := gap } :=
      hfits.ready (l := { l with gap := gap })
        ⟨hafter.operand, hafter.apart, hafter.sign, hafter.half⟩ hempty.mpr
    have hahead : n.symbol = .operator .divide →
        ¬ OpensComment ((unifyBreaks (n.pad.text ++ Mark.text ms)).head?.or none) := by
      intro hdivide
      rw [Option.or_none, opensComment_unifyBreaks]
      exact Mark.not_opensComment hchain hdivide
    obtain ⟨l₁, ⟨pieces₁, hreads₁, hwrite₁⟩, hl₁, hgap₁, hafter₁⟩ :=
      n.symbol.copies (o := o) (l := { l with gap := gap }) ⟨hl.mode, hl.held⟩ hready hahead
    obtain ⟨pieces₂, l', pad₂, ms', hreads₂, hl', halike, hwrite₂⟩ := ih hchain hl₁ hgap₁ hafter₁
    obtain ⟨pad, hpad⟩ := Padding.exists_separator l.left (gap.under o) n.symbol.first
    refine ⟨pieces₁ ++ pieces₂, l', pad, ⟨n.symbol, pad₂⟩ :: ms', ?_, hl', .cons rfl ?_ halike, ?_⟩
    · rw [Mark.unifyBreaks_text]
      exact hfiller.append (hreads₁.append hreads₂)
    · refine Mark.joins_congr rfl fun s hm hn => ?_
      rw [hpad, hafter.sign s hm, Symbol.first_of_sign? hn, Option.toList_eq_nil_iff,
        separator_sign_eq_none_iff, hempty]
    · rw [List.flatMap_append, hwrite₁, hwrite₂, hpad, Mark.text_cons]
      simp [Symbol.first]

/-- **A program keeps its tokens.**  Minifying it succeeds, and the result has the tokens of the
program. -/
theorem Program.munch_minify (p : Program) (o : Options) :
    ∃ out tokens, minify o p.text = .ok out ∧ munch p.text = some tokens ∧
      munch out = some tokens := by
  -- the program stands behind nothing as it would behind a semicolon
  have hchain := p.isChain_marks ⟨.semicolon, p.lead⟩ rfl
  have hafter : Symbol.After .semicolon .initial := ⟨nofun, fun _ => rfl, nofun, nofun⟩
  obtain ⟨pieces, l', pad, marks, hreads, hl', halike, hwrite⟩ :=
    reads_marks o hchain ⟨rfl, rfl⟩ rfl hafter
  rw [← p.text_marks] at hreads
  have hfinish : l'.finish = none := by rw [Lexer.finish, hl'.mode]
  obtain ⟨hpieces, hstop⟩ := scan_of_reads hreads hfinish
  refine ⟨pad.text ++ Mark.text marks ++ (scan p.text).trailer o, Mark.tokens p.marks, ?_, ?_, ?_⟩
  · rw [minify_eq_ok_iff]
    exact ⟨hstop, by rw [Scan.write, hpieces, hwrite]⟩
  · have hmunch : munch (Mark.text p.marks ++ []) = _ := Mark.munch_text hchain.tail (by simp)
    rw [List.append_nil, munch_nil] at hmunch
    rw [p.text_marks, munch_filler p.lead.filler, hmunch]
    simp
  · have htrailer : Filler ((scan p.text).trailer o) ∧
        ∀ b ∈ ((scan p.text).trailer o).head?, b.isSpace = true := by
      rw [Scan.trailer]
      split
      · exact ⟨.space (by decide) .nil, by simp [Byte.isSpace]⟩
      · exact ⟨.nil, by simp⟩
    have hend : munch ((scan p.text).trailer o) = some [] := by
      rw [← List.append_nil ((scan p.text).trailer o), munch_filler htrailer.1, munch_nil]
    have hmunch := Mark.munch_text (halike.tail.isChain hchain.tail) htrailer.2
    rw [List.append_assoc, munch_filler pad.filler, hmunch, hend, halike.tail.tokens_eq]
    simp

example : minify {} (utf8 "x = a ++ /* b */ + +b\n/ c ;") = .ok (utf8 "x=a++ + +b/c;") := by cbv

end ScriptMinifier
