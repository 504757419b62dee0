import ScriptMinifier.Proofs.ExpressionScan

/-!
# Decimal literals end as values

A decimal literal is never one token to the lexer: its digits, its full stop, the letter and the
sign of its exponent are bytes of code like any other.  Behind it a word must be kept apart
(`KeepsApart`) and a slash must divide (`IsDivided`), so whatever the literal is made of, the lexer
has to know that a value ends there (`Lexer.BehindValue`).

It does so behind digits, wherever they stand (`Lexer.behindValue_digits`): no keyword has a digit
in it.  And every literal ends with digits, except for one that ends with its full stop
(`Decimal.ends_with_digits`).  Behind the full stop of `1.` the lexer waits for a name as it does
behind that of `a.`, so a slash is taken for a regular expression, and a gap in front of a word is
dropped.  Hence `decimal_ends_as_value_iff`: a literal ends as a value exactly if it does not end
with a full stop.
-/

namespace ScriptMinifier

open Lexer (Step)

/-! ### The literals -/

inductive Mantissa where
  | whole (digits : Digits)
  /-- The full stop stands behind the digits. -/
  | dotted (digits : Digits)
  | mixed (digits places : Digits)
  /-- The full stop stands in front of the digits. -/
  | pointed (places : Digits)

/-- The exponent of a decimal literal. -/
structure Exponent where
  letter : Byte
  isLetter : letter = Byte.ofChar 'e' ∨ letter = Byte.ofChar 'E'
  sign : Option Sign
  digits : Digits

structure Decimal where
  mantissa : Mantissa
  exponent : Option Exponent

def Mantissa.bytes : Mantissa → Bytes
  | whole digits => digits.bytes
  | dotted digits => digits.bytes ++ [Byte.dot]
  | mixed digits places => digits.bytes ++ Byte.dot :: places.bytes
  | pointed places => Byte.dot :: places.bytes

def Exponent.lead (e : Exponent) : Bytes := e.letter :: (e.sign.map Sign.byte).toList

def Exponent.bytes (e : Exponent) : Bytes := e.lead ++ e.digits.bytes

def Decimal.bytes (d : Decimal) : Bytes := d.mantissa.bytes ++ d.exponent.elim [] Exponent.bytes

theorem Digits.isPlain_of_mem (d : Digits) {b : Byte} (hb : b ∈ d.bytes) : b.isPlain = true :=
  Byte.isPlain_of_isWord (Byte.isWord_of_isDigit (d.isDigit b hb))

theorem Mantissa.isPlain_of_mem (m : Mantissa) {b : Byte} (hb : b ∈ m.bytes) :
    b.isPlain = true := by
  have hdot : Byte.dot.isPlain = true := by decide
  cases m with
  | whole digits => exact digits.isPlain_of_mem hb
  | dotted digits =>
    rcases List.mem_append.mp hb with hb | hb
    · exact digits.isPlain_of_mem hb
    · rwa [List.mem_singleton.mp hb]
  | mixed digits places =>
    rcases List.mem_append.mp hb with hb | hb
    · exact digits.isPlain_of_mem hb
    · rcases List.mem_cons.mp hb with rfl | hb
      · exact hdot
      · exact places.isPlain_of_mem hb
  | pointed places =>
    rcases List.mem_cons.mp hb with rfl | hb
    · exact hdot
    · exact places.isPlain_of_mem hb

theorem Exponent.isPlain_of_mem (e : Exponent) {b : Byte} (hb : b ∈ e.bytes) :
    b.isPlain = true := by
  rcases List.mem_append.mp hb with hb | hb
  · rcases List.mem_cons.mp hb with rfl | hb
    · rcases e.isLetter with h | h <;> rw [h] <;> decide
    · obtain ⟨s, -, rfl⟩ : ∃ s, e.sign = some s ∧ s.byte = b := by simpa using hb
      cases s <;> decide
  · exact e.digits.isPlain_of_mem hb

namespace Decimal

theorem isPlain_of_mem (d : Decimal) {b : Byte} (hb : b ∈ d.bytes) : b.isPlain = true := by
  rcases List.mem_append.mp hb with hb | hb
  · exact d.mantissa.isPlain_of_mem hb
  · cases hexponent : d.exponent with
    | none => simp [hexponent] at hb
    | some e =>
      rw [hexponent] at hb
      exact e.isPlain_of_mem hb

theorem bytes_ne_nil (d : Decimal) : d.bytes ≠ [] := by
  cases hmantissa : d.mantissa <;> simp [bytes, hmantissa, Mantissa.bytes, Digits.bytes]

/-- **A literal ends with digits, or with its full stop.** -/
theorem ends_with_digits (d : Decimal) :
    (∃ front digits, d.bytes = front ++ Digits.bytes digits) ∨
      ∃ front, d.bytes = front ++ [Byte.dot] := by
  rw [bytes]
  cases d.exponent with
  | some e => exact .inl ⟨d.mantissa.bytes ++ e.lead, e.digits, (List.append_assoc ..).symm⟩
  | none =>
    rw [Option.elim_none, List.append_nil]
    cases d.mantissa with
    | whole digits => exact .inl ⟨[], digits, rfl⟩
    | dotted digits => exact .inr ⟨digits.bytes, rfl⟩
    | mixed digits places =>
      exact .inl ⟨digits.bytes ++ [Byte.dot], places, by simp [Mantissa.bytes]⟩
    | pointed places => exact .inl ⟨[Byte.dot], places, rfl⟩

end Decimal

/-! ### The state behind a literal -/

/-- What was written last is taken for the end of a value: a word behind it would run into it, and a
slash divides. -/
structure Lexer.BehindValue (l : Lexer) : Prop where
  glues : l.left.gluesToWord = true
  divides : l.operandPosition = false

/-- **Behind digits a value ends**, whether they are a word or the end of one. -/
theorem Lexer.behindValue_digits {l : Lexer}
    (hl : l.gap = .none ∨ l.left.continuesWord = false) (d : Digits) :
    (d.bytes.foldl Lexer.token l).BehindValue := by
  obtain ⟨front, hspells⟩ := exists_spells_digits hl d
  exact ⟨Left.gluesToWord_of_continuesWord hspells.continues, operandPosition_digits hl d⟩

theorem Lexer.behindValue_decimal {l : Lexer} (hl : l.left.continuesWord = false) (d : Decimal)
    (hd : d.bytes.getLast? ≠ some Byte.dot) : (d.bytes.foldl Lexer.token l).BehindValue := by
  rcases d.ends_with_digits with ⟨front, digits, hbytes⟩ | ⟨front, hbytes⟩
  · rw [hbytes, List.foldl_append]
    refine behindValue_digits ?_ digits
    by_cases hfront : front = []
    · exact .inr (by rwa [hfront])
    · exact .inl (l.gap_tokens hfront)
  · rw [hbytes] at hd
    exact absurd List.getLast?_concat hd

/-- **Behind a full stop a slash opens a regular expression.** -/
theorem Lexer.operandPosition_token_dot (l : Lexer) :
    (l.token Byte.dot).operandPosition = true := by
  rw [operandPosition, left_token l (by decide)]
  rfl

theorem Lexer.AtCode.widen {l : Lexer} (h : l.AtCode) (g : Gap) : (l.widen g).AtCode :=
  ⟨h.mode, h.held⟩

theorem Lexer.widen_widen (l : Lexer) (g h : Gap) : (l.widen g).widen h = l.widen (g.widen h) := by
  simp [widen, Gap.widen_assoc]

/-- **Layout leaves its gap and nothing else.** -/
theorem reads_layout (ahead : Option Byte) {l : Lexer} {g : Bytes} {comments : List Bytes}
    (h : Layout g comments) (hl : l.AtCode) :
    Reads ahead l g [] (l.widen (.ofLayout g comments)) := by
  induction h generalizing l with
  | nil =>
    have hnone : l.widen (.ofLayout [] []) = l := by simp [Lexer.widen, Gap.ofLayout]
    rw [hnone]
    exact .nil l
  | @space b g comments hb _ ih =>
    have hstep : Step l b (g.head?.or ahead) (l.widen (.ofLayout [b] [])) none := by
      rcases hb with hblank | rfl
      · rw [Gap.ofLayout_blank hblank]
        exact .blank hl.held hl.mode hblank
      · exact .lineBreak hl.held hl.mode (by decide)
    have hrest := ih (hl.widen (.ofLayout [b] []))
    rw [l.widen_widen, ← Gap.ofLayout_append] at hrest
    exact .cons hstep hrest
  | @comment c g comments hc _ ih =>
    have hcomment : Reads (g.head?.or ahead) l c [] (l.widen (.ofLayout c [c])) := by
      have hcrosses : Crosses (g.head?.or ahead) l c [] (l.dropComment (c.contains Byte.lf)) :=
        (crosses_comment_iff hl).mpr ⟨hc, rfl⟩
      have hreads := hcrosses.reads
      rwa [Lexer.dropComment, ← hl.mode, ← Gap.ofLayout_comment hc] at hreads
    have hrest := ih (hl.widen (.ofLayout c [c]))
    rw [l.widen_widen, ← Gap.ofLayout_append] at hrest
    exact hcomment.append hrest

/-! ### Behind an equals sign -/

abbrev Byte.equals : Byte := 0x3d

/-- A word behind `n` is kept apart from it: if `n` stands right behind an equals sign of code and
has a gap and a byte of a word behind it, a space or a line feed is written between them. -/
def KeepsApart (n : Bytes) : Prop :=
  ∀ (o : Options) (p g rest : Bytes) (c : Byte) (pieces : List Piece) (l : Lexer)
    (comments : List Bytes),
    Reads (some Byte.equals) .initial (unifyBreaks p) pieces l → l.AtCode →
    Layout (unifyBreaks g) comments → g ≠ [] → c.isWord = true →
    ∃ sep tail, (sep = Byte.lf ∨ sep = Byte.space) ∧
      emitted o (p ++ Byte.equals :: (n ++ (g ++ c :: rest)))
        = pieces.flatMap (Piece.write o) ++ (Piece.code l.left l.gap Byte.equals).write o ++ n
          ++ sep :: c :: tail

/-- A slash behind `n` divides: if `n` stands right behind an equals sign of code, then behind it
and behind every gap after it a slash that opens no comment is a token. -/
def IsDivided (n : Bytes) : Prop :=
  ∀ (p g : Bytes) (pieces : List Piece) (l : Lexer) (comments : List Bytes),
    Reads (some Byte.equals) .initial (unifyBreaks p) pieces l → l.AtCode →
    Layout (unifyBreaks g) comments →
    ∃ pieces' l',
      Reads (some Byte.slash) .initial (unifyBreaks (p ++ Byte.equals :: (n ++ g))) pieces' l' ∧
      l'.operandPosition = false ∧
      ∀ next, ¬ OpensComment next →
        Step l' Byte.slash next (l'.token Byte.slash) (some (.code l'.left l'.gap Byte.slash))

theorem unifyBreaks_assignment (p : Bytes) {n : Bytes} (hn : ∀ b ∈ n, b.isPlain = true)
    (g : Bytes) :
    unifyBreaks (p ++ Byte.equals :: (n ++ g))
      = unifyBreaks p ++ Byte.equals :: (n ++ unifyBreaks g) := by
  have hcr : Byte.cr ∉ n := fun h => absurd (hn _ h) (by decide)
  rw [unifyBreaks_append (by decide) (by decide), unifyBreaks_append_of_notMem hcr]

/-- **The state behind a number and a gap** is the one that its bytes lead to from the equals sign,
and the number is written as it is. -/
theorem reads_assigned (o : Options) (ahead : Option Byte) {p n g : Bytes} {pieces : List Piece}
    {l : Lexer} {comments : List Bytes}
    (hp : Reads (some Byte.equals) .initial p pieces l) (hl : l.AtCode)
    (hne : n ≠ []) (hn : ∀ b ∈ n, b.isPlain = true) (hg : Layout g comments) :
    ∃ written,
      written.flatMap (Piece.write o) = (Piece.code l.left l.gap Byte.equals).write o ++ n ∧
      Reads ahead .initial (p ++ Byte.equals :: (n ++ g)) (pieces ++ written)
        ((n.foldl Lexer.token (l.token Byte.equals)).widen (.ofLayout g comments)) := by
  have hequals := hl.token Byte.equals
  have hassign {next : Option Byte} : Step l Byte.equals next (l.token Byte.equals)
      (some (.code l.left l.gap Byte.equals)) :=
    .token hl.held hl.mode (by decide) (by decide) fun h => absurd h (by decide)
  obtain ⟨digits, hdigits, hwrite⟩ : Copies o (g.head?.or ahead) (l.token Byte.equals) n
      (n.foldl Lexer.token (l.token Byte.equals)) := .tokens hequals hne hn
  have hnone : (l.token Byte.equals).gap.under o = .none := Gap.under_eq_none_iff.mpr rfl
  rw [hnone, separator_none] at hwrite
  have hrest : Reads ahead l (Byte.equals :: (n ++ g)) (.code l.left l.gap Byte.equals :: digits)
      ((n.foldl Lexer.token (l.token Byte.equals)).widen (.ofLayout g comments)) := by
    simpa using Reads.cons hassign (hdigits.append (reads_layout ahead hg (hequals.tokens n)))
  refine ⟨.code l.left l.gap Byte.equals :: digits, ?_, .append hp hrest⟩
  rw [List.flatMap_cons, hwrite]
  rfl

/-- **What is written between a number and a word** is the separator that the gap asks for behind
the number. -/
theorem emitted_assigned (o : Options) {p n g : Bytes} {pieces : List Piece} {l : Lexer}
    {comments : List Bytes} (hp : Reads (some Byte.equals) .initial (unifyBreaks p) pieces l)
    (hl : l.AtCode) (hne : n ≠ []) (hn : ∀ b ∈ n, b.isPlain = true)
    (hg : Layout (unifyBreaks g) comments) {c : Byte} (hc : c.isWord = true) (rest : Bytes) :
    ∃ tail, emitted o (p ++ Byte.equals :: (n ++ (g ++ c :: rest)))
      = pieces.flatMap (Piece.write o) ++ (Piece.code l.left l.gap Byte.equals).write o ++ n
        ++ ((separator (n.foldl Lexer.token (l.token Byte.equals)).left
          ((Gap.ofLayout (unifyBreaks g) comments).under o) c false).toList ++ c :: tail) := by
  obtain ⟨hclass, hquote, hslash⟩ := Byte.isPlain_iff.mp (Byte.isPlain_of_isWord hc)
  have hcr : c ≠ Byte.cr := by rintro rfl; exact absurd hc (by decide)
  have hlf : c ≠ Byte.lf := by rintro rfl; exact absurd hc (by decide)
  have htext : unifyBreaks (p ++ Byte.equals :: (n ++ (g ++ c :: rest)))
      = unifyBreaks p ++ Byte.equals :: (n ++ unifyBreaks g) ++ [c] ++ unifyBreaks rest := by
    rw [unifyBreaks_assignment p hn, unifyBreaks_append hcr hlf]
    simp
  obtain ⟨written, hwrite, hreads⟩ := reads_assigned o (some c) hp hl hne hn hg
  have hcode := (hl.token Byte.equals).tokens n
  have hgap := (l.token Byte.equals).gap_tokens hne
  generalize n.foldl Lexer.token (l.token Byte.equals) = l₁ at hreads hcode hgap ⊢
  obtain ⟨piece, hpiece, hlast⟩ : Copies o (unifyBreaks rest).head?
      (l₁.widen (.ofLayout (unifyBreaks g) comments)) [c]
      ((l₁.widen (.ofLayout (unifyBreaks g) comments)).token c) :=
    .token (hcode.widen _) hclass hquote fun h => absurd h hslash
  have hall : Reads (unifyBreaks rest).head? .initial
      (unifyBreaks p ++ Byte.equals :: (n ++ unifyBreaks g) ++ [c]) (pieces ++ written ++ piece)
      ((l₁.widen (.ofLayout (unifyBreaks g) comments)).token c) := .append hreads hpiece
  obtain ⟨tail, htail⟩ := emitted_append htext hall o
  refine ⟨tail, ?_⟩
  rw [htail, List.flatMap_append, List.flatMap_append, hwrite, hlast, Lexer.widen, hgap,
    Gap.none_widen]
  simp

/-- **Behind a value a word is kept apart.** -/
theorem KeepsApart.of_behindValue {n : Bytes} (hne : n ≠ []) (hn : ∀ b ∈ n, b.isPlain = true)
    (h : ∀ l : Lexer, (n.foldl Lexer.token (l.token Byte.equals)).BehindValue) :
    KeepsApart n := by
  intro o p g rest c pieces l comments hp hl hg hgap hc
  obtain ⟨tail, htail⟩ := emitted_assigned o hp hl hne hn hg hc rest
  have hunder : (Gap.ofLayout (unifyBreaks g) comments).under o ≠ .none := by
    rwa [Ne, Gap.under_eq_none_iff, Gap.ofLayout_eq_none_iff hg, unifyBreaks_eq_nil_iff]
  have hsome : (separator (n.foldl Lexer.token (l.token Byte.equals)).left
      ((Gap.ofLayout (unifyBreaks g) comments).under o) c false).isSome :=
    separator_isSome hunder (by rw [(h l).glues, hc]; rfl)
  obtain ⟨sep, hsep⟩ := Option.isSome_iff_exists.mp hsome
  rw [hsep] at htail
  exact ⟨sep, tail, separator_eq_some hsep, htail⟩

/-- **Behind a value a slash divides.** -/
theorem IsDivided.of_behindValue {n : Bytes} (hne : n ≠ []) (hn : ∀ b ∈ n, b.isPlain = true)
    (h : ∀ l : Lexer, (n.foldl Lexer.token (l.token Byte.equals)).BehindValue) : IsDivided n := by
  intro p g pieces l comments hp hl hg
  obtain ⟨written, -, hreads⟩ := reads_assigned {} (some Byte.slash) hp hl hne hn hg
  rw [← unifyBreaks_assignment p hn] at hreads
  have hcode := ((hl.token Byte.equals).tokens n).widen (.ofLayout (unifyBreaks g) comments)
  refine ⟨_, _, hreads, (h l).divides, fun next hnext => ?_⟩
  exact .token hcode.held hcode.mode (by decide) (by decide) fun _ => ⟨hnext, (h l).divides⟩

theorem not_keepsApart_dot {front : Bytes} (hn : ∀ b ∈ front ++ [Byte.dot], b.isPlain = true) :
    ¬ KeepsApart (front ++ [Byte.dot]) := by
  intro h
  have hspace : Layout (unifyBreaks [Byte.space]) [] := .space (.inl (by decide)) .nil
  have hname : (Byte.ofChar 'i').isWord = true := by decide
  obtain ⟨sep, tail, hsep, hkept⟩ := h {} [] [Byte.space] [] (Byte.ofChar 'i') [] .initial []
    (.nil _) ⟨rfl, rfl⟩ hspace (List.cons_ne_nil _ _) hname
  obtain ⟨tail', hemitted⟩ := emitted_assigned {} (p := []) (.nil _) ⟨rfl, rfl⟩ (by simp) hn hspace
    hname []
  -- the full stop asks for no separator, so the name follows at once
  rw [List.foldl_concat, Lexer.left_token _ (by decide)] at hemitted
  have hnone : separator (.byte Byte.dot)
      ((Gap.ofLayout (unifyBreaks [Byte.space]) []).under {}) (Byte.ofChar 'i') false = none := by
    decide
  rw [hnone] at hemitted
  have hbyte : sep = Byte.ofChar 'i' :=
    (List.cons.inj (List.append_cancel_left (hkept.symm.trans hemitted))).1
  rcases hsep with rfl | rfl <;> exact absurd hbyte (by decide)

theorem not_isDivided_dot {front : Bytes} (hn : ∀ b ∈ front ++ [Byte.dot], b.isPlain = true) :
    ¬ IsDivided (front ++ [Byte.dot]) := by
  intro h
  obtain ⟨pieces', l', hreads, hdivides, -⟩ := h [] [] [] .initial [] (.nil _) ⟨rfl, rfl⟩ .nil
  obtain ⟨written, -, hreads'⟩ :=
    reads_assigned {} (some Byte.slash) (.nil _) ⟨rfl, rfl⟩ (by simp) hn .nil
  rw [unifyBreaks_assignment [] hn] at hreads
  obtain ⟨-, rfl⟩ := hreads.unique hreads'
  rw [List.foldl_concat] at hdivides
  exact absurd ((Lexer.operandPosition_token_dot _).symm.trans hdivides) (by decide)

/-- **A decimal literal ends as a value exactly if it does not end with a full stop.**  Behind an
equals sign, words are kept apart from every other literal and slashes divide it; for a literal that
ends with a full stop both fail. -/
theorem decimal_ends_as_value_iff (d : Decimal) :
    (KeepsApart d.bytes ↔ d.bytes.getLast? ≠ some Byte.dot) ∧
      (IsDivided d.bytes ↔ d.bytes.getLast? ≠ some Byte.dot) := by
  by_cases hdot : d.bytes.getLast? = some Byte.dot
  · obtain ⟨front, hfront⟩ := List.getLast?_eq_some_iff.mp hdot
    have hplain : ∀ b ∈ front ++ [Byte.dot], b.isPlain = true := fun b hb =>
      d.isPlain_of_mem (hfront ▸ hb)
    rw [hfront] at hdot ⊢
    exact ⟨iff_of_false (not_keepsApart_dot hplain) (absurd hdot),
      iff_of_false (not_isDivided_dot hplain) (absurd hdot)⟩
  · have hplain : ∀ b ∈ d.bytes, b.isPlain = true := fun b => d.isPlain_of_mem
    have hvalue (l : Lexer) : (d.bytes.foldl Lexer.token (l.token Byte.equals)).BehindValue :=
      Lexer.behindValue_decimal (by rw [Lexer.left_token l (by decide)]; rfl) d hdot
    exact ⟨iff_of_true (.of_behindValue d.bytes_ne_nil hplain hvalue) hdot,
      iff_of_true (.of_behindValue d.bytes_ne_nil hplain hvalue) hdot⟩

/-- A word runs into `1.`, and a slash behind it opens a regular expression that is not closed. -/
theorem minify_behind_full_stop :
    (Decimal.mk (.dotted ⟨Byte.ofChar '1', [], by decide +kernel⟩) none).bytes = utf8 "1." ∧
      minify {} (utf8 "x=1. in y") = .ok (utf8 "x=1.in y") ∧
      minify {} (utf8 "x=1./2") = .error ⟨.regex, ⟨1, 5⟩⟩ := by
  exact ⟨by decide, by decide, by decide⟩

end ScriptMinifier
