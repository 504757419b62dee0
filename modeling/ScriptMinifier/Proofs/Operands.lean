import ScriptMinifier.Proofs.Tokens

/-!
# Where an operand is expected

A slash divides after an operand and opens a regular expression where an operand is expected.  The
lexer decides this by `left`, the flag `doubled` and the first letters of the word it wrote last.
`ExpectsOperand` decides it by the tokens so far: there are none, or the last one is a keyword that
waits for an operand, or it is a punctuator that does.  A closing bracket does not, nor does the
second sign of `++` or `--`, where signs are paired from the left (`Lexeme.endsDoubled`).

`Recalls` joins the two.  Outside literals `doubled` says whether the last token is such a second
sign, and behind a word the memory holds that word, cut off at `Word.limit` letters, and knows
whether it was cut off (`Word.Holds`).  Inside a literal both are out of date, which does no harm:
no literal is a word, and closing one resets `doubled`.
-/

namespace ScriptMinifier

open Lexer (Step)

/-! ### What the tokens so far ask for -/

namespace Lexeme

/-- `y`, right behind the sign `x`, makes `++` or `--` of it. -/
def fuses (x y : Lexeme) : Bool :=
  x.token.kind == .punctuator && x.token.first.isSign && y.gap == .none && y.token == x.token

/-- The last lexeme is the second sign of `++` or `--`, the signs being paired from the left. -/
def endsDoubled : List Lexeme → Bool
  | [] => false
  | [_] => false
  | x :: y :: rest =>
    if x.fuses y then rest.isEmpty || endsDoubled rest else endsDoubled (y :: rest)

/-- Behind `before`, the lexeme `x` stands where no keyword can: after a full stop, or right behind
a regular expression. -/
def isBarred (before : List Lexeme) (x : Lexeme) : Bool :=
  before.getLast?.any fun y =>
    y.token == { kind := .punctuator, first := Byte.dot } ||
      (x.gap == .none && y.token.kind == .regex)

end Lexeme

/-- **An operand is expected behind the lexemes.** -/
inductive ExpectsOperand : List Lexeme → Prop
  | start : ExpectsOperand []
  | keyword {before : List Lexeme} {x : Lexeme} (isWord : x.token.kind = .word)
      (mem : x.token.bytes ∈ operandKeywords) (not_barred : x.isBarred before = false) :
      ExpectsOperand (before ++ [x])
  | punctuator {before : List Lexeme} {x : Lexeme} (isPunctuator : x.token.kind = .punctuator)
      (not_closer : x.token.first.isCloser = false)
      (not_doubled : Lexeme.endsDoubled (before ++ [x]) = false) : ExpectsOperand (before ++ [x])

theorem ExpectsOperand.concat_iff {before : List Lexeme} {x : Lexeme} :
    ExpectsOperand (before ++ [x]) ↔
      (x.token.kind = .word ∧ x.token.bytes ∈ operandKeywords ∧ x.isBarred before = false) ∨
      (x.token.kind = .punctuator ∧ x.token.first.isCloser = false ∧
        Lexeme.endsDoubled (before ++ [x]) = false) := by
  constructor
  · intro h
    generalize hxs : before ++ [x] = xs at h
    cases h with
    | start => simp at hxs
    | keyword hword hmem hbarred =>
      obtain ⟨rfl, hx⟩ := List.append_inj' hxs rfl
      obtain rfl := List.singleton_inj.mp hx
      exact .inl ⟨hword, hmem, hbarred⟩
    | punctuator hkind hcloser hdoubled =>
      obtain ⟨rfl, hx⟩ := List.append_inj' hxs rfl
      obtain rfl := List.singleton_inj.mp hx
      exact .inr ⟨hkind, hcloser, hdoubled⟩
  · rintro (⟨hword, hmem, hbarred⟩ | ⟨hkind, hcloser, hdoubled⟩)
    · exact .keyword hword hmem hbarred
    · exact .punctuator hkind hcloser hdoubled

namespace Lexeme

/-- **One more lexeme is a second sign** if it fuses with the last one, and that is none itself. -/
theorem endsDoubled_concat (xs : List Lexeme) (z : Lexeme) :
    endsDoubled (xs ++ [z]) = ((xs.getLast?.any fun x => x.fuses z) && !endsDoubled xs) := by
  fun_induction endsDoubled xs with
  | case1 => rfl
  | case2 x => cases h : x.fuses z <;> simp [endsDoubled, h]
  | case3 x y rest hfuses ih =>
    have hstep : endsDoubled (x :: y :: rest ++ [z]) = endsDoubled (rest ++ [z]) := by
      simp [endsDoubled, hfuses]
    rw [hstep, ih]
    cases rest with
    | nil => simp
    | cons w rest => simp [List.getLast?_cons_cons]
  | case4 x y rest hfuses ih =>
    have hstep : endsDoubled (x :: y :: rest ++ [z]) = endsDoubled (y :: rest ++ [z]) := by
      simp [endsDoubled, hfuses]
    rw [hstep, ih, List.getLast?_cons_cons]

theorem fuses_eq_false {x y : Lexeme} (h : ¬ (y.token.kind = .punctuator ∧ y.token.first.isSign)) :
    x.fuses y = false := by
  rw [← Bool.not_eq_true]
  intro hfuses
  simp only [fuses, Bool.and_eq_true, beq_iff_eq] at hfuses
  obtain ⟨⟨⟨hkind, hsign⟩, -⟩, heq⟩ := hfuses
  exact h ⟨heq ▸ hkind, heq ▸ hsign⟩

theorem endsDoubled_concat_eq_false (xs : List Lexeme) {z : Lexeme}
    (h : ¬ (z.token.kind = .punctuator ∧ z.token.first.isSign)) :
    endsDoubled (xs ++ [z]) = false := by
  simp [endsDoubled_concat, fuses_eq_false h]

end Lexeme

/-! ### The memory for a word -/

namespace Word

/-- The memory holds the word `bytes`, and knows that it is longer than that, or `barred`. -/
structure Holds (w : Word) (barred : Bool) (bytes : Bytes) : Prop where
  letters_eq : w.letters = bytes.take limit
  masked_eq : w.masked = (barred || decide (limit < bytes.length))

theorem holds_empty (barred : Bool) : (empty barred).Holds barred [] := ⟨rfl, by simp [empty]⟩

theorem Holds.push {w : Word} {barred : Bool} {bytes : Bytes} (h : w.Holds barred bytes)
    (b : Byte) : (w.push b).Holds barred (bytes ++ [b]) := by
  have hlength : w.letters.length = min limit bytes.length := by rw [h.letters_eq, List.length_take]
  by_cases hfull : limit ≤ bytes.length
  · -- the memory is full: the byte is lost, and the loss is noted
    have hletters : w.letters.length = limit := by omega
    constructor
    · rw [Word.push, if_pos hletters, h.letters_eq, List.take_append_of_le_length hfull]
    · have hlonger : limit < (bytes ++ [b]).length := by
        rw [List.length_append, List.length_singleton]
        omega
      rw [decide_eq_true hlonger]
      simp [Word.push, hletters]
  · have hletters : w.letters.length ≠ limit := by omega
    have hshort : (bytes ++ [b]).length ≤ limit := by
      rw [List.length_append, List.length_singleton]
      omega
    constructor
    · rw [Word.push, if_neg hletters, h.letters_eq, List.take_of_length_le hshort,
        List.take_of_length_le (Nat.le_of_not_le hfull)]
    · have hmasked : w.masked = barred := by
        rw [h.masked_eq, decide_eq_false (by omega), Bool.or_false]
      rw [decide_eq_false (Nat.not_lt.mpr hshort)]
      simp [Word.push, hletters, hmasked]

/-- **A keyword is known by the memory**, however long the word is. -/
theorem Holds.isOperandKeyword_iff {w : Word} {barred : Bool} {bytes : Bytes}
    (h : w.Holds barred bytes) :
    w.isOperandKeyword = true ↔ bytes ∈ operandKeywords ∧ barred = false := by
  rw [isOperandKeyword, h.masked_eq, h.letters_eq]
  by_cases hshort : bytes.length ≤ limit
  · rw [List.take_of_length_le hshort, decide_eq_false (Nat.not_lt.mpr hshort)]
    simp [and_comm]
  · have hnot : bytes ∉ operandKeywords := fun hmem => hshort (length_le_limit_of_mem hmem)
    rw [decide_eq_true (Nat.lt_of_not_le hshort)]
    simp [hnot]

theorem not_isDigit_of_mem {b : Byte} {rest : Bytes} (h : b :: rest ∈ operandKeywords) :
    b.isDigit = false := by
  have hall : ∀ k ∈ operandKeywords, k.head?.all (fun b => !b.isDigit) = true := by decide
  simpa using hall _ h

end Word

theorem Lexer.Step.length_letters_le {l l' : Lexer} {b : Byte} {next : Option Byte}
    {piece : Option Piece} (h : Step l b next l' piece)
    (hl : l.word.letters.length ≤ Word.limit) : l'.word.letters.length ≤ Word.limit := by
  cases h with
  | token hheld hmode hclass hquote hslash =>
    show (l.wordAfter b).letters.length ≤ Word.limit
    rw [Lexer.wordAfter]
    split
    · split
      · exact Word.length_push_le hl b
      · exact Word.length_push_le (Nat.zero_le _) b
    · exact hl
  | _ => exact hl

/-- **The memory never outgrows the longest keyword.** -/
theorem Reads.length_letters_le {ahead : Option Byte} {l l' : Lexer} {text : Bytes}
    {pieces : List Piece} (h : Reads ahead l text pieces l')
    (hl : l.word.letters.length ≤ Word.limit) : l'.word.letters.length ≤ Word.limit := by
  induction h with
  | nil => exact hl
  | cons first _ ih => exact ih (first.length_letters_le hl)

/-! ### What `left` tells of the last token -/

namespace Token

/-- **Behind a byte that is in no word stands the punctuator of that byte.** -/
theorem left_eq_byte_iff {t : Token} (ht : t.Sound) {b : Byte} (hb : b.isWord = false) :
    t.left = .byte b ↔ t = { kind := .punctuator, first := b } := by
  constructor
  · intro h
    have hkind : t.kind = .punctuator := by
      cases hkind : t.kind with
      | punctuator => rfl
      | string | regex => simp [left, hkind] at h
      | word =>
        have hlast := ht.isWord hkind t.last t.last_mem
        have heq : t.last = b := by
          simp only [left, hkind] at h
          split at h
          · cases h
          · exact Left.byte.inj h
        rw [heq, hb] at hlast
        cases hlast
    have hrest := (ht.single hkind).1
    have hfirst : t.first = b := by simpa [left, hkind, endsNumber, last, hrest] using h
    cases t
    simp_all
  · rintro rfl
    simp [left, endsNumber, last]

theorem left_eq_regexEnd_iff {t : Token} : t.left = .regexEnd ↔ t.kind = .regex := by
  cases hkind : t.kind with
  | string | regex => simp [left, hkind]
  | word | punctuator =>
    simp only [left, hkind]
    split <;> simp

end Token

theorem Left.behind_eq_byte {done : List Lexeme} (h : ∀ x ∈ done, x.token.Sound) {b : Byte}
    (hb : b.isWord = false) :
    (Left.behind done == .byte b)
      = done.head?.any fun x => x.token == { kind := .punctuator, first := b } := by
  cases done with
  | nil => rfl
  | cons x done =>
    rw [Bool.eq_iff_iff, beq_iff_eq, Left.behind_cons,
      Token.left_eq_byte_iff (h x List.mem_cons_self) hb]
    simp

theorem Left.behind_eq_regexEnd (done : List Lexeme) :
    (Left.behind done == .regexEnd) = done.head?.any fun x => x.token.kind == .regex := by
  cases done with
  | nil => rfl
  | cons x done =>
    rw [Bool.eq_iff_iff, beq_iff_eq, Left.behind_cons, Token.left_eq_regexEnd_iff]
    simp

theorem Byte.isWord_of_isSign {b : Byte} (h : b.isSign = true) : b.isWord = false := by
  have hb : b = Byte.plus ∨ b = Byte.minus := by simpa [Byte.isSign] using h
  rcases hb with rfl | rfl <;> decide

/-! ### The lexer recalls what it needs -/

/-- What the lexer recalls of the lexemes so far, the latest first, besides `left`. -/
structure Recalls (done : List Lexeme) (l : Lexer) : Prop where
  doubled_eq : (∀ literal, l.mode ≠ .literal literal) →
    l.doubled = Lexeme.endsDoubled done.reverse
  holds : ∀ x rest, done = x :: rest → x.token.kind = .word →
    l.word.Holds (x.isBarred rest.reverse) x.token.bytes

namespace Recalls

theorem initial : Recalls [] .initial := ⟨fun _ => rfl, by simp⟩

theorem of_none {done : List Lexeme} {l l' : Lexer} {b : Byte} {next : Option Byte}
    (h : Recalls done l) (hstep : Step l b next l' none) : Recalls done l' := by
  have hsilent := hstep.silent
  constructor
  · intro _
    rw [hsilent.doubled_eq]
    exact h.doubled_eq hsilent.not_literal
  · rw [hsilent.word_eq]
    exact h.holds

theorem of_not_word {x : Lexeme} {done : List Lexeme} {l : Lexer} (hx : x.token.kind ≠ .word)
    (hdoubled : (∀ literal, l.mode ≠ .literal literal) →
      l.doubled = Lexeme.endsDoubled (x :: done).reverse) : Recalls (x :: done) l := by
  refine ⟨hdoubled, fun y rest he hword => ?_⟩
  obtain ⟨rfl, -⟩ := List.cons.inj he
  exact absurd hword hx

theorem of_literal {x : Lexeme} {done : List Lexeme} {l : Lexer} {literal : Literal}
    (hx : x.token.kind ≠ .word) (hmode : l.mode = .literal literal) : Recalls (x :: done) l :=
  of_not_word hx fun hne => absurd hmode (hne literal)

theorem pushLatest {done : List Lexeme} {l l' : Lexer} {literal literal' : Literal} (b : Byte)
    (ht : Tracks done l) (hmode : l.mode = .literal literal)
    (hmode' : l'.mode = .literal literal') : Recalls (Lexeme.pushLatest done b) l' := by
  obtain ⟨x, rest, rfl, hx⟩ := ht.open_literal literal hmode
  have hkind : (x.push b).token.kind ≠ .word := by
    rw [show (x.push b).token.kind = literal.tokenKind from hx]
    exact literal.tokenKind_ne_word
  exact of_literal hkind hmode'

theorem leave {done : List Lexeme} {l : Lexer} {literal : Literal} (b : Byte)
    (ht : Tracks done l) (hmode : l.mode = .literal literal) :
    Recalls (Lexeme.pushLatest done b) (l.leave literal) := by
  obtain ⟨x, rest, rfl, hx⟩ := ht.open_literal literal hmode
  have hkind : (x.push b).token.kind = literal.tokenKind := hx
  refine of_not_word (hkind ▸ literal.tokenKind_ne_word) fun _ => ?_
  rw [List.reverse_cons, Lexeme.endsDoubled_concat_eq_false]
  · rfl
  · rw [hkind]
    cases literal <;> simp [Literal.tokenKind]

theorem token {done : List Lexeme} {l : Lexer} (h : Recalls done l) (ht : Tracks done l)
    (hmode : l.mode = .code) (b : Byte) :
    Recalls (Lexeme.attach done (.code l.left l.gap b)) (l.token b) := by
  have hleft : l.left = Left.behind done := ht.left_eq (by simp [hmode])
  have hcontinues : l.left.continuesWord = Lexeme.endsInWord done := by
    rw [Lexeme.endsInWord_eq ht.sound, hleft]
  have hsign (hb : b.isWord = true) : b.isSign = false := by
    rw [← Bool.not_eq_true]
    intro hsign
    rw [Byte.isWord_of_isSign hsign] at hb
    cases hb
  have hdoubles (hb : b.isWord = true) : (l.token b).doubled = false := by
    simp [Lexer.token, Lexer.doubles, hsign hb]
  rw [Lexeme.attach]
  split
  next hgrow =>
    obtain ⟨hgap, hb, hword⟩ := hgrow
    have hafter : l.wordAfter b = l.word.push b := by
      rw [Lexer.wordAfter, if_pos hb, if_pos ⟨hgap, hcontinues.trans hword⟩]
    cases done with
    | nil => cases hword
    | cons x rest =>
      have hkind : x.token.kind = .word := by simpa [Lexeme.endsInWord] using hword
      constructor
      · intro _
        rw [hdoubles hb, Lexeme.pushLatest, List.reverse_cons,
          Lexeme.endsDoubled_concat_eq_false _ (by simp [Lexeme.push, hkind])]
      · rintro y rest' he -
        obtain ⟨rfl, rfl⟩ := List.cons.inj he
        show (l.wordAfter b).Holds _ _
        rw [hafter]
        exact (h.holds x rest rfl hkind).push b
  next hnew =>
    cases hb : b.isWord with
    | true =>
      -- the word before, if there is one, ended: the memory starts again
      have hafter : l.wordAfter b
          = (Word.empty ((Lexeme.ofByte l.gap b).isBarred done.reverse)).push b := by
        rw [Lexer.wordAfter, if_pos hb, if_neg (by simpa [hb, hcontinues] using hnew), hleft,
          Left.behind_eq_byte ht.sound (by decide), Left.behind_eq_regexEnd, Lexeme.isBarred,
          List.getLast?_reverse]
        cases done.head? with
        | none => simp
        | some x => simp [Lexeme.ofByte]
      constructor
      · intro _
        rw [hdoubles hb, List.reverse_cons,
          Lexeme.endsDoubled_concat_eq_false _ (by simp [Lexeme.ofByte, hb])]
      · rintro y rest he -
        obtain ⟨rfl, rfl⟩ := List.cons.inj he
        show (l.wordAfter b).Holds _ _
        rw [hafter]
        exact (Word.holds_empty _).push b
    | false =>
      refine of_not_word (by simp [Lexeme.ofByte, hb]) fun _ => ?_
      have hfuses : ((done.head?.any fun x => x.fuses (Lexeme.ofByte l.gap b)))
          = (b.isSign && l.gap == .none && l.left == .byte b) := by
        rw [hleft, Left.behind_eq_byte ht.sound hb]
        cases done.head? with
        | none => simp
        | some x =>
          rw [Bool.eq_iff_iff]
          simp only [Option.any_some, Lexeme.fuses, Lexeme.ofByte, hb, Bool.and_eq_true, beq_iff_eq]
          constructor
          · rintro ⟨⟨⟨-, hsign⟩, hgap⟩, heq⟩
            rw [← heq] at hsign
            exact ⟨⟨hsign, hgap⟩, heq.symm⟩
          · rintro ⟨⟨hsign, hgap⟩, heq⟩
            rw [heq]
            exact ⟨⟨⟨rfl, hsign⟩, hgap⟩, rfl⟩
      rw [List.reverse_cons, Lexeme.endsDoubled_concat, List.getLast?_reverse, hfuses,
        ← h.doubled_eq (by simp [hmode])]
      show l.doubles b = _
      rw [Lexer.doubles]
      cases b.isSign <;> cases l.doubled <;> simp

/-- **The lexer recalls the lexemes**: adding the piece of a step keeps up with the step. -/
theorem step {done : List Lexeme} {l l' : Lexer} {b : Byte} {next : Option Byte}
    {piece : Option Piece} (h : Recalls done l) (ht : Tracks done l)
    (hstep : Step l b next l' piece) : Recalls (piece.toList.foldl Lexeme.attach done) l' := by
  cases piece with
  | none => exact h.of_none hstep
  | some piece =>
    cases hstep with
    | copyHeld hheld hmode => exact pushLatest b ht hmode hmode
    | openRegex hheld hmode hnext hoperand => exact of_literal (by simp [Lexeme.ofOpener]) rfl
    | openString hheld hmode hb => exact of_literal (by simp [Lexeme.ofOpener]) rfl
    | token hheld hmode hclass hquote hslash => exact h.token ht hmode b
    | escape hheld hmode => exact pushLatest _ ht hmode hmode
    | copy hheld hmode hlf hback hlit => exact pushLatest b ht hmode rfl
    | closeLiteral hheld hmode hlf hback hlit => exact leave b ht hmode

end Recalls

theorem Reads.recalls {ahead : Option Byte} {done : List Lexeme} {l l' : Lexer} {text : Bytes}
    {pieces : List Piece} (h : Reads ahead l text pieces l') (hdone : Recalls done l)
    (ht : Tracks done l) : Recalls (pieces.foldl Lexeme.attach done) l' := by
  induction h generalizing done with
  | nil => exact hdone
  | cons first _ ih =>
    rw [List.foldl_append]
    exact ih (hdone.step ht first) (ht.step first)

/-- **What the lexer recalls decides whether an operand is expected.** -/
theorem Recalls.operandPosition_iff {done : List Lexeme} {l : Lexer} (h : Recalls done l)
    (ht : Tracks done l) (hl : l.AtCode) :
    l.operandPosition = true ↔ ExpectsOperand done.reverse := by
  have hleft := ht.left_eq (by simp [hl.mode])
  have hdoubled := h.doubled_eq (by simp [hl.mode])
  rw [Lexer.operandPosition, hleft]
  cases done with
  | nil => simp [Left.behind, ExpectsOperand.start]
  | cons x rest =>
    have hsound := ht.sound x List.mem_cons_self
    rw [List.reverse_cons, ExpectsOperand.concat_iff, Left.behind_cons, Token.left]
    cases hkind : x.token.kind with
    | string => simp
    | regex => simp
    | word =>
      have hholds := h.holds x rest rfl hkind
      have hlast := hsound.isWord hkind x.token.last x.token.last_mem
      cases hnumber : x.token.endsNumber with
      | true =>
        have hnot : x.token.bytes ∉ operandKeywords := by
          intro hmem
          simp [Token.endsNumber, Word.not_isDigit_of_mem hmem] at hnumber
        simp [hnot]
      | false =>
        simp [hlast, hholds.isOperandKeyword_iff]
    | punctuator =>
      obtain ⟨hrest, hfirst⟩ := hsound.single hkind
      have hlast : x.token.last = x.token.first := by rw [Token.last, hrest]; rfl
      have hnumber : x.token.endsNumber = false := by simp [Token.endsNumber, hkind]
      rw [List.reverse_cons] at hdoubled
      cases hsign : x.token.first.isSign with
      | true => simp [hnumber, hlast, hfirst, hsign, hdoubled]
      | false =>
        have hend := Lexeme.endsDoubled_concat_eq_false rest.reverse (z := x) (by simp [hsign])
        simp [hnumber, hlast, hfirst, hsign, hend]

/-- **Whether a slash opens an operand is decided by the tokens so far**, wherever the lexer comes
to in code; and its memory for words stays within the longest keyword wherever it comes to. -/
theorem operandPosition_iff_expectsOperand (text : Bytes) (i : Nat) {pieces : List Piece}
    {l : Lexer}
    (h : Reads (text.drop i).head? .initial (unifyBreaks (text.take i)) pieces l) :
    l.word.letters.length ≤ Word.limit ∧
      (l.AtCode → (l.operandPosition = true ↔ ExpectsOperand (lexemes (text.take i)))) := by
  refine ⟨h.length_letters_le (Nat.zero_le _), fun hl => ?_⟩
  have hwhole : Reads none .initial (unifyBreaks (text.take i)) pieces l :=
    h.of_atCode hl (by simp [OpensComment])
  have hpieces : (scan (text.take i)).pieces = pieces := (Scan.run_of_reads hwhole ..).1
  rw [lexemes, hpieces]
  exact (h.recalls .initial .initial).operandPosition_iff (h.tracks .initial) hl

/-- Three signs in a row are a pair and one that waits for its operand. -/
theorem operandPosition_behind_three_signs :
    ∃ pieces l, Reads none .initial (utf8 "a+++") pieces l ∧ l.AtCode ∧
      l.operandPosition = true ∧ ExpectsOperand (lexemes (utf8 "a+++")) := by
  obtain ⟨pieces, l, hreads, hl, hoperand⟩ : ∃ pieces l,
      Reads none .initial (utf8 "a+++") pieces l ∧ l.AtCode ∧ l.operandPosition = true := by
    refine ⟨_, _, .cons (Lexer.step_eq_ok_iff.mp rfl) (.cons (Lexer.step_eq_ok_iff.mp rfl)
      (.cons (Lexer.step_eq_ok_iff.mp rfl) (.cons (Lexer.step_eq_ok_iff.mp rfl) (.nil _)))),
      ⟨rfl, rfl⟩, rfl⟩
  have hexpects := (operandPosition_iff_expectsOperand (utf8 "a+++") 4 hreads).2 hl
  exact ⟨pieces, l, hreads, hl, hoperand, hexpects.mp hoperand⟩

end ScriptMinifier
