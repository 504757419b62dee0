import ScriptMinifier.Proofs.Rescan

/-!
# Tokens

The pieces of a scan are single bytes.  `lexemes` puts them together: a word is a run of word bytes
without a gap, a literal is its opening byte and all that is copied after it, and every other byte
is a punctuator of its own.  Each token keeps the gap in front of it.

The lexer does not know the token it wrote last, only its `left`.  `Tracks` says that this is the
same thing: `left` is `Left.behind` that token.  So the gap in front of a token of the minified text
is decided by the token before it (`Lexeme.settle`), and the whole list of lexemes of the minified
text is a function of the lexemes of the original (`lexemes_of_minify`).  The tokens stay what they
are, and where two of them would run together (`Token.clashes`) the gap stays as well.
-/

namespace ScriptMinifier

open Lexer (Step)

/-! ### Tokens and lexemes -/

inductive TokenKind where
  | word
  | punctuator
  | string
  | regex
  deriving DecidableEq, Repr

/-- A token: its first byte, and those behind it. -/
structure Token where
  kind : TokenKind
  first : Byte
  rest : Bytes := []
  deriving DecidableEq, Repr

/-- A token with the gap in front of it. -/
structure Lexeme where
  gap : Gap
  token : Token
  deriving DecidableEq, Repr

namespace Token

def bytes (t : Token) : Bytes := t.first :: t.rest

def last (t : Token) : Byte := t.rest.getLastD t.first

def push (t : Token) (b : Byte) : Token := { t with rest := t.rest ++ [b] }

def endsNumber (t : Token) : Bool := t.kind == .word && t.first.isDigit && t.last.isDigit

def left (t : Token) : Left :=
  match t.kind with
  | .string => .stringEnd
  | .regex => .regexEnd
  | .word | .punctuator => if t.endsNumber then .number else .byte t.last

/-- The two tokens, written without a gap, would be read as something else. -/
def clashes (s t : Token) : Bool :=
  match s.kind with
  | .word => t.kind == .word || (s.endsNumber && t.bytes == [Byte.dot])
  | .regex => t.kind == .word || t.first == Byte.slash
  | .punctuator =>
    (s.first.isSign && t.bytes == [s.first]) ||
      (s.first == Byte.slash && (t.first == Byte.slash || t.first == Byte.star))
  | .string => false

/-- Words are made of word bytes, and punctuators are one byte that is none. -/
structure Sound (t : Token) : Prop where
  isWord : t.kind = .word → ∀ b ∈ t.bytes, b.isWord = true
  single : t.kind = .punctuator → t.rest = [] ∧ t.first.isWord = false

end Token

namespace Lexeme

def ofByte (gap : Gap) (b : Byte) : Lexeme :=
  ⟨gap, { kind := if b.isWord then .word else .punctuator, first := b }⟩

def ofOpener (gap : Gap) (regex : Bool) (b : Byte) : Lexeme :=
  ⟨gap, { kind := if regex then .regex else .string, first := b }⟩

def push (x : Lexeme) (b : Byte) : Lexeme := { x with token := x.token.push b }

def pushLatest : List Lexeme → Byte → List Lexeme
  | [], _ => []
  | x :: done, b => x.push b :: done

def endsInWord (done : List Lexeme) : Bool := done.head?.any fun x => x.token.kind == .word

def attach (done : List Lexeme) : Piece → List Lexeme
  | .code _ gap b =>
    if gap = .none ∧ b.isWord ∧ endsInWord done then pushLatest done b else ofByte gap b :: done
  | .opener _ gap regex b => ofOpener gap regex b :: done
  | .inner b => pushLatest done b

end Lexeme

def lexemes (text : Bytes) : List Lexeme := ((scan text).pieces.foldl Lexeme.attach []).reverse

/-- What the lexer remembers of the lexemes so far, the latest first. -/
def Left.behind (done : List Lexeme) : Left := done.head?.elim .start fun x => x.token.left

@[simp]
theorem Left.behind_cons (x : Lexeme) (done : List Lexeme) :
    Left.behind (x :: done) = x.token.left := rfl

namespace Token

@[simp]
theorem kind_push (t : Token) (b : Byte) : (t.push b).kind = t.kind := rfl

@[simp]
theorem first_push (t : Token) (b : Byte) : (t.push b).first = t.first := rfl

@[simp]
theorem last_push (t : Token) (b : Byte) : (t.push b).last = b := by
  rw [last, push, List.getLastD_concat]

theorem last_mem (t : Token) : t.last ∈ t.bytes := by
  rw [last, bytes]
  cases h : t.rest.getLast? with
  | none => simp [List.getLastD_eq_getLast?, h]
  | some b => simp [List.getLastD_eq_getLast?, h, List.mem_of_getLast? h]

theorem Sound.push_word {t : Token} (h : t.Sound) (hkind : t.kind = .word) {b : Byte}
    (hb : b.isWord = true) : (t.push b).Sound := by
  refine ⟨fun _ c hc => ?_, by simp [hkind]⟩
  rw [bytes, push, ← List.cons_append, List.mem_append, List.mem_singleton] at hc
  rcases hc with hc | rfl
  · exact h.isWord hkind c hc
  · exact hb

theorem continuesWord_left {t : Token} (h : t.Sound) :
    t.left.continuesWord = (t.kind == .word) := by
  cases hkind : t.kind with
  | string => simp [left, hkind, Left.continuesWord]
  | regex => simp [left, hkind, Left.continuesWord]
  | word =>
    have hlast := h.isWord hkind t.last t.last_mem
    simp only [left, hkind]
    split <;> simp [Left.continuesWord, hlast]
  | punctuator =>
    have hlast : t.last.isWord = false := by
      rw [last, (h.single hkind).1]
      exact (h.single hkind).2
    have hnumber : t.endsNumber = false := by simp [endsNumber, hkind]
    simp [left, hkind, hnumber, Left.continuesWord, hlast]

end Token

theorem Lexeme.endsInWord_eq {done : List Lexeme} (h : ∀ x ∈ done, x.token.Sound) :
    Lexeme.endsInWord done = (Left.behind done).continuesWord := by
  cases done with
  | nil => rfl
  | cons x done => rw [Left.behind_cons, Token.continuesWord_left (h x List.mem_cons_self)]; rfl

theorem Lexeme.sound_ofByte (gap : Gap) (b : Byte) : (Lexeme.ofByte gap b).token.Sound := by
  cases hb : b.isWord <;> constructor <;> simp [Lexeme.ofByte, Token.bytes, hb]

theorem Word.letters_push_ne_nil (w : Word) (b : Byte) : (w.push b).letters ≠ [] := by
  rw [Word.push]
  split
  next h =>
    intro he
    rw [he] at h
    exact absurd h (by decide)
  next => simp

theorem Word.numeric_push {w : Word} (h : w.letters ≠ []) (b : Byte) :
    (w.push b).numeric = w.numeric := by
  simp [Word.push, h]

theorem Byte.isWord_of_isDigit {b : Byte} (h : b.isDigit = true) : b.isWord = true := by
  simp [Byte.isWord, h]

/-! ### The lexer knows the token it wrote last -/

def Literal.tokenKind : Literal → TokenKind
  | .string _ => .string
  | .regex _ => .regex

theorem Literal.tokenKind_ne_word (literal : Literal) : literal.tokenKind ≠ .word := by
  cases literal <;> simp [tokenKind]

theorem Literal.tokenKind_of_next? {literal literal' : Literal} {b : Byte}
    (h : literal.next? b = some literal') : literal'.tokenKind = literal.tokenKind := by
  have hkind := Literal.kind_of_next? h
  cases literal <;> cases literal' <;> first | rfl | cases hkind

theorem Token.sound_of_tokenKind {t : Token} {literal : Literal}
    (h : t.kind = literal.tokenKind) : t.Sound := by
  constructor <;> rw [h] <;> cases literal <;> simp [Literal.tokenKind]

/-- The lexer remembers of the lexemes so far, the latest first, what `Left.behind` says. -/
structure Tracks (done : List Lexeme) (l : Lexer) : Prop where
  sound : ∀ x ∈ done, x.token.Sound
  open_literal : ∀ literal, l.mode = .literal literal →
    ∃ x rest, done = x :: rest ∧ x.token.kind = literal.tokenKind
  left_eq : (∀ literal, l.mode ≠ .literal literal) → l.left = Left.behind done
  numeric_eq : ∀ x rest, done = x :: rest → x.token.kind = .word →
    l.word.letters ≠ [] ∧ l.word.numeric = x.token.first.isDigit

namespace Tracks

theorem initial : Tracks [] .initial :=
  ⟨by simp, by simp [Lexer.initial], fun _ => rfl, by simp⟩

theorem of_none {done : List Lexeme} {l l' : Lexer} {b : Byte} {next : Option Byte}
    (h : Tracks done l) (hstep : Step l b next l' none) : Tracks done l' := by
  have hsilent := hstep.silent
  refine ⟨h.sound, ?_, ?_, ?_⟩
  · intro literal hlit
    exact absurd hlit (hsilent.not_literal' literal)
  · intro _
    rw [hsilent.left_eq]
    exact h.left_eq hsilent.not_literal
  · rw [hsilent.word_eq]
    exact h.numeric_eq

theorem of_open {x : Lexeme} {done : List Lexeme} {l : Lexer} {literal : Literal}
    (hx : x.token.kind = literal.tokenKind) (hdone : ∀ y ∈ done, y.token.Sound)
    (hmode : l.mode = .literal literal) : Tracks (x :: done) l := by
  refine ⟨fun y hy => ?_, fun literal' hlit => ?_, fun hne => absurd hmode (hne literal), ?_⟩
  · rcases List.mem_cons.mp hy with rfl | hy
    · exact Token.sound_of_tokenKind hx
    · exact hdone y hy
  · obtain rfl : literal = literal' := by simpa [hmode] using hlit
    exact ⟨x, done, rfl, hx⟩
  · rintro y rest he hword
    obtain ⟨rfl, -⟩ := List.cons.inj he
    exact absurd (hx.symm.trans hword) literal.tokenKind_ne_word

theorem pushLatest {done : List Lexeme} {l l' : Lexer} {literal literal' : Literal} (b : Byte)
    (h : Tracks done l) (hmode : l.mode = .literal literal) (hmode' : l'.mode = .literal literal')
    (hkind : literal'.tokenKind = literal.tokenKind) : Tracks (Lexeme.pushLatest done b) l' := by
  obtain ⟨x, rest, rfl, hx⟩ := h.open_literal literal hmode
  have hpush : (x.push b).token.kind = literal'.tokenKind := hx.trans hkind.symm
  exact of_open hpush (fun y hy => h.sound y (List.mem_cons_of_mem x hy)) hmode'

theorem leave {done : List Lexeme} {l : Lexer} {literal : Literal} (b : Byte)
    (h : Tracks done l) (hmode : l.mode = .literal literal) :
    Tracks (Lexeme.pushLatest done b) (l.leave literal) := by
  have hopen := h.pushLatest b hmode hmode rfl
  obtain ⟨x, rest, hdone, hx⟩ := hopen.open_literal literal hmode
  refine ⟨hopen.sound, by simp [Lexer.leave], fun _ => ?_, hopen.numeric_eq⟩
  rw [hdone, Left.behind_cons, Token.left, hx]
  cases literal <;> rfl

theorem enter {done : List Lexeme} {l : Lexer} (h : Tracks done l) (literal : Literal) (gap : Gap)
    (b : Byte) : Tracks (Lexeme.ofOpener gap literal.isRegex b :: done) (l.enter literal) := by
  have hkind : (Lexeme.ofOpener gap literal.isRegex b).token.kind = literal.tokenKind := by
    cases literal <;> rfl
  exact of_open hkind h.sound rfl

theorem of_code {x : Lexeme} {done : List Lexeme} {l : Lexer} (hx : x.token.Sound)
    (hdone : ∀ y ∈ done, y.token.Sound) (hmode : l.mode = .code) (hleft : l.left = x.token.left)
    (hnumeric : x.token.kind = .word →
      l.word.letters ≠ [] ∧ l.word.numeric = x.token.first.isDigit) :
    Tracks (x :: done) l := by
  refine ⟨fun y hy => ?_, by simp [hmode], fun _ => hleft, ?_⟩
  · rcases List.mem_cons.mp hy with rfl | hy
    · exact hx
    · exact hdone y hy
  · rintro y rest he hword
    obtain ⟨rfl, -⟩ := List.cons.inj he
    exact hnumeric hword

theorem token {done : List Lexeme} {l : Lexer} (h : Tracks done l) (hmode : l.mode = .code)
    (b : Byte) : Tracks (Lexeme.attach done (.code l.left l.gap b)) (l.token b) := by
  have hcontinues : l.left.continuesWord = Lexeme.endsInWord done := by
    rw [Lexeme.endsInWord_eq h.sound, h.left_eq (by simp [hmode])]
  rw [Lexeme.attach]
  split
  next hgrow =>
    obtain ⟨hgap, hb, hword⟩ := hgrow
    have hafter : l.wordAfter b = l.word.push b := by
      rw [Lexer.wordAfter, if_pos hb, if_pos ⟨hgap, hcontinues.trans hword⟩]
    cases done with
    | nil => cases hword
    | cons x rest =>
      have hkind : x.token.kind = .word := by simpa [Lexeme.endsInWord] using hword
      obtain ⟨hletters, hnumeric⟩ := h.numeric_eq x rest rfl hkind
      have hpush : (l.word.push b).numeric = x.token.first.isDigit := by
        rw [Word.numeric_push hletters, hnumeric]
      refine of_code ((h.sound x List.mem_cons_self).push_word hkind hb)
        (fun y hy => h.sound y (List.mem_cons_of_mem x hy)) hmode ?_ fun _ => ?_
      · simp [Lexer.token, hafter, hpush, Lexeme.push, Token.left, Token.endsNumber, hkind]
      · simp only [Lexer.token, hafter]
        exact ⟨Word.letters_push_ne_nil l.word b, hpush⟩
  next hnew =>
    cases hb : b.isWord with
    | true =>
      -- the word before, if there is one, ended: this one starts with `b`
      have hafter : (l.wordAfter b).letters ≠ [] ∧ (l.wordAfter b).numeric = b.isDigit := by
        rw [Lexer.wordAfter, if_pos hb, if_neg (by simpa [hb, hcontinues] using hnew)]
        exact ⟨Word.letters_push_ne_nil _ b, rfl⟩
      refine of_code (Lexeme.sound_ofByte l.gap b) h.sound hmode ?_ fun _ => hafter
      simp [Lexer.token, hafter.2, Lexeme.ofByte, hb, Token.left, Token.endsNumber, Token.last]
    | false =>
      have hdigit : b.isDigit = false := by
        rw [← Bool.not_eq_true]
        exact fun hd => absurd (Byte.isWord_of_isDigit hd) (by simp [hb])
      refine of_code (Lexeme.sound_ofByte l.gap b) h.sound hmode ?_ fun hkind => ?_
      · simp [Lexer.token, hdigit, Lexeme.ofByte, hb, Token.left, Token.endsNumber, Token.last]
      · simp [Lexeme.ofByte, hb] at hkind

/-- **The lexer tracks the lexemes**: adding the piece of a step keeps up with the step. -/
theorem step {done : List Lexeme} {l l' : Lexer} {b : Byte} {next : Option Byte}
    {piece : Option Piece} (h : Tracks done l) (hstep : Step l b next l' piece) :
    Tracks (piece.toList.foldl Lexeme.attach done) l' := by
  cases piece with
  | none => exact h.of_none hstep
  | some piece =>
    cases hstep with
    | copyHeld hheld hmode => exact h.pushLatest b hmode hmode rfl
    | openRegex hheld hmode hnext hoperand => exact h.enter (.regex false) l.gap _
    | openString hheld hmode hb => exact h.enter (.string b) l.gap b
    | token hheld hmode hclass hquote hslash => exact h.token hmode b
    | escape hheld hmode => exact h.pushLatest _ hmode hmode rfl
    | copy hheld hmode hlf hback hlit =>
      exact h.pushLatest b hmode rfl (Literal.tokenKind_of_next? hlit)
    | closeLiteral hheld hmode hlf hback hlit => exact h.leave b hmode

end Tracks

theorem Reads.tracks {ahead : Option Byte} {done : List Lexeme} {l l' : Lexer} {text : Bytes}
    {pieces : List Piece} (h : Reads ahead l text pieces l') (hdone : Tracks done l) :
    Tracks (pieces.foldl Lexeme.attach done) l' := by
  induction h generalizing done with
  | nil => exact hdone
  | cons first _ ih =>
    rw [List.foldl_append]
    exact ih (hdone.step first)

/-! ### Lexemes of minified text -/

namespace Lexeme

/-- The lexeme behind `left` as it is read again after it was written. -/
def settle (o : Options) (left : Left) (x : Lexeme) : Lexeme :=
  { x with
    gap := Gap.ofSeparator
      (separator left (x.gap.under o) x.token.first (x.token.kind == .regex)) }

def settleAll (o : Options) : Left → List Lexeme → List Lexeme
  | _, [] => []
  | left, x :: xs => x.settle o left :: settleAll o x.token.left xs

def settleDone (o : Options) : List Lexeme → List Lexeme
  | [] => []
  | x :: done => x.settle o (Left.behind done) :: settleDone o done

theorem settleAll_concat (o : Options) (left : Left) (xs : List Lexeme) (x : Lexeme) :
    settleAll o left (xs ++ [x])
      = settleAll o left xs ++ [x.settle o (xs.getLast?.elim left fun y => y.token.left)] := by
  induction xs generalizing left with
  | nil => rfl
  | cons y ys ih =>
    rw [List.cons_append, settleAll, ih, settleAll, List.cons_append]
    cases hlast : ys.getLast? with
    | none => simp [List.getLast?_eq_none_iff.mp hlast]
    | some z => simp [List.getLast?_cons, hlast]

theorem reverse_settleDone (o : Options) (done : List Lexeme) :
    (settleDone o done).reverse = settleAll o .start done.reverse := by
  induction done with
  | nil => rfl
  | cons x done ih =>
    rw [settleDone, List.reverse_cons, List.reverse_cons, settleAll_concat, ih,
      List.getLast?_reverse]
    rfl

theorem map_token_settleAll (o : Options) (left : Left) (xs : List Lexeme) :
    (settleAll o left xs).map token = xs.map token := by
  induction xs generalizing left with
  | nil => rfl
  | cons x xs ih => rw [settleAll, List.map_cons, List.map_cons, ih]; rfl

theorem settleAll_getElem?_succ {o : Options} {left : Left} {xs : List Lexeme} {i : Nat}
    {x y : Lexeme} (hx : xs[i]? = some x) (hy : xs[i + 1]? = some y) :
    (settleAll o left xs)[i + 1]? = some (y.settle o x.token.left) := by
  induction xs generalizing left i with
  | nil => simp at hx
  | cons z zs ih =>
    cases i with
    | succ i => exact ih hx hy
    | zero =>
      obtain rfl : z = x := by simpa using hx
      cases zs with
      | nil => simp at hy
      | cons w ws =>
        obtain rfl : w = y := by simpa using hy
        rfl

theorem pushLatest_settleDone (o : Options) (done : List Lexeme) (b : Byte) :
    pushLatest (settleDone o done) b = settleDone o (pushLatest done b) := by
  cases done <;> rfl

theorem endsInWord_settleDone (o : Options) (done : List Lexeme) :
    endsInWord (settleDone o done) = endsInWord done := by
  cases done <;> rfl

end Lexeme

/-- **Writing a piece and reading it again settles its lexeme.** -/
theorem Tracks.attach_settle {o : Options} {done : List Lexeme} {l l' : Lexer} {b : Byte}
    {next : Option Byte} {piece : Piece} (h : Tracks done l)
    (hstep : Step l b next l' (some piece)) :
    Lexeme.attach (Lexeme.settleDone o done) (piece.settle o)
      = Lexeme.settleDone o (Lexeme.attach done piece) := by
  have hleft (hmode : l.mode = .code) : l.left = Left.behind done := h.left_eq (by simp [hmode])
  cases hstep with
  | copyHeld | escape | copy | closeLiteral => exact Lexeme.pushLatest_settleDone o done _
  | openRegex hheld hmode hnext hoperand =>
    simp only [Piece.settle, Lexeme.attach, Lexeme.settleDone, Lexeme.settle, Lexeme.ofOpener,
      hleft hmode]
    rfl
  | openString hheld hmode hb =>
    simp only [Piece.settle, Lexeme.attach, Lexeme.settleDone, Lexeme.settle, Lexeme.ofOpener,
      hleft hmode]
    rfl
  | token hheld hmode hclass hquote hslash =>
    -- between two word bytes no gap goes and none comes, so the same words grow
    have hgrow : (Gap.ofSeparator (separator l.left (l.gap.under o) b false) = .none ∧
        b.isWord = true ∧ Lexeme.endsInWord done = true) ↔
        (l.gap = .none ∧ b.isWord = true ∧ Lexeme.endsInWord done = true) := by
      apply and_congr_left
      intro hgrows
      obtain ⟨hb, hword⟩ := hgrows
      apply Left.keeps_of_runsInto
      rw [Lexeme.endsInWord_eq h.sound, ← hleft hmode] at hword
      rw [Left.runsInto, Left.gluesToWord_of_continuesWord hword, hb, Bool.and_self, Bool.true_or]
    simp only [Piece.settle, Lexeme.attach, Lexeme.endsInWord_settleDone, hgrow]
    split
    · exact Lexeme.pushLatest_settleDone o done b
    · have hregex : ((Lexeme.ofByte l.gap b).token.kind == .regex) = false := by
        cases hb : b.isWord <;> simp [Lexeme.ofByte, hb]
      rw [Lexeme.settleDone, Lexeme.settle, hregex, ← hleft hmode]
      rfl

theorem Reads.foldl_settle {o : Options} {ahead : Option Byte} {done : List Lexeme} {l l' : Lexer}
    {text : Bytes} {pieces : List Piece} (h : Reads ahead l text pieces l')
    (hdone : Tracks done l) :
    (pieces.map (Piece.settle o)).foldl Lexeme.attach (Lexeme.settleDone o done)
      = Lexeme.settleDone o (pieces.foldl Lexeme.attach done) := by
  induction h generalizing done with
  | nil => rfl
  | @cons l l₁ l' b text piece pieces first _ ih =>
    cases piece with
    | none => exact ih (hdone.step first)
    | some piece =>
      rw [Option.toList_some, List.singleton_append, List.map_cons, List.foldl_cons,
        List.foldl_cons, hdone.attach_settle first]
      exact ih (hdone.step first)

/-- **The lexemes of minified text are those of the original, settled.** -/
theorem lexemes_of_minify {o : Options} {text out : Bytes} (h : minify o text = .ok out) :
    lexemes out = Lexeme.settleAll o .start (lexemes text) := by
  obtain ⟨l', hreads, -⟩ := reads_of_scan (minify_eq_ok_iff.mp h).1
  rw [lexemes, (scan_of_minify h).1, lexemes, ← Lexeme.reverse_settleDone]
  exact congrArg List.reverse (hreads.foldl_settle Tracks.initial)

theorem sound_of_mem_lexemes {text : Bytes} (h : (scan text).stop = none) {x : Lexeme}
    (hx : x ∈ lexemes text) : x.token.Sound := by
  obtain ⟨l', hreads, -⟩ := reads_of_scan h
  exact (hreads.tracks Tracks.initial).sound x (List.mem_reverse.mp hx)

/-- **Tokens that clash are tokens that a separator keeps apart.** -/
theorem Token.runsInto_of_clashes {s t : Token} (hs : s.Sound) (ht : t.Sound)
    (h : s.clashes t = true) : s.left.runsInto t.first = true := by
  have hword (hkind : t.kind = .word) : t.first.isWord = true :=
    ht.isWord hkind t.first List.mem_cons_self
  have hfirst {b : Byte} (hb : t.bytes = [b]) : t.first = b := (List.cons.inj hb).1
  cases hkind : s.kind with
  | string => simp [clashes, hkind] at h
  | regex =>
    have hleft : s.left = .regexEnd := by rw [left, hkind]
    simp only [clashes, hkind, Bool.or_eq_true, beq_iff_eq] at h
    rcases h with hk | hslash
    · simp [Left.runsInto, hleft, Left.gluesToWord, hword hk]
    · simp [Left.runsInto, hleft, Left.fusesWith, hslash]
  | punctuator =>
    have hlast : s.last = s.first := by rw [last, (hs.single hkind).1]; rfl
    have hleft : s.left = .byte s.first := by simp [left, hkind, endsNumber, hlast]
    simp only [clashes, hkind, Bool.or_eq_true, Bool.and_eq_true, beq_iff_eq] at h
    rcases h with ⟨hsign, hb⟩ | ⟨hslash, hb⟩
    · simp [Left.runsInto, hleft, Left.fusesWith, hsign, hfirst hb]
    · rcases hb with hb | hb <;> simp [Left.runsInto, hleft, Left.fusesWith, hslash, hb]
  | word =>
    have hglues : s.left.gluesToWord = true := by
      refine Left.gluesToWord_of_continuesWord ?_
      rw [continuesWord_left hs, hkind]
      rfl
    simp only [clashes, hkind, Bool.or_eq_true, Bool.and_eq_true, beq_iff_eq] at h
    rcases h with hk | ⟨hnumber, hb⟩
    · simp [Left.runsInto, hglues, hword hk]
    · have hleft : s.left = .number := by simp [left, hkind, hnumber]
      simp [Left.runsInto, hleft, Left.fusesWith, hfirst hb]

/-- **Minifying keeps the tokens.**  The minified text can be read, holds no comment and has the
tokens of the original in the same order; and two tokens that would run together are still apart if
they were before. -/
theorem lexemes_kept_by_minify {o : Options} {text out : Bytes} (h : minify o text = .ok out) :
    (scan out).stop = none ∧ comments out = 0 ∧
      (lexemes out).map Lexeme.token = (lexemes text).map Lexeme.token ∧
      ∀ (i : Nat) (x y y' : Lexeme), (lexemes text)[i]? = some x →
        (lexemes text)[i + 1]? = some y → (lexemes out)[i + 1]? = some y' →
        x.token.clashes y.token = true → y.gap ≠ .none → y'.gap ≠ .none := by
  obtain ⟨-, hstop, hcomments⟩ := scan_of_minify h
  have hlexemes := lexemes_of_minify h
  refine ⟨hstop, hcomments, ?_, ?_⟩
  · rw [hlexemes, Lexeme.map_token_settleAll]
  · intro i x y y' hx hy hy' hclash hgap
    rw [hlexemes, Lexeme.settleAll_getElem?_succ hx hy] at hy'
    have hsound {z : Lexeme} {j : Nat} (hz : (lexemes text)[j]? = some z) : z.token.Sound :=
      sound_of_mem_lexemes (minify_eq_ok_iff.mp h).1 (List.mem_of_getElem? hz)
    obtain rfl := Option.some.inj hy'
    have hruns := Token.runsInto_of_clashes (hsound hx) (hsound hy) hclash
    intro hnone
    exact hgap ((Left.keeps_of_runsInto hruns o y.gap _).mp hnone)

/-- Two signs with a comment between them: the comment goes, the gap stays. -/
theorem lexemes_kept_between_signs :
    minify {} (utf8 "a + /*b*/ +c") = .ok (utf8 "a+ +c") ∧
      comments (utf8 "a+ +c") = 0 ∧
      (lexemes (utf8 "a+ +c")).map Lexeme.token
        = (lexemes (utf8 "a + /*b*/ +c")).map Lexeme.token ∧
      ∀ y, (lexemes (utf8 "a+ +c"))[2]? = some y → y.gap ≠ .none := by
  have h : minify {} (utf8 "a + /*b*/ +c") = .ok (utf8 "a+ +c") := rfl
  obtain ⟨-, hcomments, htokens, hgaps⟩ := lexemes_kept_by_minify h
  let sign : Lexeme := ⟨.space, { kind := .punctuator, first := Byte.plus }⟩
  exact ⟨h, hcomments, htokens, fun y hy => hgaps 1 sign sign y rfl rfl hy rfl (by decide)⟩

end ScriptMinifier
