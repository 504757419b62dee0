import Mathlib.Data.List.Chain
import ScriptMinifier.Proofs.Munch

/-!
# Programs of assignments

A small language without regular expressions: assignments of expressions to names, where the
operands are names, numbers and strings.  A tree of it (`Program`) holds, behind every token, the
white space and comments that stand there, so it is the text (`Program.text`) and not only its
meaning.  Behind a token there may be nothing at all: `a+ +b` and `a++b` are both programs, with
different tokens.

A program is a row of *marks*: tokens with their paddings (`Program.marks`), where `++` and `--` are
two marks each, since a sign cannot know which of its neighbours it will be read with.  What the
grammar has to say about two neighbours is `Mark.Fits`: an operand stands behind none, and all that
needs one stands behind one (`Program.isChain_marks`).
-/

namespace ScriptMinifier

/-! ### Tokens -/

/-- A name that is no keyword behind which an operand stands. -/
structure Ident where
  first : Byte
  rest : Bytes
  begins : first.beginsName = true
  inside : ∀ b ∈ rest, b.inName = true
  notKeyword : first :: rest ∉ operandKeywords

structure Digits where
  first : Byte
  rest : Bytes
  isDigit : ∀ b ∈ first :: rest, b.isDigit = true

structure Numeral where
  whole : Digits
  fraction : Option Digits

/-- A string on one line. -/
structure Quoted where
  quote : Byte
  body : Bytes
  isQuote : quote.isQuote = true
  closed : QuotedBody quote body

inductive Sign where
  | plus
  | minus
  deriving DecidableEq, Repr

inductive Operator where
  | times
  | divide
  | modulo
  | equal
  | identical
  | both
  | either
  deriving DecidableEq, Repr

def Ident.bytes (x : Ident) : Bytes := x.first :: x.rest

def Digits.bytes (d : Digits) : Bytes := d.first :: d.rest

def Numeral.point (n : Numeral) : Bytes :=
  n.fraction.elim [] fun digits => Byte.dot :: digits.bytes

def Numeral.bytes (n : Numeral) : Bytes := n.whole.bytes ++ n.point

def Quoted.bytes (q : Quoted) : Bytes := q.quote :: (q.body ++ [q.quote])

def Sign.byte : Sign → Byte
  | plus => Byte.plus
  | minus => Byte.minus

def Operator.bytes : Operator → Bytes
  | times => [Byte.star]
  | divide => [Byte.slash]
  | modulo => [0x25]
  | equal => [0x3d, 0x3d]
  | identical => [0x3d, 0x3d, 0x3d]
  | both => [0x26, 0x26]
  | either => [0x7c, 0x7c]

/-! ### Paddings -/

/-- White space, and comments without a carriage return. -/
inductive Filler : Bytes → Prop
  | nil : Filler []
  | space {b : Byte} {g : Bytes} (hb : b.isSpace = true) (rest : Filler g) : Filler (b :: g)
  | comment {c g : Bytes} (hc : IsComment c) (hcr : Byte.cr ∉ c) (rest : Filler g) : Filler (c ++ g)

/-- What may stand behind a token: nothing, or white space and comments that begin and end with
white space. -/
structure Padding where
  text : Bytes
  filler : Filler text
  head : ∀ b ∈ text.head?, b.isSpace = true
  last : ∀ b ∈ text.getLast?, b.isSpace = true

namespace Padding

def empty : Padding := ⟨[], .nil, by simp, by simp⟩

def ofSpace (b : Byte) (hb : b.isSpace = true) : Padding :=
  ⟨[b], .space hb .nil, by simpa using hb, by simpa using hb⟩

end Padding

/-! ### Trees -/

inductive Binary where
  | sign (s : Sign)
  | operator (op : Operator)

mutual

inductive Term where
  | ident (x : Ident) (pad : Padding)
  | numeral (n : Numeral) (pad : Padding)
  | quoted (q : Quoted) (pad : Padding)
  /-- A name with `++` or `--` behind it. -/
  | stepped (x : Ident) (pad : Padding) (s : Sign) (behind : Padding)
  /-- A name with `++` or `--` in front of it. -/
  | stepping (s : Sign) (pad : Padding) (x : Ident) (behind : Padding)
  | signed (s : Sign) (pad : Padding) (t : Term)
  | negated (pad : Padding) (t : Term)
  | group (pad : Padding) (e : Expr) (behind : Padding)

/-- Operands with operators between them. -/
inductive Expr where
  | term (t : Term)
  | binary (e : Expr) (op : Binary) (pad : Padding) (t : Term)

end

structure Statement where
  target : Ident
  targetPad : Padding
  assignPad : Padding
  value : Expr
  endPad : Padding

/-- Assignments one after the other. -/
structure Program where
  lead : Padding
  statements : List Statement

def Binary.bytes : Binary → Bytes
  | sign s => [s.byte]
  | operator op => op.bytes

mutual

def Term.text : Term → Bytes
  | .ident x pad => x.bytes ++ pad.text
  | .numeral n pad => n.bytes ++ pad.text
  | .quoted q pad => q.bytes ++ pad.text
  | .stepped x pad s behind => x.bytes ++ pad.text ++ [s.byte, s.byte] ++ behind.text
  | .stepping s pad x behind => [s.byte, s.byte] ++ pad.text ++ x.bytes ++ behind.text
  | .signed s pad t => [s.byte] ++ pad.text ++ t.text
  | .negated pad t => [0x21] ++ pad.text ++ t.text
  | .group pad e behind => [0x28] ++ pad.text ++ e.text ++ [0x29] ++ behind.text

def Expr.text : Expr → Bytes
  | .term t => t.text
  | .binary e op pad t => e.text ++ op.bytes ++ pad.text ++ t.text

end

def Statement.text (s : Statement) : Bytes :=
  s.target.bytes ++ s.targetPad.text ++ [0x3d] ++ s.assignPad.text ++ s.value.text ++ [0x3b] ++
    s.endPad.text

def Program.text (p : Program) : Bytes := p.lead.text ++ p.statements.flatMap Statement.text

/-! ### Marks -/

/-- A token of a program, or half of one of two signs. -/
inductive Symbol where
  | ident (x : Ident)
  | numeral (n : Numeral)
  | quoted (q : Quoted)
  | leftParen
  | rightParen
  | semicolon
  | assign
  | negation
  | operator (op : Operator)
  /-- A sign between or in front of operands, or half of two signs in front of a name. -/
  | sign (s : Sign)
  /-- Half of two signs behind a name; `second` tells which. -/
  | half (s : Sign) (second : Bool)

/-- A symbol with the padding behind it. -/
structure Mark where
  symbol : Symbol
  pad : Padding

namespace Symbol

def bytes : Symbol → Bytes
  | ident x => x.bytes
  | numeral n => n.bytes
  | quoted q => q.bytes
  | leftParen => [0x28]
  | rightParen => [0x29]
  | semicolon => [0x3b]
  | assign => [0x3d]
  | negation => [0x21]
  | operator op => op.bytes
  | sign s => [s.byte]
  | half s _ => [s.byte]

/-- An operand ends with the symbol. -/
def endsOperand : Symbol → Bool
  | ident _ | numeral _ | quoted _ | rightParen | half _ true => true
  | leftParen | semicolon | assign | negation | operator _ | sign _ | half _ false => false

def sign? : Symbol → Option Sign
  | sign s | half s _ => some s
  | _ => none

end Symbol

namespace Mark

def text (ms : List Mark) : Bytes := ms.flatMap fun m => m.symbol.bytes ++ m.pad.text

/-- `n` may stand behind `m`. -/
def Fits (m n : Mark) : Prop :=
  match n.symbol with
  | .ident _ | .numeral _ | .quoted _ | .leftParen | .negation => m.symbol.endsOperand = false
  | .rightParen | .semicolon | .assign | .operator _ | .half _ false => m.symbol.endsOperand = true
  | .sign _ => True
  | .half s true => m.symbol = .half s false ∧ m.pad.text = []

@[simp]
theorem text_nil : text [] = [] := rfl

@[simp]
theorem text_cons (m : Mark) (ms : List Mark) :
    text (m :: ms) = m.symbol.bytes ++ (m.pad.text ++ text ms) := by
  simp [text]

@[simp]
theorem text_append (ms ns : List Mark) : text (ms ++ ns) = text ms ++ text ns :=
  List.flatMap_append

end Mark

def Binary.symbol : Binary → Symbol
  | sign s => .sign s
  | operator op => .operator op

mutual

def Term.marks : Term → List Mark
  | .ident x pad => [⟨.ident x, pad⟩]
  | .numeral n pad => [⟨.numeral n, pad⟩]
  | .quoted q pad => [⟨.quoted q, pad⟩]
  | .stepped x pad s behind => [⟨.ident x, pad⟩, ⟨.half s false, .empty⟩, ⟨.half s true, behind⟩]
  | .stepping s pad x behind => [⟨.sign s, .empty⟩, ⟨.sign s, pad⟩, ⟨.ident x, behind⟩]
  | .signed s pad t => ⟨.sign s, pad⟩ :: t.marks
  | .negated pad t => ⟨.negation, pad⟩ :: t.marks
  | .group pad e behind => ⟨.leftParen, pad⟩ :: (e.marks ++ [⟨.rightParen, behind⟩])

def Expr.marks : Expr → List Mark
  | .term t => t.marks
  | .binary e op pad t => e.marks ++ ⟨op.symbol, pad⟩ :: t.marks

end

def Statement.marks (s : Statement) : List Mark :=
  ⟨.ident s.target, s.targetPad⟩ :: ⟨.assign, s.assignPad⟩ ::
    (s.value.marks ++ [⟨.semicolon, s.endPad⟩])

def Program.marks (p : Program) : List Mark := p.statements.flatMap Statement.marks

theorem Binary.bytes_symbol (op : Binary) : op.symbol.bytes = op.bytes := by
  cases op <;> rfl

mutual

theorem Term.text_marks : ∀ t : Term, Mark.text t.marks = t.text
  | .ident x pad => by simp [Term.marks, Term.text, Symbol.bytes]
  | .numeral n pad => by simp [Term.marks, Term.text, Symbol.bytes]
  | .quoted q pad => by simp [Term.marks, Term.text, Symbol.bytes]
  | .stepped x pad s behind => by simp [Term.marks, Term.text, Symbol.bytes, Padding.empty]
  | .stepping s pad x behind => by simp [Term.marks, Term.text, Symbol.bytes, Padding.empty]
  | .signed s pad t => by simp [Term.marks, Term.text, Symbol.bytes, t.text_marks]
  | .negated pad t => by simp [Term.marks, Term.text, Symbol.bytes, t.text_marks]
  | .group pad e behind => by simp [Term.marks, Term.text, Symbol.bytes, e.text_marks]

theorem Expr.text_marks : ∀ e : Expr, Mark.text e.marks = e.text
  | .term t => by simp [Expr.marks, Expr.text, t.text_marks]
  | .binary e op pad t => by
    simp [Expr.marks, Expr.text, e.text_marks, t.text_marks, op.bytes_symbol]

end

/-- **The text of a program is that of its marks**, behind what leads to them. -/
theorem Program.text_marks (p : Program) : p.text = p.lead.text ++ Mark.text p.marks := by
  have hstatement (s : Statement) : Mark.text s.marks = s.text := by
    simp [Statement.marks, Statement.text, Symbol.bytes, s.value.text_marks]
  rw [Program.text, Program.marks]
  congr 1
  induction p.statements with
  | nil => rfl
  | cons s ss ih => simp [hstatement, ih]

/-! ### Neighbours -/

namespace Mark

/-- The marks of an operand: each fits behind the one before it, the first stands where no operand
ended, and the last ends one. -/
structure IsOperand (ms : List Mark) : Prop where
  chain : ms.IsChain Fits
  begins : ∀ n ∈ ms.head?, ∀ m : Mark, m.symbol.endsOperand = false → m.Fits n
  ends : ∃ m, ms.getLast? = some m ∧ m.symbol.endsOperand = true

namespace IsOperand

theorem single {m : Mark} (hbegins : ∀ k : Mark, k.symbol.endsOperand = false → k.Fits m)
    (hends : m.symbol.endsOperand = true) : IsOperand [m] :=
  ⟨List.isChain_singleton m, by simpa using hbegins, m, rfl, hends⟩

theorem ne_nil {ms : List Mark} (h : IsOperand ms) : ms ≠ [] := by
  rintro rfl
  obtain ⟨m, hlast, -⟩ := h.ends
  cases hlast

theorem cons {m : Mark} {ms : List Mark}
    (hbegins : ∀ k : Mark, k.symbol.endsOperand = false → k.Fits m)
    (hm : m.symbol.endsOperand = false) (h : IsOperand ms) : IsOperand (m :: ms) := by
  have hchain := List.isChain_cons.mpr ⟨fun n hn => h.begins n hn m hm, h.chain⟩
  refine ⟨hchain, by simpa using hbegins, ?_⟩
  obtain ⟨k, hlast, hk⟩ := h.ends
  exact ⟨k, by simp [List.getLast?_cons, hlast], hk⟩

theorem isChain_concat {ms : List Mark} {m : Mark} (h : IsOperand ms)
    (hm : ∀ k : Mark, k.symbol.endsOperand = true → k.Fits m) : (ms ++ [m]).IsChain Fits := by
  rw [List.isChain_append]
  refine ⟨h.chain, List.isChain_singleton m, ?_⟩
  intro k hk n hn
  obtain ⟨last, hlast, hends⟩ := h.ends
  obtain rfl := Option.some.inj (hlast.symm.trans hk)
  obtain rfl := Option.some.inj hn
  exact hm last hends

theorem binary {ms ns : List Mark} {m : Mark} (h : IsOperand ms) (h' : IsOperand ns)
    (hm : ∀ k : Mark, k.symbol.endsOperand = true → k.Fits m) (hm' : m.symbol.endsOperand = false) :
    IsOperand (ms ++ m :: ns) := by
  refine ⟨?_, ?_, ?_⟩
  · rw [List.isChain_split]
    exact ⟨h.isChain_concat hm, List.isChain_cons.mpr ⟨fun n hn => h'.begins n hn m hm', h'.chain⟩⟩
  · intro n hn
    rw [List.head?_append_of_ne_nil _ h.ne_nil] at hn
    exact h.begins n hn
  · obtain ⟨k, hlast, hk⟩ := h'.ends
    exact ⟨k, by simp [List.getLast?_append, List.getLast?_cons, hlast], hk⟩

end IsOperand

end Mark

theorem Binary.fits_symbol (op : Binary) (pad : Padding) (m : Mark)
    (hm : m.symbol.endsOperand = true) : m.Fits ⟨op.symbol, pad⟩ := by
  cases op with
  | sign s => exact trivial
  | operator op => exact hm

mutual

theorem Term.isOperand_marks : ∀ t : Term, Mark.IsOperand t.marks
  | .ident x pad => .single (fun _ hk => hk) rfl
  | .numeral n pad => .single (fun _ hk => hk) rfl
  | .quoted q pad => .single (fun _ hk => hk) rfl
  | .stepped x pad s behind => by
    refine ⟨?_, ?_, ⟨.half s true, behind⟩, rfl, rfl⟩
    · simp [Term.marks, Mark.Fits, Symbol.endsOperand, Padding.empty]
    · rintro n hn k hk
      obtain rfl := Option.some.inj hn
      exact hk
  | .stepping s pad x behind =>
    .cons (fun _ _ => trivial) rfl (.cons (fun _ _ => trivial) rfl (.single (fun _ hk => hk) rfl))
  | .signed s pad t => .cons (fun _ _ => trivial) rfl t.isOperand_marks
  | .negated pad t => .cons (fun _ hk => hk) rfl t.isOperand_marks
  | .group pad e behind => by
    have he := e.isOperand_marks
    have hclose := he.isChain_concat (m := ⟨.rightParen, behind⟩) fun _ hk => hk
    refine ⟨?_, ?_, ⟨.rightParen, behind⟩, ?_, rfl⟩
    · refine List.isChain_cons.mpr ⟨fun n hn => ?_, hclose⟩
      rw [List.head?_append_of_ne_nil _ he.ne_nil] at hn
      exact he.begins n hn ⟨.leftParen, pad⟩ rfl
    · rintro n hn k hk
      obtain rfl := Option.some.inj hn
      exact hk
    · rw [Term.marks, ← List.cons_append, List.getLast?_concat]

theorem Expr.isOperand_marks : ∀ e : Expr, Mark.IsOperand e.marks
  | .term t => t.isOperand_marks
  | .binary e op pad t =>
    e.isOperand_marks.binary t.isOperand_marks (op.fits_symbol pad) (by cases op <;> rfl)

end

theorem Statement.isChain_marks (s : Statement) (m : Mark) (hm : m.symbol.endsOperand = false) :
    (m :: s.marks).IsChain Mark.Fits := by
  have hvalue := s.value.isOperand_marks
  have hend := hvalue.isChain_concat (m := ⟨.semicolon, s.endPad⟩) fun _ hk => hk
  refine List.isChain_cons_cons.mpr ⟨hm, List.isChain_cons_cons.mpr ⟨rfl, ?_⟩⟩
  refine List.isChain_cons.mpr ⟨fun n hn => ?_, hend⟩
  rw [List.head?_append_of_ne_nil _ hvalue.ne_nil] at hn
  exact hvalue.begins n hn ⟨.assign, s.assignPad⟩ rfl

/-- **The marks of a program fit**, also behind whatever ends no operand. -/
theorem Program.isChain_marks (p : Program) (m : Mark) (hm : m.symbol.endsOperand = false) :
    (m :: p.marks).IsChain Mark.Fits := by
  rw [Program.marks]
  induction p.statements generalizing m with
  | nil => exact List.isChain_singleton m
  | cons s ss ih =>
    have hsplit : m :: (s :: ss).flatMap Statement.marks
        = (m :: ⟨.ident s.target, s.targetPad⟩ :: ⟨.assign, s.assignPad⟩ :: s.value.marks) ++
          ⟨.semicolon, s.endPad⟩ :: ss.flatMap Statement.marks := by
      simp [Statement.marks]
    rw [hsplit, List.isChain_split]
    exact ⟨s.isChain_marks m hm, ih ⟨.semicolon, s.endPad⟩ rfl⟩

end ScriptMinifier
