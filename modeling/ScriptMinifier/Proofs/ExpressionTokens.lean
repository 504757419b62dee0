import ScriptMinifier.Proofs.Expressions

/-!
# The tokens of a row of marks

A tokenizer that takes as much as it can may take more than a mark.  In a row of marks that fit,
only two equal signs with nothing between them are taken together: what stands behind an operand
does not make it longer (`Mark.Fits.not_inName`), and what begins one does not make a longer
operator or a comment (`Mark.Fits.not_operator`).  So the tokens can be told from the symbols and
from which neighbours join.

* `Mark.tokens`: the tokens of a row.  `Mark.munch_text`: **they are what the tokenizer finds**.
* `Mark.Alike`: two rows have the same symbols, and the same neighbours join.
* `Mark.Alike.tokens_eq`, `Mark.Alike.isChain`: such rows have the same tokens and fit alike.
-/

namespace ScriptMinifier

open Munch (operators)

/-! ### The first byte of a symbol -/

theorem Byte.ne_of_inName {b c : Byte} (hb : b.inName = true) (hc : c.inName = false) : b ≠ c := by
  rintro rfl
  rw [hb] at hc
  cases hc

theorem Byte.ne_of_isQuote {b c : Byte} (hb : b.isQuote = true) (hc : c.isQuote = false) :
    b ≠ c := by
  rintro rfl
  rw [hb] at hc
  cases hc

theorem Sign.byte_inj {s s' : Sign} (h : s.byte = s'.byte) : s = s' := by
  cases s <;> cases s' <;> first | rfl | exact absurd h (by decide)

namespace Symbol

def first (s : Symbol) : Byte := s.bytes.headD 0

theorem bytes_eq_cons (s : Symbol) : s.bytes = s.first :: s.bytes.tail := by
  cases s with
  | operator op => cases op <;> rfl
  | _ => rfl

theorem inName_first_ident (x : Ident) : (ident x).first.inName = true :=
  Byte.inName_of_beginsName x.begins

theorem inName_first_numeral (n : Numeral) : (numeral n).first.inName = true :=
  Byte.inName_of_isDigit (n.whole.isDigit n.whole.first List.mem_cons_self)

theorem first_ne_of_sign? {t : Symbol} {s : Sign} (h : t.sign? ≠ some s) : t.first ≠ s.byte := by
  have hname : s.byte.inName = false := by cases s <;> decide
  have hquote : s.byte.isQuote = false := by cases s <;> decide
  cases t with
  | ident x => exact Byte.ne_of_inName (inName_first_ident x) hname
  | numeral n => exact Byte.ne_of_inName (inName_first_numeral n) hname
  | quoted q => exact Byte.ne_of_isQuote q.isQuote hquote
  | operator op => cases s <;> cases op <;> decide
  | sign s' => exact fun heq => h (congrArg some (Sign.byte_inj heq))
  | half s' second => exact fun heq => h (congrArg some (Sign.byte_inj heq))
  | leftParen | rightParen | semicolon | assign | negation => cases s <;> decide

end Symbol

/-- What stands behind an operand does not make it longer. -/
theorem Mark.Fits.not_inName {m n : Mark} (h : m.Fits n) (hm : m.symbol.endsOperand = true) :
    n.symbol.first.inName = false ∧ n.symbol.first.inNumber = false := by
  rw [Mark.Fits] at h
  cases hn : n.symbol with
  | ident | numeral | quoted | leftParen | negation =>
    rw [hn, hm] at h
    cases h
  | half s second =>
    cases second with
    | false => cases s <;> decide
    | true =>
      rw [hn] at h
      rw [h.1] at hm
      cases hm
  | operator op => cases op <;> decide
  | sign s => cases s <;> decide
  | rightParen | semicolon | assign => decide

/-- What begins an operand does not make a longer operator or a comment. -/
theorem Mark.Fits.not_operator {m n : Mark} (h : m.Fits n) (hm : m.symbol.endsOperand = false)
    (hsign : m.symbol.sign? = none) :
    n.symbol.first ≠ 0x3d ∧ ¬ OpensComment (some n.symbol.first) := by
  rw [Mark.Fits] at h
  have hne {b : Byte} (h₁ : b ≠ 0x3d) (h₂ : b ≠ Byte.slash) (h₃ : b ≠ Byte.star) :
      b ≠ 0x3d ∧ ¬ OpensComment (some b) :=
    ⟨h₁, by simp [OpensComment, h₂, h₃]⟩
  cases hn : n.symbol with
  | ident x =>
    have hname := Symbol.inName_first_ident x
    exact hne (Byte.ne_of_inName hname (by decide)) (Byte.ne_of_inName hname (by decide))
      (Byte.ne_of_inName hname (by decide))
  | numeral x =>
    have hname := Symbol.inName_first_numeral x
    exact hne (Byte.ne_of_inName hname (by decide)) (Byte.ne_of_inName hname (by decide))
      (Byte.ne_of_inName hname (by decide))
  | quoted q =>
    have hquote := q.isQuote
    exact hne (Byte.ne_of_isQuote hquote (by decide)) (Byte.ne_of_isQuote hquote (by decide))
      (Byte.ne_of_isQuote hquote (by decide))
  | leftParen | negation => exact hne (by decide) (by decide) (by decide)
  | sign s => cases s <;> exact hne (by decide) (by decide) (by decide)
  | rightParen | semicolon | assign | operator =>
    rw [hn, hm] at h
    cases h
  | half s second =>
    cases second with
    | false =>
      rw [hn, hm] at h
      cases h
    | true =>
      rw [hn] at h
      rw [h.1] at hsign
      cases hsign

/-! ### What the tokenizer makes of a mark -/

/-- The tokenizer takes the symbol for a token if `next` stands behind it. -/
def Symbol.Stops (s : Symbol) (next : Option Byte) : Prop :=
  match s with
  | .ident _ => ∀ b ∈ next, b.inName = false
  | .numeral _ => ∀ b ∈ next, b.inNumber = false
  | .assign | .operator .equal => next ≠ some 0x3d
  | .operator .divide => ¬ OpensComment next
  | .sign s | .half s _ => next ≠ some s.byte
  | _ => True

theorem Symbol.stops_of_isSpace (s : Symbol) {next : Option Byte}
    (h : ∀ b ∈ next, b.isSpace = true) : s.Stops next := by
  have hne {c : Byte} (hc : c.isSpace = false) : next ≠ some c := by
    rintro rfl
    rw [h c rfl] at hc
    cases hc
  have hnumber : ∀ b ∈ next, b.inName = false ∧ b.inNumber = false := by
    intro b hb
    rcases Byte.eq_of_isSpace (h b hb) with rfl | rfl | rfl | rfl | rfl <;> decide
  cases s with
  | ident x => exact fun b hb => (hnumber b hb).1
  | numeral n => exact fun b hb => (hnumber b hb).2
  | assign => exact hne (by decide)
  | operator op =>
    cases op with
    | equal => exact hne (by decide)
    | divide => exact not_or.mpr ⟨hne (by decide), hne (by decide)⟩
    | _ => exact trivial
  | sign s => exact hne (by cases s <;> decide)
  | half s second => exact hne (by cases s <;> decide)
  | quoted | leftParen | rightParen | semicolon | negation => exact trivial

theorem Numeral.inNumber_of_mem (n : Numeral) :
    ∀ b ∈ n.whole.rest ++ n.point, b.inNumber = true := by
  have hdigit {d : Digits} {b : Byte} (hb : b ∈ d.bytes) : b.inNumber = true := by
    rw [Byte.inNumber, d.isDigit b hb, Bool.true_or]
  intro b hb
  rcases List.mem_append.mp hb with hb | hb
  · exact hdigit (List.mem_cons_of_mem n.whole.first hb)
  · rw [Numeral.point] at hb
    cases hfraction : n.fraction with
    | none =>
      rw [hfraction] at hb
      cases hb
    | some digits =>
      rw [hfraction] at hb
      rcases List.mem_cons.mp hb with rfl | hb
      · decide
      · exact hdigit hb

/-- **A symbol is a token** if nothing behind it lengthens it. -/
theorem munch_symbol {s : Symbol} {rest : Bytes} (h : s.Stops rest.head?) :
    munch (s.bytes ++ rest) = (munch rest).map fun tokens => s.bytes :: tokens := by
  have hsingle {b : Byte} (hb : b.isPunctuator = true) (hslash : b ≠ Byte.slash)
      (hdouble : [b, b] ∉ operators) :
      munch ([b] ++ rest) = (munch rest).map fun tokens => [b] :: tokens :=
    munch_single hb (fun he => absurd he hslash) fun he => absurd he hdouble
  have hsign (s : Sign) (hnext : rest.head? ≠ some s.byte) :
      munch ([s.byte] ++ rest) = (munch rest).map fun tokens => [s.byte] :: tokens := by
    refine munch_single (by cases s <;> decide) ?_ fun _ => hnext
    cases s <;> exact fun he => absurd he (by decide)
  cases s with
  | ident x => exact munch_name x.begins x.inside h
  | numeral n =>
    have hdigit := n.whole.isDigit n.whole.first List.mem_cons_self
    exact munch_number hdigit n.inNumber_of_mem h
  | quoted q => exact munch_quoted q.isQuote q.closed rest
  | assign => exact munch_single (by decide) (fun he => absurd he (by decide)) fun _ => h
  | operator op =>
    cases op with
    | divide => exact munch_single (by decide) (fun _ => h) fun he => absurd he (by decide)
    | equal => exact munch_double (by decide) fun _ => h
    | identical => exact munch_triple rest
    | both | either => exact munch_double (by decide) fun he => absurd he (by decide)
    | times | modulo => exact hsingle (by decide) (by decide) (by decide)
  | sign s => exact hsign s h
  | half s second => exact hsign s h
  | leftParen | rightParen | semicolon | negation =>
    exact hsingle (by decide) (by decide) (by decide)

theorem munch_filler {g : Bytes} (h : Filler g) (rest : Bytes) :
    munch (g ++ rest) = munch rest := by
  induction h with
  | nil => rfl
  | space hb _ ih => rw [List.cons_append, munch_space hb, ih]
  | comment hc _ _ ih => rw [List.append_assoc, munch_comment hc, ih]

theorem Padding.head?_append (pad : Padding) (h : pad.text ≠ []) (rest : Bytes) :
    ∀ b ∈ (pad.text ++ rest).head?, b.isSpace = true := by
  rw [List.head?_append_of_ne_nil _ h]
  exact pad.head

/-- **A mark is a token** if nothing behind it lengthens it. -/
theorem munch_mark {m : Mark} {rest : Bytes} (h : m.pad.text = [] → m.symbol.Stops rest.head?) :
    munch (m.symbol.bytes ++ (m.pad.text ++ rest))
      = (munch rest).map fun tokens => m.symbol.bytes :: tokens := by
  rw [munch_symbol, munch_filler m.pad.filler]
  by_cases hpad : m.pad.text = []
  · rw [hpad]
    exact h hpad
  · exact m.symbol.stops_of_isSpace (m.pad.head?_append hpad rest)

/-! ### What the tokenizer makes of all marks -/

namespace Mark

def joins (m n : Mark) : Bool :=
  m.pad.text.isEmpty && m.symbol.sign?.any fun s => n.symbol.sign? == some s

/-- The tokens of a row of marks: signs are taken two at a time. -/
def tokens : List Mark → List Bytes
  | [] => []
  | [m] => [m.symbol.bytes]
  | m :: n :: ms =>
    if m.joins n then (m.symbol.bytes ++ n.symbol.bytes) :: tokens ms
    else m.symbol.bytes :: tokens (n :: ms)

theorem joins_iff {m n : Mark} :
    m.joins n = true ↔
      m.pad.text = [] ∧ ∃ s, m.symbol.sign? = some s ∧ n.symbol.sign? = some s := by
  simp [joins, Option.any_eq_true]

theorem Fits.stops {m n : Mark} (h : m.Fits n) (hjoins : m.joins n = false)
    (hpad : m.pad.text = []) : m.symbol.Stops (some n.symbol.first) := by
  have hsign {s : Sign} (hm : m.symbol.sign? = some s) : some n.symbol.first ≠ some s.byte := by
    intro heq
    refine Symbol.first_ne_of_sign? (t := n.symbol) (s := s) ?_ (Option.some.inj heq)
    intro hn
    rw [joins_iff.mpr ⟨hpad, s, hm, hn⟩] at hjoins
    cases hjoins
  have hends := fun hm => h.not_inName hm
  have hbegins := fun hm hs => h.not_operator hm hs
  cases hm : m.symbol with
  | ident x => exact fun b hb => Option.some.inj hb ▸ (hends (by rw [hm]; rfl)).1
  | numeral x => exact fun b hb => Option.some.inj hb ▸ (hends (by rw [hm]; rfl)).2
  | assign => exact fun heq => (hbegins (by rw [hm]; rfl) (by rw [hm]; rfl)).1 (Option.some.inj heq)
  | operator op =>
    cases op with
    | equal =>
      exact fun heq => (hbegins (by rw [hm]; rfl) (by rw [hm]; rfl)).1 (Option.some.inj heq)
    | divide => exact (hbegins (by rw [hm]; rfl) (by rw [hm]; rfl)).2
    | _ => exact trivial
  | sign s => exact hsign (by rw [hm]; rfl)
  | half s second => exact hsign (by rw [hm]; rfl)
  | quoted | leftParen | rightParen | semicolon | negation => exact trivial

theorem head?_text_cons (n : Mark) (ms : List Mark) (rest : Bytes) :
    (text (n :: ms) ++ rest).head? = some n.symbol.first := by
  rw [text_cons, Symbol.bytes_eq_cons]
  rfl

/-- **The tokenizer takes a row of marks for its tokens**, in front of white space or the end. -/
theorem munch_text {ms : List Mark} {rest : Bytes} (h : ms.IsChain Fits)
    (hrest : ∀ b ∈ rest.head?, b.isSpace = true) :
    munch (text ms ++ rest) = (munch rest).map fun tokens => Mark.tokens ms ++ tokens := by
  fun_induction tokens ms with
  | case1 => simp
  | case2 m =>
    rw [text_cons, text_nil, List.append_nil, List.append_assoc,
      munch_mark fun _ => m.symbol.stops_of_isSpace hrest]
    rfl
  | case3 m n ms hjoins ih =>
    obtain ⟨hpad, s, hm, hn⟩ := joins_iff.mp hjoins
    have hbytes {k : Symbol} (hk : k.sign? = some s) : k.bytes = [s.byte] := by
      cases k <;> first | cases hk; rfl | cases hk
    have hdouble : munch (text (m :: n :: ms) ++ rest)
        = (munch (n.pad.text ++ (text ms ++ rest))).map fun tokens =>
            [s.byte, s.byte] :: tokens := by
      rw [text_cons, text_cons, hbytes hm, hbytes hn, hpad, List.nil_append, List.append_assoc,
        List.append_assoc, List.append_assoc]
      refine munch_double ?_ ?_
      · cases s <;> decide
      · cases s <;> exact fun he => absurd he (by decide)
    rw [hdouble, munch_filler n.pad.filler, ih h.tail.tail, hbytes hm, hbytes hn, Option.map_map]
    rfl
  | case4 m n ms hjoins ih =>
    have hfits := (List.isChain_cons_cons.mp h).1
    rw [text_cons, List.append_assoc, List.append_assoc, munch_mark, ih h.tail, Option.map_map]
    · rfl
    · intro hpad
      rw [head?_text_cons]
      exact hfits.stops (by simpa using hjoins) hpad

/-! ### Rows with other paddings -/

/-- The rows have the same symbols, and the same neighbours join. -/
inductive Alike : List Mark → List Mark → Prop
  | nil : Alike [] []
  | single {m m' : Mark} (hsymbol : m'.symbol = m.symbol) : Alike [m] [m']
  | cons {m m' n n' : Mark} {ms ms' : List Mark} (hsymbol : m'.symbol = m.symbol)
      (hjoins : m'.joins n' = m.joins n) (rest : Alike (n :: ms) (n' :: ms')) :
      Alike (m :: n :: ms) (m' :: n' :: ms')

namespace Alike

theorem symbol_eq {m m' : Mark} {ms ms' : List Mark} (h : Alike (m :: ms) (m' :: ms')) :
    m'.symbol = m.symbol := by
  cases h with
  | single hsymbol => exact hsymbol
  | cons hsymbol => exact hsymbol

theorem tail {m m' : Mark} {ms ms' : List Mark} (h : Alike (m :: ms) (m' :: ms')) :
    Alike ms ms' := by
  cases h with
  | single => exact .nil
  | cons _ _ rest => exact rest

/-- **Rows that are alike have the same tokens.** -/
theorem tokens_eq {ms ms' : List Mark} (h : Alike ms ms') : tokens ms' = tokens ms := by
  fun_induction tokens ms generalizing ms' with
  | case1 =>
    cases h
    rfl
  | case2 m =>
    cases h with
    | single hsymbol => rw [tokens, hsymbol]
  | case3 m n ms hjoins ih =>
    cases h with
    | cons hsymbol hsame rest =>
      rw [tokens, hsame, if_pos hjoins, hsymbol, rest.symbol_eq, ih rest.tail]
  | case4 m n ms hjoins ih =>
    cases h with
    | cons hsymbol hsame rest => rw [tokens, hsame, if_neg hjoins, hsymbol, ih rest]

end Alike

theorem Fits.congr {m m' n n' : Mark} (h : m.Fits n) (hm : m'.symbol = m.symbol)
    (hn : n'.symbol = n.symbol) (hjoins : m'.joins n' = m.joins n) : m'.Fits n' := by
  rw [Fits] at h ⊢
  rw [hn, hm]
  cases hsymbol : n.symbol with
  | half s second =>
    rw [hsymbol] at h
    cases second with
    | false => exact h
    | true =>
      have hjoin : m.joins n = true :=
        joins_iff.mpr ⟨h.2, s, by rw [h.1]; rfl, by rw [hsymbol]; rfl⟩
      exact ⟨h.1, (joins_iff.mp (hjoins.trans hjoin)).1⟩
  | _ =>
    rw [hsymbol] at h
    exact h

theorem Alike.isChain {ms ms' : List Mark} (h : Alike ms ms') (hms : ms.IsChain Fits) :
    ms'.IsChain Fits := by
  induction h with
  | nil => exact List.isChain_nil
  | @single m m' _ => exact List.isChain_singleton m'
  | cons hsymbol hjoins rest ih =>
    obtain ⟨hfits, hrest⟩ := List.isChain_cons_cons.mp hms
    exact List.isChain_cons_cons.mpr ⟨hfits.congr hsymbol rest.symbol_eq hjoins, ih hrest⟩

end Mark

end ScriptMinifier
