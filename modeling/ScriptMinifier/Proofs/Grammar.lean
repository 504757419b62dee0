import Mathlib.Computability.Language
import ScriptMinifier.Literal

/-!
# The grammar of literals

`Grammar.string` and `Grammar.regex` are the languages of strings and regular expressions, given by
regular operations: an escape is a backslash and any byte, a line feed included; a class stands in
square brackets, where a slash does not close the regular expression.

`Literal` is a state between two bytes of such a text, and `Literal.tail` the language of what may
still follow there.  One byte leads from a tail to the next in the way of `Literal.next?`
(`Literal.cons_mem_tail_iff`).  Where a literal can end it cannot go on
(`Literal.eq_nil_of_mem_remainder`), so a text begins with at most one literal of a kind.
-/

namespace ScriptMinifier

open scoped Computability

namespace Grammar

/-! ### Literals -/

def anyBut (bytes : Bytes) : Language Byte := {w | ∃ b ∉ bytes, w = [b]}

def escape : Language Byte := {[Byte.backslash]} * anyBut []

def stringItem (quote : Byte) : Language Byte := escape + anyBut [Byte.lf, Byte.backslash, quote]

/-- A string, with its quotes. -/
def string (quote : Byte) : Language Byte := {[quote]} * ((stringItem quote)∗ * {[quote]})

def classItem : Language Byte := escape + anyBut [Byte.lf, Byte.backslash, Byte.rightBracket]

def bracketed : Language Byte := {[Byte.leftBracket]} * (classItem∗ * {[Byte.rightBracket]})

def regexItem : Language Byte :=
  escape + bracketed + anyBut [Byte.lf, Byte.backslash, Byte.slash, Byte.leftBracket]

/-- A regular expression, with its slashes and at least one item between them. -/
def regex : Language Byte := {[Byte.slash]} * (regexItem * regexItem∗ * {[Byte.slash]})

/-! ### Words by their first byte -/

variable {A L Q : Language Byte} {a b : Byte} {m : Bytes}

theorem cons_mem_singleton_mul : b :: m ∈ {[a]} * L ↔ b = a ∧ m ∈ L := by
  rw [Language.mem_mul]
  constructor
  · rintro ⟨w, hw, m', hm', heq⟩
    obtain rfl : w = [a] := hw
    obtain ⟨rfl, rfl⟩ := List.cons.inj heq
    exact ⟨rfl, hm'⟩
  · rintro ⟨rfl, hm⟩
    exact ⟨[b], rfl, m, hm, rfl⟩

theorem cons_mem_anyBut_mul {bytes : Bytes} : b :: m ∈ anyBut bytes * L ↔ b ∉ bytes ∧ m ∈ L := by
  rw [Language.mem_mul]
  constructor
  · rintro ⟨w, ⟨c, hc, rfl⟩, m', hm', heq⟩
    obtain ⟨rfl, rfl⟩ := List.cons.inj heq
    exact ⟨hc, hm'⟩
  · rintro ⟨hb, hm⟩
    exact ⟨[b], ⟨b, hb, rfl⟩, m, hm, rfl⟩

theorem cons_mem_singleton : b :: m ∈ ({[a]} : Language Byte) ↔ b = a ∧ m = [] :=
  List.cons_eq_cons

theorem nil_notMem_anyBut_mul (bytes : Bytes) : [] ∉ anyBut bytes * L := by
  rw [Language.mem_mul]
  rintro ⟨w, ⟨c, -, rfl⟩, m, -, heq⟩
  cases heq

theorem nil_notMem_mul_singleton : [] ∉ L * ({[a]} : Language Byte) := by
  rw [Language.mem_mul]
  rintro ⟨w, -, m, hm, heq⟩
  obtain rfl : m = [a] := hm
  simp at heq

/-- **A repetition ends, or there is one item more.** -/
theorem kstar_mul_eq : A∗ * Q = Q + A * (A∗ * Q) := by
  calc A∗ * Q = (1 + A * A∗) * Q := by rw [Language.one_add_self_mul_kstar_eq_kstar]
    _ = Q + A * (A∗ * Q) := by rw [add_mul, one_mul, mul_assoc]

theorem escape_mul : escape * L = {[Byte.backslash]} * (anyBut [] * L) := mul_assoc _ _ _

theorem cons_mem_items {bytes : Bytes} :
    b :: m ∈ (escape + anyBut bytes)∗ * Q ↔
      b :: m ∈ Q ∨ (b = Byte.backslash ∧ m ∈ anyBut [] * ((escape + anyBut bytes)∗ * Q)) ∨
        (b ∉ bytes ∧ m ∈ (escape + anyBut bytes)∗ * Q) := by
  conv_lhs => rw [kstar_mul_eq, add_mul, escape_mul]
  rw [Language.mem_add, Language.mem_add, cons_mem_singleton_mul, cons_mem_anyBut_mul]

theorem cons_mem_regexItem_mul :
    b :: m ∈ regexItem * L ↔
      (b = Byte.backslash ∧ m ∈ anyBut [] * L) ∨
      (b = Byte.leftBracket ∧ m ∈ classItem∗ * ({[Byte.rightBracket]} * L)) ∨
      (b ∉ [Byte.lf, Byte.backslash, Byte.slash, Byte.leftBracket] ∧ m ∈ L) := by
  rw [regexItem, add_mul, add_mul, escape_mul, bracketed, mul_assoc, mul_assoc, Language.mem_add,
    Language.mem_add, cons_mem_singleton_mul, cons_mem_singleton_mul, cons_mem_anyBut_mul, or_assoc]

theorem cons_mem_regexItems :
    b :: m ∈ regexItem∗ * {[Byte.slash]} ↔
      (b = Byte.slash ∧ m = []) ∨ b :: m ∈ regexItem * (regexItem∗ * {[Byte.slash]}) := by
  conv_lhs => rw [kstar_mul_eq]
  rw [Language.mem_add, cons_mem_singleton]

end Grammar

namespace Literal

open Grammar

/-- What may follow inside a literal, up to its end. -/
def tail : Literal → Language Byte
  | string quote => (stringItem quote)∗ * {[quote]}
  | regex false => regexItem∗ * {[Byte.slash]}
  | regex true => classItem∗ * ({[Byte.rightBracket]} * (regexItem∗ * {[Byte.slash]}))

def IsOpened : Literal → Prop
  | string quote => quote.isQuote = true
  | regex _ => True

theorem nil_notMem_tail (literal : Literal) : [] ∉ literal.tail := by
  cases literal with
  | string quote => exact nil_notMem_mul_singleton
  | regex inClass =>
    cases inClass with
    | false => exact nil_notMem_mul_singleton
    | true =>
      rw [tail, ← mul_assoc, ← mul_assoc]
      exact nil_notMem_mul_singleton

theorem IsOpened.of_next? {literal literal' : Literal} {b : Byte} (h : literal.IsOpened)
    (hnext : literal.next? b = some literal') : literal'.IsOpened := by
  cases literal with
  | string quote =>
    rw [next?] at hnext
    split at hnext
    · cases hnext
    · obtain rfl := Option.some.inj hnext
      exact h
  | regex inClass =>
    have hkind := kind_of_next? hnext
    cases literal' with
    | string quote => cases hkind
    | regex inClass' => trivial

/-- **How a literal goes on**: with an escape, or with a byte that closes it or leads on. -/
theorem cons_mem_tail_iff {literal : Literal} (h : literal.IsOpened) {b : Byte} {m : Bytes} :
    b :: m ∈ literal.tail ↔
      (b = Byte.backslash ∧ m ∈ anyBut [] * literal.tail) ∨
      (b ≠ Byte.lf ∧ b ≠ Byte.backslash ∧
        ((literal.next? b = none ∧ m = []) ∨
          ∃ literal', literal.next? b = some literal' ∧ m ∈ literal'.tail)) := by
  have hbytes : Byte.slash ≠ Byte.lf ∧ Byte.slash ≠ Byte.backslash ∧
      Byte.slash ≠ Byte.leftBracket ∧ Byte.leftBracket ≠ Byte.lf ∧
      Byte.leftBracket ≠ Byte.backslash ∧ Byte.leftBracket ≠ Byte.slash ∧
      Byte.leftBracket ≠ Byte.rightBracket ∧ Byte.rightBracket ≠ Byte.lf ∧
      Byte.rightBracket ≠ Byte.backslash ∧ Byte.rightBracket ≠ Byte.slash ∧
      Byte.rightBracket ≠ Byte.leftBracket := by decide
  cases literal with
  | string quote =>
    have hquote : quote ≠ Byte.lf ∧ quote ≠ Byte.backslash := by
      have hq : quote = Byte.doubleQuote ∨ quote = Byte.singleQuote := by
        simpa [IsOpened, Byte.isQuote] using h
      rcases hq with rfl | rfl <;> decide
    rw [tail, stringItem, cons_mem_items, cons_mem_singleton]
    by_cases hb : b = quote
    · subst hb
      simp [next?, hquote]
    · simp [next?, hb, and_assoc, tail, stringItem]
  | regex inClass =>
    cases inClass with
    | true =>
      rw [tail, classItem, cons_mem_items, cons_mem_singleton_mul]
      by_cases hclose : b = Byte.rightBracket
      · subst hclose
        simp [next?, tail, hbytes]
      · by_cases hopen : b = Byte.leftBracket <;>
          simp [next?, hclose, hopen, and_assoc, tail, classItem, hbytes]
    | false =>
      rw [tail, cons_mem_regexItems, cons_mem_regexItem_mul]
      by_cases hslash : b = Byte.slash
      · subst hslash
        simp [next?, hbytes]
      · by_cases hopen : b = Byte.leftBracket
        · subst hopen
          simp [next?, tail, hbytes]
        · by_cases hclose : b = Byte.rightBracket <;>
            simp [next?, hslash, hopen, hclose, and_assoc, tail, hbytes]

/-- What may follow; with `held`, the first byte belongs to an escape. -/
def remainder (literal : Literal) (held : Bool) : Language Byte :=
  if held then anyBut [] * literal.tail else literal.tail

theorem nil_notMem_remainder (literal : Literal) (held : Bool) : [] ∉ literal.remainder held := by
  cases held with
  | true => exact nil_notMem_anyBut_mul []
  | false => exact literal.nil_notMem_tail

theorem cons_mem_remainder_held {literal : Literal} {b : Byte} {m : Bytes} :
    b :: m ∈ literal.remainder true ↔ m ∈ literal.remainder false := by
  rw [remainder, if_pos rfl, cons_mem_anyBut_mul]
  simp [remainder]

theorem cons_mem_remainder {literal : Literal} (h : literal.IsOpened) {b : Byte} {m : Bytes} :
    b :: m ∈ literal.remainder false ↔
      (b = Byte.backslash ∧ m ∈ literal.remainder true) ∨
      (b ≠ Byte.lf ∧ b ≠ Byte.backslash ∧
        ((literal.next? b = none ∧ m = []) ∨
          ∃ literal', literal.next? b = some literal' ∧ m ∈ literal'.remainder false)) :=
  cons_mem_tail_iff h

/-- **Where a literal can end it cannot go on.** -/
theorem eq_nil_of_mem_remainder {literal : Literal} (h : literal.IsOpened) (held : Bool)
    {m k : Bytes} (hm : m ∈ literal.remainder held) (hk : m ++ k ∈ literal.remainder held) :
    k = [] := by
  induction m generalizing literal held with
  | nil => exact absurd hm (literal.nil_notMem_remainder held)
  | cons b m ih =>
    cases held with
    | true => exact ih h false (cons_mem_remainder_held.mp hm) (cons_mem_remainder_held.mp hk)
    | false =>
      rw [List.cons_append] at hk
      rcases (cons_mem_remainder h).mp hm with ⟨hback, hm'⟩ | ⟨-, hback, hm'⟩ <;>
        rcases (cons_mem_remainder h).mp hk with ⟨hback', hk'⟩ | ⟨-, hback', hk'⟩
      · exact ih h true hm' hk'
      · exact absurd hback hback'
      · exact absurd hback' hback
      · rcases hm' with ⟨hnone, rfl⟩ | ⟨literal', hsome, hm'⟩ <;>
          rcases hk' with ⟨hnone', hnil⟩ | ⟨literal'', hsome', hk'⟩
        · exact hnil
        · cases hnone.symm.trans hsome'
        · cases hnone'.symm.trans hsome
        · obtain rfl := Option.some.inj (hsome.symm.trans hsome')
          exact ih (h.of_next? hsome) false hm' hk'

/-! ### Whole literals -/

theorem cons_mem_string {quote b : Byte} {m : Bytes} :
    b :: m ∈ Grammar.string quote ↔ b = quote ∧ m ∈ (string quote).tail :=
  cons_mem_singleton_mul

theorem cons_mem_regex {b : Byte} {m : Bytes} :
    b :: m ∈ Grammar.regex ↔
      b = Byte.slash ∧ m ∈ (regex false).tail ∧ m.head? ≠ some Byte.slash := by
  rw [Grammar.regex, cons_mem_singleton_mul]
  refine and_congr_right fun _ => ?_
  cases m with
  | nil => exact iff_of_false nil_notMem_mul_singleton fun h => nil_notMem_tail _ h.1
  | cons c m =>
    rw [tail, cons_mem_regexItems, mul_assoc, List.head?_cons, Ne, Option.some.injEq]
    constructor
    · intro h
      refine ⟨.inr h, ?_⟩
      rintro rfl
      rcases cons_mem_regexItem_mul.mp h with ⟨hback, -⟩ | ⟨hopen, -⟩ | ⟨hplain, -⟩
      · exact absurd hback (by decide)
      · exact absurd hopen (by decide)
      · exact absurd hplain (by decide)
    · rintro ⟨⟨rfl, -⟩ | h, hne⟩
      · exact absurd rfl hne
      · exact h

end Literal

end ScriptMinifier
