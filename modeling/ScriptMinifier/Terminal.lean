import ScriptMinifier.Text

/-!
# Text on a terminal

Some characters do not show on a terminal but steer it.  Where a text is not to be trusted they are
written as escapes: those of ASCII as `\x1b`, those above it as `\u{9b}`.  The bell, the backspace,
the form feed, the escape and the delete character steer; so do the 32 characters that follow ASCII.
Line breaks and tabs stay as they are.

* `Terminal.escape`: the text with such characters written as escapes.
* `Terminal.not_steers_of_mem_escapeChar`: what is shown of a character steers nothing.
-/

namespace ScriptMinifier.Terminal

/-- An ASCII character that steers a terminal. -/
def isControl (c : Char) : Bool := [0x07, 0x08, 0x0c, 0x1b, 0x7f].contains c.toNat

/-- A character above ASCII that steers a terminal. -/
def isHighControl (c : Char) : Bool := 0x80 ≤ c.toNat && c.toNat ≤ 0x9f

def steers (c : Char) : Bool := isControl c || isHighControl c

def escapeChar (c : Char) : List Char :=
  if isControl c then '\\' :: 'x' :: hexPair c.toNat
  else if isHighControl c then '\\' :: 'u' :: '{' :: hexPair c.toNat ++ ['}']
  else [c]

def escape (text : String) : String := String.ofList (text.toList.flatMap escapeChar)

theorem not_steers_digitChar {n : Nat} (h : n < 16) : steers (Nat.digitChar n) = false := by
  revert n
  decide

theorem not_steers_of_mem_hexPair {n : Nat} (hn : n < 256) {d : Char} (h : d ∈ hexPair n) :
    steers d = false := by
  simp only [hexPair, List.mem_cons, List.not_mem_nil, or_false] at h
  obtain rfl | rfl := h
  · exact not_steers_digitChar (by omega)
  · exact not_steers_digitChar (by omega)

theorem toNat_lt_of_isControl {c : Char} (h : isControl c = true) : c.toNat < 256 := by
  simp only [isControl, List.contains_iff_mem, List.mem_cons, List.not_mem_nil, or_false] at h
  omega

theorem toNat_lt_of_isHighControl {c : Char} (h : isHighControl c = true) : c.toNat < 256 := by
  simp only [isHighControl, Bool.and_eq_true, decide_eq_true_eq] at h
  omega

/-- **What is shown of a character steers nothing.** -/
theorem not_steers_of_mem_escapeChar {c d : Char} (h : d ∈ escapeChar c) : steers d = false := by
  unfold escapeChar at h
  split at h
  · rename_i hc
    simp only [List.mem_cons] at h
    obtain rfl | rfl | h := h
    · decide
    · decide
    · exact not_steers_of_mem_hexPair (toNat_lt_of_isControl hc) h
  · split at h
    · rename_i hc
      simp only [List.cons_append, List.mem_cons, List.mem_append, List.not_mem_nil,
        or_false] at h
      obtain rfl | rfl | rfl | h | rfl := h
      · decide
      · decide
      · decide
      · exact not_steers_of_mem_hexPair (toNat_lt_of_isHighControl hc) h
      · decide
    · rename_i hcontrol hhigh
      obtain rfl := List.mem_singleton.mp h
      simp [steers, hcontrol, hhigh]

end ScriptMinifier.Terminal
