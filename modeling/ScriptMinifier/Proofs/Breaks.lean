import ScriptMinifier.Proofs.Reads

/-!
# Line breaks in the text as it came

The lexer sees a text with unified line breaks; offsets and positions are those of the text as it
came.  Away from its line breaks the two texts are cut at the same bytes, which `unifyBreaks_append`
says from left to right and `exists_append_of_unifyBreaks` from right to left, and `positionAt` is
the line and column of an offset, counted in the text as it came.

* `breakInduction`: a text ends, or goes on with a line break of two bytes, with a carriage return
  alone, or with any other byte.
* `unifyBreaks_dropOne`: a line break of two bytes is one byte of the unified text.
* `foldl_advance_unifyBreaks`: the position that the lexer keeps is `positionAt`.
-/

namespace ScriptMinifier

/-! ### Cutting a text -/

@[elab_as_elim]
theorem breakInduction {motive : Bytes → Prop} (text : Bytes) (nil : motive [])
    (pair : ∀ rest, motive rest → motive (Byte.cr :: Byte.lf :: rest))
    (lone : ∀ rest, rest.head? ≠ some Byte.lf → motive rest → motive (Byte.cr :: rest))
    (plain : ∀ b rest, b ≠ Byte.cr → motive rest → motive (b :: rest)) : motive text := by
  induction hn : text.length using Nat.strongRecOn generalizing text with
  | ind n ih =>
    subst hn
    cases text with
    | nil => exact nil
    | cons b rest =>
      by_cases hb : b = Byte.cr
      · subst hb
        by_cases hlf : rest.head? = some Byte.lf
        · obtain ⟨rest', rfl⟩ := List.head?_eq_some_iff.mp hlf
          exact pair rest' (ih rest'.length (by simp only [List.length_cons]; omega) rest' rfl)
        · exact lone rest hlf (ih rest.length (by simp) rest rfl)
      · exact plain b rest hb (ih rest.length (by simp) rest rfl)

theorem unifyBreaks_append {b : Byte} (hcr : b ≠ Byte.cr) (hlf : b ≠ Byte.lf) (p r : Bytes) :
    unifyBreaks (p ++ b :: r) = unifyBreaks p ++ b :: unifyBreaks r := by
  induction p using breakInduction with
  | nil => exact unifyBreaks_cons hcr r
  | pair p ih =>
    rw [List.cons_append, List.cons_append, unifyBreaks_cons_cr_lf, unifyBreaks_cons_cr_lf, ih]
    rfl
  | lone p hp ih =>
    have hhead : (p ++ b :: r).head? ≠ some Byte.lf := by
      cases p with
      | nil => simpa using hlf
      | cons c p => exact hp
    rw [List.cons_append, unifyBreaks_cons_cr hhead, unifyBreaks_cons_cr hp, ih]
    rfl
  | plain c p hc ih =>
    rw [List.cons_append, unifyBreaks_cons hc, unifyBreaks_cons hc, ih]
    rfl

theorem unifyBreaks_append_of_notMem {xs : Bytes} (h : Byte.cr ∉ xs) (ys : Bytes) :
    unifyBreaks (xs ++ ys) = xs ++ unifyBreaks ys := by
  induction xs with
  | nil => rfl
  | cons b xs ih =>
    rw [List.mem_cons, not_or] at h
    rw [List.cons_append, unifyBreaks_cons (Ne.symm h.1), ih h.2]
    rfl

/-- **A cut of the unified text is a cut of the text**, unless it is made at a line break. -/
theorem exists_append_of_unifyBreaks {text pre post : Bytes} {b : Byte} (hb : b ≠ Byte.lf)
    (h : unifyBreaks text = pre ++ b :: post) :
    ∃ p r, text = p ++ b :: r ∧ unifyBreaks p = pre ∧ unifyBreaks r = post := by
  induction text using breakInduction generalizing pre with
  | nil => simp at h
  | pair rest ih =>
    rw [unifyBreaks_cons_cr_lf] at h
    cases pre with
    | nil => exact absurd (List.cons.inj h).1.symm hb
    | cons c pre =>
      obtain ⟨rfl, htail⟩ := List.cons.inj h
      obtain ⟨p, r, rfl, rfl, rfl⟩ := ih htail
      exact ⟨Byte.cr :: Byte.lf :: p, r, rfl, unifyBreaks_cons_cr_lf p, rfl⟩
  | lone rest hrest ih =>
    rw [unifyBreaks_cons_cr hrest] at h
    cases pre with
    | nil => exact absurd (List.cons.inj h).1.symm hb
    | cons c pre =>
      obtain ⟨rfl, htail⟩ := List.cons.inj h
      obtain ⟨p, r, rfl, rfl, rfl⟩ := ih htail
      refine ⟨Byte.cr :: p, r, rfl, unifyBreaks_cons_cr ?_, rfl⟩
      cases p with
      | nil => simp
      | cons c p => exact hrest
  | plain c rest hc ih =>
    rw [unifyBreaks_cons hc] at h
    cases pre with
    | nil =>
      obtain ⟨rfl, rfl⟩ := List.cons.inj h
      exact ⟨[], rest, rfl, rfl, rfl⟩
    | cons c' pre =>
      obtain ⟨rfl, htail⟩ := List.cons.inj h
      obtain ⟨p, r, rfl, rfl, rfl⟩ := ih htail
      exact ⟨c :: p, r, rfl, unifyBreaks_cons hc p, rfl⟩

/-- The text behind its first byte, or behind the line break of two bytes that it starts with. -/
def dropOne : Bytes → Bytes
  | [] => []
  | b :: rest => if b = Byte.cr ∧ rest.head? = some Byte.lf then rest.tail else rest

theorem length_dropOne_le (text : Bytes) : (dropOne text).length ≤ text.length := by
  cases text with
  | nil => exact Nat.le_refl _
  | cons b rest =>
    rw [dropOne]
    split
    · rw [List.length_tail, List.length_cons]
      omega
    · rw [List.length_cons]
      omega

theorem unifyBreaks_dropOne (text : Bytes) :
    unifyBreaks (dropOne text) = (unifyBreaks text).tail := by
  cases text using breakInduction with
  | nil => rfl
  | pair rest _ => simp [dropOne]
  | lone rest hrest _ =>
    rw [dropOne, if_neg (by simp [hrest]), unifyBreaks_cons_cr hrest]
    rfl
  | plain b rest hb _ =>
    rw [dropOne, if_neg (by simp [hb]), unifyBreaks_cons hb]
    rfl

theorem head?_unifyBreaks {b : Byte} (hcr : b ≠ Byte.cr) (hlf : b ≠ Byte.lf) (text : Bytes) :
    (unifyBreaks text).head? = some b ↔ text.head? = some b := by
  cases text using breakInduction with
  | nil => rfl
  | pair rest _ => simp [Ne.symm hcr, Ne.symm hlf]
  | lone rest hrest _ => simp [unifyBreaks_cons_cr hrest, Ne.symm hcr, Ne.symm hlf]
  | plain c rest hc _ => simp [unifyBreaks_cons hc]

theorem opensComment_unifyBreaks {text : Bytes} :
    OpensComment (unifyBreaks text).head? ↔ OpensComment text.head? :=
  or_congr (head?_unifyBreaks (by decide) (by decide) text)
    (head?_unifyBreaks (by decide) (by decide) text)

theorem head?_unifyBreaks_of_isLineBreak {b : Byte} (hb : b.isLineBreak = true) (rest : Bytes) :
    (unifyBreaks (b :: rest)).head? = some Byte.lf := by
  have hor : b = Byte.lf ∨ b = Byte.cr := by simpa [Byte.isLineBreak] using hb
  rcases hor with rfl | rfl
  · rw [unifyBreaks_cons (by decide)]
    rfl
  · rw [unifyBreaks, unifyBreaksOnto, if_pos rfl, unifyBreaksOnto_eq]
    rfl

/-! ### Lines and columns of an offset -/

/-- How many line breaks a text has: line feeds, and carriage returns without one behind them. -/
def lineBreaks : Bytes → Nat
  | [] => 0
  | b :: rest =>
    (if b = Byte.lf ∨ (b = Byte.cr ∧ rest.head? ≠ some Byte.lf) then 1 else 0) + lineBreaks rest

def lastLine : Bytes → Bytes
  | [] => []
  | b :: rest => if (b :: rest).any Byte.isLineBreak then lastLine rest else b :: rest

/-- Line and column, both from one, of the byte at an offset. -/
def positionAt (text : Bytes) (i : Nat) : Position :=
  ⟨1 + lineBreaks (text.take i), 1 + (lastLine (text.take i)).length⟩

theorem lastLine_eq_self {text : Bytes} (h : text.any Byte.isLineBreak = false) :
    lastLine text = text := by
  cases text with
  | nil => rfl
  | cons b rest => rw [lastLine, if_neg (by simp [h])]

theorem lastLine_cons_of_isLineBreak {b : Byte} (hb : b.isLineBreak = true) (rest : Bytes) :
    lastLine (b :: rest) = lastLine rest := by
  rw [lastLine, if_pos (by simp [hb])]

def columnAfter (start : Nat) (text : Bytes) : Nat :=
  if text.any Byte.isLineBreak then 1 + (lastLine text).length else start + text.length

theorem columnAfter_one (text : Bytes) : columnAfter 1 text = 1 + (lastLine text).length := by
  rw [columnAfter]
  split
  · rfl
  · rename_i h
    rw [lastLine_eq_self (by simpa using h)]

theorem columnAfter_cons_of_isLineBreak {b : Byte} (hb : b.isLineBreak = true) (start : Nat)
    (rest : Bytes) : columnAfter start (b :: rest) = columnAfter 1 rest := by
  rw [columnAfter, if_pos (by simp [hb]), lastLine_cons_of_isLineBreak hb, columnAfter_one]

theorem columnAfter_cons {b : Byte} (hb : b.isLineBreak = false) (start : Nat) (rest : Bytes) :
    columnAfter start (b :: rest) = columnAfter (start + 1) rest := by
  rw [columnAfter, columnAfter, lastLine, List.any_cons, hb, Bool.false_or]
  split
  · rfl
  · rw [List.length_cons]
    omega

/-- **The position that the lexer keeps** over a unified text is counted in the text as it came. -/
theorem foldl_advance_unifyBreaks (text : Bytes) (start : Position) :
    (unifyBreaks text).foldl Position.advance start
      = ⟨start.line + lineBreaks text, columnAfter start.column text⟩ := by
  have hcr : Byte.cr.isLineBreak = true := by decide
  have hlf : Byte.lf.isLineBreak = true := by decide
  induction text using breakInduction generalizing start with
  | nil => rfl
  | pair rest ih =>
    rw [unifyBreaks_cons_cr_lf, List.foldl_cons, Position.advance_lf, ih,
      columnAfter_cons_of_isLineBreak hcr, columnAfter_cons_of_isLineBreak hlf]
    simp [lineBreaks, Nat.add_assoc, show Byte.cr ≠ Byte.lf by decide]
  | lone rest hrest ih =>
    rw [unifyBreaks_cons_cr hrest, List.foldl_cons, Position.advance_lf, ih,
      columnAfter_cons_of_isLineBreak hcr]
    simp [lineBreaks, hrest, Nat.add_assoc]
  | plain b rest hb ih =>
    rw [unifyBreaks_cons hb, List.foldl_cons, ih]
    by_cases hb' : b = Byte.lf
    · subst hb'
      rw [columnAfter_cons_of_isLineBreak hlf]
      simp [lineBreaks, Nat.add_assoc]
    · have hnot : b.isLineBreak = false := by simp [Byte.isLineBreak, hb, hb']
      rw [columnAfter_cons hnot, Position.advance_of_ne hb']
      simp [lineBreaks, hb, hb']

theorem foldl_advance_take (text : Bytes) (i : Nat) :
    (unifyBreaks (text.take i)).foldl Position.advance .first = positionAt text i := by
  rw [foldl_advance_unifyBreaks, positionAt, ← columnAfter_one]
  rfl

end ScriptMinifier
