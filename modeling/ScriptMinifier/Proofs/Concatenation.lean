import ScriptMinifier.Proofs.Breaks
import ScriptMinifier.Proofs.Reads

/-!
# Texts behind a semicolon

Behind a semicolon a text is minified as if it stood alone: with the breaks of comments collapsed,

    minify (x ++ y) = minify x ++ minify y

whenever the last byte of `x` is a semicolon of code (`minify_append_of_endsStatement`).

The state behind the semicolon is not the initial one.  The byte on its left is the semicolon, and
its word is the last one of `x`, whatever that was.  `Lexer.onward` is the state without what the
rest of a text cannot tell apart: a semicolon and the start look the same, the word counts only
where a byte could lengthen it, and a gap is collapsed.  A step from two states that look the same
leads to states that look the same and writes the same (`Lexer.decides_onward`), and so does the
whole rest of the scan.
-/

namespace ScriptMinifier

open Lexer (Step)

abbrev Byte.semicolon : Byte := 0x3b

def Options.collapsing : Options := { collapseCommentBreaks := true }

/-! ### What the rest of a text can tell -/

/-- The left-hand side, with a semicolon for the start of a text. -/
def Left.onward : Left → Left
  | byte b => if b = Byte.semicolon then start else byte b
  | left => left

namespace Left

theorem onward_onward (left : Left) : left.onward.onward = left.onward := by
  cases left with
  | byte b =>
    by_cases hb : b = Byte.semicolon
    · simp [onward, hb]
    · simp [onward, hb]
  | _ => rfl

theorem continuesWord_onward (left : Left) : left.onward.continuesWord = left.continuesWord := by
  cases left with
  | byte b =>
    by_cases hb : b = Byte.semicolon
    · subst hb
      decide
    · simp [onward, hb]
  | _ => rfl

theorem onward_beq (left other : Left) (hstart : other ≠ .start)
    (hother : other ≠ .byte Byte.semicolon) : (left.onward == other) = (left == other) := by
  cases left with
  | byte b =>
    by_cases hb : b = Byte.semicolon
    · rw [onward, if_pos hb, hb, beq_eq_false_iff_ne.mpr hstart.symm,
        beq_eq_false_iff_ne.mpr hother.symm]
    · rw [onward, if_neg hb]
  | _ => rfl

end Left

/-- **Behind a semicolon a gap is dropped**, as at the start of a text, but for a comment break. -/
theorem separator_onward (left : Left) {gap : Gap} (hgap : gap ≠ .commentBreak) (next : Byte)
    (opensRegex : Bool) :
    separator left.onward gap next opensRegex = separator left gap next opensRegex := by
  cases left with
  | byte b =>
    by_cases hb : b = Byte.semicolon
    · subst hb
      have hend : (Left.byte Byte.semicolon).mayEndStatement = false := by decide
      have hglue : (Left.byte Byte.semicolon).gluesToWord = false := by decide
      have hfuse : (Left.byte Byte.semicolon).fusesWith next = false := by
        simp [Left.fusesWith, Byte.isSign, show Byte.semicolon ≠ Byte.slash by decide,
          show Byte.semicolon ≠ Byte.plus by decide, show Byte.semicolon ≠ Byte.minus by decide]
      simp [Left.onward, separator, hend, hglue, hfuse, hgap]
    · simp [Left.onward, hb]
  | _ => rfl

/-- The state without what the rest of a text cannot tell. -/
def Lexer.onward (l : Lexer) : Lexer :=
  { l with
    left := l.left.onward
    word := if l.left.continuesWord then l.word else {}
    gap := l.gap.collapse }

theorem Gap.collapse_collapse (g : Gap) : g.collapse.collapse = g.collapse := by cases g <;> rfl

theorem Gap.collapse_eq_none_iff {g : Gap} : g.collapse = .none ↔ g = .none := by
  cases g <;> decide

theorem Gap.collapse_ne_commentBreak (g : Gap) : g.collapse ≠ .commentBreak := by
  cases g <;> decide

namespace Lexer

theorem onward_with (l : Lexer) (mode : Mode) (held : Bool) (gap gap' : Gap)
    (hgap : gap.collapse = gap'.collapse) :
    { l.onward with mode := mode, held := held, gap := gap }.onward
      = { l with mode := mode, held := held, gap := gap' }.onward := by
  have hword : (if l.left.continuesWord then (if l.left.continuesWord then l.word else {}) else {})
      = if l.left.continuesWord then l.word else {} := by
    split <;> rfl
  simp only [onward, Left.onward_onward, Left.continuesWord_onward, hgap, hword]

theorem onward_onward (l : Lexer) : l.onward.onward = l.onward :=
  onward_with l l.mode l.held l.gap.collapse l.gap l.gap.collapse_collapse

theorem withMode_onward (l : Lexer) (mode : Mode) (held : Bool) :
    { l.onward with mode := mode, held := held }.onward
      = { l with mode := mode, held := held }.onward :=
  onward_with l mode held l.gap.collapse l.gap l.gap.collapse_collapse

theorem enter_onward (l : Lexer) (literal : Literal) :
    (l.onward.enter literal).onward = (l.enter literal).onward :=
  onward_with l (.literal literal) l.held .none .none rfl

theorem widen_onward (l : Lexer) (g : Gap) : (l.onward.widen g).onward = (l.widen g).onward := by
  refine onward_with l l.mode l.held _ _ ?_
  rw [Gap.collapse_widen, Gap.collapse_widen]
  exact congrArg (Gap.widen · _) l.gap.collapse_collapse

theorem dropComment_onward (l : Lexer) (broken : Bool) :
    (l.onward.dropComment broken).onward = (l.dropComment broken).onward :=
  widen_onward { l with mode := .code } _

theorem leave_onward (l : Lexer) (literal : Literal) :
    (l.onward.leave literal).onward = (l.leave literal).onward := by
  have hword : (if literal.isRegex then Left.regexEnd else .stringEnd).continuesWord = false := by
    cases literal.isRegex <;> rfl
  simp [onward, leave, hword, Gap.collapse_collapse]

theorem operandPosition_onward (l : Lexer) : l.onward.operandPosition = l.operandPosition := by
  cases hleft : l.left with
  | byte b =>
    by_cases hb : b = Byte.semicolon
    · subst hb
      simp [operandPosition, onward, hleft, Left.onward,
        show Byte.semicolon.isWord = false by decide,
        show Byte.semicolon.isCloser = false by decide,
        show Byte.semicolon.isSign = false by decide]
    · by_cases hword : b.isWord = true
      · simp [operandPosition, onward, hleft, Left.onward, hb, hword, Left.continuesWord]
      · simp [operandPosition, onward, hleft, Left.onward, hb, hword]
  | _ => simp [operandPosition, onward, hleft, Left.onward]

theorem wordAfter_onward (l : Lexer) {b : Byte} (hb : b.isWord = true) :
    l.onward.wordAfter b = l.wordAfter b := by
  have hgap : (l.gap.collapse == Gap.none) = (l.gap == Gap.none) := by cases l.gap <;> rfl
  have hdot := l.left.onward_beq (.byte Byte.dot) (by simp) (by decide)
  have hregex := l.left.onward_beq .regexEnd (by simp) (by simp)
  simp only [wordAfter, onward, hb, if_true, Left.continuesWord_onward, hgap, hdot, hregex,
    Gap.collapse_eq_none_iff]
  by_cases hcontinues : l.left.continuesWord = true
  · simp only [hcontinues, if_true]
  · simp only [hcontinues, Bool.false_eq_true, and_false, if_false]

theorem doubles_onward (l : Lexer) (b : Byte) : l.onward.doubles b = l.doubles b := by
  have hgap : (l.gap.collapse == Gap.none) = (l.gap == Gap.none) := by cases l.gap <;> rfl
  by_cases hb : b = Byte.semicolon
  · subst hb
    simp [doubles, show Byte.semicolon.isSign = false by decide]
  · have hleft := l.left.onward_beq (.byte b) (by simp) (by simpa using hb)
    simp only [doubles, onward, hgap, hleft]

/-- **A byte of code looks the same behind states that look the same.**  The word that is out of
date is not looked at behind any other byte. -/
theorem token_onward (l : Lexer) (b : Byte) : (l.onward.token b).onward = (l.token b).onward := by
  have hdoubles := doubles_onward l b
  cases hb : b.isWord with
  | true =>
    rw [token, token, wordAfter_onward l hb, hdoubles]
    rfl
  | false =>
    have hword (l : Lexer) : l.wordAfter b = l.word := if_neg (by simp [hb])
    have hdigit : b.isDigit = false := by
      cases hdigit : b.isDigit with
      | false => rfl
      | true => simp [Byte.isWord, hdigit] at hb
    rw [token, token, hword, hword, hdoubles, hdigit]
    simp [onward, Left.continuesWord, hb]

theorem separator_of_onward (l : Lexer) (b : Byte) (regex : Bool) :
    separator l.onward.left (l.onward.gap.under .collapsing) b regex
      = separator l.left (l.gap.under .collapsing) b regex := by
  have hunder (g : Gap) : g.under .collapsing = g.collapse := rfl
  simp only [hunder, onward, Gap.collapse_collapse,
    separator_onward _ (Gap.collapse_ne_commentBreak _)]

abbrev told (r : Lexer × Option Piece) : Lexer × Option Bytes :=
  Prod.map onward (Option.map (Piece.write .collapsing)) r

theorem stepCode_onward (l : Lexer) (b : Byte) (next : Option Byte) :
    told (l.onward.stepCode b next) = told (l.stepCode b next) := by
  unfold stepCode
  rw [operandPosition_onward]
  split
  · exact congrArg (·, none) (widen_onward l .space)
  · exact congrArg (·, none) (widen_onward l .newline)
  all_goals
    -- two kinds of comment, a regular expression, a string, and a byte of code
    split
    · exact congrArg (·, none) (withMode_onward l .lineComment true)
    split
    · exact congrArg (·, none) (withMode_onward l (.blockComment false) true)
    split
    · simp [told, Piece.write, Piece.separator?, Piece.byte, separator_of_onward, enter_onward]
    split
    · simp [told, Piece.write, Piece.separator?, Piece.byte, separator_of_onward, enter_onward]
    · simp [told, Piece.write, Piece.separator?, Piece.byte, separator_of_onward, token_onward]

theorem stepLiteral_onward (l : Lexer) (literal : Literal) (b : Byte) (next : Option Byte) :
    (l.onward.stepLiteral literal b next).map told = (l.stepLiteral literal b next).map told := by
  unfold stepLiteral
  split
  · rfl
  split
  · cases next with
    | none => rfl
    | some c => exact congrArg (fun l => Except.ok (l, some [b])) (withMode_onward l l.mode true)
  · cases literal.next? b with
    | none => exact congrArg (fun l => Except.ok (l, some [b])) (leave_onward l literal)
    | some literal' =>
      exact congrArg (fun l => Except.ok (l, some [b]))
        (withMode_onward l (.literal literal') l.held)

/-- **States that look the same step alike.** -/
theorem step_onward (l : Lexer) (b : Byte) (next : Option Byte) :
    (l.onward.step b next).map told = (l.step b next).map told := by
  have hheld : l.onward.held = l.held := rfl
  have hmode : l.onward.mode = l.mode := rfl
  unfold step
  rw [hheld, hmode]
  split
  · rw [release, release, hmode]
    simp only [Except.map, told, Prod.map_apply]
    exact congrArg (fun l => Except.ok (l, _)) (withMode_onward l l.mode false)
  cases hm : l.mode with
  | code => exact congrArg Except.ok (stepCode_onward l b next)
  | lineComment =>
    dsimp only
    split
    · exact congrArg (fun l => Except.ok (l, none)) (dropComment_onward l true)
    · exact congrArg (fun l => Except.ok (l, none)) (onward_onward l)
  | blockComment broken =>
    dsimp only
    split
    · exact congrArg (fun l => Except.ok ({ l with held := true }, none))
        (dropComment_onward l broken)
    · exact congrArg (fun l => Except.ok (l, none)) (withMode_onward l _ l.held)
  | literal literal => exact stepLiteral_onward l literal b next

/-- **The rest of a text is written as its state looks.** -/
theorem decides_onward : Decides onward (Piece.write .collapsing) where
  step {l₁ l₂} h b next := by
    have h₁ := step_onward l₁ b next
    rw [h, step_onward l₂ b next] at h₁
    exact h₁.symm
  finish {l₁ l₂} h := by
    have hmode : l₁.onward.mode = l₂.onward.mode := congrArg Lexer.mode h
    rw [finish, finish, show l₁.mode = l₂.mode from hmode]

/-- **Behind a semicolon of code the rest of a text starts anew.** -/
theorem onward_token_semicolon {l : Lexer} (hl : l.AtCode) :
    (l.token Byte.semicolon).onward = initial := by
  have hword : l.wordAfter Byte.semicolon = l.word := if_neg (by decide)
  have hdoubles : l.doubles Byte.semicolon = false := by
    simp [doubles, show Byte.semicolon.isSign = false by decide]
  have hdigit : Byte.semicolon.isDigit = false := by decide
  have hcontinues : (Left.byte Byte.semicolon).continuesWord = false := by decide
  rw [token, hword, hdoubles, hdigit]
  simp [onward, initial, Left.onward, hcontinues, hl.mode, hl.held, Gap.collapse]

end Lexer

/-! ### Cutting a text behind a semicolon -/

/-- The last byte of the text is a semicolon that is taken for a byte of code. -/
def EndsStatement (text : Bytes) : Prop :=
  ∃ front pieces l, text = front ++ [Byte.semicolon] ∧
    Reads (some Byte.semicolon) .initial (unifyBreaks front) pieces l ∧ l.AtCode

namespace EndsStatement

variable {x : Bytes}

theorem unifyBreaks_append (h : EndsStatement x) (y : Bytes) :
    unifyBreaks (x ++ y) = unifyBreaks x ++ unifyBreaks y := by
  obtain ⟨front, -, -, rfl, -⟩ := h
  have hcut := ScriptMinifier.unifyBreaks_append (b := Byte.semicolon) (by decide) (by decide) front
  rw [List.append_assoc, List.singleton_append, hcut, hcut, unifyBreaks_nil, List.append_assoc,
    List.singleton_append]

/-- **The text is read to its end**, whatever stands behind it, and leads to a state from which any
text goes on as from the start. -/
theorem reads (h : EndsStatement x) :
    ∃ pieces l, (∀ ahead, Reads ahead .initial (unifyBreaks x) pieces l) ∧ l.onward = .initial := by
  obtain ⟨front, pieces, l, rfl, hreads, hl⟩ := h
  refine ⟨pieces ++ [.code l.left l.gap Byte.semicolon], l.token Byte.semicolon, fun ahead => ?_,
    Lexer.onward_token_semicolon hl⟩
  have hlast : Step l Byte.semicolon ahead (l.token Byte.semicolon)
      (some (.code l.left l.gap Byte.semicolon)) :=
    .token hl.held hl.mode (by decide) (by decide) fun hslash => absurd hslash (by decide)
  rw [ScriptMinifier.unifyBreaks_append (by decide) (by decide), unifyBreaks_nil]
  exact Reads.append hreads (.single hlast)

end EndsStatement

/-- **Behind a semicolon a text is minified as if it stood alone.**  Let the last byte of `x` be a
semicolon of code and `out` its result.  Then `x ++ y` and `y` both succeed, and the result of `y`
follows `out`; or both fail at a literal of the same kind. -/
theorem minify_append_of_endsStatement {x out : Bytes} (hx : minify .collapsing x = .ok out)
    (hend : EndsStatement x) (y : Bytes) :
    (minify .collapsing (x ++ y)).mapError Unterminated.kind
      = ((minify .collapsing y).map (out ++ ·)).mapError Unterminated.kind := by
  obtain ⟨pieces, l, hreads, hl⟩ := hend.reads
  have htrailer (s : Scan) : s.trailer .collapsing = [] := if_neg (by simp [Options.collapsing])
  have hout : pieces.flatMap (Piece.write .collapsing) = out := by
    obtain ⟨-, hwrite⟩ := minify_eq_ok_iff.mp hx
    rw [htrailer, List.append_nil, Scan.write, scan,
      (Scan.run_of_reads (hreads none) ..).1] at hwrite
    exact hwrite
  obtain ⟨here, opened, hpieces, hstop⟩ :=
    Scan.run_append (hreads (unifyBreaks y).head?) .first .first
  rw [← hend.unifyBreaks_append, ← scan] at hpieces hstop
  -- the rest of the scan looks like the scan of `y` alone
  have hviews : l.onward = Lexer.initial.onward := hl
  obtain ⟨halike, hkinds⟩ := Scan.run_alike Lexer.decides_onward hviews here opened .first .first
    (unifyBreaks y)
  rw [← hstop, ← scan] at hkinds
  have hwrite : (scan (x ++ y)).write .collapsing = out ++ (scan y).write .collapsing := by
    rw [Scan.write, hpieces, List.flatMap_append, hout, Scan.write, scan, List.flatMap_def,
      List.flatMap_def, halike]
  rw [minify, minify, Scan.result, Scan.result, htrailer, htrailer, hwrite]
  cases hxy : (scan (x ++ y)).stop <;> cases hy : (scan y).stop <;> simp [hxy, hy] at hkinds
  · exact congrArg Except.ok (List.append_assoc ..)
  · exact congrArg Except.error hkinds

/-- The keyword in front of the semicolon and the comment behind it leave no trace. -/
theorem minify_append_behind_keyword :
    EndsStatement (utf8 "in;") ∧ minify .collapsing (utf8 "in;") = .ok (utf8 "in;") ∧
      (minify .collapsing (utf8 "in;" ++ utf8 "// c\n/a/")).mapError Unterminated.kind
        = .ok (utf8 "in;/a/") := by
  have hend : EndsStatement (utf8 "in;") :=
    ⟨utf8 "in", _, _, rfl, .cons (Lexer.step_eq_ok_iff.mp rfl)
      (.cons (Lexer.step_eq_ok_iff.mp rfl) (.nil _)), ⟨rfl, rfl⟩⟩
  have hx : minify .collapsing (utf8 "in;") = .ok (utf8 "in;") := rfl
  exact ⟨hend, hx, (minify_append_of_endsStatement hx hend (utf8 "// c\n/a/")).trans rfl⟩

end ScriptMinifier
