import ScriptMinifier.Proofs.Extents

/-!
# A comment is white space

A comment can be replaced by one byte of white space, a line feed or a space (`standIn`), and the
text is minified to the same result.  A comment that breaks the line leaves a wider gap than a line
feed does, so the two texts lead the lexer to different states; but the options may not tell the two
gaps apart.  `Lexer.under` is the state as the options see it.

The two scans go on over the same bytes.  A step from two states that look the same leads to states
that look the same and gives pieces that look the same (`Lexer.step_under`), and so does the whole
rest of the scan (`Scan.agrees_run`).  Pieces that look the same are written the same
(`Scan.Agrees.result_eq`).
-/

namespace ScriptMinifier

open Lexer (Step)

/-! ### What the options see -/

theorem Gap.under_under (o : Options) (g : Gap) : (g.under o).under o = g.under o := by
  simp only [Gap.under]
  split
  · cases g <;> rfl
  · rfl

def Lexer.under (o : Options) (l : Lexer) : Lexer := { l with gap := l.gap.under o }

def Piece.under (o : Options) : Piece → Piece
  | code left gap b => code left (gap.under o) b
  | opener left gap regex b => opener left (gap.under o) regex b
  | inner b => inner b

/-- What comes of a step, as the options see it. -/
def Lexer.seen (o : Options) (r : Lexer × Option Piece) : Lexer × Option Piece :=
  (r.1.under o, r.2.map (Piece.under o))

theorem Piece.write_under (o : Options) (p : Piece) : (p.under o).write o = p.write o := by
  cases p <;> simp [Piece.under, Piece.write, Piece.separator?, Piece.byte, Gap.under_under]

namespace Lexer

@[simp]
theorem under_under (o : Options) (l : Lexer) : (l.under o).under o = l.under o := by
  rw [under, under, Gap.under_under]

theorem under_widen (o : Options) (l : Lexer) (g : Gap) :
    ((l.under o).widen g).under o = (l.widen g).under o := by
  simp only [under, widen, Gap.under_widen, Gap.under_under]

theorem under_dropComment (o : Options) (l : Lexer) (broken : Bool) :
    ((l.under o).dropComment broken).under o = (l.dropComment broken).under o :=
  under_widen o { l with mode := .code } _

theorem token_under (o : Options) (l : Lexer) (b : Byte) : (l.under o).token b = l.token b :=
  token_gap fun _ => Gap.under_eq_none_iff

theorem stepCode_under (o : Options) (l : Lexer) (b : Byte) (next : Option Byte) :
    seen o ((l.under o).stepCode b next) = seen o (l.stepCode b next) := by
  have hoperand : (l.under o).operandPosition = l.operandPosition := rfl
  unfold stepCode
  rw [hoperand, token_under]
  split
  · exact congrArg (·, none) (under_widen o l .space)
  · exact congrArg (·, none) (under_widen o l .newline)
  all_goals
    -- two kinds of comment, a regular expression, a string, and a byte of code
    split
    · simp [seen, under, Gap.under_under]
    split
    · simp [seen, under, Gap.under_under]
    split
    · simp [seen, under, enter, Piece.under, Gap.under_under]
    split
    · simp [seen, under, enter, Piece.under, Gap.under_under]
    · simp [seen, under, Piece.under, Gap.under_under]

theorem stepLiteral_under (o : Options) (l : Lexer) (literal : Literal) (b : Byte)
    (next : Option Byte) :
    ((l.under o).stepLiteral literal b next).map (seen o)
      = (l.stepLiteral literal b next).map (seen o) := by
  unfold stepLiteral
  split
  · rfl
  split
  · cases next with
    | none => rfl
    | some c => simp [Except.map, seen, under, Gap.under_under]
  · cases literal.next? b with
    | none => simp [Except.map, seen, under, leave, Gap.under_under]
    | some literal' => simp [Except.map, seen, under, Gap.under_under]

/-- **States that look the same step alike.** -/
theorem step_under (o : Options) (l : Lexer) (b : Byte) (next : Option Byte) :
    ((l.under o).step b next).map (seen o) = (l.step b next).map (seen o) := by
  have hheld : (l.under o).held = l.held := rfl
  have hmode : (l.under o).mode = l.mode := rfl
  unfold step
  rw [hheld, hmode]
  split
  · simp [Except.map, seen, release, under, Gap.under_under]
  cases l.mode with
  | code => exact congrArg Except.ok (stepCode_under o l b next)
  | lineComment =>
    dsimp only
    split
    · exact congrArg (fun l => Except.ok (l, none)) (under_dropComment o l true)
    · exact congrArg (fun l => Except.ok (l, none)) (under_under o l)
  | blockComment broken =>
    dsimp only
    split
    · exact congrArg (fun l => Except.ok ({ l with held := true }, none))
        (under_dropComment o l broken)
    · simp [Except.map, seen, under, Gap.under_under]
  | literal literal => exact stepLiteral_under o l literal b next

theorem step_of_under_eq {o : Options} {l₁ l₂ : Lexer} (h : l₁.under o = l₂.under o) (b : Byte)
    (next : Option Byte) : (l₁.step b next).map (seen o) = (l₂.step b next).map (seen o) := by
  rw [← step_under, h, step_under]

end Lexer

/-! ### Scans that look the same -/

/-- The scans give pieces that look the same, and stop at a literal of the same kind, if at all. -/
structure Scan.Agrees (o : Options) (s s' : Scan) : Prop where
  pieces_eq : s.pieces.map (Piece.under o) = s'.pieces.map (Piece.under o)
  stop_eq : s.stop.map Unterminated.kind = s'.stop.map Unterminated.kind

/-- **Scans that look the same come to the same result.** -/
theorem Scan.Agrees.result_eq {o : Options} {s s' : Scan} (h : Scan.Agrees o s s') :
    (s.result o).mapError Unterminated.kind = (s'.result o).mapError Unterminated.kind := by
  have hwrite (s : Scan) : s.write o = (s.pieces.map (Piece.under o)).flatMap (Piece.write o) := by
    rw [Scan.write, List.flatMap_map]
    simp only [Piece.write_under]
  have htrailer (s : Scan) :
      s.trailer o = if o.keepTrailingNewline ∧ s.pieces.map (Piece.under o) ≠ [] then [Byte.lf]
        else [] := by
    simp only [Scan.trailer, ne_eq, List.map_eq_nil_iff]
  have hout : s.write o ++ s.trailer o = s'.write o ++ s'.trailer o := by
    rw [hwrite, hwrite, htrailer, htrailer, h.pieces_eq]
  have hstop := h.stop_eq
  unfold Scan.result
  cases hs : s.stop <;> cases hs' : s'.stop <;> simp [hs, hs'] at hstop
  · exact congrArg Except.ok hout
  · exact congrArg Except.error hstop

theorem Lexer.decides_under (o : Options) : Lexer.Decides (Lexer.under o) (Piece.under o) where
  step h b next := Lexer.step_of_under_eq h b next
  finish {l₁ l₂} h := by
    have hmode : (l₁.under o).mode = (l₂.under o).mode := congrArg Lexer.mode h
    rw [Lexer.finish, Lexer.finish, show l₁.mode = l₂.mode from hmode]

/-- **From states that look the same, scans of one text look the same.** -/
theorem Scan.agrees_run {o : Options} {l₁ l₂ : Lexer} (h : l₁.under o = l₂.under o)
    (here opened here' opened' : Position) (text : Bytes) :
    Scan.Agrees o (Scan.run l₁ here opened text) (Scan.run l₂ here' opened' text) := by
  obtain ⟨hpieces, hstop⟩ :=
    Scan.run_alike (Lexer.decides_under o) h here opened here' opened' text
  exact ⟨hpieces, hstop⟩

/-! ### What stands for a comment -/

/-- The white space that may stand for a comment: a line feed for a line comment and for one that
holds a line feed, else a space. -/
def standIn (c : Bytes) : Byte :=
  if [Byte.slash, Byte.slash].isPrefixOf c || c.contains Byte.lf then Byte.lf else Byte.space

def Gap.ofStandIn (c : Bytes) : Gap := if standIn c = Byte.lf then .newline else .space

/-- In code the lexer takes `c`, with `s` behind it, for one comment: it is closed, or it is a line
comment that the text ends in. -/
def Lexer.TakesComment (l : Lexer) (c s : Bytes) : Prop :=
  (∃ l', Crosses s.head? l c [] l') ∨
    (s = [] ∧ ∃ body, c = Byte.slash :: Byte.slash :: body ∧ Byte.lf ∉ body)

theorem IsComment.standIn_eq {c : Bytes} (h : IsComment c) :
    standIn c = if c.contains Byte.lf then Byte.lf else Byte.space := by
  cases h with
  | line hbody => simp [standIn]
  | block hbody => rfl

theorem not_opensComment_standIn (c : Bytes) : ¬ OpensComment (some (standIn c)) := by
  unfold OpensComment standIn
  split <;> decide

theorem cr_ne_standIn (c : Bytes) : Byte.cr ≠ standIn c := by
  rw [standIn]
  split <;> decide

theorem step_standIn {l : Lexer} (hl : l.AtCode) (c : Bytes) (next : Option Byte) :
    Step l (standIn c) next (l.widen (Gap.ofStandIn c)) none := by
  rw [Gap.ofStandIn, standIn]
  split
  · exact .lineBreak hl.held hl.mode rfl
  · exact .blank hl.held hl.mode rfl

theorem Lexer.AtCode.dropComment_eq_widen {l : Lexer} (hl : l.AtCode) (broken : Bool) :
    l.dropComment broken = l.widen (if broken then .commentBreak else .space) := by
  rw [Lexer.dropComment, ← hl.mode]

/-- **Behind a comment and behind what stands for it scans look the same.** -/
theorem agrees_behind_comment {o : Options} {l : Lexer} {c s : Bytes} (hl : l.AtCode)
    (hc : l.TakesComment c s) (ho : o.collapseCommentBreaks = true ∨ standIn c = Byte.space) :
    ∃ l₁, Reads s.head? l c [] l₁ ∧ ∀ here opened here' opened',
      Scan.Agrees o (Scan.run l₁ here opened s)
        (Scan.run (l.widen (Gap.ofStandIn c)) here' opened' s) := by
  rcases hc with ⟨l', hcrosses⟩ | ⟨rfl, body, rfl, hbody⟩
  · obtain ⟨hcomment, rfl⟩ := (crosses_comment_iff hl).mp hcrosses
    refine ⟨_, hcrosses.reads, fun here opened here' opened' => Scan.agrees_run ?_ ..⟩
    rw [hl.dropComment_eq_widen, Gap.ofStandIn, hcomment.standIn_eq]
    rw [hcomment.standIn_eq] at ho
    cases hbroken : c.contains Byte.lf with
    | false => rfl
    | true =>
      -- only a gap that is collapsed does not tell where its line break is from
      have hcollapse : o.collapseCommentBreaks = true := by
        refine ho.resolve_right ?_
        rw [hbroken]
        decide
      have hgap : Gap.commentBreak.under o = Gap.newline.under o := by
        rw [Gap.under, Gap.under, if_pos hcollapse, if_pos hcollapse]
        rfl
      simp [Lexer.under, Lexer.widen, Gap.under_widen, hgap]
  · refine ⟨_, reads_lastLine hl hbody, fun here opened here' opened' => ?_⟩
    rw [Scan.run_nil, Scan.run_nil]
    exact ⟨rfl, by simp [Lexer.finish, Lexer.widen, hl.mode]⟩

/-- **A comment is white space.**  A comment that the lexer comes to in code can be replaced by a
line feed or a space, and the text is minified to the same result, or fails at a literal of the same
kind.  Where a line feed stands for it, the options must collapse the line breaks of comments. -/
theorem minify_standIn {o : Options} {p c s : Bytes} {pieces : List Piece} {l : Lexer}
    (hcr : Byte.cr ∉ p ++ c ++ s) (hp : Reads (c ++ s).head? .initial p pieces l) (hl : l.AtCode)
    (hc : l.TakesComment c s) (ho : o.collapseCommentBreaks = true ∨ standIn c = Byte.space) :
    (minify o (p ++ c ++ s)).mapError Unterminated.kind
      = (minify o (p ++ [standIn c] ++ s)).mapError Unterminated.kind := by
  obtain ⟨l₁, hcomment, hagrees⟩ := agrees_behind_comment hl hc ho
  have hcr' : Byte.cr ∉ p ++ [standIn c] ++ s := by
    simp only [List.mem_append, not_or, List.mem_singleton] at hcr ⊢
    exact ⟨⟨hcr.1.1, cr_ne_standIn c⟩, hcr.2⟩
  -- both texts are read up to `s`, the second with a byte behind `p` that makes no comment either
  have hsilent {c' : Bytes} {l' : Lexer} (hp' : Reads (c'.head?.or s.head?) .initial p pieces l)
      (hc' : Reads s.head? l c' [] l') : Reads s.head? .initial (p ++ c') pieces l' := by
    have happend := hp'.append hc'
    rwa [List.append_nil] at happend
  have hreads : Reads s.head? .initial (p ++ c) pieces l₁ :=
    hsilent (by rwa [← List.head?_append]) hcomment
  have hreads' :
      Reads s.head? .initial (p ++ [standIn c]) pieces (l.widen (Gap.ofStandIn c)) :=
    hsilent (hp.of_atCode hl (not_opensComment_standIn c)) (.single (step_standIn hl c s.head?))
  obtain ⟨here, opened, hpieces, hstop⟩ := Scan.run_append hreads .first .first
  obtain ⟨here', opened', hpieces', hstop'⟩ := Scan.run_append hreads' .first .first
  have hrest := hagrees here opened here' opened'
  rw [minify, minify, scan, scan, unifyBreaks_eq_self hcr, unifyBreaks_eq_self hcr']
  refine Scan.Agrees.result_eq ⟨?_, ?_⟩
  · rw [hpieces, hpieces', List.map_append, List.map_append, hrest.pieces_eq]
  · rw [hstop, hstop', hrest.stop_eq]

/-- A comment with a line feed in it, and the line feed alone. -/
theorem minify_standIn_of_broken_comment :
    minify { collapseCommentBreaks := true } (utf8 "a/*\n*/b") = .ok (utf8 "a\nb") ∧
      minify { collapseCommentBreaks := true } (utf8 "a\nb") = .ok (utf8 "a\nb") := by
  obtain ⟨pieces, l, hreads, hl⟩ :
      ∃ pieces l, Reads (some Byte.slash) .initial (utf8 "a") pieces l ∧ l.AtCode :=
    ⟨_, _, .cons (Lexer.step_eq_ok_iff.mp rfl) (.nil _), rfl, rfl⟩
  have hcomment : IsComment (Byte.slash :: Byte.star :: ([Byte.lf] ++ [Byte.star, Byte.slash])) :=
    .block (by decide)
  have htakes : l.TakesComment (utf8 "/*\n*/") (utf8 "b") :=
    .inl ⟨_, (crosses_comment_iff hl).mpr ⟨hcomment, rfl⟩⟩
  have hcr : Byte.cr ∉ utf8 "a" ++ utf8 "/*\n*/" ++ utf8 "b" := by decide
  have hsame : (minify { collapseCommentBreaks := true } (utf8 "a/*\n*/b")).mapError
      Unterminated.kind
        = (minify { collapseCommentBreaks := true } (utf8 "a\nb")).mapError Unterminated.kind :=
    minify_standIn hcr hreads hl htakes (.inl rfl)
  have hlf : minify { collapseCommentBreaks := true } (utf8 "a\nb") = .ok (utf8 "a\nb") := rfl
  rw [hlf] at hsame
  cases h : minify { collapseCommentBreaks := true } (utf8 "a/*\n*/b") with
  | error u =>
    rw [h] at hsame
    cases hsame
  | ok out =>
    rw [h] at hsame
    exact ⟨congrArg Except.ok (Except.ok.inj hsame), hlf⟩

end ScriptMinifier
