import ScriptMinifier.Proofs.Rescan

/-!
# Minifying twice

A second pass sees the gaps that the separators of the first pass make.  A line break that a comment
left is by then an ordinary one, so the second pass does what a pass that collapses such breaks does
at once:

    minify o₂ out = minify { o₂ with collapseCommentBreaks := true } text

whenever `minify o₁ text = .ok out`, whatever the options of the first pass were
(`minify_of_minify`).  With collapsed breaks the result is therefore a fixed point, and without
them the second pass reaches it.
-/

namespace ScriptMinifier

/-! ### One separator after another -/

theorem Gap.under_ofSeparator (o : Options) (s : Option Byte) :
    (Gap.ofSeparator s).under o = Gap.ofSeparator s := by
  cases s with
  | none =>
    rw [Gap.under]
    split <;> rfl
  | some s =>
    rw [Gap.ofSeparator, Gap.under]
    split <;> split <;> rfl

theorem Gap.collapse_under (o : Options) (g : Gap) : (g.under o).collapse = g.collapse := by
  rw [Gap.under]
  split
  · cases g <;> rfl
  · rfl

/-- **The gap that a separator makes gets the separator of the collapsed gap.** -/
theorem separator_ofSeparator (left : Left) (gap : Gap) (b : Byte) (regex : Bool) :
    separator left (Gap.ofSeparator (separator left gap b regex)) b regex
      = separator left gap.collapse b regex := by
  by_cases hstart : left = .start
  · rw [hstart, separator_start, separator_start]
  · have hlf : Gap.ofSeparator (some Byte.lf) = .newline := rfl
    have hspace : Gap.ofSeparator (some Byte.space) = .space := rfl
    -- past the start, the neighbours count only by these three answers
    cases hright : regex || b.mayBeginStatement <;>
      cases hleft : left.mayEndStatement <;>
      cases hclash : (left.gluesToWord && b.isWord) || left.fusesWith b <;>
      cases gap <;>
      simp [separator, hstart, hright, hleft, hclash, Gap.breaksLine, Gap.collapse, hlf, hspace]

/-- **A piece that was written and read again is written as with collapsed breaks.** -/
theorem Piece.write_settle (o₁ o₂ : Options) (p : Piece) :
    (p.settle o₁).write o₂ = p.write { o₂ with collapseCommentBreaks := true } := by
  have hcollapsed (gap : Gap) :
      gap.under { o₂ with collapseCommentBreaks := true } = gap.collapse := if_pos rfl
  cases p with
  | code left gap b =>
    simp only [write, settle, separator?, byte, Gap.under_ofSeparator, separator_ofSeparator,
      Gap.collapse_under, hcollapsed]
  | opener left gap regex b =>
    simp only [write, settle, separator?, byte, Gap.under_ofSeparator, separator_ofSeparator,
      Gap.collapse_under, hcollapsed]
  | inner b => rfl

/-! ### Two passes -/

/-- **A second pass is one pass with collapsed comment breaks.** -/
theorem minify_of_minify {o₁ : Options} {text out : Bytes} (h : minify o₁ text = .ok out)
    (o₂ : Options) :
    minify o₂ out = minify { o₂ with collapseCommentBreaks := true } text := by
  obtain ⟨hpieces, hstop, -⟩ := scan_of_minify h
  have hstop₁ := (minify_eq_ok_iff.mp h).1
  have hwrite : (scan out).write o₂
      = (scan text).write { o₂ with collapseCommentBreaks := true } := by
    rw [Scan.write, hpieces, List.flatMap_map, Scan.write]
    exact congrArg (fun f => List.flatMap f (scan text).pieces) (funext (Piece.write_settle o₁ o₂))
  have htrailer : (scan out).trailer o₂
      = (scan text).trailer { o₂ with collapseCommentBreaks := true } := by
    rw [Scan.trailer, hpieces, Scan.trailer]
    simp only [ne_eq, List.map_eq_nil_iff]
  rw [minify_eq_ok_iff.mpr ⟨hstop, rfl⟩, minify_eq_ok_iff.mpr ⟨hstop₁, rfl⟩, hwrite, htrailer]

/-- **With collapsed comment breaks minified text is a fixed point.** -/
theorem minify_eq_self_of_collapsed {o : Options} (ho : o.collapseCommentBreaks = true)
    {text out : Bytes} (h : minify o text = .ok out) : minify o out = .ok out := by
  have hself : { o with collapseCommentBreaks := true } = o := by
    rw [← ho]
  rw [minify_of_minify h, hself, h]

/-- The line break of a comment goes, the one behind a word stays; a second pass sees both so. -/
theorem minify_eq_self_of_collapsed_sum :
    minify ⟨true, true⟩ (utf8 "x=1; //c\r\ny\n+ +2") = .ok (utf8 "x=1;y\n+ +2\n") ∧
      minify ⟨true, true⟩ (utf8 "x=1;y\n+ +2\n") = .ok (utf8 "x=1;y\n+ +2\n") := by
  have h : minify ⟨true, true⟩ (utf8 "x=1; //c\r\ny\n+ +2") = .ok (utf8 "x=1;y\n+ +2\n") := rfl
  exact ⟨h, minify_eq_self_of_collapsed rfl h⟩

theorem minify_eq_error_iff {o : Options} {text : Bytes} {u : Unterminated} :
    minify o text = .error u ↔ (scan text).stop = some u := by
  rw [minify, Scan.result]
  cases (scan text).stop <;> simp

/-- **Two plain passes are one that collapses comment breaks**: the options do not decide whether a
text can be minified, and where it can, the second plain pass gives what a collapsing pass gives at
once, and the third nothing new. -/
theorem minify_twice_eq_collapsed (keep : Bool) (text : Bytes) :
    (∃ u, minify ⟨false, keep⟩ text = .error u ∧ minify ⟨true, keep⟩ text = .error u) ∨
      ∃ once twice, minify ⟨false, keep⟩ text = .ok once ∧ minify ⟨true, keep⟩ text = .ok twice ∧
        minify ⟨false, keep⟩ once = .ok twice ∧ minify ⟨false, keep⟩ twice = .ok twice := by
  cases hstop : (scan text).stop with
  | some u => exact Or.inl ⟨u, minify_eq_error_iff.mpr hstop, minify_eq_error_iff.mpr hstop⟩
  | none =>
    have honce : minify ⟨false, keep⟩ text = .ok _ := minify_eq_ok_iff.mpr ⟨hstop, rfl⟩
    have htwice : minify ⟨true, keep⟩ text = .ok _ := minify_eq_ok_iff.mpr ⟨hstop, rfl⟩
    exact Or.inr ⟨_, _, honce, htwice, (minify_of_minify honce _).trans htwice,
      (minify_of_minify htwice _).trans htwice⟩

end ScriptMinifier
