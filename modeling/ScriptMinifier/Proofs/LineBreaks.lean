import ScriptMinifier.Proofs.Layout

/-!
# Line breaks between tokens

A line break between two tokens can stand for a semicolon, so none may be lost where one can and
none may be invented.  `BreakLaw` says what the layout between two tokens is written as: nothing if
there was none, else at most one byte; a line feed only if the layout holds a line break, and always
if the token before may end a statement and the one behind may begin one.  Unless comment breaks are
collapsed, a comment with a line break in it asks only for the token behind.

`minify_lineBreaks` says this of every two tokens that follow each other in a text: the text and the
minified text fall into stretches with the same tokens, and only the layout differs.  What stands in
front of a token of the minified text is known from what is written for it
(`write_eq_stretches`); that the minified text is cut at the same places is a matter of counting
(`eq_of_tight`): no gap can be shorter than what is written for it, so none is longer.
-/

namespace ScriptMinifier

open Lexer (Step)

/-! ### Statements at the ends of a token -/

def Token.mayEndStatement (t : Token) : Bool :=
  t.kind == .string || t.kind == .regex || t.last.mayEndStatement

def Token.mayBeginStatement (t : Token) : Bool := t.kind == .regex || t.first.mayBeginStatement

theorem Token.mayEndStatement_left (t : Token) : t.left.mayEndStatement = t.mayEndStatement := by
  have hnumber (h : t.endsNumber = true) : t.last.mayEndStatement = true := by
    simp only [endsNumber, Bool.and_eq_true] at h
    simp [Byte.mayEndStatement, Byte.isWord_of_isDigit h.2]
  cases hkind : t.kind with
  | string => simp [left, mayEndStatement, hkind, Left.mayEndStatement]
  | regex => simp [left, mayEndStatement, hkind, Left.mayEndStatement]
  | word | punctuator =>
    simp only [left, mayEndStatement, hkind]
    split
    next h => simp [Left.mayEndStatement, hnumber h]
    next => simp [Left.mayEndStatement]

theorem Token.left_ne_start (t : Token) : t.left ≠ .start := by
  rw [left]
  split
  · simp
  · simp
  all_goals split <;> simp

/-! ### What layout is written as -/

def Gap.bytes : Gap → Bytes
  | none => []
  | space => [Byte.space]
  | newline | commentBreak => [Byte.lf]

def Lexeme.stretch (x : Lexeme) : Stretch := ⟨x.gap.bytes, x.token⟩

theorem bytes_ofSeparator (left : Left) (gap : Gap) (next : Byte) (regex : Bool) :
    (Gap.ofSeparator (separator left gap next regex)).bytes
      = (separator left gap next regex).toList := by
  cases hsep : separator left gap next regex with
  | none => rfl
  | some s =>
    rcases separator_eq_some hsep with rfl | rfl
    · rfl
    · rfl

/-- **A separator is a line feed exactly where the gap breaks the line**, and the two sides ask for
it. -/
theorem separator_eq_lf_iff {left : Left} (hleft : left ≠ .start) {gap : Gap} {next : Byte}
    {regex : Bool} :
    separator left gap next regex = some Byte.lf ↔
      gap.breaksLine = true ∧ (gap = .commentBreak ∨ left.mayEndStatement = true) ∧
        (regex = true ∨ next.mayBeginStatement = true) := by
  rw [separator]
  split
  next h =>
    obtain rfl : gap = .none := h.resolve_right hleft
    simp [Gap.breaksLine]
  split
  next h => simpa [and_assoc] using h
  next h =>
    have hnot : ¬ (gap.breaksLine = true ∧ (gap = .commentBreak ∨ left.mayEndStatement = true) ∧
        (regex = true ∨ next.mayBeginStatement = true)) := by
      simpa [and_assoc] using h
    simp only [hnot, iff_false]
    split <;> decide

theorem Gap.breaksLine_under (o : Options) (g : Gap) : (g.under o).breaksLine = g.breaksLine := by
  rw [under]
  split
  · cases g <;> rfl
  · rfl

theorem Gap.ofLayout_of_comment {g c : Bytes} {comments : List Bytes} (hc : c ∈ comments)
    (hlf : Byte.lf ∈ c) : ofLayout g comments = .commentBreak := by
  have hany : (comments.any fun c => c.contains Byte.lf) = true :=
    List.any_eq_true.mpr ⟨c, hc, List.contains_iff_mem.mpr hlf⟩
  rw [ofLayout, if_pos hany]

/-- What is written in front of the token of `s`, which follows the token `before`. -/
structure BreakLaw (o : Options) (before : Token) (s : Stretch) (written : Bytes) : Prop where
  length_le : written.length ≤ 1
  eq_nil : s.gap = [] → written = []
  lf_mem : written = [Byte.lf] → Byte.lf ∈ s.gap
  eq_lf : Byte.lf ∈ s.gap → before.mayEndStatement = true → s.token.mayBeginStatement = true →
    written = [Byte.lf]
  eq_lf_of_comment : o.collapseCommentBreaks = false → s.token.mayBeginStatement = true →
    ∀ comments, Layout s.gap comments → ∀ c ∈ comments, Byte.lf ∈ c → written = [Byte.lf]

theorem breakLaw_settle (o : Options) (before : Token) {s : Stretch} {x : Lexeme}
    (h : s.Mirrors x) : BreakLaw o before s (x.settle o before.left).gap.bytes := by
  obtain ⟨htoken, comments, hlayout, hgap⟩ := h
  have hwritten : (x.settle o before.left).gap.bytes
      = (separator before.left ((Gap.ofLayout s.gap comments).under o) s.token.first
          (s.token.kind == .regex)).toList := by
    rw [← htoken, ← hgap]
    exact bytes_ofSeparator ..
  rw [hwritten]
  generalize hsep : separator before.left ((Gap.ofLayout s.gap comments).under o) s.token.first
    (s.token.kind == .regex) = sep
  have hlf : sep.toList = [Byte.lf] ↔
      Byte.lf ∈ s.gap ∧ ((Gap.ofLayout s.gap comments).under o = .commentBreak ∨
        before.mayEndStatement = true) ∧ s.token.mayBeginStatement = true := by
    have hsome : sep.toList = [Byte.lf] ↔ sep = some Byte.lf := by cases sep <;> simp
    rw [hsome, ← hsep, separator_eq_lf_iff before.left_ne_start, Gap.breaksLine_under,
      Gap.breaksLine_ofLayout hlayout, Token.mayEndStatement_left, Token.mayBeginStatement,
      Bool.or_eq_true]
  refine ⟨?_, ?_, ?_, ?_, ?_⟩
  · cases sep <;> simp
  · intro hnil
    have hnone := (Gap.ofLayout_eq_none_iff hlayout).mpr hnil
    rw [Gap.under_eq_none_iff.mpr hnone, separator_none] at hsep
    rw [← hsep]
    rfl
  · intro hwritten
    exact (hlf.mp hwritten).1
  · intro hbreak hend hbegin
    exact hlf.mpr ⟨hbreak, .inr hend, hbegin⟩
  · intro hkeep hbegin comments' hlayout' c hc hbreak
    obtain rfl := hlayout.unique hlayout'
    refine hlf.mpr ⟨hlayout.mem_of_mem_comment hc hbreak, .inl ?_, hbegin⟩
    rw [Gap.ofLayout_of_comment hc hbreak, Gap.under, hkeep]
    rfl

/-! ### The minified text -/

/-- The text that the lexemes so far, the latest first, are written as. -/
def Lexeme.written (o : Options) (done : List Lexeme) : Bytes :=
  ((settleDone o done).reverse.map stretch).flatMap Stretch.bytes

theorem Lexeme.written_cons (o : Options) (x : Lexeme) (done : List Lexeme) :
    written o (x :: done)
      = written o done ++ (x.settle o (Left.behind done)).stretch.bytes := by
  simp [written, settleDone]

theorem Lexeme.written_pushLatest (o : Options) {done : List Lexeme} (hdone : done ≠ [])
    (b : Byte) : written o (pushLatest done b) = written o done ++ [b] := by
  cases done with
  | nil => exact absurd rfl hdone
  | cons x done =>
    rw [pushLatest, written_cons, written_cons, List.append_assoc]
    exact congrArg (written o done ++ ·) ((x.settle o (Left.behind done)).stretch.bytes_push b)

theorem Tracks.written_attach {o : Options} {done : List Lexeme} {l l' : Lexer} {b : Byte}
    {next : Option Byte} {piece : Piece} (h : Tracks done l)
    (hstep : Step l b next l' (some piece)) :
    Lexeme.written o (Lexeme.attach done piece) = Lexeme.written o done ++ piece.write o := by
  have hleft (hmode : l.mode = .code) : l.left = Left.behind done := h.left_eq (by simp [hmode])
  have hinside {literal : Literal} (hmode : l.mode = .literal literal) :
      Lexeme.written o (Lexeme.pushLatest done b)
        = Lexeme.written o done ++ (Piece.inner b).write o := by
    obtain ⟨x, rest, hdone, -⟩ := h.open_literal literal hmode
    exact Lexeme.written_pushLatest o (by simp [hdone]) b
  cases hstep with
  | copyHeld _ hmode => exact hinside hmode
  | escape _ hmode => exact hinside hmode
  | copy _ hmode => exact hinside hmode
  | closeLiteral _ hmode => exact hinside hmode
  | openRegex hheld hmode =>
    rw [Lexeme.attach, Lexeme.written_cons, ← hleft hmode, Stretch.bytes]
    exact congrArg (fun sep => Lexeme.written o done ++ (sep ++ [Byte.slash]))
      (bytes_ofSeparator l.left (l.gap.under o) Byte.slash true)
  | openString hheld hmode hb =>
    rw [Lexeme.attach, Lexeme.written_cons, ← hleft hmode, Stretch.bytes]
    exact congrArg (fun sep => Lexeme.written o done ++ (sep ++ [b]))
      (bytes_ofSeparator l.left (l.gap.under o) b false)
  | token hheld hmode =>
    rw [Lexeme.attach]
    split
    next hgrow =>
      obtain ⟨hgap, -, hword⟩ := hgrow
      have hdone : done ≠ [] := by
        rintro rfl
        cases hword
      rw [Lexeme.written_pushLatest o hdone, Piece.write, Piece.separator?, hgap,
        Gap.under_eq_none_iff.mpr rfl, separator_none]
      rfl
    next =>
      have hregex : ((Lexeme.ofByte l.gap b).token.kind == .regex) = false := by
        cases hb : b.isWord <;> simp [Lexeme.ofByte, hb]
      rw [Lexeme.written_cons, ← hleft hmode, Stretch.bytes, Lexeme.settle, hregex]
      exact congrArg (fun sep => Lexeme.written o done ++ (sep ++ [b]))
        (bytes_ofSeparator l.left (l.gap.under o) b false)

theorem Reads.written_foldl {o : Options} {ahead : Option Byte} {done : List Lexeme} {l l' : Lexer}
    {text : Bytes} {pieces : List Piece} (h : Reads ahead l text pieces l')
    (hdone : Tracks done l) :
    Lexeme.written o (pieces.foldl Lexeme.attach done)
      = Lexeme.written o done ++ pieces.flatMap (Piece.write o) := by
  induction h generalizing done with
  | nil => simp
  | @cons l l₁ l' b text piece pieces first _ ih =>
    cases piece with
    | none => exact ih (hdone.step first)
    | some piece =>
      rw [Option.toList_some, List.singleton_append, List.foldl_cons, List.flatMap_cons,
        ← List.append_assoc, ← hdone.written_attach first]
      exact ih (hdone.step first)

/-- **What is written for a run are its tokens, each behind its separator.** -/
theorem Reads.write_eq {ahead : Option Byte} {l' : Lexer} {text : Bytes} {pieces : List Piece}
    (h : Reads ahead .initial text pieces l') (o : Options) :
    pieces.flatMap (Piece.write o)
      = ((Lexeme.settleAll o .start (pieces.foldl Lexeme.attach []).reverse).map
          Lexeme.stretch).flatMap Stretch.bytes := by
  have hwritten := h.written_foldl Tracks.initial (o := o)
  rw [← Lexeme.reverse_settleDone]
  exact hwritten.symm

theorem write_eq_stretches {text : Bytes} (o : Options) (h : (scan text).stop = none) :
    (scan text).write o
      = ((Lexeme.settleAll o .start (lexemes text)).map Lexeme.stretch).flatMap Stretch.bytes := by
  obtain ⟨l', hreads, -⟩ := reads_of_scan h
  exact hreads.write_eq o

/-! ### Cutting the minified text -/

/-- A stretch that is at least as long as another with the same token. -/
def Stretch.Widens (s s' : Stretch) : Prop :=
  s.token = s'.token ∧ s'.gap.length ≤ s.gap.length

theorem Stretch.length_flatMap_le {xs ys : List Stretch} (h : List.Forall₂ Widens xs ys) :
    (ys.flatMap bytes).length ≤ (xs.flatMap bytes).length := by
  induction h with
  | nil => exact Nat.le_refl _
  | cons hs _ ih =>
    simp only [List.flatMap_cons, List.length_append, bytes, hs.1]
    have hgap := hs.2
    omega

/-- **A text is cut in one way into stretches that are as long as they must be.** -/
theorem Stretch.eq_of_tight {xs ys : List Stretch} {u v : Bytes}
    (htext : xs.flatMap bytes ++ u = ys.flatMap bytes ++ v) (h : List.Forall₂ Widens xs ys)
    (hrest : v.length ≤ u.length) : xs = ys ∧ u = v := by
  induction h with
  | nil => exact ⟨rfl, htext⟩
  | @cons s s' xs ys hs hxs ih =>
    obtain ⟨htoken, hgap⟩ := hs
    have hle := length_flatMap_le hxs
    have hlength := congrArg List.length htext
    simp only [List.flatMap_cons, List.length_append, bytes, htoken] at hlength
    simp only [List.flatMap_cons, bytes, htoken, List.append_assoc] at htext
    obtain ⟨hgap', htail⟩ := List.append_inj htext (by omega)
    obtain ⟨rfl, rfl⟩ := ih (List.append_cancel_left htail)
    refine ⟨?_, rfl⟩
    cases s
    cases s'
    subst htoken hgap'
    rfl

theorem Stretch.Mirrors.widens {s : Stretch} {x : Lexeme} (h : s.Mirrors x) :
    s.Widens x.stretch := by
  obtain ⟨htoken, comments, hlayout, hgap⟩ := h
  refine ⟨htoken.symm, ?_⟩
  cases hs : s.gap with
  | nil =>
    rw [hs] at hgap hlayout
    rw [Lexeme.stretch, hgap, (Gap.ofLayout_eq_none_iff hlayout).mpr rfl]
    exact Nat.le_refl 0
  | cons b g =>
    have hone : x.gap.bytes.length ≤ 1 := by cases x.gap <;> decide
    exact Nat.le_trans hone (by simp)

theorem Reads.cut_silent {ahead : Option Byte} {l l' : Lexer} {text : Bytes}
    (h : Reads ahead l text [] l') (c : Cutting) :
    Lexer.cut ahead l c text = { c with pending := c.pending ++ text } := by
  generalize hpieces : ([] : List Piece) = pieces at h
  induction h generalizing c with
  | nil => simp [Lexer.cut]
  | @cons l l₁ l' b text piece pieces first _ ih =>
    cases piece with
    | some piece => cases hpieces
    | none =>
      rw [first.cut_cons, ih _ hpieces]
      simp [Cutting.add]

/-- **Minified text is cut where it was put together.** -/
theorem stretches_of_minify {o : Options} {text out : Bytes} (h : minify o text = .ok out) :
    stretches out = (Lexeme.settleAll o .start (lexemes text)).map Lexeme.stretch ∧
      trailing out = (scan text).trailer o := by
  obtain ⟨hunify, l, l', hwrite, htrailer, -⟩ := readsPlain_of_minify h
  obtain ⟨htext, hmirrors, -⟩ := fits_cutting (scan_of_minify h).2.1
  have hrest : ((scan text).trailer o).length ≤ (trailing out).length := by
    rw [trailing, cutting, hunify, hwrite.reads.cut_append, htrailer.reads.cut_silent]
    simp
  rw [hunify, write_eq_stretches o (minify_eq_ok_iff.mp h).1] at htext
  refine Stretch.eq_of_tight htext.symm ?_ hrest
  rw [← lexemes_of_minify h, List.forall₂_map_right_iff]
  exact hmirrors.imp fun s x => Stretch.Mirrors.widens

theorem Stretch.exists_lexeme {xs : List Stretch} {ys : List Lexeme}
    (h : List.Forall₂ Mirrors xs ys) {i : Nat} {s : Stretch} (hs : xs[i]? = some s) :
    ∃ x, ys[i]? = some x ∧ s.Mirrors x := by
  induction h generalizing i with
  | nil => simp at hs
  | @cons s' x xs ys hfirst _ ih =>
    cases i with
    | zero =>
      obtain rfl : s' = s := Option.some.inj hs
      exact ⟨x, rfl, hfirst⟩
    | succ i => exact ih hs

/-- **Line breaks are kept where they count.**  A text and the minified text fall into the same
tokens, each with the layout in front of it, and what stands between two tokens of the minified text
follows `BreakLaw`. -/
theorem minify_lineBreaks {o : Options} {text out : Bytes} (h : minify o text = .ok out) :
    unifyBreaks text = (stretches text).flatMap Stretch.bytes ++ trailing text ∧
      out = (stretches out).flatMap Stretch.bytes ++ trailing out ∧
      (∀ s ∈ stretches text, ∃ comments, Layout s.gap comments) ∧
      (stretches text).map Stretch.token = (lexemes text).map Lexeme.token ∧
      (stretches out).map Stretch.token = (stretches text).map Stretch.token ∧
      ∀ (i : Nat) (s t t' : Stretch), (stretches text)[i]? = some s →
        (stretches text)[i + 1]? = some t → (stretches out)[i + 1]? = some t' →
        BreakLaw o s.token t t'.gap := by
  obtain ⟨hstop, hout⟩ := minify_eq_ok_iff.mp h
  obtain ⟨htext, hmirrors, -⟩ := fits_cutting hstop
  obtain ⟨hstretches, htrailing⟩ := stretches_of_minify h
  have htokens : (stretches text).map Stretch.token = (lexemes text).map Lexeme.token := by
    rw [← List.forall₂_eq_eq_eq, List.forall₂_map_left_iff, List.forall₂_map_right_iff]
    exact hmirrors.imp fun s x hs => hs.1.symm
  refine ⟨htext, ?_, ?_, htokens, ?_, ?_⟩
  · rw [hstretches, htrailing, ← write_eq_stretches o hstop, hout]
  · intro s hs
    obtain ⟨i, hi⟩ := List.mem_iff_getElem?.mp hs
    obtain ⟨x, -, -, comments, hlayout, -⟩ := Stretch.exists_lexeme hmirrors hi
    exact ⟨comments, hlayout⟩
  · rw [htokens, hstretches, ← Lexeme.map_token_settleAll o .start, List.map_map]
    rfl
  · intro i s t t' hs ht ht'
    obtain ⟨x, hx, hsx⟩ := Stretch.exists_lexeme hmirrors hs
    obtain ⟨y, hy, hty⟩ := Stretch.exists_lexeme hmirrors ht
    rw [hstretches, List.getElem?_map, Lexeme.settleAll_getElem?_succ hx hy] at ht'
    obtain rfl := Option.some.inj ht'
    rw [hsx.1]
    exact breakLaw_settle o s.token hty

/-- A line comment between a semicolon and a bracket: its line break stays. -/
theorem minify_lineBreaks_behind_comment :
    minify {} (utf8 "a;//b\n[c]") = .ok (utf8 "a;\n[c]") ∧
      ∀ t', (stretches (utf8 "a;\n[c]"))[2]? = some t' → t'.gap = [Byte.lf] := by
  have h : minify {} (utf8 "a;//b\n[c]") = .ok (utf8 "a;\n[c]") := rfl
  refine ⟨h, fun t' ht' => ?_⟩
  have hcomment : IsComment (utf8 "//b\n") := @IsComment.line (utf8 "b") (by decide)
  have hlaw := (minify_lineBreaks h).2.2.2.2.2 1 ⟨[], ⟨.punctuator, 0x3b, []⟩⟩
    ⟨utf8 "//b\n", ⟨.punctuator, 0x5b, []⟩⟩ t' rfl rfl ht'
  exact hlaw.eq_lf_of_comment rfl rfl _ (.of_comment hcomment) _ List.mem_cons_self (by decide)

end ScriptMinifier
