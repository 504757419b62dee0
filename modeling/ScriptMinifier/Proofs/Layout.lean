import Mathlib.Data.List.Forall2
import ScriptMinifier.Proofs.Tokens

/-!
# The text between tokens

Between two tokens stands layout: blanks, line breaks and comments in any order.  `Layout` says so
of a text without the lexer, and names the comments that are in it (`Layout.unique`).  The lexer
keeps of a layout only the widest thing, which is `Gap.ofLayout`.

`stretches` cuts a text into its tokens, each with the text in front of it.  That text is layout
(`fits_cutting`): while the lexer is between two tokens, what it has read since the last one is
`Pending`, a layout and perhaps the start of a comment.
-/

namespace ScriptMinifier

open Lexer (Step)

/-! ### Layout -/

/-- The text of a comment: to the end of its line, or to the first star with a slash behind it. -/
inductive IsComment : Bytes → Prop
  | line {body : Bytes} (hbody : Byte.lf ∉ body) :
      IsComment (Byte.slash :: Byte.slash :: (body ++ [Byte.lf]))
  | block {body : Bytes} (hbody : ¬ [Byte.star, Byte.slash] <:+: body ++ [Byte.star]) :
      IsComment (Byte.slash :: Byte.star :: (body ++ [Byte.star, Byte.slash]))

/-- A text made of blanks, line breaks and comments, with the comments in it. -/
inductive Layout : Bytes → List Bytes → Prop
  | nil : Layout [] []
  | space {b : Byte} {g : Bytes} {comments : List Bytes} (hb : b.isBlank = true ∨ b = Byte.lf)
      (rest : Layout g comments) : Layout (b :: g) comments
  | comment {c g : Bytes} {comments : List Bytes} (hc : IsComment c)
      (rest : Layout g comments) : Layout (c ++ g) (c :: comments)

/-- The gap that a layout comes to. -/
def Gap.ofLayout (g : Bytes) (comments : List Bytes) : Gap :=
  if comments.any fun c => c.contains Byte.lf then .commentBreak
  else if g.contains Byte.lf then .newline
  else if g.isEmpty then .none
  else .space

theorem IsComment.exists_cons {c : Bytes} (h : IsComment c) : ∃ c', c = Byte.slash :: c' := by
  cases h <;> exact ⟨_, rfl⟩

theorem IsComment.ne_nil {c : Bytes} (h : IsComment c) : c ≠ [] := by
  obtain ⟨c', rfl⟩ := h.exists_cons
  exact List.cons_ne_nil _ _

theorem eq_nil_of_closes {body d g g' : Bytes}
    (hbody : ¬ [Byte.star, Byte.slash] <:+: body ++ d ++ [Byte.star])
    (h : Byte.star :: Byte.slash :: g = d ++ Byte.star :: Byte.slash :: g') : d = [] := by
  match d, h with
  | [], _ => rfl
  | [x], h =>
    injection h with _ h
    injection h with h
    exact absurd h (by decide)
  | x :: y :: d, h =>
    injection h with hx h
    injection h with hy h
    subst hx hy
    exact absurd ⟨body, d ++ [Byte.star], by simp⟩ hbody

theorem eq_nil_of_ends {body d g g' : Bytes} (hbody : Byte.lf ∉ body ++ d)
    (h : Byte.lf :: g = d ++ Byte.lf :: g') : d = [] := by
  cases d with
  | nil => rfl
  | cons x d =>
    injection h with hx
    subst hx
    exact absurd (by simp) hbody

theorem IsComment.append_inj {c c' g g' : Bytes} (h : IsComment c) (h' : IsComment c')
    (heq : c ++ g = c' ++ g') : c = c' ∧ g = g' := by
  cases h with
  | @line body hbody =>
    cases h' with
    | @line body' hbody' =>
      simp only [List.cons_append, List.append_assoc, List.cons.injEq, true_and,
        List.nil_append] at heq
      rcases List.append_eq_append_iff.mp heq with ⟨d, rfl, hd⟩ | ⟨d, rfl, hd⟩
      · obtain rfl := eq_nil_of_ends hbody' hd
        simp_all
      · obtain rfl := eq_nil_of_ends hbody hd
        simp_all
    | block => exact absurd (List.cons.inj (List.cons.inj heq).2).1 (by decide)
  | @block body hbody =>
    cases h' with
    | line => exact absurd (List.cons.inj (List.cons.inj heq).2).1 (by decide)
    | @block body' hbody' =>
      simp only [List.cons_append, List.append_assoc, List.cons.injEq, true_and,
        List.nil_append] at heq
      rcases List.append_eq_append_iff.mp heq with ⟨d, rfl, hd⟩ | ⟨d, rfl, hd⟩
      · obtain rfl := eq_nil_of_closes hbody' hd
        simp_all
      · obtain rfl := eq_nil_of_closes hbody hd
        simp_all

namespace Layout

theorem append {g g' : Bytes} {comments comments' : List Bytes} (h : Layout g comments)
    (h' : Layout g' comments') : Layout (g ++ g') (comments ++ comments') := by
  induction h with
  | nil => exact h'
  | space hb _ ih => exact .space hb ih
  | comment hc _ ih =>
    rw [List.append_assoc]
    exact .comment hc ih

theorem of_space {b : Byte} (hb : b.isBlank = true ∨ b = Byte.lf) : Layout [b] [] := .space hb .nil

theorem of_comment {c : Bytes} (hc : IsComment c) : Layout c [c] := by
  have h := Layout.comment hc .nil
  rwa [List.append_nil] at h

/-- **A text is a layout in one way.** -/
theorem unique {g : Bytes} {comments comments' : List Bytes} (h : Layout g comments)
    (h' : Layout g comments') : comments = comments' := by
  have hslash {b : Byte} (hb : b.isBlank = true ∨ b = Byte.lf) : b ≠ Byte.slash := by
    rintro rfl
    exact absurd hb (by decide)
  induction h generalizing comments' with
  | nil =>
    generalize hg : ([] : Bytes) = text at h'
    cases h' with
    | nil => rfl
    | space => cases hg
    | comment hc => exact absurd (List.append_eq_nil_iff.mp hg.symm).1 hc.ne_nil
  | @space b g comments hb _ ih =>
    generalize hg : b :: g = text at h'
    cases h' with
    | nil => cases hg
    | space _ rest' =>
      obtain ⟨-, rfl⟩ := List.cons.inj hg
      exact ih rest'
    | comment hc =>
      obtain ⟨c', rfl⟩ := hc.exists_cons
      exact absurd (List.cons.inj hg).1 (hslash hb)
  | @comment c g comments hc _ ih =>
    generalize hg : c ++ g = text at h'
    cases h' with
    | nil => exact absurd (List.append_eq_nil_iff.mp hg).1 hc.ne_nil
    | space hb =>
      obtain ⟨c', rfl⟩ := hc.exists_cons
      exact absurd (List.cons.inj hg).1.symm (hslash hb)
    | comment hc' rest' =>
      obtain ⟨rfl, rfl⟩ := hc.append_inj hc' hg
      rw [ih rest']

theorem mem_of_mem_comment {g : Bytes} {comments : List Bytes} (h : Layout g comments) {c : Bytes}
    (hc : c ∈ comments) {b : Byte} (hb : b ∈ c) : b ∈ g := by
  induction h with
  | nil => cases hc
  | space _ _ ih => exact List.mem_cons_of_mem _ (ih hc)
  | comment _ _ ih =>
    rcases List.mem_cons.mp hc with rfl | hc
    · exact List.mem_append_left _ hb
    · exact List.mem_append_right _ (ih hc)

end Layout

namespace Gap

/-- **The gap of two layouts is the wider of their gaps.** -/
theorem ofLayout_append (g g' : Bytes) (comments comments' : List Bytes) :
    ofLayout (g ++ g') (comments ++ comments')
      = (ofLayout g comments).widen (ofLayout g' comments') := by
  have hempty : (g ++ g').isEmpty = (g.isEmpty && g'.isEmpty) := by cases g <;> rfl
  rw [ofLayout, ofLayout, ofLayout, List.any_append, List.contains_append, hempty]
  generalize (comments.any fun c => c.contains Byte.lf) = inComment
  generalize (comments'.any fun c => c.contains Byte.lf) = inComment'
  generalize g.contains Byte.lf = inText
  generalize g'.contains Byte.lf = inText'
  generalize g.isEmpty = empty
  generalize g'.isEmpty = empty'
  revert inComment inComment' inText inText' empty empty'
  decide

theorem ofLayout_blank {b : Byte} (hb : b.isBlank = true) : ofLayout [b] [] = .space := by
  have hlf : Byte.lf ≠ b := by
    rintro rfl
    exact absurd hb (by decide)
  simp [ofLayout, hlf]

theorem ofLayout_comment {c : Bytes} (hc : IsComment c) :
    ofLayout c [c] = if c.contains Byte.lf then .commentBreak else .space := by
  rw [ofLayout, List.any_cons, List.any_nil, Bool.or_false]
  cases c.contains Byte.lf <;> simp [hc.ne_nil]

theorem ofLayout_eq_none_iff {g : Bytes} {comments : List Bytes} (h : Layout g comments) :
    ofLayout g comments = .none ↔ g = [] := by
  constructor
  · intro hnone
    rw [ofLayout] at hnone
    split at hnone
    · cases hnone
    split at hnone
    · cases hnone
    split at hnone
    next hempty => exact List.isEmpty_iff.mp hempty
    next => cases hnone
  · rintro rfl
    have hcomments : (comments.any fun c => c.contains Byte.lf) = false := by
      rw [← Bool.not_eq_true]
      intro hany
      obtain ⟨c, hc, hlf⟩ := List.any_eq_true.mp hany
      cases h.mem_of_mem_comment hc (List.contains_iff_mem.mp hlf)
    rw [ofLayout, hcomments]
    rfl

/-- **A layout breaks the line exactly if there is a line break in it.** -/
theorem breaksLine_ofLayout {g : Bytes} {comments : List Bytes} (h : Layout g comments) :
    (ofLayout g comments).breaksLine = true ↔ Byte.lf ∈ g := by
  rw [ofLayout]
  split
  next hany =>
    obtain ⟨c, hc, hlf⟩ := List.any_eq_true.mp hany
    have hmem := h.mem_of_mem_comment hc (List.contains_iff_mem.mp hlf)
    simp [breaksLine, hmem]
  split
  next hlf => simpa [breaksLine] using hlf
  next hlf =>
    rw [List.contains_iff_mem] at hlf
    split <;> simp [breaksLine, hlf]

end Gap

/-! ### What the lexer has read since the last token -/

/-- What has been read since the token written last, with `ahead` behind it. -/
inductive Pending (ahead : Option Byte) : Bytes → Lexer → Prop
  | code {g : Bytes} {comments : List Bytes} {l : Lexer} (hg : Layout g comments)
      (hgap : l.gap = .ofLayout g comments) (hmode : l.mode = .code) (hheld : l.held = false) :
      Pending ahead g l
  | lineOpening {g : Bytes} {comments : List Bytes} {l : Lexer} (hg : Layout g comments)
      (hgap : l.gap = .ofLayout g comments) (hmode : l.mode = .lineComment)
      (hheld : l.held = true) (hahead : ahead = some Byte.slash) :
      Pending ahead (g ++ [Byte.slash]) l
  | line {g body : Bytes} {comments : List Bytes} {l : Lexer} (hg : Layout g comments)
      (hgap : l.gap = .ofLayout g comments) (hmode : l.mode = .lineComment)
      (hheld : l.held = false) (hbody : Byte.lf ∉ body) :
      Pending ahead (g ++ Byte.slash :: Byte.slash :: body) l
  | blockOpening {g : Bytes} {comments : List Bytes} {l : Lexer} (hg : Layout g comments)
      (hgap : l.gap = .ofLayout g comments) (hmode : l.mode = .blockComment false)
      (hheld : l.held = true) (hahead : ahead = some Byte.star) :
      Pending ahead (g ++ [Byte.slash]) l
  | block {g body : Bytes} {comments : List Bytes} {l : Lexer} (hg : Layout g comments)
      (hgap : l.gap = .ofLayout g comments)
      (hmode : l.mode = .blockComment (body.contains Byte.lf)) (hheld : l.held = false)
      (hbody : ¬ [Byte.star, Byte.slash] <:+: body ++ ahead.toList) :
      Pending ahead (g ++ Byte.slash :: Byte.star :: body) l
  | blockClosing {g : Bytes} {comments : List Bytes} {l : Lexer}
      (hg : Layout (g ++ [Byte.slash]) comments)
      (hgap : l.gap = .ofLayout (g ++ [Byte.slash]) comments)
      (hmode : l.mode = .code) (hheld : l.held = true) (hahead : ahead = some Byte.slash) :
      Pending ahead g l

theorem not_closes_concat {body : Bytes} {b c : Byte}
    (hbody : ¬ [Byte.star, Byte.slash] <:+: body ++ [b]) (hb : ¬ (b = Byte.star ∧ c = Byte.slash)) :
    ¬ [Byte.star, Byte.slash] <:+: body ++ [b] ++ [c] := by
  rw [List.infix_concat_iff]
  rintro (hsuffix | hinfix)
  · rw [List.suffix_concat_iff] at hsuffix
    obtain hnil | ⟨t, ht, hsuffix⟩ := hsuffix
    · cases hnil
    obtain ⟨ht, hc⟩ := List.append_inj' (show [Byte.star] ++ [Byte.slash] = t ++ [c] from ht) rfl
    subst ht
    rw [List.suffix_concat_iff] at hsuffix
    obtain hnil | ⟨t, ht, -⟩ := hsuffix
    · cases hnil
    obtain ⟨-, hstar⟩ := List.append_inj' (show [] ++ [Byte.star] = t ++ [b] from ht) rfl
    exact hb ⟨(List.cons.inj hstar).1.symm, (List.cons.inj hc).1.symm⟩
  · exact hbody hinfix

theorem Lexer.gap_dropComment {l : Lexer} {g c : Bytes} {comments : List Bytes}
    (hgap : l.gap = .ofLayout g comments) (hc : IsComment c) :
    (l.dropComment (c.contains Byte.lf)).gap = .ofLayout (g ++ c) (comments ++ [c]) := by
  rw [Gap.ofLayout_append, Gap.ofLayout_comment hc, ← hgap]
  rfl

namespace Pending

theorem initial (ahead : Option Byte) {l : Lexer} (hmode : l.mode = .code) (hheld : l.held = false)
    (hgap : l.gap = .none) : Pending ahead [] l :=
  .code .nil hgap hmode hheld

/-- **A transition without a piece adds its byte to what is pending.** -/
theorem step {g : Bytes} {l l' : Lexer} {b : Byte} {next : Option Byte} (h : Pending (some b) g l)
    (hcr : b ≠ Byte.cr) (hstep : Step l b next l' none) : Pending next (g ++ [b]) l' := by
  cases h with
  | @code _ comments _ hg hgap hmode hheld =>
    cases hstep with
    | blank _ _ hb =>
      refine .code (hg.append (.of_space (.inl hb))) ?_ hmode hheld
      rw [Gap.ofLayout_append, Gap.ofLayout_blank hb, ← hgap]
      rfl
    | lineBreak _ _ hb =>
      obtain rfl : b = Byte.lf := by simpa [Byte.isLineBreak, hcr] using hb
      refine .code (hg.append (.of_space (.inr rfl))) ?_ hmode hheld
      rw [Gap.ofLayout_append, ← hgap]
      rfl
    | openLineComment => exact .lineOpening hg hgap rfl rfl rfl
    | openBlockComment => exact .blockOpening hg hgap rfl rfl rfl
    | _ => simp_all
  | lineOpening hg hgap hmode hheld hahead =>
    obtain rfl := Option.some.inj hahead
    cases hstep with
    | dropHeld =>
      rw [List.append_assoc]
      exact .line hg hgap hmode rfl (by simp)
    | _ => simp_all
  | @line g body comments _ hg hgap hmode hheld hbody =>
    rw [List.append_assoc]
    cases hstep with
    | lineComment _ _ hb => exact .line hg hgap hmode hheld (by simp [hbody, Ne.symm hb])
    | closeLineComment =>
      have hc : IsComment (Byte.slash :: Byte.slash :: (body ++ [Byte.lf])) := .line hbody
      have hbroken := Lexer.gap_dropComment hgap hc
      rw [List.contains_iff_mem.mpr (by simp)] at hbroken
      exact .code (hg.append (.of_comment hc)) hbroken rfl hheld
    | _ => simp_all
  | blockOpening hg hgap hmode hheld hahead =>
    obtain rfl := Option.some.inj hahead
    cases hstep with
    | dropHeld =>
      rw [List.append_assoc]
      refine .block hg hgap hmode rfl ?_
      intro hinfix
      have hlength := hinfix.length_le
      cases next <;> simp at hlength
    | _ => simp_all
  | @block g body comments _ hg hgap hmode hheld hbody =>
    rw [List.append_assoc]
    cases hstep with
    | blockComment _ hmode' hb =>
      obtain rfl := (Mode.blockComment.inj (hmode.symm.trans hmode'))
      have hbroken : (body.contains Byte.lf || b == Byte.lf) = (body ++ [b]).contains Byte.lf := by
        by_cases hlf : b = Byte.lf
        · simp [hlf]
        · simp [hlf, Ne.symm hlf]
      refine .block hg hgap (congrArg Mode.blockComment hbroken) hheld ?_
      · cases next with
        | none => simpa using hbody
        | some c => exact not_closes_concat hbody (by simpa using hb)
    | closeBlockComment _ hmode' =>
      obtain rfl := (Mode.blockComment.inj (hmode.symm.trans hmode'))
      have hc : IsComment (Byte.slash :: Byte.star :: (body ++ [Byte.star, Byte.slash])) :=
        .block hbody
      have hbroken : (Byte.slash :: Byte.star :: (body ++ [Byte.star, Byte.slash])).contains Byte.lf
          = body.contains Byte.lf := by
        simp [show Byte.lf ≠ Byte.slash by decide, show Byte.lf ≠ Byte.star by decide]
      have hgap' := Lexer.gap_dropComment hgap hc
      have hg' := hg.append (.of_comment hc)
      rw [hbroken] at hgap'
      have hsplit : g ++ Byte.slash :: Byte.star :: (body ++ [Byte.star, Byte.slash])
          = g ++ (Byte.slash :: Byte.star :: body ++ [Byte.star]) ++ [Byte.slash] := by simp
      rw [hsplit] at hg' hgap'
      exact .blockClosing hg' hgap' rfl rfl rfl
    | _ => simp_all
  | blockClosing hg hgap hmode hheld hahead =>
    obtain rfl := Option.some.inj hahead
    cases hstep with
    | dropHeld => exact .code hg hgap hmode rfl
    | _ => simp_all

end Pending

/-! ### Stretches -/

/-- A token and the text in front of it. -/
structure Stretch where
  gap : Bytes
  token : Token
  deriving DecidableEq, Repr

/-- A text that is being cut: the stretches so far, the latest first, and what was read since. -/
structure Cutting where
  done : List Stretch := []
  pending : Bytes := []
  deriving DecidableEq, Repr

namespace Stretch

def bytes (s : Stretch) : Bytes := s.gap ++ s.token.bytes

def push (s : Stretch) (b : Byte) : Stretch := { s with token := s.token.push b }

def pushLatest : List Stretch → Byte → List Stretch
  | [], _ => []
  | s :: done, b => s.push b :: done

def endsInWord (done : List Stretch) : Bool := done.head?.any fun s => s.token.kind == .word

def attach (done : List Stretch) (gap : Bytes) : Piece → List Stretch
  | .code _ _ b =>
    if gap = [] ∧ b.isWord ∧ endsInWord done then pushLatest done b
    else ⟨gap, (Lexeme.ofByte .none b).token⟩ :: done
  | .opener _ _ regex b => ⟨gap, (Lexeme.ofOpener .none regex b).token⟩ :: done
  | .inner b => pushLatest done b

@[simp]
theorem bytes_push (s : Stretch) (b : Byte) : (s.push b).bytes = s.bytes ++ [b] := by
  simp [bytes, push, Token.bytes, Token.push]

end Stretch

def Cutting.add (c : Cutting) (b : Byte) : Option Piece → Cutting
  | none => { c with pending := c.pending ++ [b] }
  | some piece => ⟨Stretch.attach c.done c.pending piece, []⟩

/-- Cuts a text, from a state of the lexer on, with `ahead` behind the text. -/
def Lexer.cut (ahead : Option Byte) : Lexer → Cutting → Bytes → Cutting
  | _, c, [] => c
  | l, c, b :: rest =>
    match l.step b (rest.head?.or ahead) with
    | .error _ => { c with pending := c.pending ++ b :: rest }
    | .ok (l', piece) => cut ahead l' (c.add b piece) rest

def cutting (text : Bytes) : Cutting := Lexer.cut none .initial {} (unifyBreaks text)

/-- The tokens of a text, each with the text in front of it. -/
def stretches (text : Bytes) : List Stretch := (cutting text).done.reverse

/-- What stands behind the last token of a text. -/
def trailing (text : Bytes) : Bytes := (cutting text).pending

theorem Lexer.Step.cut_cons {ahead : Option Byte} {l l' : Lexer} {b : Byte} {text : Bytes}
    {piece : Option Piece} (h : Step l b (text.head?.or ahead) l' piece) (c : Cutting) :
    Lexer.cut ahead l c (b :: text) = Lexer.cut ahead l' (c.add b piece) text := by
  rw [Lexer.cut, h.step_eq]

theorem Reads.cut_append {ahead : Option Byte} {l l' : Lexer} {text₁ text₂ : Bytes}
    {pieces : List Piece} (h : Reads (text₂.head?.or ahead) l text₁ pieces l') (c : Cutting) :
    Lexer.cut ahead l c (text₁ ++ text₂)
      = Lexer.cut ahead l' (Lexer.cut (text₂.head?.or ahead) l c text₁) text₂ := by
  induction h generalizing c with
  | nil l => rfl
  | @cons l l₁ l' b text piece pieces first _ ih =>
    have hfirst : Step l b ((text ++ text₂).head?.or ahead) l₁ piece := by
      rwa [List.head?_append, Option.or_assoc]
    rw [List.cons_append, hfirst.cut_cons, first.cut_cons, ih]

/-- The lexer keeps the lexeme `x` of the stretch `s`, whose gap is layout. -/
def Stretch.Mirrors (s : Stretch) (x : Lexeme) : Prop :=
  x.token = s.token ∧ ∃ comments, Layout s.gap comments ∧ x.gap = .ofLayout s.gap comments

theorem Stretch.endsInWord_eq {done : List Stretch} {lexemes : List Lexeme}
    (h : List.Forall₂ Mirrors done lexemes) : endsInWord done = Lexeme.endsInWord lexemes := by
  cases h with
  | nil => rfl
  | cons hs => simp [endsInWord, Lexeme.endsInWord, hs.1]

theorem Stretch.mirrors_pushLatest {done : List Stretch} {lexemes : List Lexeme}
    (h : List.Forall₂ Mirrors done lexemes) (b : Byte) :
    List.Forall₂ Mirrors (pushLatest done b) (Lexeme.pushLatest lexemes b) := by
  cases h with
  | nil => exact .nil
  | cons hs hrest => exact .cons ⟨congrArg (Token.push · b) hs.1, hs.2⟩ hrest

/-- The cutting is that of the text `seen`, has the stretches of `lexemes`, and holds what the lexer
has read since the last of them. -/
structure Cutting.Fits (ahead : Option Byte) (seen : Bytes) (lexemes : List Lexeme) (l : Lexer)
    (c : Cutting) : Prop where
  text_eq : seen = c.done.reverse.flatMap Stretch.bytes ++ c.pending
  mirrors : List.Forall₂ Stretch.Mirrors c.done lexemes
  pending : (∀ literal, l.mode ≠ .literal literal) → Pending ahead c.pending l
  inside : ∀ literal, l.mode = .literal literal → c.pending = []

theorem Pending.layout_of_code {ahead : Option Byte} {g : Bytes} {l : Lexer}
    (h : Pending ahead g l) (hmode : l.mode = .code) (hheld : l.held = false) :
    ∃ comments, Layout g comments ∧ l.gap = .ofLayout g comments := by
  cases h with
  | code hg hgap => exact ⟨_, hg, hgap⟩
  | _ => simp_all

theorem Pending.of_piece {l l' : Lexer} {b : Byte} {next : Option Byte} {piece : Piece}
    (hl : l.Coherent) (hstep : Step l b next l' (some piece))
    (hmode : ∀ literal, l'.mode ≠ .literal literal) : Pending next [] l' := by
  cases hstep with
  | copyHeld _ hlit => exact absurd hlit (hmode _)
  | escape _ hlit => exact absurd hlit (hmode _)
  | copy => exact absurd rfl (hmode _)
  | openRegex => exact absurd rfl (hmode _)
  | openString => exact absurd rfl (hmode _)
  | token hheld hcode => exact .initial next hcode hheld rfl
  | closeLiteral hheld hlit => exact .initial next rfl hheld (hl.gap_eq_none _ hlit)

namespace Cutting.Fits

variable {ahead next : Option Byte} {seen : Bytes} {lexemes : List Lexeme} {l l' : Lexer}
  {c : Cutting} {b : Byte} {piece : Piece}

theorem begins {comments : List Bytes} {t : Token} (h : c.Fits ahead seen lexemes l)
    (hl : l.Coherent) (hstep : Step l b next l' (some piece)) (hg : Layout c.pending comments)
    (ht : t.bytes = [b]) :
    Fits next (seen ++ [b]) (⟨.ofLayout c.pending comments, t⟩ :: lexemes) l'
      ⟨⟨c.pending, t⟩ :: c.done, []⟩ := by
  refine ⟨?_, .cons ⟨rfl, comments, hg, rfl⟩ h.mirrors, Pending.of_piece hl hstep, fun _ _ => rfl⟩
  simp [h.text_eq, Stretch.bytes, ht]

theorem grows (h : c.Fits ahead seen lexemes l) (hl : l.Coherent)
    (hstep : Step l b next l' (some piece)) (hpending : c.pending = []) (hdone : lexemes ≠ []) :
    Fits next (seen ++ [b]) (Lexeme.pushLatest lexemes b) l' ⟨Stretch.pushLatest c.done b, []⟩ := by
  refine ⟨?_, Stretch.mirrors_pushLatest h.mirrors b, Pending.of_piece hl hstep, fun _ _ => rfl⟩
  rw [h.text_eq, hpending]
  cases hc : c.done with
  | nil =>
    have hmirrors := h.mirrors
    rw [hc, List.forall₂_nil_left_iff] at hmirrors
    exact absurd hmirrors hdone
  | cons s done => simp [Stretch.pushLatest]

/-- **A transition with a piece puts its byte into a token.** -/
theorem step (h : c.Fits (some b) seen lexemes l) (hdone : Tracks lexemes l) (hl : l.Coherent)
    (hstep : Step l b next l' (some piece)) :
    Fits next (seen ++ [b]) (Lexeme.attach lexemes piece) l' (c.add b (some piece)) := by
  have hinside {literal : Literal} (hmode : l.mode = .literal literal) :
      Fits next (seen ++ [b]) (Lexeme.pushLatest lexemes b) l'
        ⟨Stretch.pushLatest c.done b, []⟩ := by
    obtain ⟨x, rest, hdone, -⟩ := hdone.open_literal literal hmode
    exact h.grows hl hstep (h.inside literal hmode) (by simp [hdone])
  have hcode (hmode : l.mode = .code) (hheld : l.held = false) :
      ∃ comments, Layout c.pending comments ∧ l.gap = .ofLayout c.pending comments :=
    (h.pending (by simp [hmode])).layout_of_code hmode hheld
  cases hstep with
  | copyHeld _ hmode => exact hinside hmode
  | escape _ hmode => exact hinside hmode
  | copy _ hmode => exact hinside hmode
  | closeLiteral _ hmode => exact hinside hmode
  | openRegex hheld hmode hnext hoperand =>
    obtain ⟨comments, hg, hgap⟩ := hcode hmode hheld
    rw [Lexeme.attach, Lexeme.ofOpener, hgap]
    exact h.begins hl (.openRegex hheld hmode hnext hoperand) hg rfl
  | openString hheld hmode hb =>
    obtain ⟨comments, hg, hgap⟩ := hcode hmode hheld
    rw [Lexeme.attach, Lexeme.ofOpener, hgap]
    exact h.begins hl (.openString hheld hmode hb) hg rfl
  | token hheld hmode hclass hquote hslash =>
    have hstep := Step.token hheld hmode hclass hquote hslash
    obtain ⟨comments, hg, hgap⟩ := hcode hmode hheld
    have hnone : l.gap = .none ↔ c.pending = [] := by
      rw [hgap]
      exact Gap.ofLayout_eq_none_iff hg
    rw [Lexeme.attach, add, Stretch.attach, Stretch.endsInWord_eq h.mirrors]
    simp only [hnone]
    split
    next hgrow =>
      refine h.grows hl hstep hgrow.1 ?_
      rintro rfl
      cases hgrow.2.2
    next =>
      rw [Lexeme.ofByte, hgap]
      exact h.begins hl hstep hg rfl

end Cutting.Fits

/-- **Cutting along a run fits the run.** -/
theorem Reads.fits {ahead : Option Byte} {l l' : Lexer} {text : Bytes} {pieces : List Piece}
    (h : Reads ahead l text pieces l') (hcr : Byte.cr ∉ text) (hl : l.Coherent)
    {lexemes : List Lexeme} (hdone : Tracks lexemes l) {seen : Bytes} {c : Cutting}
    (hc : c.Fits (text.head?.or ahead) seen lexemes l) :
    (Lexer.cut ahead l c text).Fits ahead (seen ++ text) (pieces.foldl Lexeme.attach lexemes)
      l' := by
  induction h generalizing lexemes seen c with
  | nil =>
    rw [List.append_nil]
    exact hc
  | @cons l l₁ l' b text piece pieces first _ ih =>
    rw [List.mem_cons, not_or] at hcr
    have hc' : (c.add b piece).Fits (text.head?.or ahead) (seen ++ [b])
        (piece.toList.foldl Lexeme.attach lexemes) l₁ := by
      cases piece with
      | none =>
        refine ⟨?_, hc.mirrors, ?_, ?_⟩
        · rw [hc.text_eq, List.append_assoc]
          rfl
        · intro _
          exact (hc.pending first.silent.not_literal).step (Ne.symm hcr.1) first
        · intro literal hmode
          exact absurd hmode (first.silent.not_literal' literal)
      | some piece => exact hc.step hdone hl first
    have hrest := ih hcr.2 (first.coherent hl) (hdone.step first) hc'
    rwa [List.append_assoc, List.singleton_append, ← first.cut_cons, ← List.foldl_append] at hrest

theorem Pending.layout_of_finish {g : Bytes} {l : Lexer} (h : Pending none g l)
    (hfinish : l.finish = none) : ∃ comments, Layout (g ++ [Byte.lf]) comments := by
  cases h with
  | code hg => exact ⟨_, hg.append (.of_space (.inr rfl))⟩
  | line hg _ _ _ hbody =>
    rw [List.append_assoc]
    exact ⟨_, hg.append (.of_comment (.line hbody))⟩
  | block _ _ hmode => simp [Lexer.finish, hmode] at hfinish
  | lineOpening _ _ _ _ hahead => cases hahead
  | blockOpening _ _ _ _ hahead => cases hahead
  | blockClosing _ _ _ _ hahead => cases hahead

/-- **A text falls into its tokens and the layout between them.** -/
theorem fits_cutting {text : Bytes} (h : (scan text).stop = none) :
    unifyBreaks text = (stretches text).flatMap Stretch.bytes ++ trailing text ∧
      List.Forall₂ Stretch.Mirrors (stretches text) (lexemes text) ∧
      ∃ comments, Layout (trailing text ++ [Byte.lf]) comments := by
  obtain ⟨l', hreads, hfinish⟩ := reads_of_scan h
  have hstart : Cutting.Fits ((unifyBreaks text).head?.or none) [] [] .initial {} :=
    ⟨rfl, .nil, fun _ => .initial _ rfl rfl rfl, fun _ _ => rfl⟩
  have hfits :=
    hreads.fits (cr_notMem_unifyBreaks text) Lexer.coherent_initial Tracks.initial hstart
  have hmode (literal : Literal) : l'.mode ≠ .literal literal := by
    intro hlit
    simp [Lexer.finish, hlit] at hfinish
  exact ⟨hfits.text_eq, List.forall₂_reverse_iff.mpr hfits.mirrors,
    (hfits.pending hmode).layout_of_finish hfinish⟩

end ScriptMinifier
