import ScriptMinifier.Proofs.Step
import ScriptMinifier.Minify

/-!
# Runs of the lexer

`Reads ahead l text pieces l'` says that the lexer goes from `l` to `l'` over `text`, behind which
the byte `ahead` stands, and gives `pieces`.  A scan runs to the end of its text and keeps
positions; `Reads` stops anywhere, so two runs can be put end to end (`Reads.append`), the first one
looking ahead into the text of the second.

* `reads_of_scan`, `scan_of_reads`: a scan that closes all its literals is a run that may end.
* `Scan.exists_reads`: every scan is a run over the start of its text, up to a step that fails.
* `Reads.append`, `Reads.of_append`, `Reads.unique`: runs are put together, cut and compared.
* `Reads.of_atCode`: a run that ends in code does not depend on the byte behind it, as long as that
  byte makes no comment of a slash.
* `Reads.byte_mem`: every byte that is written was read.
* `Scan.run_alike`: two scans of one text look alike if their states and their steps do.
* `comments`: how many comments are opened in a text.
* `unifyBreaks_eq_self`: a text without carriage returns is read as it is.
-/

namespace ScriptMinifier

open Lexer (Step)

/-- The lexer goes from one state to another over a text, with `ahead` behind it. -/
inductive Reads (ahead : Option Byte) : Lexer → Bytes → List Piece → Lexer → Prop
  | nil (l : Lexer) : Reads ahead l [] [] l
  | cons {l l₁ l' : Lexer} {b : Byte} {text : Bytes} {piece : Option Piece} {pieces : List Piece}
      (first : Step l b (text.head?.or ahead) l₁ piece) (rest : Reads ahead l₁ text pieces l') :
      Reads ahead l (b :: text) (piece.toList ++ pieces) l'

namespace Reads

theorem single {ahead : Option Byte} {l l' : Lexer} {b : Byte} {piece : Option Piece}
    (h : Step l b ahead l' piece) : Reads ahead l [b] piece.toList l' := by
  have hfirst : Step l b (([] : Bytes).head?.or ahead) l' piece := h
  have := Reads.cons hfirst (nil l')
  rwa [List.append_nil] at this

/-- **Runs can be put end to end**, the first with the head of the second ahead of it. -/
theorem append {ahead : Option Byte} {l l₁ l' : Lexer} {text₁ text₂ : Bytes}
    {pieces₁ pieces₂ : List Piece} (h₁ : Reads (text₂.head?.or ahead) l text₁ pieces₁ l₁)
    (h₂ : Reads ahead l₁ text₂ pieces₂ l') :
    Reads ahead l (text₁ ++ text₂) (pieces₁ ++ pieces₂) l' := by
  induction h₁ with
  | nil => exact h₂
  | cons first _ ih =>
    rw [List.cons_append, List.append_assoc]
    refine cons ?_ (ih h₂)
    rwa [List.head?_append, Option.or_assoc]

/-- **A run can be cut anywhere.** -/
theorem of_append {ahead : Option Byte} {l l' : Lexer} {text₁ text₂ : Bytes}
    {pieces : List Piece} (h : Reads ahead l (text₁ ++ text₂) pieces l') :
    ∃ pieces₁ pieces₂ l₁, pieces = pieces₁ ++ pieces₂ ∧
      Reads (text₂.head?.or ahead) l text₁ pieces₁ l₁ ∧ Reads ahead l₁ text₂ pieces₂ l' := by
  induction text₁ generalizing l pieces with
  | nil => exact ⟨[], pieces, l, rfl, .nil l, h⟩
  | cons b text₁ ih =>
    rw [List.cons_append] at h
    cases h with
    | @cons _ l₀ _ _ _ piece pieces first rest =>
      obtain ⟨pieces₁, pieces₂, l₁, rfl, h₁, h₂⟩ := ih rest
      rw [List.head?_append, Option.or_assoc] at first
      exact ⟨piece.toList ++ pieces₁, pieces₂, l₁, (List.append_assoc ..).symm, h₁.cons first, h₂⟩

/-- **A text is read in one way.** -/
theorem unique {ahead : Option Byte} {l l₁ l₂ : Lexer} {text : Bytes} {pieces₁ pieces₂ : List Piece}
    (h₁ : Reads ahead l text pieces₁ l₁) (h₂ : Reads ahead l text pieces₂ l₂) :
    pieces₁ = pieces₂ ∧ l₁ = l₂ := by
  induction h₁ generalizing pieces₂ with
  | nil =>
    cases h₂
    exact ⟨rfl, rfl⟩
  | cons first _ ih =>
    cases h₂ with
    | cons first' rest' =>
      have hsame := first.step_eq.symm.trans first'.step_eq
      simp only [Except.ok.injEq, Prod.mk.injEq] at hsame
      obtain ⟨rfl, rfl⟩ := hsame
      obtain ⟨rfl, rfl⟩ := ih rest'
      exact ⟨rfl, rfl⟩

end Reads

/-- **A step into code looks ahead only for a comment.** -/
theorem Lexer.Step.of_atCode {l l' : Lexer} {b : Byte} {next next' : Option Byte}
    {piece : Option Piece} (h : Step l b next l' piece) (hl' : l'.AtCode)
    (hnext' : ¬ OpensComment next') : Step l b next' l' piece := by
  have hmode' := hl'.mode
  have hheld' := hl'.held
  cases h with
  | copyHeld hheld hmode => exact .copyHeld hheld hmode
  | dropHeld hheld hmode => exact .dropHeld hheld hmode
  | blank hheld hmode hb => exact .blank hheld hmode hb
  | lineBreak hheld hmode hb => exact .lineBreak hheld hmode hb
  | token hheld hmode hclass hquote hslash =>
    exact .token hheld hmode hclass hquote fun hb => ⟨hnext', (hslash hb).2⟩
  | closeLineComment hheld hmode => exact .closeLineComment hheld hmode
  | closeLiteral hheld hmode hlf hback hlit => exact .closeLiteral hheld hmode hlf hback hlit
  | lineComment hheld hmode => rw [hmode] at hmode'; cases hmode'
  | openLineComment | openBlockComment | openRegex | openString | blockComment | copy =>
    cases hmode'
  | closeBlockComment | escape => cases hheld'

/-- **A run into code looks ahead only for a comment.** -/
theorem Reads.of_atCode {ahead ahead' : Option Byte} {l l' : Lexer} {text : Bytes}
    {pieces : List Piece} (h : Reads ahead l text pieces l') (hl' : l'.AtCode)
    (hahead' : ¬ OpensComment ahead') : Reads ahead' l text pieces l' := by
  induction h with
  | nil l => exact .nil l
  | @cons l l₁ l' b text piece pieces first rest ih =>
    refine .cons ?_ (ih hl')
    cases text with
    | cons c text => exact first
    | nil =>
      cases rest
      exact first.of_atCode hl' hahead'

theorem Lexer.Step.byte_eq {l l' : Lexer} {b : Byte} {next : Option Byte} {piece : Piece}
    (h : Step l b next l' (some piece)) : piece.byte = b := by
  cases h <;> rfl

theorem Reads.byte_mem {ahead : Option Byte} {l l' : Lexer} {text : Bytes} {pieces : List Piece}
    (h : Reads ahead l text pieces l') : ∀ piece ∈ pieces, piece.byte ∈ text := by
  induction h with
  | nil => simp
  | @cons l l₁ l' b text piece pieces first _ ih =>
    intro p hp
    rcases List.mem_append.mp hp with hfirst | hrest
    · rw [Option.mem_toList] at hfirst
      subst hfirst
      rw [first.byte_eq]
      exact List.mem_cons_self
    · exact List.mem_cons_of_mem b (ih p hrest)

/-! ### Scans as runs -/

theorem Scan.run_of_reads {l l' : Lexer} {text : Bytes} {pieces : List Piece}
    (h : Reads none l text pieces l') (here opened : Position) :
    (Scan.run l here opened text).pieces = pieces ∧
      ((Scan.run l here opened text).stop = none ↔ l'.finish = none) := by
  induction h generalizing here opened with
  | nil l => simp [Scan.run_nil]
  | @cons l l₁ l' b text piece pieces first _ ih =>
    rw [Option.or_none] at first
    rw [Scan.run_step first.step_eq]
    obtain ⟨hpieces, hstop⟩ := ih (here.advance b) (if l.mode = .code then here else opened)
    refine ⟨?_, hstop⟩
    rw [Scan.after, hpieces]
    cases piece <;> rfl

/-- **A scan goes on where a run over the start of its text leads to.** -/
theorem Scan.run_append {l l' : Lexer} {text rest : Bytes} {pieces : List Piece}
    (h : Reads rest.head? l text pieces l') (here opened : Position) :
    ∃ here' opened',
      (Scan.run l here opened (text ++ rest)).pieces
        = pieces ++ (Scan.run l' here' opened' rest).pieces ∧
      (Scan.run l here opened (text ++ rest)).stop = (Scan.run l' here' opened' rest).stop := by
  induction h generalizing here opened with
  | nil l => exact ⟨here, opened, rfl, rfl⟩
  | @cons l l₁ l' b text piece pieces first _ ih =>
    rw [← List.head?_append] at first
    rw [List.cons_append, Scan.run_step first.step_eq]
    obtain ⟨here', opened', hpieces, hstop⟩ :=
      ih (here.advance b) (if l.mode = .code then here else opened)
    refine ⟨here', opened', ?_, hstop⟩
    rw [Scan.after, hpieces, List.append_assoc]
    cases piece <;> rfl

theorem Scan.reads_of_run {l : Lexer} {text : Bytes} {here opened : Position}
    (h : (Scan.run l here opened text).stop = none) :
    ∃ l', Reads none l text (Scan.run l here opened text).pieces l' ∧ l'.finish = none := by
  induction text generalizing l here opened with
  | nil =>
    rw [Scan.run_nil] at h ⊢
    exact ⟨l, .nil l, by simpa using h⟩
  | cons b text ih =>
    cases hstep : l.step b text.head? with
    | error kind => rw [Scan.run_error hstep] at h; simp at h
    | ok result =>
      obtain ⟨l₁, piece⟩ := result
      rw [Scan.run_step hstep] at h ⊢
      obtain ⟨l', hreads, hfinish⟩ := ih h
      refine ⟨l', ?_, hfinish⟩
      have hfirst : Step l b (text.head?.or none) l₁ piece := by
        rw [Option.or_none]
        exact Lexer.step_eq_ok_iff.mp hstep
      have := hreads.cons hfirst
      cases piece <;> exact this

/-- **Every scan is a run over the start of its text**, up to the byte at which a step fails. -/
theorem Scan.exists_reads (l : Lexer) (here opened : Position) (text : Bytes) :
    ∃ front rest l', text = front ++ rest ∧
      Reads rest.head? l front (Scan.run l here opened text).pieces l' ∧
      ∀ b rest', rest = b :: rest' → ∃ kind, l'.step b rest'.head? = .error kind := by
  induction text generalizing l here opened with
  | nil =>
    rw [Scan.run_nil]
    exact ⟨[], [], l, rfl, .nil l, by simp⟩
  | cons b text ih =>
    cases hstep : l.step b text.head? with
    | error kind =>
      rw [Scan.run_error hstep]
      refine ⟨[], b :: text, l, rfl, .nil l, fun b' rest' heq => ⟨kind, ?_⟩⟩
      obtain ⟨rfl, rfl⟩ := List.cons.inj heq
      exact hstep
    | ok result =>
      obtain ⟨l₁, piece⟩ := result
      rw [Scan.run_step hstep]
      obtain ⟨front, rest, l', htext, hreads, hstuck⟩ :=
        ih l₁ (here.advance b) (if l.mode = .code then here else opened)
      have hfirst : Step l b (front.head?.or rest.head?) l₁ piece := by
        rw [← List.head?_append, ← htext]
        exact Lexer.step_eq_ok_iff.mp hstep
      have hcons := hreads.cons hfirst
      refine ⟨b :: front, rest, l', by rw [htext, List.cons_append], ?_, hstuck⟩
      cases piece <;> exact hcons

theorem scan_of_reads {text : Bytes} {l' : Lexer} {pieces : List Piece}
    (h : Reads none .initial (unifyBreaks text) pieces l') (hfinish : l'.finish = none) :
    (scan text).pieces = pieces ∧ (scan text).stop = none :=
  ⟨(Scan.run_of_reads h ..).1, (Scan.run_of_reads h ..).2.mpr hfinish⟩

theorem reads_of_scan {text : Bytes} (h : (scan text).stop = none) :
    ∃ l', Reads none .initial (unifyBreaks text) (scan text).pieces l' ∧ l'.finish = none :=
  Scan.reads_of_run h

theorem minify_eq_ok_iff {o : Options} {text out : Bytes} :
    minify o text = .ok out ↔
      (scan text).stop = none ∧ (scan text).write o ++ (scan text).trailer o = out := by
  rw [minify, Scan.result]
  cases (scan text).stop <;> simp

/-! ### Scans that look alike -/

/-- What `view` shows of a state decides what it shows of the next one, what `look` shows of the
piece between them, and whether the text may end. -/
structure Lexer.Decides {σ τ : Type} (view : Lexer → σ) (look : Piece → τ) : Prop where
  step : ∀ {l₁ l₂ : Lexer}, view l₁ = view l₂ → ∀ b next,
    (l₁.step b next).map (Prod.map view (Option.map look))
      = (l₂.step b next).map (Prod.map view (Option.map look))
  finish : ∀ {l₁ l₂ : Lexer}, view l₁ = view l₂ → l₁.finish = l₂.finish

/-- **From states that look alike, scans of one text look alike**, and stop at a literal of the same
kind, if at all. -/
theorem Scan.run_alike {σ τ : Type} {view : Lexer → σ} {look : Piece → τ}
    (hview : Lexer.Decides view look) {l₁ l₂ : Lexer} (h : view l₁ = view l₂)
    (here opened here' opened' : Position) (text : Bytes) :
    (Scan.run l₁ here opened text).pieces.map look
        = (Scan.run l₂ here' opened' text).pieces.map look ∧
      (Scan.run l₁ here opened text).stop.map Unterminated.kind
        = (Scan.run l₂ here' opened' text).stop.map Unterminated.kind := by
  induction text generalizing l₁ l₂ here opened here' opened' with
  | nil =>
    rw [Scan.run_nil, Scan.run_nil, hview.finish h, Option.map_map, Option.map_map]
    exact ⟨rfl, rfl⟩
  | cons b text ih =>
    have hstep := hview.step h b text.head?
    cases h₁ : l₁.step b text.head? with
    | error kind =>
      cases h₂ : l₂.step b text.head? with
      | ok result => simp [h₁, h₂, Except.map] at hstep
      | error kind' =>
        rw [h₁, h₂] at hstep
        obtain rfl := Except.error.inj hstep
        rw [Scan.run_error h₁, Scan.run_error h₂]
        exact ⟨rfl, rfl⟩
    | ok result =>
      cases h₂ : l₂.step b text.head? with
      | error kind => simp [h₁, h₂, Except.map] at hstep
      | ok result' =>
        obtain ⟨l₁', piece⟩ := result
        obtain ⟨l₂', piece'⟩ := result'
        rw [h₁, h₂] at hstep
        obtain ⟨hstates, hpieces⟩ := Prod.mk.inj (Except.ok.inj hstep)
        rw [Scan.run_step h₁, Scan.run_step h₂]
        obtain ⟨hrest, hstop⟩ := ih hstates
          (here.advance b) (if l₁.mode = .code then here else opened)
          (here'.advance b) (if l₂.mode = .code then here' else opened')
        refine ⟨?_, hstop⟩
        rw [Scan.after, Scan.after, List.map_append, List.map_append, hrest, List.append_left_inj]
        cases piece <;> cases piece' <;> simp_all

/-! ### Comments -/

def Mode.isComment : Mode → Bool
  | .lineComment | .blockComment _ => true
  | .code | .literal _ => false

/-- How many comments the lexer opens from a state on over a text. -/
def Lexer.comments (ahead : Option Byte) : Lexer → Bytes → Nat
  | _, [] => 0
  | l, b :: text =>
    match l.step b (text.head?.or ahead) with
    | .error _ => 0
    | .ok (l', _) =>
      (if l'.mode.isComment ∧ ¬ l.mode.isComment then 1 else 0) + comments ahead l' text

/-- How many comments there are in a text. -/
def comments (text : Bytes) : Nat := Lexer.comments none .initial (unifyBreaks text)

theorem Lexer.Step.comments_cons {ahead : Option Byte} {l l' : Lexer} {b : Byte} {text : Bytes}
    {piece : Option Piece} (h : Step l b (text.head?.or ahead) l' piece) :
    Lexer.comments ahead l (b :: text)
      = (if l'.mode.isComment ∧ ¬ l.mode.isComment then 1 else 0)
        + Lexer.comments ahead l' text := by
  rw [Lexer.comments, h.step_eq]

theorem Reads.comments_append {ahead : Option Byte} {l l' : Lexer} {text₁ text₂ : Bytes}
    {pieces : List Piece} (h : Reads (text₂.head?.or ahead) l text₁ pieces l') :
    Lexer.comments ahead l (text₁ ++ text₂)
      = Lexer.comments (text₂.head?.or ahead) l text₁ + Lexer.comments ahead l' text₂ := by
  induction h with
  | nil l => simp [Lexer.comments]
  | @cons l l₁ l' b text piece pieces first _ ih =>
    have hfirst : Step l b ((text ++ text₂).head?.or ahead) l₁ piece := by
      rwa [List.head?_append, Option.or_assoc]
    rw [List.cons_append, hfirst.comments_cons, first.comments_cons, ih, Nat.add_assoc]

/-! ### Texts without carriage returns -/

theorem cr_notMem_unifyBreaksOnto {done : Bytes} (hdone : Byte.cr ∉ done) (afterCr : Bool)
    (text : Bytes) : Byte.cr ∉ unifyBreaksOnto done afterCr text := by
  induction text generalizing done afterCr with
  | nil => simpa [unifyBreaksOnto] using hdone
  | cons b text ih =>
    rw [unifyBreaksOnto]
    split
    · exact ih (by simpa [show Byte.cr ≠ Byte.lf by decide] using hdone) true
    · split
      · exact ih hdone false
      · rename_i hb _
        exact ih (by simp [hdone, Ne.symm hb]) false

theorem cr_notMem_unifyBreaks (text : Bytes) : Byte.cr ∉ unifyBreaks text :=
  cr_notMem_unifyBreaksOnto (by simp) false text

/-- **A text without carriage returns is read as it is.** -/
theorem unifyBreaks_eq_self {text : Bytes} (h : Byte.cr ∉ text) : unifyBreaks text = text := by
  induction text with
  | nil => rfl
  | cons b text ih =>
    rw [List.mem_cons, not_or] at h
    rw [unifyBreaks_cons (Ne.symm h.1), ih h.2]

end ScriptMinifier
