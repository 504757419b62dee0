import ScriptMinifier.Proofs.Originals

/-!
# Minifying the sources of a scope

Minifying one source looks at two addresses, that of the source and that of its twin, and changes
nothing else (`Batch.confined_minifyFile`).  No two sources share an address, so each of them fares
as if it were alone (`Batch.sweep_of_confined`) and the order in which they are taken does not
matter (`Batch.sweep_perm`).

Alone, a source is swapped with a new twin if its text can be minified, nothing has the name of the
twin, and neither the name nor the paths are too long; else it is left as it is, and `Batch.Refused`
says which failure is reported.  `minifyTree_sources` puts this together for a whole run.

The paths do matter: a source under a path that is too long cannot even be read
(`minifyTree_of_long_path`).
-/

namespace ScriptMinifier

namespace Batch

open Twin (beside AtSource)

/-! ### Steps that do not meet -/

/-- A step on a file of `fs` looks at and changes only the addresses that it touches, and no two of
them touch the same one. -/
structure Confined {α : Type} (step : Tree → Found → α × Tree) (touches : Found → Address → Prop)
    (fs : List Found) : Prop where
  frame : ∀ f ∈ fs, ∀ t b, ¬ touches f b → (step t f).2.get? b = t.get? b
  outcome : ∀ f ∈ fs, ∀ t t', (∀ b, touches f b → t'.get? b = t.get? b) →
    (step t' f).1 = (step t f).1
  result : ∀ f ∈ fs, ∀ t t', (∀ b, touches f b → t'.get? b = t.get? b) →
    ∀ b, touches f b → (step t' f).2.get? b = (step t f).2.get? b
  apart : fs.Pairwise fun f g => ∀ b, touches f b → ¬ touches g b

namespace Confined

variable {α : Type} {step : Tree → Found → α × Tree} {touches : Found → Address → Prop}
  {fs gs : List Found}

theorem tail {f : Found} (h : Confined step touches (f :: fs)) : Confined step touches fs :=
  ⟨fun g hg => h.frame g (List.mem_cons_of_mem f hg),
    fun g hg => h.outcome g (List.mem_cons_of_mem f hg),
    fun g hg => h.result g (List.mem_cons_of_mem f hg), (List.pairwise_cons.mp h.apart).2⟩

theorem perm (h : Confined step touches fs) (hperm : fs.Perm gs) : Confined step touches gs := by
  refine ⟨fun g hg => h.frame g (hperm.mem_iff.mpr hg),
    fun g hg => h.outcome g (hperm.mem_iff.mpr hg),
    fun g hg => h.result g (hperm.mem_iff.mpr hg), hperm.pairwise h.apart ?_⟩
  intro f g hfg b hg hf
  exact hfg b hf hg

end Confined

/-- **Steps that do not meet fare as if each were alone.** -/
theorem sweep_of_confined {α : Type} {step : Tree → Found → α × Tree}
    {touches : Found → Address → Prop} {fs : List Found} (h : Confined step touches fs) (t : Tree) :
    (sweep step t fs).1 = fs.map (fun f => (step t f).1) ∧
      (∀ f ∈ fs, ∀ b, touches f b → (sweep step t fs).2.get? b = (step t f).2.get? b) ∧
      ∀ b, (∀ f ∈ fs, ¬ touches f b) → (sweep step t fs).2.get? b = t.get? b := by
  induction fs generalizing t with
  | nil => exact ⟨rfl, by simp, fun _ _ => rfl⟩
  | cons f fs ih =>
    obtain ⟨houtcomes, hresults, hframe⟩ := ih h.tail (step t f).2
    have hapart := (List.pairwise_cons.mp h.apart).1
    -- the first step leaves what the later ones look at
    have hsame {g : Found} (hg : g ∈ fs) : ∀ b, touches g b → (step t f).2.get? b = t.get? b := by
      intro b hb
      exact h.frame f List.mem_cons_self t b fun hf => hapart g hg b hf hb
    refine ⟨?_, ?_, ?_⟩
    · rw [sweep, List.map_cons]
      dsimp only
      rw [houtcomes]
      refine congrArg _ (List.map_congr_left fun g hg => ?_)
      exact h.outcome g (List.mem_cons_of_mem f hg) t _ (hsame hg)
    · intro g hg b hb
      rcases List.mem_cons.mp hg with rfl | hg
      · exact hframe b fun k hk => hapart k hk b hb
      · exact (hresults g hg b hb).trans
          (h.result g (List.mem_cons_of_mem f hg) t _ (hsame hg) b hb)
    · intro b hb
      refine (hframe b fun g hg => hb g (List.mem_cons_of_mem f hg)).trans ?_
      exact h.frame f List.mem_cons_self t b (hb f List.mem_cons_self)

/-- **Steps that do not meet can be taken in any order**, from any tree with the same entries. -/
theorem sweep_perm {α : Type} {step : Tree → Found → α × Tree} {touches : Found → Address → Prop}
    {fs gs : List Found} {t t' : Tree} (h : Confined step touches fs) (hperm : fs.Perm gs)
    (hsame : t.Same t') : (sweep step t fs).2.Same (sweep step t' gs).2 := by
  obtain ⟨-, hresults, hframe⟩ := sweep_of_confined h t
  obtain ⟨-, hresults', hframe'⟩ := sweep_of_confined (h.perm hperm) t'
  intro b
  by_cases hb : ∃ f ∈ fs, touches f b
  · obtain ⟨f, hf, hb⟩ := hb
    rw [hresults f hf b hb, hresults' f (hperm.mem_iff.mp hf) b hb]
    exact h.result f hf t t' (fun c _ => hsame c) b hb
  · have hnone : ∀ f ∈ fs, ¬ touches f b := fun f hf htouch => hb ⟨f, hf, htouch⟩
    rw [hframe b hnone, hframe' b fun f hf => hnone f (hperm.mem_iff.mpr hf)]
    exact hsame b

/-! ### One source -/

def twinPath (f : Found) : Path := f.shown.withName (beside f.address).name

theorem exchange_eq (t : Tree) (f : Found) (text out : Bytes) :
    exchange t f (beside f.address).name text out
      = if Tree.tooLong (twinPath f) = true ∨ Tree.maxName < (beside f.address).name.length then
          (some (.io (twinPath f) .nameTooLong), t)
        else if (t.get? (beside f.address)).isSome = true then
          (some (.devExists (twinPath f)), t)
        else (none, swap t f.address text out) := by
  have haddress : (⟨f.address.dir, (beside f.address).name⟩ : Address) = beside f.address := rfl
  rw [exchange, haddress, Tree.calledOn, Tree.create, ← twinPath]
  by_cases hpath : Tree.tooLong (twinPath f) = true
  · rw [if_pos hpath, if_pos (.inl hpath)]
  rw [if_neg hpath]
  by_cases hname : Tree.maxName < (beside f.address).name.length
  · rw [if_pos hname, if_pos (.inr hname)]
  rw [if_neg hname, if_neg (not_or.mpr ⟨hpath, hname⟩)]
  by_cases htaken : (t.get? (beside f.address)).isSome = true
  · rw [if_pos htaken, if_pos htaken]
  · rw [if_neg htaken, if_neg htaken]
    rfl

def Touches (f : Found) (b : Address) : Prop := b = f.address ∨ b = beside f.address

theorem minifyFile_frame (o : Options) (t : Tree) {f : Found} (hf : AtSource f.address)
    {b : Address} (hb : ¬ Touches f b) : (minifyFile o t f).2.get? b = t.get? b := by
  rw [Touches, not_or] at hb
  rcases minifyFile_cases o t hf with ⟨htree, -⟩ | ⟨text, out, hswap, htree, -⟩
  · rw [htree]
  · rw [htree, hswap.get?_swap hf, if_neg (Ne.symm hb.1), if_neg (Ne.symm hb.2)]

theorem minifyFile_outcome {o : Options} {t t' : Tree} {f : Found} (hf : AtSource f.address)
    (h : ∀ b, Touches f b → t'.get? b = t.get? b) :
    (minifyFile o t' f).1 = (minifyFile o t f).1 := by
  have hsource := h f.address (.inl rfl)
  have htwin := h (beside f.address) (.inr rfl)
  have hread : t'.read f.address = t.read f.address := by
    rw [Tree.read, Tree.read, hsource]
  have hexchange (text out : Bytes) :
      (exchange t' f (beside f.address).name text out).1
        = (exchange t f (beside f.address).name text out).1 := by
    rw [exchange_eq, exchange_eq, htwin]
    split
    · rfl
    · split <;> rfl
  rw [minifyFile, minifyFile, Twin.devName?_of_atSource hf]
  simp only [minifyAs, hread]
  cases Tree.calledOn f.shown (t.read f.address) with
  | error e => rfl
  | ok text =>
    dsimp only
    cases (scan text).result o with
    | error u => rfl
    | ok out =>
      dsimp only
      rw [hexchange]

theorem minifyFile_result {o : Options} {t t' : Tree} {f : Found} (hf : AtSource f.address)
    (h : ∀ b, Touches f b → t'.get? b = t.get? b) {b : Address} (hb : Touches f b) :
    (minifyFile o t' f).2.get? b = (minifyFile o t f).2.get? b := by
  have hcount : (minifyFile o t' f).1.report.minified = (minifyFile o t f).1.report.minified := by
    rw [minifyFile_outcome hf h]
  rcases minifyFile_cases o t hf with ⟨htree, hzero⟩ | ⟨text, out, hswap, htree, hone⟩
  · rcases minifyFile_cases o t' hf with ⟨htree', -⟩ | ⟨text', out', -, -, hone'⟩
    · rw [htree, htree', h b hb]
    · omega
  · rcases minifyFile_cases o t' hf with ⟨-, hzero'⟩ | ⟨text', out', hswap', htree', -⟩
    · omega
    · obtain rfl : text = text' := by
        have hsame := h f.address (.inl rfl)
        rw [hswap.source, hswap'.source] at hsame
        simpa using hsame.symm
      obtain rfl : out = out' := Except.ok.inj (hswap.minified.symm.trans hswap'.minified)
      rw [htree, htree', hswap.get?_swap hf, hswap'.get?_swap hf, h b hb]

/-- **Minifying a source is confined to the source and its twin.** -/
theorem confined_minifyFile (o : Options) {fs : List Found}
    (hsource : ∀ f ∈ fs, AtSource f.address) (hnodup : (fs.map Found.address).Nodup) :
    Confined (minifyFile o) Touches fs := by
  refine ⟨fun f hf t b => minifyFile_frame o t (hsource f hf),
    fun f hf t t' => minifyFile_outcome (hsource f hf),
    fun f hf t t' h b => minifyFile_result (hsource f hf) h, ?_⟩
  rw [List.Nodup, List.pairwise_map] at hnodup
  refine hnodup.imp_of_mem fun {f g} hf hg hne b hb hb' => ?_
  have hsf := hsource f hf
  have hsg := hsource g hg
  rcases hb with rfl | rfl <;> rcases hb' with hb' | hb'
  · exact hne hb'
  · exact Twin.ne_beside hsf hsg hb'
  · exact Twin.ne_beside hsg hsf hb'.symm
  · exact hne (Twin.beside_inj hsf hsg hb')

/-- A source can be minified into `out` under the paths that it and its twin have. -/
structure Ready (o : Options) (t : Tree) (f : Found) (text out : Bytes) : Prop where
  swappable : Swappable o t f.address text out
  path : Tree.tooLong f.shown = false
  twinPath : Tree.tooLong (twinPath f) = false

/-- Why a source with the text `text` is not minified: the first thing that stands in the way. -/
inductive Refused (o : Options) (t : Tree) (f : Found) (text : Bytes) : BatchError → Prop
  | path (hpath : Tree.tooLong f.shown = true) : Refused o t f text (.io f.shown .nameTooLong)
  | text {u : Unterminated} (hpath : Tree.tooLong f.shown = false)
      (htext : minify o text = .error u) : Refused o t f text (.unterminated f.shown u)
  | twin {out : Bytes} (hpath : Tree.tooLong f.shown = false) (htext : minify o text = .ok out)
      (htwin : Tree.tooLong (twinPath f) = true ∨ Tree.maxName < (beside f.address).name.length) :
      Refused o t f text (.io (twinPath f) .nameTooLong)
  | taken {out : Bytes} {e : Entry} (hpath : Tree.tooLong f.shown = false)
      (htext : minify o text = .ok out) (htwin : Tree.tooLong (twinPath f) = false)
      (hname : (beside f.address).name.length ≤ Tree.maxName)
      (htaken : t.get? (beside f.address) = some e) :
      Refused o t f text (.devExists (twinPath f))

theorem ready_or_refused (o : Options) {t : Tree} {f : Found} {text : Bytes}
    (hsource : t.get? f.address = some (.file text)) :
    (∃ out, Ready o t f text out) ∨ ∃ e, Refused o t f text e := by
  cases hpath : Tree.tooLong f.shown with
  | true => exact .inr ⟨_, .path hpath⟩
  | false =>
  cases htext : minify o text with
  | error u => exact .inr ⟨_, .text hpath htext⟩
  | ok out =>
  by_cases htwin : Tree.tooLong (twinPath f) = true ∨ Tree.maxName < (beside f.address).name.length
  · exact .inr ⟨_, .twin hpath htext htwin⟩
  rw [not_or, Bool.not_eq_true, Nat.not_lt] at htwin
  cases htaken : t.get? (beside f.address) with
  | some e => exact .inr ⟨_, .taken hpath htext htwin.1 htwin.2 htaken⟩
  | none => exact .inl ⟨out, ⟨hsource, htext, htaken, htwin.2⟩, hpath, htwin.1⟩

/-- **A source that is refused is left as it is**, and the reason is reported. -/
theorem minifyFile_of_refused {o : Options} {t : Tree} {f : Found} {text : Bytes} {e : BatchError}
    (hf : AtSource f.address) (hsource : t.get? f.address = some (.file text))
    (h : Refused o t f text e) :
    (minifyFile o t f).2 = t ∧ (minifyFile o t f).1.failure = some e := by
  have hread := Tree.read_eq_ok_iff.mpr hsource
  rw [minifyFile, Twin.devName?_of_atSource hf]
  simp only [minifyAs, Tree.calledOn, hread]
  cases h with
  | path hpath => simp [hpath]
  | text hpath htext =>
    have hresult : (scan text).result o = .error _ := htext
    simp [hpath, hresult]
  | twin hpath htext htwin =>
    have hresult : (scan text).result o = .ok _ := htext
    simp [hpath, hresult, exchange_eq, htwin]
  | taken hpath htext htwin hname htaken =>
    have hresult : (scan text).result o = .ok _ := htext
    have hshort : ¬ (Tree.tooLong (twinPath f) = true ∨
        Tree.maxName < (beside f.address).name.length) := by
      rw [not_or, Bool.not_eq_true, Nat.not_lt]
      exact ⟨htwin, hname⟩
    simp [hpath, hresult, exchange_eq, hshort, htaken]

/-- What becomes of the source `f` with the text `text` from `t` to `t'`, and what is reported. -/
def Settled (o : Options) (t t' : Tree) (f : Found) (text : Bytes)
    (failure : Option BatchError) : Prop :=
  (∃ out, Ready o t f text out ∧ t'.get? f.address = some (.file out) ∧
      t'.get? (beside f.address) = some (.file text) ∧ failure = none) ∨
    ∃ e, Refused o t f text e ∧ t'.get? f.address = some (.file text) ∧
      t'.get? (beside f.address) = t.get? (beside f.address) ∧ failure = some e

theorem settled_minifyFile (o : Options) {t : Tree} {f : Found} {text : Bytes}
    (hf : AtSource f.address) (hsource : t.get? f.address = some (.file text)) :
    Settled o t (minifyFile o t f).2 f text (minifyFile o t f).1.failure := by
  rcases ready_or_refused o hsource with ⟨out, hready⟩ | ⟨e, hrefused⟩
  · have hget := hready.swappable.get?_swap hf
    rw [minifyFile_of_swappable hf hready.swappable hready.path hready.twinPath]
    refine .inl ⟨out, hready, ?_, ?_, rfl⟩
    · rw [hget, if_pos rfl]
    · rw [hget, if_neg (Twin.ne_beside hf hf), if_pos rfl]
  · obtain ⟨htree, hfailure⟩ := minifyFile_of_refused hf hsource hrefused
    rw [htree]
    exact .inr ⟨e, hrefused, hsource, rfl, hfailure⟩

theorem Settled.congr {o : Options} {t t' t'' : Tree} {f : Found} {text : Bytes}
    {failure : Option BatchError} (h : Settled o t t' f text failure)
    (heq : ∀ b, Touches f b → t''.get? b = t'.get? b) : Settled o t t'' f text failure := by
  rw [Settled, heq f.address (.inl rfl), heq (beside f.address) (.inr rfl)]
  exact h

/-! ### All sources -/

theorem mem_sourceFiles_iff {s : Scope} {t : Tree} {f : Found} :
    f ∈ sourceFiles s t ↔
      ∃ root a text, s.dir = some root ∧ t.get? a = some (.file text) ∧
        Scope.covers root s.recursive a.dir = true ∧ AtSource a ∧ f = s.foundAt root a := by
  rw [sourceFiles, List.mem_filter, Scope.mem_files_iff]
  constructor
  · rintro ⟨⟨root, a, text, hdir, hget, hcovers, rfl⟩, hsource⟩
    exact ⟨root, a, text, hdir, hget, hcovers, hsource, rfl⟩
  · rintro ⟨root, a, text, hdir, hget, hcovers, hsource, rfl⟩
    exact ⟨⟨root, a, text, hdir, hget, hcovers, rfl⟩, hsource⟩

theorem nodup_sourceFiles (s : Scope) (t : Tree) : ((sourceFiles s t).map Found.address).Nodup :=
  (s.nodup_members Entry.isFile t).sublist (List.filter_sublist.map Found.address)

theorem confined_sourceFiles (o : Options) (s : Scope) (t : Tree) :
    Confined (minifyFile o) Touches (sourceFiles s t) :=
  confined_minifyFile o (fun _ hf => (List.mem_filter.mp hf).2) (nodup_sourceFiles s t)

/-- What becomes of the sources of a scope and of all else, from `t` to `t'`, where `failure` is
what is reported of each source. -/
structure SourcesLaw (o : Options) (s : Scope) (t t' : Tree)
    (failure : Found → Option BatchError) : Prop where
  source : ∀ f ∈ sourceFiles s t, ∃ text, t.get? f.address = some (.file text) ∧
    Settled o t t' f text (failure f)
  frame : ∀ b, (∀ f ∈ sourceFiles s t, ¬ Touches f b) → t'.get? b = t.get? b
  twins : ∀ b e, Twin.isDevName b.name = true → t.get? b = some e → t'.get? b = some e

theorem sourcesLaw_minifySources (o : Options) (s : Scope) (t : Tree) :
    SourcesLaw o s t (minifySources o s t).2 fun f => (minifyFile o t f).1.failure := by
  obtain ⟨-, hresults, hframe⟩ := sweep_of_confined (confined_sourceFiles o s t) t
  have hsource : ∀ f ∈ sourceFiles s t, ∃ text, t.get? f.address = some (.file text) ∧
      Settled o t (minifySources o s t).2 f text (minifyFile o t f).1.failure := by
    intro f hf
    obtain ⟨root, a, text, -, htext, -, ha, rfl⟩ := mem_sourceFiles_iff.mp hf
    exact ⟨text, htext, (settled_minifyFile o ha htext).congr (hresults _ hf)⟩
  refine ⟨hsource, hframe, ?_⟩
  intro b e hdev hget
  by_cases hb : ∃ f ∈ sourceFiles s t, Touches f b
  · obtain ⟨f, hf, hb⟩ := hb
    obtain ⟨text, -, hcases⟩ := hsource f hf
    have hf' : AtSource f.address := (List.mem_filter.mp hf).2
    rcases hb with rfl | rfl
    · exact absurd hdev (by simp [Twin.not_isDevName_of_isSourceName hf'])
    · rcases hcases with ⟨out, hready, -⟩ | ⟨_, -, -, htwin, -⟩
      · rw [hready.swappable.vacant] at hget
        cases hget
      · rw [htwin, hget]
  · refine (hframe b fun f hf htouch => hb ⟨f, hf, htouch⟩).trans hget

end Batch

/-! ### Runs on the path of a directory -/

theorem minifyTree_eq_ok {t : Tree} {start : Dir} {root : Path} {o : BatchOptions}
    {run : Batch.Run} (hundo : o.undo = false) (h : minifyTree t start root o = .ok run) :
    ∃ s, openScope t start root o.recursive = .ok s ∧
      run = ⟨(Batch.restore s t).1, (Batch.minifySources o.minify s (Batch.restore s t).2).1,
        (Batch.minifySources o.minify s (Batch.restore s t).2).2⟩ := by
  obtain ⟨s, hscope, rfl⟩ := exists_scope_of_minifyTree h
  exact ⟨s, hscope, Batch.run_of_not_undo hundo s t⟩

/-- **The scope is opened again behind restoring.** -/
theorem openScope_restore {t : Tree} {start : Dir} {root : Path} {recursive : Bool} {s : Scope}
    (h : openScope t start root recursive = .ok s) :
    openScope (Batch.restore s t).2 start root recursive = .ok s := by
  by_cases hdir : s.dir = none
  · -- the path leads to a file, and there is nothing to restore
    have hnone : Batch.devFiles s t = [] := by
      rw [Batch.devFiles, Scope.files, Scope.members, hdir]
      rfl
    rw [Batch.restore, hnone]
    exact h
  · exact (Batch.sameWays_restore s t).openScope_eq h hdir

/-- **What a run does to the sources of its scope**, in the tree that restoring leaves.  A source
that is ready is minified and its text saved as a new twin; any other is left as it is with one
failure; all else stays.  The sources can be taken in any order. -/
theorem minifyTree_sources {t : Tree} {start : Dir} {root : Path} {o : BatchOptions}
    {run : Batch.Run} (hundo : o.undo = false) (h : minifyTree t start root o = .ok run) :
    ∃ s t₁ failure, openScope t start root o.recursive = .ok s ∧ t₁ = (Batch.restore s t).2 ∧
      openScope t₁ start root o.recursive = .ok s ∧
      ((Batch.sourceFiles s t₁).map Found.address).Nodup ∧
      (∀ f, f ∈ Batch.sourceFiles s t₁ ↔
        ∃ root a text, s.dir = some root ∧ t₁.get? a = some (.file text) ∧
          Scope.covers root s.recursive a.dir = true ∧ Twin.AtSource a ∧ f = s.foundAt root a) ∧
      Batch.SourcesLaw o.minify s t₁ run.tree failure ∧
      run.report.failures = run.restored.filterMap Batch.Restored.failure ++
        (Batch.sourceFiles s t₁).filterMap failure ∧
      ∀ fs, (Batch.sourceFiles s t₁).Perm fs →
        run.tree.Same (Batch.sweep (Batch.minifyFile o.minify) t₁ fs).2 ∧
        (Batch.sweep (Batch.minifyFile o.minify) t₁ fs).1.filterMap Batch.Minified.failure
          = fs.filterMap failure := by
  obtain ⟨s, hscope, rfl⟩ := minifyTree_eq_ok hundo h
  have hconfined := Batch.confined_sourceFiles o.minify s (Batch.restore s t).2
  refine ⟨s, (Batch.restore s t).2, _, hscope, rfl, openScope_restore hscope,
    Batch.nodup_sourceFiles _ _, fun f => Batch.mem_sourceFiles_iff,
    Batch.sourcesLaw_minifySources o.minify s _, ?_, ?_⟩
  · rw [Batch.failures_report, Batch.minifySources, (Batch.sweep_of_confined hconfined _).1,
      List.filterMap_map]
    rfl
  · intro fs hperm
    refine ⟨Batch.sweep_perm hconfined hperm fun _ => rfl, ?_⟩
    rw [(Batch.sweep_of_confined (hconfined.perm hperm) _).1, List.filterMap_map]
    rfl

/-- The directory `d` with two scripts; the name of the second one's twin is a link to nothing. -/
def takenTwin : Tree where
  entries := [(⟨[], utf8 "d"⟩, .dir), (⟨[utf8 "d"], utf8 "a.js"⟩, .file (utf8 "a  b")),
    (⟨[utf8 "d"], utf8 "b.js"⟩, .file (utf8 "b  c")),
    (⟨[utf8 "d"], utf8 "b-dev.js"⟩, .link (utf8 "nowhere"))]
  nodup := by decide
  rooted := by decide
  named := by decide

/-- The link stays, and the script beside it is left with a failure. -/
theorem minifyTree_sources_of_taken_twin :
    ∃ run s failure, minifyTree takenTwin [] (utf8 "d") {} = .ok run ∧
      openScope takenTwin [] (utf8 "d") false = .ok s ∧
      Batch.SourcesLaw {} s takenTwin run.tree failure ∧
      run.report.failures = (Batch.sourceFiles s takenTwin).filterMap failure ∧
      (Batch.sourceFiles s takenTwin).length = 2 := by
  let s : Scope := ⟨some [utf8 "d"], utf8 "d", false, Tree.maxLinks⟩
  have hscope : openScope takenTwin [] (utf8 "d") false = .ok s :=
    openScope_of_top (by decide) rfl rfl (by decide)
  have hfiles : s.files takenTwin
      = ["a.js", "b.js"].map fun n => s.foundAt [utf8 "d"] ⟨[utf8 "d"], utf8 n⟩ :=
    Scope.members_of_pairwise rfl rfl (by decide)
  have htwins : Batch.devFiles s takenTwin = [] := by
    rw [Batch.devFiles, hfiles]
    decide +kernel
  have hlength : (Batch.sourceFiles s takenTwin).length = 2 := by
    rw [Batch.sourceFiles, hfiles]
    decide +kernel
  have hrestore : Batch.restore s takenTwin = ([], takenTwin) := by
    rw [Batch.restore, htwins]
    rfl
  have h : minifyTree takenTwin [] (utf8 "d") {} = .ok (Batch.run {} s takenTwin) :=
    minifyTree_of_openScope hscope
  obtain ⟨s', t₁, failure, hscope', rfl, -, -, -, hlaw, hfailures, -⟩ := minifyTree_sources rfl h
  obtain rfl := Except.ok.inj (hscope.symm.trans hscope')
  have hrestored : (Batch.run {} s takenTwin).restored = (Batch.restore s takenTwin).1 := rfl
  rw [hrestored, hrestore, List.filterMap_nil, List.nil_append] at hfailures
  rw [hrestore] at hlaw
  exact ⟨_, s, failure, h, hscope, hlaw, hfailures, hlength⟩

/-- **A source under a path that is too long is not minified**, though its text can be minified and
nothing has the name of its twin. -/
theorem minifyTree_of_long_path :
    Batch.Swappable {} oneScript script (utf8 "a  b") (utf8 "a b") ∧
      (Batch.restore (windingScope 2045) oneScript).2 = oneScript ∧
      ∃ run, minifyTree oneScript [] (Path.winding 2045) {} = .ok run ∧
        run.tree.get? script = some (.file (utf8 "a  b")) := by
  have hscope := openScope_winding (n := 2045) (by decide)
  have hrestore : (Batch.restore (windingScope 2045) oneScript).2 = oneScript := by
    rw [Batch.restore, Batch.devFiles_eq_nil (no_twins_winding 2045)]
    rfl
  have h : minifyTree oneScript [] (Path.winding 2045) {}
      = .ok (Batch.run {} (windingScope 2045) oneScript) := minifyTree_of_openScope hscope
  have hmem : (windingScope 2045).foundAt [utf8 "d"] script
      ∈ Batch.sourceFiles (windingScope 2045) oneScript :=
    Batch.mem_sourceFiles_iff.mpr
      ⟨[utf8 "d"], script, utf8 "a  b", rfl, swappable_script.source, rfl, script_atSource, rfl⟩
  have hlong : Tree.tooLong ((windingScope 2045).foundAt [utf8 "d"] script).shown = true := by
    have hname : script.name.length = 4 := by decide
    rw [shown_winding 2045 script rfl, Tree.tooLong, List.length_append, Path.length_winding,
      hname]
    decide
  refine ⟨swappable_script, hrestore, _, h, ?_⟩
  have hlaw := Batch.sourcesLaw_minifySources {} (windingScope 2045) oneScript
  obtain ⟨text, htext, hsettled⟩ := hlaw.source _ hmem
  have htree : (Batch.run {} (windingScope 2045) oneScript).tree
      = (Batch.minifySources {} (windingScope 2045) oneScript).2 := by
    rw [Batch.run_of_no_twins rfl (no_twins_winding 2045)]
  rw [htree]
  rcases hsettled with ⟨out, hready, -⟩ | ⟨e, -, hsame, -⟩
  · rw [hready.path] at hlong
    cases hlong
  · rw [← swappable_script.source]
    exact hsame.trans htext.symm

end ScriptMinifier
