import ScriptMinifier.Proofs.Sources

/-!
# Running again

A second run begins by copying the twins of the first one back, so it starts from what the twins
hold, whatever the scripts beside them have become in the meantime.  `Batch.Owed t pending t'` says
that the tree `t'` owes the texts of `t` to the sources in `pending`: they stand at the twins there.
Restoring a twin pays for one source (`Batch.Owed.pay`), and restoring all of them gives `t` back
(`Batch.Owed.sweep`).

So a run on a directory whose twins were edited fares like one on the directory in which the sources
themselves were edited, before there were any twins (`minifyTree_of_edited_twins`).  In particular
running again with other options is like running once with them.  As when a run is undone, the twins
have to be listed under paths that are not too long (`minifyTree_again_of_long_root`).
-/

namespace ScriptMinifier

namespace Batch

open Twin (beside owner AtSource)

/-! ### Paying what is owed -/

namespace Owed

variable {t t' : Tree} {pending : List Address}

theorem same (h : Owed t [] t') : t.Same t' := fun b => h.get?_eq b (by simp) (by simp)

theorem sameWays (h : Owed t pending t') : t.SameWays t' := by
  have hplain {a : Address} (ha : a ∈ pending ∨ a ∈ pending.map beside) :
      t.IsPlain a ∧ t'.IsPlain a := by
    rcases ha with ha | ha
    · obtain ⟨text, htext, -⟩ := h.saved a ha
      exact ⟨.inr ⟨text, htext⟩, h.plain a ha⟩
    · obtain ⟨b, hb, rfl⟩ := List.mem_map.mp ha
      obtain ⟨text, -, hsaved⟩ := h.saved b hb
      exact ⟨.inl (h.vacant b hb), .inr ⟨text, hsaved⟩⟩
  have hentry {e : Entry} (he : e.isFile = false) (a : Address) :
      t'.get? a = some e ↔ t.get? a = some e := by
    by_cases ha : a ∈ pending ∨ a ∈ pending.map beside
    · obtain ⟨hnone | ⟨text, htext⟩, hnone' | ⟨text', htext'⟩⟩ := hplain ha <;>
        constructor <;> intro hget <;> simp_all [Entry.isFile]
    · rw [not_or] at ha
      rw [h.get?_eq a ha.1 ha.2]
  exact ⟨hentry rfl, fun a target => hentry rfl a⟩

theorem movable (h : Owed t pending t') {a : Address} (ha : a ∈ pending) (links : Nat) :
    ∃ text, t.get? a = some (.file text) ∧ Movable links t' (beside a) a text := by
  have hsource := h.atSource a ha
  obtain ⟨text, htext, hsaved⟩ := h.saved a ha
  have howner : owner (beside a) = a := Twin.owner_beside hsource
  refine ⟨text, htext, hsaved, ?_⟩
  rw [howner]
  exact Tree.writeTarget_of_isPlain links (h.plain a ha) (Tree.isEntryName_of_get? htext)

theorem pay (h : Owed t pending t') (hnodup : pending.Nodup) {a : Address} (ha : a ∈ pending)
    {links : Nat} {text : Bytes} (htext : t.get? a = some (.file text))
    (hmovable : Movable links t' (beside a) a text) :
    Owed t (pending.erase a) (moved t' (beside a) a text) := by
  have hget := hmovable.get?_moved
  have hsource := h.atSource a ha
  have hmem {b : Address} (hb : b ∈ pending.erase a) : b ≠ a ∧ b ∈ pending :=
    hnodup.mem_erase_iff.mp hb
  refine ⟨fun b hb => h.atSource b (hmem hb).2, fun b hb => h.vacant b (hmem hb).2, ?_, ?_, ?_⟩
  · intro b hb
    obtain ⟨hne, hb⟩ := hmem hb
    have hsource' := h.atSource b hb
    have hne' : beside b ≠ beside a := fun heq => hne (Twin.beside_inj hsource' hsource heq)
    rw [hget, if_neg hne', if_neg (Twin.ne_beside hsource hsource')]
    exact h.saved b hb
  · intro b hb
    exact hmovable.sameWays.isPlain (h.plain b (hmem hb).2)
  · intro b hb hb'
    rw [hget]
    split
    next hbeside => rw [hbeside, h.vacant a ha]
    next hbeside =>
    split
    next heq => rw [← heq, htext]
    next hne =>
      refine h.get?_eq b ?_ ?_
      · intro hpending
        exact hb (hnodup.mem_erase_iff.mpr ⟨Ne.symm hne, hpending⟩)
      · intro hpending
        obtain ⟨c, hc, rfl⟩ := List.mem_map.mp hpending
        refine hb' (List.mem_map_of_mem (hnodup.mem_erase_iff.mpr ⟨?_, hc⟩))
        rintro rfl
        exact hbeside rfl

/-- **Copying all twins back pays for all sources**, without a failure. -/
theorem sweep {fs : List Found} (h : Owed t pending t') (hnodup : pending.Nodup)
    (hfs : (fs.map Found.address).Perm (pending.map beside))
    (hshort : ∀ f ∈ fs, Tree.tooLong f.shown = false) (links : Nat) :
    t.Same (Batch.sweep (restoreFile links) t' fs).2 ∧
      ∀ r ∈ (Batch.sweep (restoreFile links) t' fs).1, r.failure = none := by
  induction fs generalizing t' pending with
  | nil =>
    obtain rfl : pending = [] := List.map_eq_nil_iff.mp hfs.nil_eq.symm
    exact ⟨h.same, by simp [Batch.sweep]⟩
  | cons f fs ih =>
    have hmem : f.address ∈ pending.map beside := hfs.mem_iff.mp List.mem_cons_self
    obtain ⟨a, ha, haf⟩ := List.mem_map.mp hmem
    obtain ⟨text, htext, hmovable⟩ := h.movable ha links
    have hpay := h.pay hnodup ha htext hmovable
    have hdev : Twin.isDevName f.address.name = true :=
      haf ▸ Twin.isDevName_beside (h.atSource a ha)
    have hrest : (fs.map Found.address).Perm ((pending.erase a).map beside) := by
      have hperm := (List.perm_cons_erase ha).map beside
      rw [List.map_cons, haf] at hperm
      exact (hfs.trans hperm).cons_inv
    rw [haf] at hpay hmovable
    have hstep := restoreFile_of_movable hdev hmovable (hshort f List.mem_cons_self)
    obtain ⟨htree, hfailures⟩ :=
      ih hpay (hnodup.erase a) hrest fun g hg => hshort g (List.mem_cons_of_mem f hg)
    simp only [Batch.sweep, hstep]
    refine ⟨htree, ?_⟩
    intro r hr
    rcases List.mem_cons.mp hr with rfl | hr
    · rfl
    · exact hfailures r hr

/-- **The scope is opened in a tree that owes texts as in the other.**  Only a path to a directory
has sources, and files do not stand in its way. -/
theorem openScope_eq (h : Owed t pending t') {start : Dir} {root : Path} {recursive : Bool}
    {s : Scope} (hscope : openScope t start root recursive = .ok s)
    (hpending : s.dir = none → pending = []) : openScope t' start root recursive = .ok s := by
  by_cases hdir : s.dir = none
  · obtain rfl := hpending hdir
    exact openScope_of_sameShape h.same.sameShape hscope
  · exact h.sameWays.openScope_eq hscope hdir

end Owed

/-! ### Edits between two runs -/

def minifiedSources (s : Scope) (t : Tree) (r : Run) : List Address :=
  ((sourceFiles s t).zip r.minified).filterMap fun p =>
    if p.2.failure = none then some p.1.address else none

/-- `t'` is `t` with the text `e a` at every address `a` of `edited`. -/
def Edited (edited : List Address) (e : Address → Bytes) (t t' : Tree) : Prop :=
  ∀ a, t'.get? a = if a ∈ edited then some (.file (e a)) else t.get? a

/-- `t'` is `t` with the text `e a` at the twin of every source `a` of `edited`; the sources
themselves may be gone or hold anything. -/
structure TwinsEdited (edited : List Address) (e : Address → Bytes) (t t' : Tree) : Prop where
  twin : ∀ a ∈ edited, t'.get? (beside a) = some (.file (e a))
  source : ∀ a ∈ edited, t'.IsPlain a
  frame : ∀ b, b ∉ edited → b ∉ edited.map beside → t'.get? b = t.get? b

section

variable {o : Options} {s : Scope} {t t₁ : Tree} {r : Run}

theorem minifiedSources_eq (hr : r.minified = (minifySources o s t).1) :
    minifiedSources s t r
      = ((sourceFiles s t).filter fun f => decide ((minifyFile o t f).1.failure = none)).map
          Found.address := by
  rw [minifiedSources, hr, minifySources, (sweep_of_confined (confined_sourceFiles o s t) t).1]
  induction sourceFiles s t with
  | nil => rfl
  | cons f fs ih =>
    rw [List.map_cons, List.zip_cons_cons, List.filterMap_cons, List.filter_cons, ih]
    by_cases hf : (minifyFile o t f).1.failure = none <;> simp [hf]

theorem mem_minifiedSources_iff (hr : r.minified = (minifySources o s t).1) {a : Address} :
    a ∈ minifiedSources s t r ↔
      ∃ f ∈ sourceFiles s t, (minifyFile o t f).1.failure = none ∧ f.address = a := by
  simp [minifiedSources_eq hr, and_assoc]

theorem nodup_minifiedSources (hr : r.minified = (minifySources o s t).1) :
    (minifiedSources s t r).Nodup := by
  rw [minifiedSources_eq hr]
  exact (nodup_sourceFiles s t).sublist (List.filter_sublist.map Found.address)

theorem swapped_of_mem_minifiedSources (hr : r.minified = (minifySources o s t).1) {a : Address}
    (ha : a ∈ minifiedSources s t r) : Swapped t (minifySources o s t).2 a := by
  obtain ⟨f, hf, hnone, rfl⟩ := (mem_minifiedSources_iff hr).mp ha
  obtain ⟨text, htext, ⟨out, hready, hout, htwin, -⟩ | ⟨e, -, -, -, he⟩⟩ :=
    (sourcesLaw_minifySources o s t).source f hf
  · exact ⟨(List.mem_filter.mp hf).2, hready.swappable.vacant, ⟨text, htext, htwin⟩, ⟨out, hout⟩⟩
  · rw [hnone] at he
    cases he

theorem get?_of_notMem_minifiedSources (hr : r.minified = (minifySources o s t).1) {b : Address}
    (hb : b ∉ minifiedSources s t r) (hb' : b ∉ (minifiedSources s t r).map beside) :
    (minifySources o s t).2.get? b = t.get? b := by
  have hlaw := sourcesLaw_minifySources o s t
  by_cases htouch : ∃ f ∈ sourceFiles s t, Touches f b
  · obtain ⟨f, hf, htouch⟩ := htouch
    obtain ⟨text, htext, ⟨out, -, -, -, hnone⟩ | ⟨e, -, hsource, htwin, -⟩⟩ := hlaw.source f hf
    · -- a source that was minified is no candidate
      have hmem := (mem_minifiedSources_iff hr).mpr ⟨f, hf, hnone, rfl⟩
      rcases htouch with rfl | rfl
      · exact absurd hmem hb
      · exact absurd (List.mem_map_of_mem hmem) hb'
    · rcases htouch with rfl | rfl
      · rw [hsource, htext]
      · exact htwin
  · exact hlaw.frame b fun f hf hb => htouch ⟨f, hf, hb⟩

/-- **The tree with edited twins owes the edited texts to the sources.** -/
theorem owed_of_edited (hr : r.minified = (minifySources o s t).1) {e : Address → Bytes}
    {te t₂ : Tree} (he : Edited (minifiedSources s t r) e t te)
    (h₂ : TwinsEdited (minifiedSources s t r) e (minifySources o s t).2 t₂) :
    Owed te (minifiedSources s t r) t₂ := by
  have hswapped := fun a ha => swapped_of_mem_minifiedSources hr (a := a) ha
  refine ⟨fun a ha => (hswapped a ha).atSource, ?_, ?_, h₂.source, ?_⟩
  · intro a ha
    have hbeside : beside a ∉ minifiedSources s t r := by
      intro hmem
      exact Twin.ne_beside (hswapped _ hmem).atSource (hswapped a ha).atSource rfl
    rw [he, if_neg hbeside, (hswapped a ha).vacant]
  · intro a ha
    exact ⟨e a, by rw [he, if_pos ha], h₂.twin a ha⟩
  · intro b hb hb'
    rw [h₂.frame b hb hb', get?_of_notMem_minifiedSources hr hb hb', he, if_neg hb]

theorem Edited.sameShape {edited : List Address} {e : Address → Bytes} {te : Tree}
    (h : Edited edited e t te) (hfile : ∀ a ∈ edited, ∃ text, t.get? a = some (.file text)) :
    t.SameShape te := by
  have hget {a : Address} (ha : a ∈ edited) :
      ∃ text, t.get? a = some (.file text) ∧ te.get? a = some (.file (e a)) := by
    obtain ⟨text, htext⟩ := hfile a ha
    exact ⟨text, htext, by rw [h, if_pos ha]⟩
  constructor
  · intro a
    by_cases ha : a ∈ edited
    · obtain ⟨text, htext, hedited⟩ := hget ha
      simp [htext, hedited]
    · rw [h, if_neg ha]
  · intro a target hlink
    by_cases ha : a ∈ edited
    · obtain ⟨text, htext, -⟩ := hget ha
      simp [htext] at hlink
    · rw [h, if_neg ha, hlink]
  · intro a data hdata
    by_cases ha : a ∈ edited
    · exact ⟨e a, (hget ha).choose_spec.2⟩
    · exact ⟨data, by rw [h, if_neg ha, hdata]⟩

end

/-! ### The second run -/

theorem minifySources_of_same (o : Options) (s : Scope) {t t' : Tree} (h : t.Same t') :
    (minifySources o s t').1 = (minifySources o s t).1 ∧
      (minifySources o s t).2.Same (minifySources o s t').2 := by
  have hfiles : sourceFiles s t' = sourceFiles s t := by
    rw [sourceFiles, sourceFiles, Scope.files, Scope.files, Scope.members_of_same h]
  have hconfined := confined_sourceFiles o s t
  rw [minifySources, minifySources, hfiles]
  refine ⟨?_, sweep_perm hconfined (.refl _) h⟩
  rw [(sweep_of_confined hconfined t).1, (sweep_of_confined hconfined t').1]
  exact List.map_congr_left fun f hf => hconfined.outcome f hf t t' fun b _ => h b

/-- The run `r` left the tree that `r'` left and fared with the sources as `r'` did, after it had
restored `restored` twins. -/
structure Run.FaresLike (r r' : Run) (restored : Nat) : Prop where
  tree : r'.tree.Same r.tree
  minified : r.minified = r'.minified
  report : r.report = { r'.report with restored := restored }

/-- **A run pays what is owed and goes on as if nothing had been.** -/
theorem run_of_owed {o : BatchOptions} {s : Scope} {t t' : Tree} {pending : List Address}
    (hundo : o.undo = false) (h : Owed t pending t') (hnodup : pending.Nodup)
    (hdev : ∀ f ∈ s.files t, Twin.isDevName f.address.name = false)
    (hscope : ∀ a ∈ pending, ∃ f ∈ s.files t, f.address = a)
    (hshort : ∀ f ∈ devFiles s t', Tree.tooLong f.shown = false) :
    (run o s t').FaresLike (run o s t) pending.length := by
  have htwins := h.perm_devFiles hnodup hdev hscope
  obtain ⟨hsame, hnone⟩ := h.sweep hnodup htwins hshort s.links
  obtain ⟨hminified, htree⟩ := minifySources_of_same o.minify s hsame
  have hrun := run_of_not_undo hundo s t'
  have hrestored : (run o s t').report.restored = pending.length := by
    have hlength := htwins.length_eq
    rw [List.length_map, List.length_map] at hlength
    have hall : ∀ r ∈ (restore s t').1, r.failure.isNone = true := by
      intro r hr
      rw [hnone r hr]
      rfl
    rw [restored_report, hrun, List.countP_eq_length.mpr hall, restore, length_sweep, hlength]
  have hreport : (run o s t').report = { (run o s t).report with
      restored := (run o s t').report.restored } := by
    rw [run_of_no_twins hundo hdev, hrun]
    refine report_eq_of_minified hminified ?_
    exact List.filterMap_eq_nil_iff.mpr hnone
  rw [hrestored] at hreport
  refine ⟨?_, ?_, hreport⟩
  · rw [run_of_no_twins hundo hdev, hrun]
    exact htree
  · rw [run_of_no_twins hundo hdev, hrun]
    exact hminified

section

variable {o : Options} {s : Scope} {t t₁ te t₂ : Tree} {edited : List Address}
  {e : Address → Bytes}

theorem Edited.no_twins (h : Edited edited e t te) (hsource : ∀ a ∈ edited, AtSource a)
    (hdev : ∀ f ∈ s.files t, Twin.isDevName f.address.name = false) :
    ∀ f ∈ s.files te, Twin.isDevName f.address.name = false := by
  intro f hf
  obtain ⟨root, a, text, hdir, hget, hcovers, rfl⟩ := Scope.mem_files_iff.mp hf
  by_cases ha : a ∈ edited
  · exact Twin.not_isDevName_of_isSourceName (hsource a ha)
  · rw [h, if_neg ha] at hget
    exact hdev _ (Scope.mem_files_iff.mpr ⟨root, a, text, hdir, hget, hcovers, rfl⟩)

theorem Edited.mem_files (h : Edited edited e t te) {f : Found} (hf : f ∈ s.files t)
    (hedited : f.address ∈ edited) : f ∈ s.files te := by
  obtain ⟨root, a, text, hdir, -, hcovers, rfl⟩ := Scope.mem_files_iff.mp hf
  refine Scope.mem_files_iff.mpr ⟨root, a, e a, hdir, ?_, hcovers, rfl⟩
  rw [h, if_pos (show a ∈ edited from hedited)]

theorem TwinsEdited.mem_devFiles (h : TwinsEdited edited e t₁ t₂)
    (hswapped : ∀ a ∈ edited, Swapped t t₁ a) {f : Found} (hf : f ∈ devFiles s t₂) :
    f ∈ devFiles s t₁ := by
  rw [devFiles, List.mem_filter] at hf ⊢
  refine ⟨?_, hf.2⟩
  obtain ⟨root, a, text, hdir, hget, hcovers, rfl⟩ := Scope.mem_files_iff.mp hf.1
  have hname : Twin.isDevName a.name = true := hf.2
  have hold : ∃ text, t₁.get? a = some (.file text) := by
    by_cases hbeside : a ∈ edited.map beside
    · obtain ⟨b, hb, rfl⟩ := List.mem_map.mp hbeside
      obtain ⟨text, -, hsaved⟩ := (hswapped b hb).saved
      exact ⟨text, hsaved⟩
    · have hsource : a ∉ edited := by
        intro ha
        rw [Twin.not_isDevName_of_isSourceName (hswapped a ha).atSource] at hname
        cases hname
      rw [h.frame a hsource hbeside] at hget
      exact ⟨text, hget⟩
  obtain ⟨text, htext⟩ := hold
  exact Scope.mem_files_iff.mpr ⟨root, a, text, hdir, htext, hcovers, rfl⟩

end

/-- **A run on edited twins fares like one on edited sources.** -/
theorem faresLike_of_edited {o : Options} {o₂ : BatchOptions} {s : Scope} {t te t₂ : Tree} {r : Run}
    {e : Address → Bytes} (hundo : o₂.undo = false) (hr : r.minified = (minifySources o s t).1)
    (hdev : ∀ f ∈ s.files t, Twin.isDevName f.address.name = false)
    (hshort : ∀ f ∈ devFiles s (minifySources o s t).2, Tree.tooLong f.shown = false)
    (he : Edited (minifiedSources s t r) e t te)
    (h₂ : TwinsEdited (minifiedSources s t r) e (minifySources o s t).2 t₂) :
    (run o₂ s t₂).FaresLike (run o₂ s te) (minifiedSources s t r).length := by
  have hswapped := fun a ha => swapped_of_mem_minifiedSources hr (a := a) ha
  refine run_of_owed hundo (owed_of_edited hr he h₂) (nodup_minifiedSources hr)
    (he.no_twins (fun a ha => (hswapped a ha).atSource) hdev) ?_
    fun f hf => hshort f (h₂.mem_devFiles hswapped hf)
  intro a ha
  obtain ⟨f, hf, -, rfl⟩ := (mem_minifiedSources_iff hr).mp ha
  exact ⟨f, he.mem_files (List.mem_filter.mp hf).1 ha, rfl⟩

theorem exists_unedited {o : Options} {s : Scope} {t : Tree} {r : Run}
    (hr : r.minified = (minifySources o s t).1) :
    ∃ e, Edited (minifiedSources s t r) e t t ∧
      TwinsEdited (minifiedSources s t r) e (minifySources o s t).2 (minifySources o s t).2 := by
  have hsaved : ∀ a, ∃ text, a ∈ minifiedSources s t r →
      t.get? a = some (.file text) ∧
        (minifySources o s t).2.get? (beside a) = some (.file text) := by
    intro a
    by_cases ha : a ∈ minifiedSources s t r
    · obtain ⟨text, htext⟩ := (swapped_of_mem_minifiedSources hr ha).saved
      exact ⟨text, fun _ => htext⟩
    · exact ⟨[], fun h => absurd h ha⟩
  choose e he using hsaved
  refine ⟨e, ?_, fun a ha => (he a ha).2, ?_, fun _ _ _ => rfl⟩
  · intro a
    by_cases ha : a ∈ minifiedSources s t r
    · rw [if_pos ha, (he a ha).1]
    · rw [if_neg ha]
  · intro a ha
    exact .inr (swapped_of_mem_minifiedSources hr ha).replaced

end Batch

/-! ### Runs on the path of a directory -/

theorem minifyTree_of_edited {t te t₂ : Tree} {start : Dir} {root : Path} {o : Options}
    {o₂ : BatchOptions} {s : Scope} {r : Batch.Run} {e : Address → Bytes} (hundo : o₂.undo = false)
    (hscope : openScope t start root o₂.recursive = .ok s)
    (hr : r.minified = (Batch.minifySources o s t).1)
    (hdev : ∀ f ∈ s.files t, Twin.isDevName f.address.name = false)
    (hshort : ∀ f ∈ Batch.devFiles s (Batch.minifySources o s t).2, Tree.tooLong f.shown = false)
    (he : Batch.Edited (Batch.minifiedSources s t r) e t te)
    (h₂ : Batch.TwinsEdited (Batch.minifiedSources s t r) e (Batch.minifySources o s t).2 t₂) :
    ∃ run₂ runₑ, minifyTree t₂ start root o₂ = .ok run₂ ∧ minifyTree te start root o₂ = .ok runₑ ∧
      run₂.FaresLike runₑ (Batch.minifiedSources s t r).length := by
  have hfile : ∀ a ∈ Batch.minifiedSources s t r, ∃ text, t.get? a = some (.file text) := by
    intro a ha
    obtain ⟨text, htext, -⟩ := (Batch.swapped_of_mem_minifiedSources hr ha).saved
    exact ⟨text, htext⟩
  have hnone : s.dir = none → Batch.minifiedSources s t r = [] := by
    intro hdir
    rw [Batch.minifiedSources, Batch.sourceFiles, Scope.files, Scope.members, hdir]
    rfl
  have hscopeₑ := openScope_of_sameShape (he.sameShape hfile) hscope
  have hscope₂ := (Batch.owed_of_edited hr he h₂).openScope_eq hscopeₑ hnone
  exact ⟨_, _, minifyTree_of_openScope hscope₂, minifyTree_of_openScope hscopeₑ,
    Batch.faresLike_of_edited hundo hr hdev hshort he h₂⟩

/-- **Running again starts from the twins.**  Let there be no dev twin in the scope, and let no twin
that the first run makes be listed under a path that is too long.  Edit the twins of the sources
that were minified, and do to these sources what you like: a run then leaves the tree, and fares
with the sources, as a run on the first tree with the edits made to the sources; and it restores
every source that the first run had minified. -/
theorem minifyTree_of_edited_twins {t : Tree} {start : Dir} {root : Path} {recursive : Bool}
    {o₁ : Options} {run₁ : Batch.Run} {s : Scope}
    (hscope : openScope t start root recursive = .ok s)
    (hdev : ∀ f ∈ s.files t, Twin.isDevName f.address.name = false)
    (h₁ : minifyTree t start root { recursive, minify := o₁ } = .ok run₁)
    (hshort : ∀ f ∈ Batch.devFiles s run₁.tree, Tree.tooLong f.shown = false) (o₂ : Options) :
    (Batch.minifiedSources s t run₁).Nodup ∧
      (∀ e te t₂, Batch.Edited (Batch.minifiedSources s t run₁) e t te →
        Batch.TwinsEdited (Batch.minifiedSources s t run₁) e run₁.tree t₂ →
        ∃ run₂ runₑ, minifyTree t₂ start root { recursive, minify := o₂ } = .ok run₂ ∧
          minifyTree te start root { recursive, minify := o₂ } = .ok runₑ ∧
          run₂.FaresLike runₑ (Batch.minifiedSources s t run₁).length) ∧
      ∃ run₂ runₑ, minifyTree run₁.tree start root { recursive, minify := o₂ } = .ok run₂ ∧
        minifyTree t start root { recursive, minify := o₂ } = .ok runₑ ∧
        run₂.FaresLike runₑ (Batch.minifiedSources s t run₁).length := by
  obtain rfl := Except.ok.inj ((minifyTree_of_openScope hscope).symm.trans h₁)
  have hrun := Batch.run_of_no_twins (o := { recursive, minify := o₁ }) rfl hdev
  have hr := congrArg Batch.Run.minified hrun
  have htree : (Batch.run { recursive, minify := o₁ } s t).tree = (Batch.minifySources o₁ s t).2 :=
    congrArg Batch.Run.tree hrun
  rw [htree] at hshort ⊢
  obtain ⟨e, he, h₂⟩ := Batch.exists_unedited hr
  refine ⟨Batch.nodup_minifiedSources hr, ?_, ?_⟩
  · intro e te t₂ he h₂
    exact minifyTree_of_edited rfl hscope hr hdev hshort he h₂
  · exact minifyTree_of_edited rfl hscope hr hdev hshort he h₂

/-! ### One script -/

theorem minifiedSources_winding {n : Nat} (h : 2 * n + 6 < Tree.maxPath) :
    Batch.minifiedSources (windingScope n) oneScript (Batch.run {} (windingScope n) oneScript)
      = [script] := by
  have hr : (Batch.run {} (windingScope n) oneScript).minified
      = (Batch.minifySources {} (windingScope n) oneScript).1 := by
    rw [Batch.run_of_no_twins rfl (no_twins_winding n)]
  rw [Batch.minifiedSources_eq hr, sourceFiles_winding,
    List.filter_cons_of_pos (by simpa using (minifyFile_winding h).2)]
  rfl

def edit (_ : Address) : Bytes := utf8 "c  d"

def editedScript : Tree := oneScript.put script (.file (utf8 "c  d"))

/-- The directory with the edit made to the twin, after the script was minified and removed. -/
def editedTwin : Tree :=
  (minifiedScript.put (Twin.beside script) (.file (utf8 "c  d"))).remove script

theorem edited_editedScript : Batch.Edited [script] edit oneScript editedScript := by
  intro a
  rw [editedScript, Tree.get?_put (Tree.accepts_of_file swappable_script.source)]
  simp [edit, eq_comm]

theorem twinsEdited_editedTwin : Batch.TwinsEdited [script] edit minifiedScript editedTwin := by
  have hne := Twin.ne_beside script_atSource script_atSource
  have hswap := swappable_script.get?_swap script_atSource
  have htwin : minifiedScript.get? (Twin.beside script) = some (.file (utf8 "a  b")) := by
    rw [minifiedScript, hswap, if_neg hne, if_pos rfl]
  have hscript : minifiedScript.get? script = some (.file (utf8 "a b")) := by
    rw [minifiedScript, hswap, if_pos rfl]
  have hput := Tree.get?_put (Tree.accepts_of_file htwin) (.file (utf8 "c  d"))
  have hget (b : Address) : editedTwin.get? b = if b = script then none
      else if Twin.beside script = b then some (.file (utf8 "c  d"))
      else minifiedScript.get? b := by
    rw [editedTwin, Tree.get?_remove_of_ne_dir, hput]
    rw [hput, if_neg (Ne.symm hne), hscript]
    simp
  refine ⟨?_, ?_, ?_⟩
  · intro a ha
    rw [List.mem_singleton.mp ha, hget, if_neg (Ne.symm hne), if_pos rfl]
    rfl
  · intro a ha
    rw [List.mem_singleton.mp ha]
    exact .inl (by rw [hget, if_pos rfl])
  · intro b hb hb'
    rw [List.mem_singleton] at hb
    rw [List.map_singleton, List.mem_singleton] at hb'
    rw [hget, if_neg hb, if_neg (Ne.symm hb')]

/-- The script is removed and its twin edited, and the next run starts from the twin. -/
theorem minifyTree_of_edited_twin :
    ∃ run₂ runₑ, minifyTree editedTwin [] (Path.winding 0) {} = .ok run₂ ∧
      minifyTree editedScript [] (Path.winding 0) {} = .ok runₑ ∧ run₂.FaresLike runₑ 1 := by
  have hpath : 2 * 0 + 6 < Tree.maxPath := by decide
  have htree := tree_run_winding hpath
  have hmem := minifiedSources_winding hpath
  have hshort : ∀ f ∈ Batch.devFiles (windingScope 0)
      (Batch.run {} (windingScope 0) oneScript).tree, Tree.tooLong f.shown = false := by
    intro f hf
    rw [htree] at hf
    rw [mem_devFiles_winding.mp hf, tooLong_twin_winding]
    decide
  obtain ⟨-, hedits, -⟩ := minifyTree_of_edited_twins (openScope_winding (by decide))
    (no_twins_winding 0) (minifyTree_winding hpath) hshort {}
  rw [htree, hmem] at hedits
  exact hedits edit editedScript editedTwin edited_editedScript twinsEdited_editedTwin

/-- **A path can be too long to start from the twins under it.**  The script is minified, but its
twin is listed under a path of 4098 bytes, so the next run does not restore it. -/
theorem minifyTree_again_of_long_root :
    (∀ f ∈ (windingScope 2044).files oneScript, Twin.isDevName f.address.name = false) ∧
    ∃ run₁ run₂, openScope oneScript [] (Path.winding 2044) false = .ok (windingScope 2044) ∧
      minifyTree oneScript [] (Path.winding 2044) {} = .ok run₁ ∧
      minifyTree run₁.tree [] (Path.winding 2044) {} = .ok run₂ ∧
      (Batch.minifiedSources (windingScope 2044) oneScript run₁).length = 1 ∧
      run₂.report.restored = 0 := by
  have hpath : 2 * 2044 + 6 < Tree.maxPath := by decide
  have hscope := openScope_minified hpath
  refine ⟨no_twins_winding 2044, Batch.run {} (windingScope 2044) oneScript,
    Batch.run {} (windingScope 2044) minifiedScript, openScope_winding (by decide),
    minifyTree_winding hpath, ?_, ?_, ?_⟩
  · rw [tree_run_winding hpath]
    exact minifyTree_of_openScope hscope
  · rw [minifiedSources_winding hpath]
    rfl
  · have hlong : Tree.tooLong
        ((windingScope 2044).foundAt [utf8 "d"] (Twin.beside script)).shown = true := by
      rw [tooLong_twin_winding]
      decide
    have hrestored : (Batch.run {} (windingScope 2044) minifiedScript).restored
        = (Batch.restore (windingScope 2044) minifiedScript).1 := rfl
    rw [Batch.restored_report, hrestored, List.countP_eq_zero]
    intro r hr
    obtain ⟨f, hf, t', rfl⟩ := Batch.exists_of_mem_sweep hr
    have hdev := Batch.isDevName_of_mem_devFiles hf
    have hfailure := Batch.restoreFile_of_tooLong (windingScope 2044).links t' hdev
      (mem_devFiles_winding.mp hf ▸ hlong)
    rw [← Option.not_isSome, hfailure]
    decide

end ScriptMinifier
