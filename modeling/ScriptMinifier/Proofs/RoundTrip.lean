import Mathlib.Algebra.GroupWithZero.Nat
import Mathlib.Data.List.Basic
import ScriptMinifier.Proofs.Exchange
import ScriptMinifier.Proofs.Paths

/-!
# Undoing a run

A run that minifies a directory exchanges its sources with twins, and undoing it copies the twins
back.  The twins are listed anew, so they have to be found again: a run leaves the shape of the tree
(`Batch.Exchanged.sameShape`), and the twins in the scope are those of the exchanged sources
(`Batch.perm_devFiles`).  So undoing gives back the tree that the run began with
(`restoreTree_of_minifyTree`), if the twins can be opened under the paths at which they are listed.

That is not always so.  The path of a twin is written in the shortest way when the twin is made, but
it is listed behind the path of the directory as that was given, and there it can be too long
(`restoreTree_of_long_root`).
-/

namespace ScriptMinifier

namespace Batch

open Twin (beside AtSource)

/-! ### Whole phases -/

theorem length_sweep {α : Type} (step : Tree → Found → α × Tree) (t : Tree) (fs : List Found) :
    (sweep step t fs).1.length = fs.length := by
  induction fs generalizing t with
  | nil => rfl
  | cons f fs ih => simp [sweep, ih]

/-- **Minifying sources exchanges those that succeed**, and the report counts them. -/
theorem exchanged_sweep {o : Options} {t t' : Tree} {pending : List Address} {fs : List Found}
    (h : Exchanged t pending t') (hsource : ∀ f ∈ fs, AtSource f.address)
    (hnodup : (fs.map Found.address).Nodup) (hnew : ∀ f ∈ fs, f.address ∉ pending) :
    ∃ added, Exchanged t (pending ++ added) (sweep (minifyFile o) t' fs).2 ∧
      (∀ a ∈ added, ∃ f ∈ fs, f.address = a) ∧
      ((sweep (minifyFile o) t' fs).1.map fun p => p.report.minified).sum = added.length := by
  induction fs generalizing t' pending with
  | nil => exact ⟨[], by simpa [sweep] using h, by simp, rfl⟩
  | cons f fs ih =>
    rw [List.map_cons, List.nodup_cons] at hnodup
    have hsource' := fun g hg => hsource g (List.mem_cons_of_mem f hg)
    have hnew' := fun g hg => hnew g (List.mem_cons_of_mem f hg)
    simp only [sweep, List.map_cons, List.sum_cons]
    rcases minifyFile_cases o t' (hsource f List.mem_cons_self) with
      ⟨htree, hcount⟩ | ⟨text, out, hswap, htree, hcount⟩
    · obtain ⟨added, hadded, hfrom, hsum⟩ := ih h hsource' hnodup.2 hnew'
      rw [htree, hcount]
      refine ⟨added, hadded, ?_, by rw [hsum, Nat.zero_add]⟩
      intro a ha
      obtain ⟨g, hg, hga⟩ := hfrom a ha
      exact ⟨g, List.mem_cons_of_mem f hg, hga⟩
    · have hstep := h.swap (hsource f List.mem_cons_self) (hnew f List.mem_cons_self) hswap
      have hfresh : ∀ g ∈ fs, g.address ∉ pending ++ [f.address] := by
        intro g hg hmem
        rcases List.mem_append.mp hmem with hmem | hmem
        · exact hnew' g hg hmem
        · rw [← List.mem_singleton.mp hmem] at hnodup
          exact hnodup.1 (List.mem_map_of_mem hg)
      obtain ⟨added, hadded, hfrom, hsum⟩ := ih hstep hsource' hnodup.2 hfresh
      rw [htree, hcount]
      refine ⟨f.address :: added, ?_, ?_, by rw [hsum, List.length_cons, Nat.add_comm]⟩
      · rwa [List.append_assoc, List.singleton_append] at hadded
      · intro a ha
        rcases List.mem_cons.mp ha with rfl | ha
        · exact ⟨f, List.mem_cons_self, rfl⟩
        · obtain ⟨g, hg, hga⟩ := hfrom a ha
          exact ⟨g, List.mem_cons_of_mem f hg, hga⟩

/-- **Restoring the twins of all pending sources gives the first tree back**, without a failure. -/
theorem sweep_restoreFile {t t' : Tree} {pending : List Address} {fs : List Found}
    (h : Exchanged t pending t') (hfs : (fs.map Found.address).Perm (pending.map beside))
    (hshort : ∀ f ∈ fs, Tree.tooLong f.shown = false) (links : Nat) :
    (sweep (restoreFile links) t' fs).2 = t ∧
      ∀ r ∈ (sweep (restoreFile links) t' fs).1, r.failure = none := by
  induction fs generalizing t' pending with
  | nil =>
    obtain rfl : pending = [] := List.map_eq_nil_iff.mp hfs.nil_eq.symm
    exact ⟨h.eq, by simp [sweep]⟩
  | cons f fs ih =>
    have hmem : f.address ∈ pending.map beside := hfs.mem_iff.mp List.mem_cons_self
    obtain ⟨a, ha, haf⟩ := List.mem_map.mp hmem
    obtain ⟨script, text, hrestore, hsaved⟩ :=
      restoreFile_eq h ha haf.symm (hshort f List.mem_cons_self) links
    have hrest : (fs.map Found.address).Perm ((pending.erase a).map beside) := by
      have hperm := (List.perm_cons_erase ha).map beside
      rw [List.map_cons, haf] at hperm
      exact (hfs.trans hperm).cons_inv
    obtain ⟨htree, hfailures⟩ :=
      ih (h.unswap ha hsaved) hrest fun g hg => hshort g (List.mem_cons_of_mem f hg)
    simp only [sweep, hrestore]
    refine ⟨htree, ?_⟩
    intro r hr
    rcases List.mem_cons.mp hr with rfl | hr
    · rfl
    · exact hfailures r hr

/-- **The twins that are listed are those of the pending sources**, if there were none before. -/
theorem Owed.perm_devFiles {s : Scope} {t t' : Tree} {pending : List Address}
    (h : Owed t pending t') (hnodup : pending.Nodup)
    (hdev : ∀ f ∈ s.files t, Twin.isDevName f.address.name = false)
    (hscope : ∀ a ∈ pending, ∃ f ∈ s.files t, f.address = a) :
    ((devFiles s t').map Found.address).Perm (pending.map beside) := by
  have hleft : ((devFiles s t').map Found.address).Nodup :=
    (s.nodup_members Entry.isFile t').sublist (List.filter_sublist.map Found.address)
  have hright : (pending.map beside).Nodup := by
    rw [List.Nodup, List.pairwise_map]
    refine hnodup.imp_of_mem fun ha hb hne heq => hne ?_
    exact Twin.beside_inj (h.atSource _ ha) (h.atSource _ hb) heq
  rw [List.perm_ext_iff_of_nodup hleft hright]
  intro b
  constructor
  · intro hb
    obtain ⟨f, hf, rfl⟩ := List.mem_map.mp hb
    rw [devFiles, List.mem_filter] at hf
    obtain ⟨root, a, e, hdir, hget, hkind, hcovers, rfl⟩ := Scope.mem_members_iff.mp hf.1
    have hname : Twin.isDevName a.name = true := hf.2
    apply Classical.byContradiction
    intro hnot
    have hsource : a ∉ pending := by
      intro ha
      rw [Twin.not_isDevName_of_isSourceName (h.atSource a ha)] at hname
      cases hname
    rw [h.get?_eq a hsource hnot] at hget
    have hold := hdev _ (Scope.mem_members_iff.mpr ⟨root, a, e, hdir, hget, hkind, hcovers, rfl⟩)
    exact absurd hname (Bool.not_eq_true _ ▸ hold)
  · intro hb
    obtain ⟨a, ha, rfl⟩ := List.mem_map.mp hb
    obtain ⟨f, hf, rfl⟩ := hscope a ha
    obtain ⟨root, a, e, hdir, -, -, hcovers, rfl⟩ := Scope.mem_members_iff.mp hf
    obtain ⟨text, -, hsaved⟩ := h.saved a ha
    refine List.mem_map.mpr ⟨s.foundAt root (beside a), ?_, rfl⟩
    rw [devFiles, List.mem_filter]
    exact ⟨Scope.mem_members_iff.mpr
      ⟨root, beside a, .file text, hdir, hsaved, rfl, hcovers, rfl⟩,
      Twin.isDevName_beside (h.atSource a ha)⟩

/-- **The twins that are listed after a run are those of the pending sources**, if there were none
before it. -/
theorem perm_devFiles {s : Scope} {t t' : Tree} {pending : List Address}
    (h : Exchanged t pending t') (hdev : ∀ f ∈ s.files t, Twin.isDevName f.address.name = false)
    (hscope : ∀ a ∈ pending, ∃ f ∈ s.files t, f.address = a) :
    ((devFiles s t').map Found.address).Perm (pending.map beside) :=
  h.owed.perm_devFiles h.nodup hdev hscope

theorem sum_foldl_merge (count : Report → Nat)
    (hcount : ∀ r r', count (r.merge r') = count r + count r') (r : Report)
    (reports : List Report) :
    count (reports.foldl Report.merge r) = count r + (reports.map count).sum := by
  induction reports generalizing r with
  | nil => simp
  | cons r' reports ih =>
    rw [List.foldl_cons, ih, hcount, List.map_cons, List.sum_cons, Nat.add_assoc]

theorem failures_foldl_merge (r : Report) (reports : List Report) :
    (reports.foldl Report.merge r).failures = r.failures ++ reports.flatMap Report.failures := by
  induction reports generalizing r with
  | nil => simp
  | cons r' reports ih =>
    rw [List.foldl_cons, ih, List.flatMap_cons, ← List.append_assoc]
    rfl

theorem failures_report (r : Run) :
    r.report.failures
      = r.restored.filterMap Restored.failure ++ r.minified.filterMap Minified.failure := by
  have hrestored (p : Restored) : p.report.failures = p.failure.toList := by
    rw [Restored.report]
    cases p.failure <;> rfl
  have hminified (p : Minified) : p.report.failures = p.failure.toList := by
    rw [Minified.report]
    cases p.failure with
    | some e => rfl
    | none => cases p.stats <;> rfl
  rw [Run.report, failures_foldl_merge, List.flatMap_append, List.flatMap_map, List.flatMap_map]
  simp only [hrestored, hminified, List.filterMap_eq_flatMap_toList, List.nil_append]

theorem restored_report (r : Run) :
    r.report.restored = r.restored.countP fun p => p.failure.isNone := by
  have hrestored (p : Restored) : p.report.restored = if p.failure.isNone then 1 else 0 := by
    rw [Restored.report]
    cases p.failure <;> rfl
  have hminified (p : Minified) : p.report.restored = 0 := by
    rw [Minified.report]
    cases p.failure with
    | some e => rfl
    | none => cases p.stats <;> rfl
  have hsum (ps : List Restored) : (ps.map fun p => p.report.restored).sum
      = ps.countP fun p => p.failure.isNone := by
    induction ps with
    | nil => rfl
    | cons p ps ih =>
      rw [List.map_cons, List.sum_cons, ih, hrestored, List.countP_cons, Nat.add_comm]
  rw [Run.report, sum_foldl_merge Report.restored (fun _ _ => rfl), List.map_append, List.map_map,
    List.map_map, List.sum_append]
  simp [Function.comp_def, hsum, hminified]

theorem count_report (count : Report → Nat)
    (hmerge : ∀ a b, count (a.merge b) = count a + count b)
    (hzero : ∀ p : Restored, count p.report = 0) (r : Run) :
    count r.report = count {} + (r.minified.map fun p => count p.report).sum := by
  rw [Run.report, sum_foldl_merge count hmerge, List.map_append, List.map_map, List.map_map,
    List.sum_append]
  simp [Function.comp_def, hzero]

theorem Restored.counts_report (p : Restored) :
    p.report.minified = 0 ∧ p.report.bytesIn = 0 ∧ p.report.bytesOut = 0 := by
  rw [Restored.report]
  cases p.failure <;> exact ⟨rfl, rfl, rfl⟩

theorem minified_report (r : Run) :
    r.report.minified = (r.minified.map fun p => p.report.minified).sum :=
  (count_report Report.minified (fun _ _ => rfl) (fun p => p.counts_report.1) r).trans
    (Nat.zero_add _)

theorem bytesIn_report (r : Run) :
    r.report.bytesIn = (r.minified.map fun p => p.report.bytesIn).sum :=
  (count_report Report.bytesIn (fun _ _ => rfl) (fun p => p.counts_report.2.1) r).trans
    (Nat.zero_add _)

theorem bytesOut_report (r : Run) :
    r.report.bytesOut = (r.minified.map fun p => p.report.bytesOut).sum :=
  (count_report Report.bytesOut (fun _ _ => rfl) (fun p => p.counts_report.2.2) r).trans
    (Nat.zero_add _)

/-- **What is counted of the sources does not depend on the twins.** -/
theorem report_eq_of_minified {r r' : Run} (h : r.minified = r'.minified)
    (hr : r.restored.filterMap Restored.failure = r'.restored.filterMap Restored.failure) :
    r.report = { r'.report with restored := r.report.restored } := by
  have hfailures : r.report.failures = r'.report.failures := by
    rw [failures_report, failures_report, h, hr]
  calc r.report
      = ⟨r.report.minified, r.report.restored, r.report.failures, r.report.bytesIn,
          r.report.bytesOut⟩ := rfl
    _ = { r'.report with restored := r.report.restored } := by
      rw [minified_report, bytesIn_report, bytesOut_report, hfailures, h, ← minified_report r',
        ← bytesIn_report r', ← bytesOut_report r']

theorem devFiles_eq_nil {s : Scope} {t : Tree}
    (hdev : ∀ f ∈ s.files t, Twin.isDevName f.address.name = false) : devFiles s t = [] := by
  rw [devFiles, List.filter_eq_nil_iff]
  intro f hf
  simp [hdev f hf]

theorem run_of_no_twins {o : BatchOptions} {s : Scope} {t : Tree} (hundo : o.undo = false)
    (hdev : ∀ f ∈ s.files t, Twin.isDevName f.address.name = false) :
    run o s t = ⟨[], (minifySources o.minify s t).1, (minifySources o.minify s t).2⟩ := by
  rw [run, restore, devFiles_eq_nil hdev, hundo]
  rfl

/-- **A run over a scope without twins exchanges sources of the scope**, and counts them. -/
theorem exchanged_run {o : BatchOptions} {s : Scope} {t : Tree} (hundo : o.undo = false)
    (hdev : ∀ f ∈ s.files t, Twin.isDevName f.address.name = false) :
    ∃ pending, Exchanged t pending (run o s t).tree ∧
      (∀ a ∈ pending, ∃ f ∈ s.files t, f.address = a) ∧
      (run o s t).report.minified = pending.length := by
  have hsource : ∀ f ∈ sourceFiles s t, AtSource f.address := by
    intro f hf
    exact (List.mem_filter.mp hf).2
  have hnodup : ((sourceFiles s t).map Found.address).Nodup :=
    (s.nodup_members Entry.isFile t).sublist (List.filter_sublist.map Found.address)
  obtain ⟨pending, hexchanged, hfrom, hsum⟩ :=
    exchanged_sweep (o := o.minify) (.refl t) hsource hnodup (by simp)
  rw [run_of_no_twins hundo hdev]
  refine ⟨pending, hexchanged, ?_, ?_⟩
  · intro a ha
    obtain ⟨f, hf, hfa⟩ := hfrom a ha
    exact ⟨f, (List.mem_filter.mp hf).1, hfa⟩
  · rw [Run.report, sum_foldl_merge Report.minified (fun _ _ => rfl), List.map_nil,
      List.nil_append, List.map_map, ← hsum]
    exact Nat.zero_add _

theorem run_of_undo {o : BatchOptions} (hundo : o.undo = true) (s : Scope) (t : Tree) :
    run o s t = ⟨(restore s t).1, [], (restore s t).2⟩ := by
  rw [run, hundo]
  rfl

theorem run_of_not_undo {o : BatchOptions} (hundo : o.undo = false) (s : Scope) (t : Tree) :
    run o s t = ⟨(restore s t).1, (minifySources o.minify s (restore s t).2).1,
      (minifySources o.minify s (restore s t).2).2⟩ := by
  rw [run, hundo]
  rfl

/-- **Undoing gives the tree back** in which nothing was pending. -/
theorem run_undo {o : BatchOptions} {s : Scope} {t t' : Tree} {pending : List Address}
    (hundo : o.undo = true) (h : Exchanged t pending t')
    (hfs : ((devFiles s t').map Found.address).Perm (pending.map beside))
    (hshort : ∀ f ∈ devFiles s t', Tree.tooLong f.shown = false) :
    (run o s t').tree = t ∧ (run o s t').report.failures = [] ∧
      (run o s t').report.restored = pending.length := by
  obtain ⟨htree, hnone⟩ := sweep_restoreFile h hfs hshort s.links
  have hlength := hfs.length_eq
  rw [List.length_map, List.length_map] at hlength
  have hreports : (restore s t').1.map Restored.report
      = List.replicate pending.length { restored := 1 } := by
    rw [List.eq_replicate_iff, List.length_map, restore, length_sweep, hlength]
    refine ⟨rfl, fun r hr => ?_⟩
    obtain ⟨outcome, houtcome, rfl⟩ := List.mem_map.mp hr
    rw [Restored.report, hnone outcome houtcome]
  rw [run_of_undo hundo]
  refine ⟨htree, ?_, ?_⟩
  · rw [Run.report, hreports, List.map_nil, List.append_nil, failures_foldl_merge,
      List.nil_append, List.flatMap_eq_nil_iff]
    intro r hr
    rw [List.eq_of_mem_replicate hr]
  · rw [Run.report, hreports, List.map_nil, List.append_nil,
      sum_foldl_merge Report.restored (fun _ _ => rfl), List.map_replicate,
      List.sum_replicate_nat]
    exact (Nat.zero_add _).trans (Nat.mul_one _)

theorem exists_mem_sweep {α : Type} (step : Tree → Found → α × Tree) {f : Found} {fs : List Found}
    (hf : f ∈ fs) (t : Tree) : ∃ t', (step t' f).1 ∈ (sweep step t fs).1 := by
  induction fs generalizing t with
  | nil => cases hf
  | cons g fs ih =>
    rcases List.mem_cons.mp hf with rfl | hf
    · exact ⟨t, List.mem_cons_self⟩
    · obtain ⟨t', ht'⟩ := ih hf (step t g).2
      exact ⟨t', List.mem_cons_of_mem _ ht'⟩

theorem exists_of_mem_sweep {α : Type} {step : Tree → Found → α × Tree} {fs : List Found} {t : Tree}
    {outcome : α} (h : outcome ∈ (sweep step t fs).1) :
    ∃ f ∈ fs, ∃ t', outcome = (step t' f).1 := by
  induction fs generalizing t with
  | nil => cases h
  | cons f fs ih =>
    rcases List.mem_cons.mp h with rfl | h
    · exact ⟨f, List.mem_cons_self, t, rfl⟩
    · obtain ⟨g, hg, hstep⟩ := ih h
      exact ⟨g, List.mem_cons_of_mem f hg, hstep⟩

theorem restoreFile_of_tooLong (links : Nat) (t : Tree) {f : Found}
    (hdev : Twin.isDevName f.address.name = true) (hlong : Tree.tooLong f.shown = true) :
    (restoreFile links t f).1.failure.isSome = true := by
  rw [restoreFile, Twin.minName?, if_pos hdev]
  dsimp only
  rw [restoreAs, Tree.calledOn, if_pos hlong]
  rfl

theorem failures_of_tooLong {o : BatchOptions} {s : Scope} {t : Tree} {f : Found}
    (hundo : o.undo = true) (hf : f ∈ devFiles s t) (hlong : Tree.tooLong f.shown = true) :
    (run o s t).report.failures ≠ [] := by
  obtain ⟨t', hmem⟩ := exists_mem_sweep (restoreFile s.links) hf t
  have hfailure := restoreFile_of_tooLong s.links t' (List.mem_filter.mp hf).2 hlong
  rw [run_of_undo hundo, failures_report, ne_eq, List.append_eq_nil_iff, not_and_or,
    List.filterMap_eq_nil_iff]
  left
  intro hnone
  rw [hnone _ hmem] at hfailure
  cases hfailure

end Batch

/-! ### Runs on the path of a directory -/

theorem exists_scope_of_minifyTree {t : Tree} {start : Dir} {root : Path} {o : BatchOptions}
    {run : Batch.Run} (h : minifyTree t start root o = .ok run) :
    ∃ s, openScope t start root o.recursive = .ok s ∧ run = Batch.run o s t := by
  rw [minifyTree] at h
  cases hscope : openScope t start root o.recursive with
  | error e =>
    rw [hscope] at h
    cases h
  | ok s =>
    rw [hscope] at h
    exact ⟨s, rfl, (Except.ok.inj h).symm⟩

theorem minifyTree_of_openScope {t : Tree} {start : Dir} {root : Path} {o : BatchOptions}
    {s : Scope} (h : openScope t start root o.recursive = .ok s) :
    minifyTree t start root o = .ok (Batch.run o s t) := by
  rw [minifyTree, h]
  rfl

theorem restoreTree_eq_minifyTree (t : Tree) (start : Dir) (root : Path) (recursive : Bool) :
    restoreTree t start root recursive
      = minifyTree t start root { recursive, undo := true } := rfl

theorem restoreTree_eq_ok {t : Tree} {start : Dir} {root : Path} {recursive : Bool}
    {run : Batch.Run} (h : restoreTree t start root recursive = .ok run) :
    ∃ s, openScope t start root recursive = .ok s ∧
      run = ⟨(Batch.restore s t).1, [], (Batch.restore s t).2⟩ := by
  rw [restoreTree_eq_minifyTree] at h
  obtain ⟨s, hscope, rfl⟩ := exists_scope_of_minifyTree h
  exact ⟨s, hscope, Batch.run_of_undo rfl s t⟩

theorem restoreTree_of_openScope {t : Tree} {start : Dir} {root : Path} {recursive : Bool}
    {s : Scope} (h : openScope t start root recursive = .ok s) :
    restoreTree t start root recursive
      = .ok ⟨(Batch.restore s t).1, [], (Batch.restore s t).2⟩ := by
  rw [restoreTree_eq_minifyTree, minifyTree_of_openScope h, Batch.run_of_undo rfl]

/-- **Undoing a run gives back the tree it began with.**  Let there be no dev twin in the scope, and
let no twin that the run makes be listed under a path that is too long.  Then undoing restores as
many files as were minified, and none fails. -/
theorem restoreTree_of_minifyTree {t : Tree} {start : Dir} {root : Path} {o : BatchOptions}
    {run : Batch.Run} (hundo : o.undo = false)
    (hdev : ∀ s, openScope t start root o.recursive = .ok s →
      ∀ f ∈ s.files t, Twin.isDevName f.address.name = false)
    (h : minifyTree t start root o = .ok run)
    (hshort : ∀ s, openScope run.tree start root o.recursive = .ok s →
      ∀ f ∈ Batch.devFiles s run.tree, Tree.tooLong f.shown = false) :
    ∃ back, restoreTree run.tree start root o.recursive = .ok back ∧
      (∀ o' : BatchOptions, o'.recursive = o.recursive → o'.undo = true →
        minifyTree run.tree start root o' = .ok back) ∧
      back.tree = t ∧ back.report.failures = [] ∧ back.report.restored = run.report.minified := by
  obtain ⟨s, hscope, rfl⟩ := exists_scope_of_minifyTree h
  obtain ⟨pending, hexchanged, hfrom, hcount⟩ := Batch.exchanged_run hundo (hdev s hscope)
  have hscope' := openScope_of_sameShape hexchanged.sameShape hscope
  have htwins := Batch.perm_devFiles hexchanged (hdev s hscope) hfrom
  obtain ⟨htree, hfailures, hrestored⟩ :=
    Batch.run_undo (o := { recursive := o.recursive, undo := true }) rfl hexchanged htwins
      (hshort s hscope')
  refine ⟨_, restoreTree_of_openScope hscope', ?_, htree, hfailures,
    hrestored.trans hcount.symm⟩
  intro o' hrecursive hundo'
  rw [minifyTree_of_openScope (hrecursive ▸ hscope'), Batch.run_of_undo hundo']

/-- The directory `d` with a script, one that is not closed, two whose twins' names are taken by a
directory and by a link, and a link to a script. -/
def crowdedScripts : Tree where
  entries := [(⟨[], utf8 "d"⟩, .dir), (⟨[utf8 "d"], utf8 "a.js"⟩, .file (utf8 "a  b")),
    (⟨[utf8 "d"], utf8 "b.js"⟩, .file (utf8 "b = \"")),
    (⟨[utf8 "d"], utf8 "c.js"⟩, .file (utf8 "c  d")), (⟨[utf8 "d"], utf8 "c-dev.js"⟩, .dir),
    (⟨[utf8 "d"], utf8 "e.js"⟩, .file (utf8 "e  f")),
    (⟨[utf8 "d"], utf8 "e-dev.js"⟩, .link (utf8 "/d/a.js")),
    (⟨[utf8 "d"], utf8 "g.js"⟩, .link (utf8 "a.js"))]
  nodup := by decide
  rooted := by decide
  named := by decide

def crowdedScope : Scope := ⟨some [utf8 "d"], utf8 "/d", false, Tree.maxLinks⟩

def crowdedFiles : List Found := ["a.js", "b.js", "c.js", "e.js"].map fun n =>
  crowdedScope.foundAt [utf8 "d"] ⟨[utf8 "d"], utf8 n⟩

theorem openScope_crowded :
    openScope crowdedScripts [utf8 "d"] (utf8 "/d") false = .ok crowdedScope :=
  openScope_of_top (by decide) rfl rfl (by decide)

theorem files_crowded : crowdedScope.files crowdedScripts = crowdedFiles :=
  Scope.members_of_pairwise rfl rfl (by decide)

theorem no_twins_crowded :
    ∀ f ∈ crowdedScope.files crowdedScripts, Twin.isDevName f.address.name = false := by
  rw [files_crowded]
  decide +kernel

theorem run_crowded :
    Batch.run {} crowdedScope crowdedScripts
      = ⟨[], (Batch.sweep (Batch.minifyFile {}) crowdedScripts crowdedFiles).1,
          (Batch.sweep (Batch.minifyFile {}) crowdedScripts crowdedFiles).2⟩ := by
  have hsources : Batch.sourceFiles crowdedScope crowdedScripts = crowdedFiles := by
    rw [Batch.sourceFiles, files_crowded]
    decide +kernel
  rw [Batch.run_of_no_twins rfl no_twins_crowded, Batch.minifySources, hsources]

/-- One script is minified, three fail, and undoing gives the tree back. -/
theorem restoreTree_of_crowded_scripts :
    ∃ run back, minifyTree crowdedScripts [utf8 "d"] (utf8 "/d") {} = .ok run ∧
      run.report = ⟨1, 0, [.unterminated (utf8 "/d/b.js") ⟨.string, ⟨1, 5⟩⟩,
        .devExists (utf8 "/d/c-dev.js"), .devExists (utf8 "/d/e-dev.js")], 4, 3⟩ ∧
      restoreTree run.tree [utf8 "d"] (utf8 "/d") false = .ok back ∧
      back.tree = crowdedScripts ∧ back.report.failures = [] ∧ back.report.restored = 1 := by
  have hreport : (Batch.run {} crowdedScope crowdedScripts).report
      = ⟨1, 0, [.unterminated (utf8 "/d/b.js") ⟨.string, ⟨1, 5⟩⟩,
          .devExists (utf8 "/d/c-dev.js"), .devExists (utf8 "/d/e-dev.js")], 4, 3⟩ := by
    rw [run_crowded]
    decide +kernel
  have hshort : ∀ x ∈ (Batch.run {} crowdedScope crowdedScripts).tree.entries,
      Tree.tooLong (crowdedScope.foundAt [utf8 "d"] x.1).shown = false := by
    rw [run_crowded]
    decide +kernel
  have hminify : minifyTree crowdedScripts [utf8 "d"] (utf8 "/d") {}
      = .ok (Batch.run {} crowdedScope crowdedScripts) := minifyTree_of_openScope openScope_crowded
  obtain ⟨pending, hexchanged, -⟩ := Batch.exchanged_run (o := {}) rfl no_twins_crowded
  have hscope := openScope_of_sameShape hexchanged.sameShape openScope_crowded
  obtain ⟨back, hback, -, htree, hfailures, hrestored⟩ :=
    restoreTree_of_minifyTree rfl
      (fun s hs => Except.ok.inj (openScope_crowded.symm.trans hs) ▸ no_twins_crowded) hminify
      (fun s hs f hf => by
        obtain rfl := Except.ok.inj (hscope.symm.trans hs)
        obtain ⟨root, a, e, hdir, hget, -, -, rfl⟩ :=
          Scope.mem_members_iff.mp (List.mem_filter.mp hf).1
        obtain rfl := Option.some.inj hdir
        exact hshort _ (Tree.mem_entries_iff.mpr hget))
  rw [hreport] at hrestored
  exact ⟨_, back, hminify, hreport, hback, htree, hfailures, hrestored⟩

/-! ### Paths that go round -/

namespace Path

/-- A way from a directory to itself, `n` single dots long. -/
def detour (n : Nat) : Bytes := (List.replicate n [Byte.slash, Byte.dot]).flatten

theorem length_detour (n : Nat) : (detour n).length = 2 * n := by
  simp [detour, Nat.mul_comm]

theorem segments_detour {xs : Bytes} (h : Byte.slash ∉ xs) (n : Nat) (ys : Bytes) :
    segments (xs ++ (detour n ++ Byte.slash :: ys))
      = xs :: (List.replicate n [Byte.dot] ++ segments ys) := by
  induction n generalizing xs with
  | zero =>
    rw [detour, List.replicate_zero, List.flatten_nil, List.nil_append, segments_append,
      segments_of_notMem h]
    rfl
  | succ n ih =>
    have hsplit : detour (n + 1) ++ Byte.slash :: ys
        = Byte.slash :: ([Byte.dot] ++ (detour n ++ Byte.slash :: ys)) := by
      simp [detour, List.replicate_succ]
    rw [hsplit, segments_append, segments_of_notMem h, ih (by decide), List.replicate_succ]
    rfl

theorem trimEnd_append_dots (ss : List Bytes) (n : Nat) :
    trimEnd (ss ++ List.replicate n [Byte.dot]) = trimEnd ss := by
  have hidle : ∀ s ∈ List.replicate n [Byte.dot], isIdle s = true := by
    intro s hs
    rw [List.eq_of_mem_replicate hs]
    rfl
  rw [trimEnd, List.reverse_append, List.reverse_replicate, List.dropWhile_append_of_pos hidle,
    trimEnd]

def winding (n : Nat) : Path := utf8 "d" ++ (detour n ++ [Byte.slash])

theorem length_winding (n : Nat) : (winding n).length = 2 * n + 2 := by
  simp only [winding, List.length_append, length_detour, List.length_singleton]
  exact Nat.add_comm 1 (2 * n + 1)

theorem winding_append (n : Nat) (name : Name) :
    winding n ++ name = utf8 "d" ++ (detour n ++ Byte.slash :: name) := by
  simp [winding]

theorem push_winding (n : Nat) (name : Name) : push (winding n) name = winding n ++ name := by
  have hlast : (winding n).getLast? = some Byte.slash := by
    rw [winding, ← List.append_assoc, List.getLast?_concat]
  rw [push, if_pos (.inr hlast)]

theorem withName_winding {name : Name} (hslash : Byte.slash ∉ name) (hidle : isIdle name = false)
    (hup : name ≠ up) (n : Nat) (m : Name) :
    withName (winding n ++ name) m = utf8 "d" ++ Byte.slash :: m := by
  have hsegments : segments (body (winding n ++ name))
      = utf8 "d" :: (List.replicate n [Byte.dot] ++ [name]) := by
    rw [winding_append, ← segments_of_notMem hslash]
    exact segments_detour (by decide) n name
  have hname : name? (winding n ++ name) = some name := by
    have hcomponents : components (winding n ++ name) = [.name (utf8 "d"), .name name] := by
      rw [components, hsegments, List.filter_cons_of_pos (by decide), List.filter_append,
        List.filter_replicate_of_neg (by decide), List.nil_append,
        List.filter_cons_of_pos (by simp [hidle]), List.filter_nil, List.map_cons, List.map_cons,
        List.map_nil, componentOf, componentOf, if_neg hup]
      rfl
    rw [name?, hcomponents]
    rfl
  have hparent : parent (winding n ++ name) = utf8 "d" := by
    have hkeep : trimEnd (utf8 "d" :: (List.replicate n [Byte.dot] ++ [name]))
        = (utf8 "d" :: List.replicate n [Byte.dot]) ++ [name] := by
      rw [trimEnd, ← List.cons_append, List.reverse_append, List.reverse_singleton,
        List.singleton_append, List.dropWhile_cons_of_neg (by simp [hidle]), List.reverse_cons,
        List.reverse_reverse]
    rw [parent, hsegments, hkeep, List.dropLast_concat, ← List.singleton_append,
      trimEnd_append_dots]
    rfl
  rw [withName, hname, hparent]
  rfl

end Path

/-! ### One script -/

def oneScript : Tree where
  entries := [(⟨[], utf8 "d"⟩, .dir), (⟨[utf8 "d"], utf8 "a.js"⟩, .file (utf8 "a  b"))]
  nodup := by decide
  rooted := by decide
  named := by decide

def windingScope (n : Nat) : Scope := ⟨some [utf8 "d"], Path.winding n, false, Tree.maxLinks⟩

theorem locate_winding {t : Tree} (hget : t.get? ⟨[], utf8 "d"⟩ = some .dir) {n : Nat}
    (h : 2 * n + 2 < Tree.maxPath) :
    t.locate [] (Path.winding n) = .ok (.dir [utf8 "d"], Tree.maxLinks) := by
  have hshort : Tree.tooLong (Path.winding n) = false := by
    rw [Tree.tooLong, Path.length_winding]
    simpa using h
  have hsegments : (Path.segments (Path.winding n)).filter (fun s => !Path.isIdle s)
      = [utf8 "d"] := by
    have hdetour : Path.segments (Path.winding n)
        = utf8 "d" :: (List.replicate n [Byte.dot] ++ [[]]) := Path.segments_detour (by decide) n []
    rw [hdetour, List.filter_cons_of_pos (by decide), List.filter_append,
      List.filter_replicate_of_neg (by decide)]
    rfl
  exact Tree.locate_of_top hget hsegments rfl hshort

theorem openScope_winding {n : Nat} (h : 2 * n + 2 < Tree.maxPath) :
    openScope oneScript [] (Path.winding n) false = .ok (windingScope n) := by
  rw [openScope, Scope.locate, locate_winding (by decide) h]
  rfl

def script : Address := ⟨[utf8 "d"], utf8 "a.js"⟩

theorem script_atSource : Twin.AtSource script := by
  rw [Twin.AtSource, Twin.isSourceName, Twin.hasEnding, script, ofUtf8?_utf8]
  decide

theorem swappable_script :
    Batch.Swappable {} oneScript script (utf8 "a  b") (utf8 "a b") :=
  ⟨rfl, rfl, by decide, by decide⟩

def minifiedScript : Tree := Batch.swap oneScript script (utf8 "a  b") (utf8 "a b")

theorem shown_winding (n : Nat) (a : Address) (ha : a.dir = [utf8 "d"]) :
    ((windingScope n).foundAt [utf8 "d"] a).shown = Path.winding n ++ a.name := by
  rw [← Path.push_winding, Scope.foundAt, Scope.namesFrom, ha]
  rfl

theorem files_winding (n : Nat) :
    (windingScope n).files oneScript = [(windingScope n).foundAt [utf8 "d"] script] :=
  Scope.members_of_pairwise rfl rfl (List.pairwise_singleton _ _)

theorem no_twins_winding (n : Nat) :
    ∀ f ∈ (windingScope n).files oneScript, Twin.isDevName f.address.name = false := by
  rw [files_winding]
  intro f hf
  rw [List.mem_singleton.mp hf]
  exact Twin.not_isDevName_of_isSourceName script_atSource

theorem sourceFiles_winding (n : Nat) :
    Batch.sourceFiles (windingScope n) oneScript
      = [(windingScope n).foundAt [utf8 "d"] script] := by
  rw [Batch.sourceFiles, files_winding]
  exact List.filter_cons_of_pos script_atSource

/-- The script can be minified as long as the way to it is not too long; the way to its twin is
always short. -/
theorem minifyFile_winding {n : Nat} (h : 2 * n + 6 < Tree.maxPath) :
    (Batch.minifyFile {} oneScript ((windingScope n).foundAt [utf8 "d"] script)).2
        = minifiedScript ∧
      (Batch.minifyFile {} oneScript ((windingScope n).foundAt [utf8 "d"] script)).1.failure
        = none := by
  have hshown := shown_winding n script rfl
  have hpath : Tree.tooLong (Path.winding n ++ script.name) = false := by
    have hname : script.name.length = 4 := by decide
    rw [Tree.tooLong, List.length_append, Path.length_winding, hname]
    simpa using h
  have htwin : Tree.tooLong ((Path.winding n ++ script.name).withName (Twin.beside script).name)
      = false := by
    rw [Path.withName_winding (by decide) (by decide) (by decide)]
    decide
  rw [Batch.minifyFile_of_swappable script_atSource swappable_script (hshown ▸ hpath)
    (hshown ▸ htwin)]
  exact ⟨rfl, rfl⟩

theorem tree_run_winding {n : Nat} (h : 2 * n + 6 < Tree.maxPath) :
    (Batch.run {} (windingScope n) oneScript).tree = minifiedScript := by
  rw [Batch.run_of_no_twins rfl (no_twins_winding n), Batch.minifySources, sourceFiles_winding]
  exact (minifyFile_winding h).1

theorem mem_devFiles_winding {n : Nat} {f : Found} :
    f ∈ Batch.devFiles (windingScope n) minifiedScript ↔
      f = (windingScope n).foundAt [utf8 "d"] (Twin.beside script) := by
  have hget := swappable_script.get?_swap script_atSource
  rw [Batch.devFiles, List.mem_filter]
  constructor
  · rintro ⟨hf, hdev⟩
    obtain ⟨root, a, e, hdir, hentry, hkind, hcovers, rfl⟩ := Scope.mem_members_iff.mp hf
    obtain rfl := Option.some.inj hdir
    rw [minifiedScript, hget] at hentry
    split at hentry
    next ha =>
      have hsource := Twin.not_isDevName_of_isSourceName (ha ▸ script_atSource)
      exact absurd hdev (by simp [Scope.foundAt, hsource])
    next hscript =>
    split at hentry
    next ha => rw [← ha]
    next =>
      have hmem : (a, e) ∈ oneScript.entries := Tree.mem_entries_iff.mpr hentry
      rcases List.mem_cons.mp hmem with heq | hmem
      · cases heq
        cases hkind
      · cases List.mem_singleton.mp hmem
        exact absurd rfl hscript
  · rintro rfl
    refine ⟨Scope.mem_members_iff.mpr ⟨[utf8 "d"], Twin.beside script, .file (utf8 "a  b"), rfl,
      ?_, rfl, rfl, rfl⟩, Twin.isDevName_beside script_atSource⟩
    rw [minifiedScript, hget, if_neg (Twin.ne_beside script_atSource script_atSource), if_pos rfl]

theorem tooLong_twin_winding (n : Nat) :
    Tree.tooLong ((windingScope n).foundAt [utf8 "d"] (Twin.beside script)).shown
      = decide (Tree.maxPath ≤ 2 * n + 10) := by
  have hname : (Twin.beside script).name.length = 8 := by decide
  rw [shown_winding n _ rfl, Tree.tooLong, List.length_append, Path.length_winding, hname]

theorem minifyTree_winding {n : Nat} (h : 2 * n + 6 < Tree.maxPath) :
    minifyTree oneScript [] (Path.winding n) {}
      = .ok (Batch.run {} (windingScope n) oneScript) :=
  minifyTree_of_openScope (openScope_winding (by omega))

theorem openScope_minified {n : Nat} (h : 2 * n + 6 < Tree.maxPath) :
    openScope minifiedScript [] (Path.winding n) false = .ok (windingScope n) := by
  obtain ⟨pending, hexchanged, -⟩ :=
    Batch.exchanged_run (o := {}) rfl (no_twins_winding n)
  rw [tree_run_winding h] at hexchanged
  exact openScope_of_sameShape hexchanged.sameShape (openScope_winding (by omega))

theorem no_twins_of_openScope {n : Nat} (h : 2 * n + 6 < Tree.maxPath) (s : Scope)
    (hs : openScope oneScript [] (Path.winding n) false = .ok s) :
    ∀ f ∈ s.files oneScript, Twin.isDevName f.address.name = false := by
  rw [openScope_winding (by omega)] at hs
  obtain rfl := Except.ok.inj hs
  exact no_twins_winding n

/-- **A path can be too long to undo what was done under it.**  The script has a path of 4094 bytes
and is minified; its twin is listed under one of 4098 and stays. -/
theorem restoreTree_of_long_root :
    (∀ s, openScope oneScript [] (Path.winding 2044) false = .ok s →
      ∀ f ∈ s.files oneScript, Twin.isDevName f.address.name = false) ∧
    ∃ run back, minifyTree oneScript [] (Path.winding 2044) {} = .ok run ∧
      restoreTree run.tree [] (Path.winding 2044) false = .ok back ∧
      back.report.failures ≠ [] := by
  have hpath : 2 * 2044 + 6 < Tree.maxPath := by decide
  refine ⟨no_twins_of_openScope hpath, Batch.run {} (windingScope 2044) oneScript,
    Batch.run { undo := true } (windingScope 2044) minifiedScript, minifyTree_winding hpath, ?_, ?_⟩
  · rw [tree_run_winding hpath, restoreTree, openScope_minified hpath]
    rfl
  · refine Batch.failures_of_tooLong rfl (mem_devFiles_winding.mpr rfl) ?_
    rw [tooLong_twin_winding]
    decide

end ScriptMinifier
