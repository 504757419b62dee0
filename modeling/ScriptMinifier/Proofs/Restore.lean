import ScriptMinifier.Proofs.Sources

/-!
# Restoring the twins of a scope

Restoring a twin copies it to the script beside it.  If no link stands there, the step looks at two
addresses, that of the twin and that of the script (`Batch.reclaim`), and changes nothing else.  If
moreover no script has itself the name of a twin, no two of these steps meet: each twin fares as if
it were alone, in whatever order they are taken.

`Batch.Returned` is what becomes of one twin.  It goes back to its script, unless a directory stands
there or its path is too long; then it stays, and one failure names the script.  A twin that stays
is not touched by minifying either, which never writes over a twin (`restoreTree_twins`).

The length of the path does matter: a twin that could be copied back stays where it is if it is
listed under a path that is too long (`restoreTree_of_long_twin`).
-/

namespace ScriptMinifier

/-! ### Names of scripts -/

namespace Twin

theorem owner_inj {a b : Address} (ha : isDevName a.name = true) (hb : isDevName b.name = true)
    (h : owner a = owner b) : a = b := by
  obtain ⟨stem, hstem, -⟩ := exists_stem_of_isDevName ha
  obtain ⟨stem', hstem', -⟩ := exists_stem_of_isDevName hb
  obtain ⟨hdir, hname⟩ := Address.mk.inj h
  rw [hstem, hstem', swapEnding_append, swapEnding_append] at hname
  obtain rfl := List.append_cancel_right hname
  cases a
  cases b
  simp_all

end Twin

namespace Batch

open Twin (owner)

/-! ### One twin -/

def scriptPath (f : Found) : Path := f.shown.withName (owner f.address).name

/-- The text that goes back to the script of `f`, where `twin` stands at the twin and `beside` at
the script.  Links are not followed. -/
def reclaim (f : Found) (twin beside : Option Entry) : Except OsError Bytes :=
  Tree.calledOn f.shown
    (match twin with
    | some (.file text) =>
      match beside with
      | none | some (.file _) => .ok text
      | some .dir => .error .isDirectory
      | some (.link _) => .error .tooManyLinks
    | _ => .error .notFound)

def giveBack (t : Tree) (f : Found) : Restored × Tree :=
  match reclaim f (t.get? f.address) (t.get? (owner f.address)) with
  | .error e => (⟨scriptPath f, some (.io (scriptPath f) e)⟩, t)
  | .ok text => (⟨scriptPath f, none⟩, moved t f.address (owner f.address) text)

theorem reclaim_eq_ok {f : Found} {twin beside : Option Entry} {text : Bytes}
    (h : reclaim f twin beside = .ok text) :
    Tree.tooLong f.shown = false ∧ twin = some (.file text) ∧
      (beside = none ∨ ∃ old, beside = some (.file old)) := by
  obtain ⟨hshort, hok⟩ := Tree.calledOn_eq_ok_iff.mp h
  split at hok
  next text' =>
    split at hok
    next =>
      obtain rfl := Except.ok.inj hok
      exact ⟨hshort, rfl, .inl rfl⟩
    next old =>
      obtain rfl := Except.ok.inj hok
      exact ⟨hshort, rfl, .inr ⟨old, rfl⟩⟩
    next => cases hok
    next => cases hok
  next => cases hok

theorem movable_of_reclaim {t : Tree} {f : Found} {text : Bytes} (links : Nat)
    (h : reclaim f (t.get? f.address) (t.get? (owner f.address)) = .ok text) :
    Movable links t f.address (owner f.address) text := by
  obtain ⟨-, htwin, hplain⟩ := reclaim_eq_ok h
  have hname := Twin.isEntryName_owner (Tree.isEntryName_of_get? htwin)
  exact ⟨htwin, Tree.writeTarget_of_isPlain links hplain hname⟩

theorem copy_of_reclaim_error {t : Tree} {f : Found} {e : OsError} (links : Nat)
    (hlink : ∀ target, t.get? (owner f.address) ≠ some (.link target))
    (h : reclaim f (t.get? f.address) (t.get? (owner f.address)) = .error e) :
    Tree.calledOn f.shown (t.copy links f.address (owner f.address)) = .error e := by
  unfold reclaim Tree.calledOn at h
  unfold Tree.calledOn
  split at h
  next hlong =>
    obtain rfl := Except.error.inj h
    exact if_pos hlong
  next hshort =>
  rw [if_neg hshort, Tree.copy]
  cases htwin : t.get? f.address with
  | none => simpa [htwin] using h
  | some entry =>
  cases entry with
  | dir => simpa [htwin] using h
  | link target => simpa [htwin] using h
  | file text =>
  cases hscript : t.get? (owner f.address) with
  | none => simp [htwin, hscript] at h
  | some entry =>
  cases entry with
  | file old => simp [htwin, hscript] at h
  | link target => exact absurd hscript (hlink target)
  | dir =>
    rw [Tree.writeTarget_of_dir links hscript]
    simpa [htwin, hscript] using h

/-- **Where no link stands at the script, restoring follows none.** -/
theorem restoreFile_eq_giveBack (links : Nat) {t : Tree} {f : Found}
    (hf : Twin.isDevName f.address.name = true)
    (hlink : ∀ target, t.get? (owner f.address) ≠ some (.link target)) :
    restoreFile links t f = giveBack t f := by
  cases hreclaim : reclaim f (t.get? f.address) (t.get? (owner f.address)) with
  | ok text =>
    have hshort := (reclaim_eq_ok hreclaim).1
    rw [restoreFile_of_movable hf (movable_of_reclaim links hreclaim) hshort, giveBack, hreclaim]
    rfl
  | error e =>
    have hcopy := copy_of_reclaim_error links hlink hreclaim
    have howner : (⟨f.address.dir, (owner f.address).name⟩ : Address) = owner f.address := rfl
    rw [restoreFile, Twin.minName?_eq_owner hf, giveBack, hreclaim]
    dsimp only
    rw [restoreAs, howner, hcopy]
    rfl

theorem sweep_restoreFile_eq (links : Nat) {t : Tree} {fs : List Found}
    (hfs : ∀ f ∈ fs, Twin.isDevName f.address.name = true)
    (hlink : ∀ f ∈ fs, ∀ target, t.get? (owner f.address) ≠ some (.link target)) :
    sweep (restoreFile links) t fs = sweep giveBack t fs := by
  induction fs generalizing t with
  | nil => rfl
  | cons f fs ih =>
    have hf := hfs f List.mem_cons_self
    have hways := sameWays_restoreFile links t hf
    have hfirst := restoreFile_eq_giveBack links hf (hlink f List.mem_cons_self)
    rw [hfirst] at hways
    have hrest : ∀ g ∈ fs, ∀ target,
        (giveBack t f).2.get? (owner g.address) ≠ some (.link target) := by
      intro g hg target hg'
      exact hlink g (List.mem_cons_of_mem f hg) target ((hways.link_iff _ _).mp hg')
    rw [sweep, sweep, hfirst]
    dsimp only
    rw [ih (fun g hg => hfs g (List.mem_cons_of_mem f hg)) hrest]

/-! ### Twins that do not meet -/

def Claims (f : Found) (b : Address) : Prop := b = f.address ∨ b = owner f.address

theorem get?_giveBack (t : Tree) (f : Found) (b : Address) :
    (giveBack t f).2.get? b
      = match reclaim f (t.get? f.address) (t.get? (owner f.address)) with
        | .error _ => t.get? b
        | .ok text =>
          if b = f.address then none
          else if owner f.address = b then some (.file text) else t.get? b := by
  rw [giveBack]
  cases hreclaim : reclaim f (t.get? f.address) (t.get? (owner f.address)) with
  | error e => rfl
  | ok text => exact (movable_of_reclaim 0 hreclaim).get?_moved b

/-- **Giving twins back is confined to each twin and its script.** -/
theorem confined_giveBack {fs : List Found} (hfs : ∀ f ∈ fs, Twin.isDevName f.address.name = true)
    (howner : ∀ f ∈ fs, Twin.isDevName (owner f.address).name = false)
    (hnodup : (fs.map Found.address).Nodup) : Confined giveBack Claims fs := by
  refine ⟨?_, ?_, ?_, ?_⟩
  · intro f hf t b hb
    rw [Claims, not_or] at hb
    rw [get?_giveBack]
    split
    next => rfl
    next => rw [if_neg hb.1, if_neg (Ne.symm hb.2)]
  · intro f hf t t' h
    rw [giveBack, giveBack, h f.address (.inl rfl), h (owner f.address) (.inr rfl)]
    split <;> rfl
  · intro f hf t t' h b hb
    rw [get?_giveBack, get?_giveBack, h f.address (.inl rfl),
      h (owner f.address) (.inr rfl), h b hb]
  · rw [List.Nodup, List.pairwise_map] at hnodup
    have hne {f g : Found} (hf : f ∈ fs) (hg : g ∈ fs) : f.address ≠ owner g.address := by
      intro heq
      have hdev := hfs f hf
      rw [heq, howner g hg] at hdev
      cases hdev
    refine hnodup.imp_of_mem fun {f g} hf hg hfg b hb hb' => ?_
    rcases hb with rfl | rfl <;> rcases hb' with hb' | hb'
    · exact hfg hb'
    · exact hne hf hg hb'
    · exact hne hg hf hb'.symm
    · exact hfg (Twin.owner_inj (hfs f hf) (hfs g hg) hb')

/-- What becomes of the twin `f` with the text `text` from `t` to `t'`, and what is reported. -/
structure Returned (t t' : Tree) (f : Found) (text : Bytes) (failure : Option BatchError) :
    Prop where
  too_long : Tree.tooLong f.shown = true →
    t'.get? f.address = some (.file text) ∧ t'.get? (owner f.address) = t.get? (owner f.address) ∧
      failure = some (.io (scriptPath f) .nameTooLong)
  dir : Tree.tooLong f.shown = false → t.get? (owner f.address) = some .dir →
    t'.get? f.address = some (.file text) ∧ t'.get? (owner f.address) = some .dir ∧
      failure = some (.io (scriptPath f) .isDirectory)
  back : Tree.tooLong f.shown = false → t.get? (owner f.address) ≠ some .dir →
    t'.get? f.address = none ∧ t'.get? (owner f.address) = some (.file text) ∧ failure = none

theorem reclaim_of_file (f : Found) (text : Bytes) {script : Option Entry}
    (hlink : ∀ target, script ≠ some (.link target)) :
    reclaim f (some (.file text)) script
      = Tree.calledOn f.shown (if script = some .dir then .error .isDirectory else .ok text) := by
  unfold reclaim
  cases script with
  | none => rfl
  | some entry =>
    cases entry with
    | file old => rfl
    | dir => rfl
    | link target => exact absurd rfl (hlink target)

theorem returned_giveBack {t : Tree} {f : Found} {text : Bytes}
    (hf : Twin.isDevName f.address.name = true)
    (howner : Twin.isDevName (owner f.address).name = false)
    (hlink : ∀ target, t.get? (owner f.address) ≠ some (.link target))
    (htext : t.get? f.address = some (.file text)) :
    Returned t (giveBack t f).2 f text (giveBack t f).1.failure := by
  have hne : owner f.address ≠ f.address := by
    intro heq
    rw [heq, hf] at howner
    cases howner
  have hreclaim := reclaim_of_file f text hlink
  rw [← htext, Tree.calledOn] at hreclaim
  refine ⟨fun hlong => ?_, fun hshort hdir => ?_, fun hshort hdir => ?_⟩
  · rw [if_pos hlong] at hreclaim
    rw [giveBack, hreclaim]
    exact ⟨htext, rfl, rfl⟩
  · rw [hshort, if_neg Bool.false_ne_true, if_pos hdir] at hreclaim
    rw [giveBack, hreclaim]
    exact ⟨htext, hdir, rfl⟩
  · rw [hshort, if_neg Bool.false_ne_true, if_neg hdir] at hreclaim
    rw [get?_giveBack, get?_giveBack, giveBack, hreclaim]
    dsimp only
    rw [if_pos rfl, if_neg hne, if_pos rfl]
    exact ⟨rfl, rfl, rfl⟩

theorem Returned.congr {t t' t'' : Tree} {f : Found} {text : Bytes} {failure : Option BatchError}
    (h : Returned t t' f text failure) (heq : ∀ b, Claims f b → t''.get? b = t'.get? b) :
    Returned t t'' f text failure := by
  have htwin := heq f.address (.inl rfl)
  have hscript := heq (owner f.address) (.inr rfl)
  constructor
  · rw [htwin, hscript]
    exact h.too_long
  · rw [htwin, hscript]
    exact h.dir
  · rw [htwin, hscript]
    exact h.back

/-- **A twin that is reported stays.** -/
theorem Returned.stays {t t' : Tree} {f : Found} {text : Bytes} {failure : Option BatchError}
    (h : Returned t t' f text failure) (hfailure : failure ≠ none) :
    t'.get? f.address = some (.file text) := by
  cases hpath : Tree.tooLong f.shown with
  | true => exact (h.too_long hpath).1
  | false =>
    by_cases hdir : t.get? (owner f.address) = some .dir
    · exact (h.dir hpath hdir).1
    · exact absurd (h.back hpath hdir).2.2 hfailure

/-! ### All twins -/

/-- The scripts of the twins of a scope are neither links nor twins. -/
structure PlainScripts (s : Scope) (t : Tree) : Prop where
  not_link : ∀ f ∈ devFiles s t, ∀ target, t.get? (owner f.address) ≠ some (.link target)
  not_dev : ∀ f ∈ devFiles s t, Twin.isDevName (owner f.address).name = false

/-- What becomes of the twins of a scope and of all else, from `t` to `t'`, where `failure` is what
is reported of each twin. -/
structure TwinsLaw (s : Scope) (t t' : Tree) (failure : Found → Option BatchError) : Prop where
  twin : ∀ f ∈ devFiles s t, ∃ text, t.get? f.address = some (.file text) ∧
    Returned t t' f text (failure f)
  frame : ∀ b, (∀ f ∈ devFiles s t, b ≠ f.address ∧ b ≠ owner f.address) → t'.get? b = t.get? b

theorem mem_devFiles_iff {s : Scope} {t : Tree} {f : Found} :
    f ∈ devFiles s t ↔
      ∃ root a text, s.dir = some root ∧ t.get? a = some (.file text) ∧
        Scope.covers root s.recursive a.dir = true ∧ Twin.isDevName a.name = true ∧
        f = s.foundAt root a := by
  rw [devFiles, List.mem_filter, Scope.mem_files_iff]
  constructor
  · rintro ⟨⟨root, a, text, hdir, hget, hcovers, rfl⟩, hdev⟩
    exact ⟨root, a, text, hdir, hget, hcovers, hdev, rfl⟩
  · rintro ⟨root, a, text, hdir, hget, hcovers, hdev, rfl⟩
    exact ⟨⟨root, a, text, hdir, hget, hcovers, rfl⟩, hdev⟩

theorem confined_devFiles {s : Scope} {t : Tree} (h : PlainScripts s t) :
    Confined giveBack Claims (devFiles s t) :=
  confined_giveBack (fun _ => isDevName_of_mem_devFiles) h.not_dev (nodup_devFiles s t)

theorem sweep_devFiles {s : Scope} {t : Tree} (h : PlainScripts s t) {fs : List Found}
    (hperm : (devFiles s t).Perm fs) :
    sweep (restoreFile s.links) t fs = sweep giveBack t fs :=
  sweep_restoreFile_eq s.links (fun _ hf => isDevName_of_mem_devFiles (hperm.mem_iff.mpr hf))
    fun f hf => h.not_link f (hperm.mem_iff.mpr hf)

/-- **Restoring a scope gives every twin back or leaves it, and changes nothing else.** -/
theorem twinsLaw_restore {s : Scope} {t : Tree} (h : PlainScripts s t) :
    TwinsLaw s t (restore s t).2 fun f => (giveBack t f).1.failure := by
  obtain ⟨-, hresults, hframe⟩ := sweep_of_confined (confined_devFiles h) t
  rw [restore, sweep_devFiles h (.refl _)]
  constructor
  · intro f hf
    obtain ⟨text, htext⟩ := exists_text_of_mem_devFiles hf
    refine ⟨text, htext, Returned.congr ?_ (hresults f hf)⟩
    exact returned_giveBack (isDevName_of_mem_devFiles hf) (h.not_dev f hf) (h.not_link f hf) htext
  · intro b hb
    exact hframe b fun f hf hclaims => hclaims.elim (hb f hf).1 (hb f hf).2

/-- **A twin that is reported outlives the whole run.** -/
theorem TwinsLaw.outlives {s : Scope} {t : Tree} {failure : Found → Option BatchError}
    (h : TwinsLaw s t (restore s t).2 failure) (o : BatchOptions) {f : Found}
    (hf : f ∈ devFiles s t) (hfailure : failure f ≠ none) :
    (run o s t).tree.get? f.address = t.get? f.address := by
  obtain ⟨text, htext, hreturned⟩ := h.twin f hf
  have hstays := hreturned.stays hfailure
  rw [htext]
  cases hundo : o.undo with
  | true =>
    rw [run_of_undo hundo]
    exact hstays
  | false =>
    rw [run_of_not_undo hundo]
    exact (sourcesLaw_minifySources o.minify s (restore s t).2).twins f.address _
      (isDevName_of_mem_devFiles hf) hstays

end Batch

/-! ### Runs on the path of a directory -/

/-- **What restoring does to the twins of a scope**, if their scripts are neither links nor twins.
A twin is gone and its text is in its script, unless a directory stands there or the path is too
long: then both are as before and one failure names the script.  All else stays, the twins can be
taken in any order, and one that fails is still there after a whole run. -/
theorem restoreTree_twins {t : Tree} {start : Dir} {root : Path} {recursive : Bool} {s : Scope}
    (hscope : openScope t start root recursive = .ok s) (hplain : Batch.PlainScripts s t) :
    ∃ run failure, restoreTree t start root recursive = .ok run ∧
      ((Batch.devFiles s t).map Found.address).Nodup ∧
      (∀ f, f ∈ Batch.devFiles s t ↔
        ∃ root a text, s.dir = some root ∧ t.get? a = some (.file text) ∧
          Scope.covers root s.recursive a.dir = true ∧ Twin.isDevName a.name = true ∧
          f = s.foundAt root a) ∧
      Batch.TwinsLaw s t run.tree failure ∧
      run.report.failures = (Batch.devFiles s t).filterMap failure ∧
      (∀ fs, (Batch.devFiles s t).Perm fs →
        run.tree.Same (Batch.sweep (Batch.restoreFile s.links) t fs).2 ∧
        (Batch.sweep (Batch.restoreFile s.links) t fs).1.filterMap Batch.Restored.failure
          = fs.filterMap failure) ∧
      ∀ o : BatchOptions, o.recursive = recursive →
        ∃ whole, minifyTree t start root o = .ok whole ∧
          ∀ f ∈ Batch.devFiles s t, failure f ≠ none →
            whole.tree.get? f.address = t.get? f.address := by
  have hconfined := Batch.confined_devFiles hplain
  have hlaw := Batch.twinsLaw_restore hplain
  have hfailures {fs : List Found} (hperm : (Batch.devFiles s t).Perm fs) :
      (Batch.sweep (Batch.restoreFile s.links) t fs).1.filterMap Batch.Restored.failure
        = fs.filterMap fun f => (Batch.giveBack t f).1.failure := by
    rw [Batch.sweep_devFiles hplain hperm, (Batch.sweep_of_confined (hconfined.perm hperm) t).1,
      List.filterMap_map]
    rfl
  refine ⟨⟨(Batch.restore s t).1, [], (Batch.restore s t).2⟩, _, ?_, Batch.nodup_devFiles s t,
    fun f => Batch.mem_devFiles_iff, hlaw, ?_, ?_, ?_⟩
  · exact restoreTree_of_openScope hscope
  · rw [Batch.failures_report]
    exact (List.append_nil _).trans (hfailures (.refl _))
  · intro fs hperm
    refine ⟨?_, hfailures hperm⟩
    have hsame := Batch.sweep_perm hconfined hperm (t := t) fun _ => rfl
    rwa [← Batch.sweep_devFiles hplain (.refl _), ← Batch.sweep_devFiles hplain hperm] at hsame
  · intro o hrecursive
    exact ⟨Batch.run o s t, minifyTree_of_openScope (hrecursive ▸ hscope),
      fun f hf => hlaw.outlives o hf⟩

/-- The directory `d` with two twins: the script of the first one is missing, and a directory has
the name of the other one's. -/
def blockedScript : Tree where
  entries := [(⟨[], utf8 "d"⟩, .dir), (⟨[utf8 "d"], utf8 "a-dev.js"⟩, .file (utf8 "a")),
    (⟨[utf8 "d"], utf8 "b-dev.js"⟩, .file (utf8 "b")), (⟨[utf8 "d"], utf8 "b.js"⟩, .dir)]
  nodup := by decide
  rooted := by decide
  named := by decide

/-- The missing script is made, the blocked one is reported and its twin outlives the run. -/
theorem restoreTree_twins_of_blocked_script :
    ∃ run whole, restoreTree blockedScript [] (utf8 "d") false = .ok run ∧
      run.tree.get? ⟨[utf8 "d"], utf8 "a.js"⟩ = some (.file (utf8 "a")) ∧
      run.report.failures = [.io (utf8 "d/b.js") .isDirectory] ∧
      minifyTree blockedScript [] (utf8 "d") {} = .ok whole ∧
      whole.tree.get? ⟨[utf8 "d"], utf8 "b-dev.js"⟩ = some (.file (utf8 "b")) := by
  let s : Scope := ⟨some [utf8 "d"], utf8 "d", false, Tree.maxLinks⟩
  let first := s.foundAt [utf8 "d"] ⟨[utf8 "d"], utf8 "a-dev.js"⟩
  let second := s.foundAt [utf8 "d"] ⟨[utf8 "d"], utf8 "b-dev.js"⟩
  have hscope : openScope blockedScript [] (utf8 "d") false = .ok s :=
    openScope_of_top (by decide) rfl rfl (by decide)
  have htwins : Batch.devFiles s blockedScript = [first, second] := by
    have hfiles : s.files blockedScript = [first, second] :=
      Scope.members_of_pairwise rfl rfl (by decide)
    rw [Batch.devFiles, hfiles]
    decide +kernel
  have hplain : Batch.PlainScripts s blockedScript := by
    constructor <;> rw [htwins] <;> intro f hf <;>
      rcases List.mem_pair.mp hf with rfl | rfl
    · rintro target ⟨⟩
    · rintro target ⟨⟩
    · decide
    · decide
  have hshort : Tree.tooLong first.shown = false ∧ Tree.tooLong second.shown = false := by decide
  obtain ⟨run, failure, hrun, -, -, hlaw, hfailures, -, hwhole⟩ := restoreTree_twins hscope hplain
  obtain ⟨whole, hminify, hstays⟩ := hwhole {} rfl
  rw [htwins] at hfailures hstays
  obtain ⟨text, htext, hfirst⟩ := hlaw.twin first (htwins ▸ List.mem_cons_self)
  obtain ⟨text', htext', hsecond⟩ := hlaw.twin second (htwins ▸ List.mem_pair.mpr (.inr rfl))
  obtain rfl : utf8 "a" = text := Entry.file.inj (Option.some.inj htext)
  have hback := hfirst.back hshort.1 (by decide)
  have hdir := hsecond.dir hshort.2 rfl
  refine ⟨run, whole, hrun, hback.2.1, ?_, hminify, ?_⟩
  · rw [hfailures, List.filterMap_cons_none hback.2.2, List.filterMap_cons_some hdir.2.2]
    rfl
  · refine hstays second (List.mem_pair.mpr (.inr rfl)) ?_
    rw [hdir.2.2]
    exact Option.some_ne_none _

/-- **A twin under a path that is too long is not restored**, though no directory stands at its
script. -/
theorem restoreTree_of_long_twin :
    Batch.PlainScripts (windingScope 2044) minifiedScript ∧
      minifiedScript.get? (Twin.beside script) = some (.file (utf8 "a  b")) ∧
      minifiedScript.get? script = some (.file (utf8 "a b")) ∧
      ∃ run, openScope minifiedScript [] (Path.winding 2044) false = .ok (windingScope 2044) ∧
        restoreTree minifiedScript [] (Path.winding 2044) false = .ok run ∧
        run.tree.get? (Twin.beside script) = some (.file (utf8 "a  b")) ∧
        run.tree.get? script = some (.file (utf8 "a b")) := by
  have hscope := openScope_minified (n := 2044) (by decide)
  have hget := swappable_script.get?_swap script_atSource
  have htwin : minifiedScript.get? (Twin.beside script) = some (.file (utf8 "a  b")) := by
    rw [minifiedScript, hget, if_neg (Twin.ne_beside script_atSource script_atSource), if_pos rfl]
  have hscript : minifiedScript.get? script = some (.file (utf8 "a b")) := by
    rw [minifiedScript, hget, if_pos rfl]
  have howner : Twin.owner (Twin.beside script) = script := by decide
  have hplain : Batch.PlainScripts (windingScope 2044) minifiedScript := by
    constructor <;> intro f hf <;> rw [mem_devFiles_winding.mp hf]
    · intro target
      rw [Scope.foundAt, howner, hscript]
      rintro ⟨⟩
    · rw [Scope.foundAt, howner]
      exact Twin.not_isDevName_of_isSourceName script_atSource
  have hlong : Tree.tooLong ((windingScope 2044).foundAt [utf8 "d"] (Twin.beside script)).shown
      = true := by
    rw [tooLong_twin_winding]
    decide
  refine ⟨hplain, htwin, hscript, _, hscope, restoreTree_of_openScope hscope, ?_⟩
  obtain ⟨text, htext, hreturned⟩ :=
    (Batch.twinsLaw_restore hplain).twin _ (mem_devFiles_winding.mpr rfl)
  obtain ⟨hstays, hscript', -⟩ := hreturned.too_long hlong
  rw [Scope.foundAt] at htext hstays hscript'
  rw [howner] at hscript'
  exact ⟨hstays.trans (htext.symm.trans htwin), hscript'.trans hscript⟩

end ScriptMinifier
