import ScriptMinifier.Proofs.RoundTrip

/-!
# Originals that are restored

A dev twin holds the only copy of an original, and restoring copies it to the script beside it, or
to where a link there leads, and then removes it.  The twins of a scope are restored one after the
other, so the text of one can be written over another, or over what another has just been copied
to.

Restoring leaves the ways through the tree, so where each twin is copied to is known before the
first step (`Batch.sameWays_restore`).  `Batch.Apart` is what has to be said of these places: none
of them is itself a twin, and two twins that are copied to one place hold the same text.  A run
without failures keeps every original exactly if the twins are apart
(`restoreTree_keeps_originals_iff`).

They need not be: the twin of a twin is copied over the twin, whose own text is lost
(`restoreTree_of_twin_of_twin`).
-/

namespace ScriptMinifier

/-! ### One twin -/

namespace Twin

/-- The address of the script that a twin belongs to. -/
def owner (a : Address) : Address := ⟨a.dir, swapEnding devEnding scriptEnding a.name⟩

theorem minName?_eq_owner {a : Address} (h : isDevName a.name = true) :
    minName? a.name = some (owner a).name := if_pos h

theorem isEntryName_owner {a : Address} (h : Tree.IsEntryName a.name) :
    Tree.IsEntryName (owner a).name := by
  refine ⟨isName_swapEnding h.notMem (by decide) (by decide), ?_⟩
  have hlength := h.length_le
  have hending : scriptEnding.length = 3 ∧ devEnding.length = 7 ∧ Tree.maxName = 255 := by decide
  rw [owner, swapEnding, List.length_append, List.length_take]
  omega

theorem owner_beside {a : Address} (h : AtSource a) : owner (beside a) = a := by
  have hname := minName?_eq_owner (isDevName_beside h)
  rw [minName?_beside h] at hname
  calc owner (beside a) = ⟨a.dir, (owner (beside a)).name⟩ := rfl
    _ = a := by rw [← Option.some.inj hname]

end Twin

namespace Batch

open Twin (owner)

/-- The tree after `text`, the text of the twin `d`, was copied to `b` and the twin removed.  A twin
that is copied to itself is emptied first. -/
def moved (t : Tree) (d b : Address) (text : Bytes) : Tree :=
  (t.put b (.file (if b = d then [] else text))).remove d

/-- The twin at `d` with `text` can be copied to `b`. -/
structure Movable (links : Nat) (t : Tree) (d b : Address) (text : Bytes) : Prop where
  twin : t.get? d = some (.file text)
  target : t.writeTarget links (owner d) = .ok b

namespace Movable

variable {links : Nat} {t : Tree} {d b : Address} {text : Bytes}

theorem accepts (h : Movable links t d b text) : t.IsPlain b ∧ t.accepts b = true := by
  have hname := Twin.isEntryName_owner (Tree.isEntryName_of_get? h.twin)
  exact Tree.accepts_of_writeTarget (a := owner d) (Tree.isDir_of_get? (a := d) h.twin) hname.notMem
    h.target

theorem get?_put (h : Movable links t d b text) :
    ∃ data, (t.put b (.file (if b = d then [] else text))).get? d = some (.file data) := by
  rw [Tree.get?_put h.accepts.2]
  split
  next => exact ⟨_, rfl⟩
  next => exact ⟨text, h.twin⟩

theorem get?_moved (h : Movable links t d b text) (c : Address) :
    (moved t d b text).get? c
      = if c = d then none else if b = c then some (.file text) else t.get? c := by
  obtain ⟨data, hdata⟩ := h.get?_put
  rw [moved, Tree.get?_remove_of_ne_dir (by simp [hdata]), Tree.get?_put h.accepts.2]
  split
  next => rfl
  next hc =>
    split
    next hb => rw [if_neg (hb ▸ hc)]
    next => rfl

theorem sameWays (h : Movable links t d b text) : t.SameWays (moved t d b text) := by
  obtain ⟨data, hdata⟩ := h.get?_put
  exact (Tree.SameWays.put_file h.accepts.1 h.accepts.2 _).trans (.remove_file hdata)

end Movable

/-- **A twin is moved if it can be**, and its path is not too long. -/
theorem restoreFile_of_movable {links : Nat} {t : Tree} {f : Found} {b : Address} {text : Bytes}
    (hf : Twin.isDevName f.address.name = true) (h : Movable links t f.address b text)
    (hshort : Tree.tooLong f.shown = false) :
    restoreFile links t f
      = (⟨f.shown.withName (owner f.address).name, none⟩, moved t f.address b text) := by
  have haddress : (⟨f.address.dir, (owner f.address).name⟩ : Address) = owner f.address := rfl
  have hcopy : t.copy links f.address (owner f.address)
      = .ok (t.put b (.file (if b = f.address then [] else text))) := by
    rw [Tree.copy, h.twin]
    dsimp only
    rw [h.target]
  obtain ⟨data, hdata⟩ := h.get?_put
  have hunlink : (t.put b (.file (if b = f.address then [] else text))).unlink f.address
      = .ok (moved t f.address b text) := by
    rw [Tree.unlink, hdata]
    rfl
  rw [restoreFile, Twin.minName?_eq_owner hf]
  dsimp only
  rw [restoreAs, haddress, Tree.calledOn_eq_ok_iff.mpr ⟨hshort, hcopy⟩]
  dsimp only
  rw [hunlink]

/-- **A twin fails and stays, or is moved.** -/
theorem restoreFile_cases (links : Nat) (t : Tree) {f : Found}
    (hf : Twin.isDevName f.address.name = true) :
    ((restoreFile links t f).2 = t ∧ ∃ e, (restoreFile links t f).1.failure
        = some (.io (f.shown.withName (owner f.address).name) e)) ∨
      ∃ b text, Movable links t f.address b text ∧
        (restoreFile links t f).2 = moved t f.address b text ∧
        (restoreFile links t f).1.failure = none := by
  cases hcopy : Tree.calledOn f.shown (t.copy links f.address (owner f.address)) with
  | error e =>
    left
    rw [restoreFile, Twin.minName?_eq_owner hf]
    dsimp only
    rw [restoreAs,
      show (⟨f.address.dir, (owner f.address).name⟩ : Address) = owner f.address from rfl, hcopy]
    exact ⟨rfl, _, rfl⟩
  | ok t₁ =>
    right
    obtain ⟨hshort, hok⟩ := Tree.calledOn_eq_ok_iff.mp hcopy
    rw [Tree.copy] at hok
    split at hok
    next text htwin =>
      split at hok
      next => cases hok
      next b htarget =>
        have hmovable : Movable links t f.address b text := ⟨htwin, htarget⟩
        rw [restoreFile_of_movable hf hmovable hshort]
        exact ⟨b, text, hmovable, rfl, rfl⟩
    next => cases hok

theorem sameWays_restoreFile (links : Nat) (t : Tree) {f : Found}
    (hf : Twin.isDevName f.address.name = true) : t.SameWays (restoreFile links t f).2 := by
  rcases restoreFile_cases links t hf with ⟨htree, -⟩ | ⟨b, text, hmovable, htree, -⟩
  · rw [htree]
    exact .refl t
  · rw [htree]
    exact hmovable.sameWays

/-! ### All twins -/

theorem sameWays_sweep {links : Nat} {t : Tree} {fs : List Found}
    (hfs : ∀ f ∈ fs, Twin.isDevName f.address.name = true) :
    t.SameWays (sweep (restoreFile links) t fs).2 := by
  induction fs generalizing t with
  | nil => exact .refl t
  | cons f fs ih =>
    have hstep := sameWays_restoreFile links t (hfs f List.mem_cons_self)
    exact hstep.trans (ih fun g hg => hfs g (List.mem_cons_of_mem f hg))

theorem isDevName_of_mem_devFiles {s : Scope} {t : Tree} {f : Found} (hf : f ∈ devFiles s t) :
    Twin.isDevName f.address.name = true := (List.mem_filter.mp hf).2

/-- **Restoring leaves the ways.** -/
theorem sameWays_restore (s : Scope) (t : Tree) : t.SameWays (restore s t).2 :=
  sameWays_sweep fun _ => isDevName_of_mem_devFiles

theorem nodup_devFiles (s : Scope) (t : Tree) : ((devFiles s t).map Found.address).Nodup :=
  (s.nodup_members Entry.isFile t).sublist (List.filter_sublist.map Found.address)

/-- No twin of the scope is copied to a twin, and two that are copied to one place hold the same
text. -/
structure Apart (s : Scope) (t : Tree) : Prop where
  target_ne : ∀ f ∈ devFiles s t, ∀ g ∈ devFiles s t,
    t.writeTarget s.links (owner f.address) ≠ .ok g.address
  text_eq : ∀ f ∈ devFiles s t, ∀ g ∈ devFiles s t, ∀ b,
    t.writeTarget s.links (owner f.address) = .ok b →
    t.writeTarget s.links (owner g.address) = .ok b → t.get? f.address = t.get? g.address

/-- How `t'` stands between two steps: the twins in `rest` are as in `t`, and those in `done` are
gone and their texts are where they are copied to. -/
structure Restoring (links : Nat) (t : Tree) (done rest : List Found) (t' : Tree) : Prop where
  ways : t.SameWays t'
  waiting : ∀ f ∈ rest, t'.get? f.address = t.get? f.address
  gone : ∀ f ∈ done, t'.get? f.address = none
  kept : ∀ f ∈ done, ∃ b, t.writeTarget links (owner f.address) = .ok b ∧
    t'.get? b = t.get? f.address

/-- **A twin that is moved goes from `rest` to `done`**, if the twins are apart. -/
theorem Restoring.step {s : Scope} {t t' : Tree} {done rest : List Found} {f : Found} {b : Address}
    {text : Bytes} (h : Restoring s.links t done (f :: rest) t') (hapart : Apart s t)
    (hdone : ∀ g ∈ done, g ∈ devFiles s t) (hrest : ∀ g ∈ f :: rest, g ∈ devFiles s t)
    (hnodup : ((f :: rest).map Found.address).Nodup)
    (hmovable : Movable s.links t' f.address b text) :
    Restoring s.links t (f :: done) rest (moved t' f.address b text) := by
  rw [List.map_cons, List.nodup_cons] at hnodup
  have hf := hrest f List.mem_cons_self
  have hget := hmovable.get?_moved
  have htarget := h.ways.symm.writeTarget_eq hmovable.target
  have htext : t.get? f.address = some (.file text) := by
    rw [← h.waiting f List.mem_cons_self]
    exact hmovable.twin
  -- the place of a twin is neither a twin nor where this one is copied to with another text
  have hplace {g : Found} {c : Address} (hg : g ∈ devFiles s t)
      (hc : t.writeTarget s.links (owner g.address) = .ok c)
      (hold : c ≠ b → t'.get? c = t.get? g.address) :
      (moved t' f.address b text).get? c = t.get? g.address := by
    have hne : c ≠ f.address := by
      rintro rfl
      exact hapart.target_ne g hg f hf hc
    rw [hget, if_neg hne]
    split
    next hb =>
      subst hb
      rw [← htext]
      exact hapart.text_eq f hf g hg b htarget hc
    next hb => exact hold (Ne.symm hb)
  refine ⟨h.ways.trans hmovable.sameWays, ?_, ?_, ?_⟩
  · intro g hg
    have hne : g.address ≠ f.address := by
      intro heq
      exact hnodup.1 (heq ▸ List.mem_map_of_mem hg)
    have hb : b ≠ g.address := by
      rintro rfl
      exact hapart.target_ne f hf g (hrest g (List.mem_cons_of_mem f hg)) htarget
    rw [hget, if_neg hne, if_neg hb]
    exact h.waiting g (List.mem_cons_of_mem f hg)
  · intro g hg
    rcases List.mem_cons.mp hg with rfl | hg
    · rw [hget, if_pos rfl]
    · have hb : b ≠ g.address := by
        rintro rfl
        exact hapart.target_ne f hf g (hdone g hg) htarget
      rw [hget, if_neg hb, h.gone g hg, ite_self]
  · intro g hg
    rcases List.mem_cons.mp hg with rfl | hg
    · exact ⟨b, htarget, hplace hf htarget fun hne => absurd rfl hne⟩
    · obtain ⟨c, hc, hkept⟩ := h.kept g hg
      exact ⟨c, hc, hplace (hdone g hg) hc fun _ => hkept⟩

/-- **A run without failures moves every twin**, if the twins are apart. -/
theorem Restoring.sweep {s : Scope} {t t' : Tree} {done rest : List Found}
    (h : Restoring s.links t done rest t') (hapart : Apart s t)
    (hdone : ∀ g ∈ done, g ∈ devFiles s t) (hrest : ∀ g ∈ rest, g ∈ devFiles s t)
    (hnodup : (rest.map Found.address).Nodup)
    (hok : ∀ r ∈ (Batch.sweep (restoreFile s.links) t' rest).1, r.failure = none) :
    Restoring s.links t (rest.reverse ++ done) []
      (Batch.sweep (restoreFile s.links) t' rest).2 := by
  induction rest generalizing t' done with
  | nil => exact h
  | cons f rest ih =>
    rw [List.reverse_cons, List.append_assoc, List.singleton_append]
    have hnone : (restoreFile s.links t' f).1.failure = none := hok _ List.mem_cons_self
    have hf := hrest f List.mem_cons_self
    rcases restoreFile_cases s.links t' (isDevName_of_mem_devFiles hf) with
      ⟨-, e, he⟩ | ⟨b, text, hmovable, htree, -⟩
    · rw [hnone] at he
      cases he
    · have hstep := h.step hapart hdone hrest hnodup hmovable
      rw [← htree] at hstep
      refine ih hstep ?_ (fun g hg => hrest g (List.mem_cons_of_mem f hg))
        (List.nodup_cons.mp hnodup).2 fun r hr => hok r (List.mem_cons_of_mem _ hr)
      intro g hg
      rcases List.mem_cons.mp hg with rfl | hg
      · exact hf
      · exact hdone g hg

/-- Every twin of the scope is gone in `t'`, and its text is read where it belongs. -/
def KeepsOriginals (s : Scope) (t t' : Tree) : Prop :=
  ∀ f ∈ devFiles s t, ∀ text, t.get? f.address = some (.file text) →
    t'.get? f.address = none ∧ t'.readThrough s.links (owner f.address) = .ok text

theorem exists_text_of_mem_devFiles {s : Scope} {t : Tree} {f : Found} (hf : f ∈ devFiles s t) :
    ∃ text, t.get? f.address = some (.file text) := by
  obtain ⟨root, a, text, -, hget, -, rfl⟩ := Scope.mem_files_iff.mp (List.mem_filter.mp hf).1
  exact ⟨text, hget⟩

/-- **The text of a twin is read where it is copied to**, in every tree with the same ways. -/
theorem readThrough_owner_iff {t t' : Tree} (h : t.SameWays t') {links : Nat} {d b : Address}
    {e : Entry} (hd : t.get? d = some e) (hb : t.writeTarget links (owner d) = .ok b)
    {text : Bytes} :
    t'.readThrough links (owner d) = .ok text ↔ t'.get? b = some (.file text) := by
  have hdir : t.isDir (owner d).dir = true := Tree.isDir_of_get? (a := d) hd
  have hname := Twin.isEntryName_owner (Tree.isEntryName_of_get? hd)
  exact Tree.readThrough_eq_ok_iff (h.isDir_eq hdir) hname.notMem (h.writeTarget_eq hb)

theorem keepsOriginals_of_apart {s : Scope} {t : Tree} (hapart : Apart s t)
    (hok : ∀ r ∈ (restore s t).1, r.failure = none) : KeepsOriginals s t (restore s t).2 := by
  have hstart : Restoring s.links t [] (devFiles s t) t :=
    ⟨.refl t, fun _ _ => rfl, by simp, by simp⟩
  have hend := hstart.sweep hapart (by simp) (fun _ => id) (nodup_devFiles s t) hok
  intro f hf text htext
  have hmem : f ∈ (devFiles s t).reverse ++ [] := by simpa using hf
  obtain ⟨b, hb, hkept⟩ := hend.kept f hmem
  exact ⟨hend.gone f hmem, (readThrough_owner_iff hend.ways htext hb).mpr (hkept.trans htext)⟩

theorem apart_of_keepsOriginals {s : Scope} {t : Tree}
    (h : KeepsOriginals s t (restore s t).2) : Apart s t := by
  have hways := sameWays_restore s t
  -- the text of a twin stands where it was copied to
  have hread {f : Found} {b : Address} (hf : f ∈ devFiles s t)
      (hb : t.writeTarget s.links (owner f.address) = .ok b) :
      (restore s t).2.get? b = t.get? f.address := by
    obtain ⟨text, htext⟩ := exists_text_of_mem_devFiles hf
    rw [htext]
    exact (readThrough_owner_iff hways htext hb).mp (h f hf text htext).2
  constructor
  · intro f hf g hg htarget
    obtain ⟨text, htext⟩ := exists_text_of_mem_devFiles hf
    obtain ⟨text', htext'⟩ := exists_text_of_mem_devFiles hg
    have hgone := (h g hg text' htext').1
    rw [hread hf htarget, htext] at hgone
    cases hgone
  · intro f hf g hg b hb hb'
    rw [← hread hf hb, hread hg hb']

end Batch

/-! ### Runs on the path of a directory -/

/-- **Restoring keeps every original exactly if the twins are apart.**  Let no twin fail.  Then
every twin is gone and its text is read where it belongs exactly if no twin is copied to a twin, and
two that are copied to one place hold the same text. -/
theorem restoreTree_keeps_originals_iff {t : Tree} {start : Dir} {root : Path} {recursive : Bool}
    {run : Batch.Run} (h : restoreTree t start root recursive = .ok run)
    (hok : run.report.failures = []) :
    ∃ s, openScope t start root recursive = .ok s ∧
      (Batch.KeepsOriginals s t run.tree ↔ Batch.Apart s t) := by
  obtain ⟨s, hscope, rfl⟩ := restoreTree_eq_ok h
  have hnone : ∀ r ∈ (Batch.restore s t).1, r.failure = none := by
    rw [Batch.failures_report, List.append_eq_nil_iff, List.filterMap_eq_nil_iff] at hok
    exact hok.1
  exact ⟨s, hscope, Batch.apart_of_keepsOriginals, fun hapart =>
    Batch.keepsOriginals_of_apart hapart hnone⟩

/-! ### A link, and the twin of a twin -/

def soleTwin : Address := ⟨[utf8 "d"], utf8 "a-dev.js"⟩

/-- The directory `d` with a twin whose script is a link that leads down from the top. -/
def linkedScript : Tree where
  entries := [(⟨[], utf8 "d"⟩, .dir), (soleTwin, .file (utf8 "1")),
    (⟨[utf8 "d"], utf8 "a.js"⟩, .link (utf8 "/b.js"))]
  nodup := by decide
  rooted := by decide
  named := by decide

/-- The twin is copied through the link, to where it is read again. -/
theorem restoreTree_keeps_originals_of_link :
    ∃ run s, restoreTree linkedScript [] (utf8 "/d") false = .ok run ∧ run.report.failures = [] ∧
      openScope linkedScript [] (utf8 "/d") false = .ok s ∧ Batch.Apart s linkedScript ∧
      run.tree.get? soleTwin = none ∧
      run.tree.readThrough s.links (Twin.owner soleTwin) = .ok (utf8 "1") := by
  let s : Scope := ⟨some [utf8 "d"], utf8 "/d", false, Tree.maxLinks⟩
  let twin := s.foundAt [utf8 "d"] soleTwin
  have hscope : openScope linkedScript [] (utf8 "/d") false = .ok s :=
    openScope_of_top (by decide) rfl rfl (by decide)
  have htwins : Batch.devFiles s linkedScript = [twin] := by
    have hfiles : s.files linkedScript = [twin] :=
      Scope.members_of_pairwise rfl rfl (List.pairwise_singleton _ _)
    rw [Batch.devFiles, hfiles]
    decide +kernel
  have htarget : linkedScript.writeTarget Tree.maxLinks (Twin.owner soleTwin)
      = .ok ⟨[], utf8 "b.js"⟩ := by
    have howner : Tree.IsEntryName (Twin.owner soleTwin).name := by decide
    have hname : Tree.IsEntryName (utf8 "b.js") := by decide
    have hlink : linkedScript.get? (Twin.owner soleTwin) = some (.link (utf8 "/b.js")) := by decide
    have hwalk := calc linkedScript.walk true (39 + 1) [utf8 "d"] [(Twin.owner soleTwin).name]
        = linkedScript.walk true 39 [] [[], utf8 "b.js"] :=
          Tree.walk_of_link (howner.looksUp (.inr rfl)) hlink
      _ = linkedScript.walk true 39 [] [utf8 "b.js"] := Tree.walk_of_isIdle rfl
      _ = .ok (.vacant ⟨[], utf8 "b.js"⟩, 39) :=
          Tree.walk_of_none (hname.looksUp (.inr rfl)) (by decide)
    exact Tree.writeTarget_eq_ok_iff.mpr ⟨_, _, hwalk, rfl⟩
  have hmovable : Batch.Movable s.links linkedScript twin.address ⟨[], utf8 "b.js"⟩ (utf8 "1") :=
    ⟨by decide, htarget⟩
  have hapart : Batch.Apart s linkedScript := by
    constructor <;> rw [htwins] <;> intro f hf g hg <;>
      obtain rfl := List.mem_singleton.mp hf <;> obtain rfl := List.mem_singleton.mp hg
    · intro h
      exact absurd (Except.ok.inj (htarget.symm.trans h)) (by decide)
    · intro b _ _
      rfl
  have hrun : restoreTree linkedScript [] (utf8 "/d") false
      = .ok ⟨(Batch.restore s linkedScript).1, [], (Batch.restore s linkedScript).2⟩ :=
    restoreTree_of_openScope hscope
  have hok : (⟨(Batch.restore s linkedScript).1, [], (Batch.restore s linkedScript).2⟩ :
      Batch.Run).report.failures = [] := by
    rw [Batch.restore, htwins, Batch.sweep,
      Batch.restoreFile_of_movable (by decide +kernel) hmovable (by decide)]
    rfl
  obtain ⟨s', hscope', hiff⟩ := restoreTree_keeps_originals_iff hrun hok
  obtain rfl := Except.ok.inj (hscope.symm.trans hscope')
  have htwin : twin ∈ Batch.devFiles s linkedScript := htwins ▸ List.mem_singleton_self twin
  have hkept := hiff.mpr hapart twin htwin (utf8 "1") hmovable.twin
  exact ⟨_, s, hrun, hok, hscope, hapart, hkept⟩

/-- The directory `d` with a twin and the twin of that twin. -/
def twinOfTwin : Tree where
  entries := [(⟨[], utf8 "d"⟩, .dir), (⟨[utf8 "d"], utf8 "a-dev-dev.js"⟩, .file (utf8 "2")),
    (soleTwin, .file (utf8 "1"))]
  nodup := by decide
  rooted := by decide
  named := by decide

/-- **The twin of a twin is copied over the twin**, whose own text is lost without a failure. -/
theorem restoreTree_of_twin_of_twin :
    twinOfTwin.get? soleTwin = some (.file (utf8 "1")) ∧
      ∃ run, restoreTree twinOfTwin [] (utf8 "d") false = .ok run ∧ run.report.failures = [] ∧
        run.tree.readThrough Tree.maxLinks (Twin.owner soleTwin) = .ok (utf8 "2") := by
  let s : Scope := ⟨some [utf8 "d"], utf8 "d", false, Tree.maxLinks⟩
  let first := s.foundAt [utf8 "d"] ⟨[utf8 "d"], utf8 "a-dev-dev.js"⟩
  let second := s.foundAt [utf8 "d"] soleTwin
  have hscope : openScope twinOfTwin [] (utf8 "d") false = .ok s :=
    openScope_of_top (by decide) rfl rfl (by decide)
  have htwins : Batch.devFiles s twinOfTwin = [first, second] := by
    have hfiles : s.files twinOfTwin = [first, second] :=
      Scope.members_of_pairwise rfl rfl (by decide)
    rw [Batch.devFiles, hfiles]
    decide +kernel
  have htwin : twinOfTwin.get? soleTwin = some (.file (utf8 "1")) := by decide
  have hfirst : Batch.Movable s.links twinOfTwin first.address soleTwin (utf8 "2") :=
    ⟨by decide, Tree.writeTarget_of_file _ htwin⟩
  let t := Batch.moved twinOfTwin first.address soleTwin (utf8 "2")
  have hvacant : t.IsPlain (Twin.owner soleTwin) := .inl (by decide +kernel)
  have hsecond : Batch.Movable s.links t soleTwin (Twin.owner soleTwin) (utf8 "2") :=
    ⟨by decide +kernel, Tree.writeTarget_of_isPlain _ hvacant (by decide)⟩
  have hrestore : Batch.restore s twinOfTwin
      = ([⟨first.shown.withName (Twin.owner first.address).name, none⟩,
          ⟨second.shown.withName (Twin.owner second.address).name, none⟩],
        Batch.moved t soleTwin (Twin.owner soleTwin) (utf8 "2")) := by
    rw [Batch.restore, htwins, Batch.sweep,
      Batch.restoreFile_of_movable (by decide +kernel) hfirst (by decide)]
    dsimp only
    rw [Batch.sweep, Batch.restoreFile_of_movable (by decide +kernel) hsecond (by decide)]
    rfl
  refine ⟨htwin, _, restoreTree_of_openScope hscope, ?_⟩
  rw [hrestore]
  refine ⟨rfl, (Tree.readThrough_eq_ok_iff (by decide +kernel) (by decide)
    (hsecond.sameWays.writeTarget_eq hsecond.target)).mpr ?_⟩
  rw [hsecond.get?_moved, if_neg (by decide), if_pos rfl]

end ScriptMinifier
