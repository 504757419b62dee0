import ScriptMinifier.Proofs.Twin
import ScriptMinifier.Proofs.Ways

/-!
# Exchanges of sources and twins

Minifying a source in place makes its twin and replaces its text (`Batch.swap`); restoring the twin
takes both back (`Batch.unswap`).  `Batch.Exchanged t pending t'` says how the tree `t'` differs
from `t`: at the sources in `pending`, whose first text stands at the twin beside them, and nowhere
else.

A source that is minified joins `pending` (`Batch.Exchanged.swap`), a twin that is restored takes
its source out of it (`Batch.Exchanged.unswap`), in any order.  With nothing pending the two trees
are the same (`Batch.Exchanged.eq`).

`Batch.Owed t pending t'` asks for less: that the texts of the sources in `pending` stand at their
twins, whatever has become of the sources themselves.
-/

namespace ScriptMinifier

namespace Batch

open Twin (beside AtSource)

/-! ### One source -/

/-- The tree after `text`, the text of the source `a`, was saved and `out` written in its place. -/
def swap (t : Tree) (a : Address) (text out : Bytes) : Tree :=
  (t.put (beside a) (.file text)).put a (.file out)

/-- The tree after `text`, the text of the twin of `a`, was copied back and the twin removed. -/
def unswap (t : Tree) (a : Address) (text : Bytes) : Tree :=
  (t.put a (.file text)).remove (beside a)

/-- A source can be minified into `out`, and its twin can be made. -/
structure Swappable (o : Options) (t : Tree) (a : Address) (text out : Bytes) : Prop where
  source : t.get? a = some (.file text)
  minified : minify o text = .ok out
  vacant : t.get? (beside a) = none
  length_le : (beside a).name.length ≤ Tree.maxName

theorem exchange_cases (t : Tree) (f : Found) (text out : Bytes) :
    (∃ e, exchange t f (beside f.address).name text out = (some e, t)) ∨
      t.get? (beside f.address) = none ∧ (beside f.address).name.length ≤ Tree.maxName ∧
        exchange t f (beside f.address).name text out = (none, swap t f.address text out) := by
  rw [exchange]
  cases hcreate : Tree.calledOn (f.shown.withName (beside f.address).name)
      (t.create ⟨f.address.dir, (beside f.address).name⟩ text) with
  | error e => cases e <;> exact .inl ⟨_, rfl⟩
  | ok t₁ =>
    obtain ⟨hlength, hvacant, rfl⟩ :=
      Tree.create_eq_ok_iff.mp (Tree.calledOn_eq_ok_iff.mp hcreate).2
    exact .inr ⟨hvacant, hlength, rfl⟩

/-- **A source is left as it was, or swapped.** -/
theorem minifyFile_cases (o : Options) (t : Tree) {f : Found} (hf : AtSource f.address) :
    ((minifyFile o t f).2 = t ∧ (minifyFile o t f).1.report.minified = 0) ∨
      ∃ text out, Swappable o t f.address text out ∧
        (minifyFile o t f).2 = swap t f.address text out ∧
        (minifyFile o t f).1.report.minified = 1 := by
  rw [minifyFile, Twin.devName?_of_atSource hf]
  simp only [minifyAs]
  cases hread : Tree.calledOn f.shown (t.read f.address) with
  | error e => exact .inl ⟨rfl, rfl⟩
  | ok text =>
    have hsource := Tree.read_eq_ok_iff.mp (Tree.calledOn_eq_ok_iff.mp hread).2
    dsimp only
    cases hresult : (scan text).result o with
    | error u => exact .inl ⟨rfl, rfl⟩
    | ok out =>
      dsimp only
      rcases exchange_cases t f text out with ⟨e, he⟩ | ⟨hvacant, hlength, hswap⟩
      · rw [he]
        exact .inl ⟨rfl, rfl⟩
      · rw [hswap]
        exact .inr ⟨text, out, ⟨hsource, hresult, hvacant, hlength⟩, rfl, rfl⟩

/-- **A source is swapped if it can be**, and its path and that of its twin are not too long. -/
theorem minifyFile_of_swappable {o : Options} {t : Tree} {f : Found} {text out : Bytes}
    (hf : AtSource f.address) (h : Swappable o t f.address text out)
    (hshown : Tree.tooLong f.shown = false)
    (htwin : Tree.tooLong (f.shown.withName (beside f.address).name) = false) :
    minifyFile o t f
      = (⟨f.shown, (scan text).openings, some (Stats.of text out), none⟩,
          swap t f.address text out) := by
  have hread := Tree.calledOn_eq_ok_iff.mpr ⟨hshown, Tree.read_eq_ok_iff.mpr h.source⟩
  have hcreate : Tree.calledOn (f.shown.withName (beside f.address).name)
      (t.create ⟨f.address.dir, (beside f.address).name⟩ text)
        = .ok (t.put (beside f.address) (.file text)) :=
    Tree.calledOn_eq_ok_iff.mpr
      ⟨htwin, Tree.create_eq_ok_iff.mpr ⟨h.length_le, h.vacant, rfl⟩⟩
  have hresult : (scan text).result o = .ok out := h.minified
  rw [minifyFile, Twin.devName?_of_atSource hf]
  dsimp only
  rw [minifyAs, hread]
  dsimp only
  rw [hresult]
  dsimp only
  rw [exchange, hcreate]
  rfl

namespace Swappable

variable {o : Options} {t : Tree} {a : Address} {text out : Bytes}

theorem isDir (h : Swappable o t a text out) : t.isDir (beside a).dir = true :=
  Tree.isDir_of_get? (a := a) h.source

theorem accepts (h : Swappable o t a text out) : t.accepts (beside a) = true := by
  refine Tree.accepts_iff.mpr ⟨h.isDir, ?_, by simp [h.vacant]⟩
  exact Twin.isEntryName_beside (Tree.isEntryName_of_get? h.source) h.length_le

theorem get?_put (h : Swappable o t a text out) (ha : AtSource a) :
    (t.put (beside a) (.file text)).get? a = some (.file text) := by
  rw [Tree.get?_put h.accepts, if_neg (Ne.symm (Twin.ne_beside ha ha)), h.source]

theorem get?_swap (h : Swappable o t a text out) (ha : AtSource a) (b : Address) :
    (swap t a text out).get? b
      = if a = b then some (.file out)
        else if beside a = b then some (.file text) else t.get? b := by
  rw [swap, Tree.get?_put (Tree.accepts_of_file (h.get?_put ha)), Tree.get?_put h.accepts]

theorem addresses_swap (h : Swappable o t a text out) (ha : AtSource a) :
    (swap t a text out).addresses = t.addresses ++ [beside a] := by
  have hsome : ((t.put (beside a) (.file text)).get? a).isSome = true := by
    rw [h.get?_put ha]
    rfl
  rw [swap, Tree.addresses_put_of_mem _ hsome, Tree.addresses_put_of_vacant _ h.accepts h.vacant]

end Swappable

/-! ### Trees that differ by exchanges -/

structure Swapped (t t' : Tree) (a : Address) : Prop where
  atSource : AtSource a
  vacant : t.get? (beside a) = none
  saved : ∃ text, t.get? a = some (.file text) ∧ t'.get? (beside a) = some (.file text)
  replaced : ∃ out, t'.get? a = some (.file out)

/-- `t'` is `t` with the sources in `pending` swapped. -/
structure Exchanged (t : Tree) (pending : List Address) (t' : Tree) : Prop where
  nodup : pending.Nodup
  swapped : ∀ a ∈ pending, Swapped t t' a
  get?_eq : ∀ b, b ∉ pending → b ∉ pending.map beside → t'.get? b = t.get? b
  addresses_eq : t'.addresses = t.addresses ++ pending.map beside

namespace Exchanged

theorem refl (t : Tree) : Exchanged t [] t :=
  ⟨List.nodup_nil, by simp, fun _ _ _ => rfl, by simp⟩

theorem eq {t t' : Tree} (h : Exchanged t [] t') : t' = t :=
  Tree.eq_of_get? (by simpa using h.addresses_eq) fun b => h.get?_eq b (by simp) (by simp)

theorem notMem_beside {t t' : Tree} {pending : List Address} (h : Exchanged t pending t')
    {a : Address} (ha : AtSource a) : a ∉ pending.map beside := by
  intro hmem
  obtain ⟨b, hb, rfl⟩ := List.mem_map.mp hmem
  exact Twin.ne_beside ha (h.swapped b hb).atSource rfl

theorem beside_notMem {t t' : Tree} {pending : List Address} (h : Exchanged t pending t')
    {a : Address} (ha : AtSource a) : beside a ∉ pending := by
  intro hmem
  exact Twin.ne_beside (h.swapped _ hmem).atSource ha rfl

theorem swap {o : Options} {t t' : Tree} {pending : List Address} {a : Address} {text out : Bytes}
    (h : Exchanged t pending t') (ha : AtSource a) (hnew : a ∉ pending)
    (hswap : Swappable o t' a text out) :
    Exchanged t (pending ++ [a]) (Batch.swap t' a text out) := by
  have hget := hswap.get?_swap ha
  have hbeside : beside a ∉ pending.map beside := by
    intro hmem
    obtain ⟨b, hb, heq⟩ := List.mem_map.mp hmem
    obtain ⟨text', -, hsaved⟩ := (h.swapped b hb).saved
    rw [heq, hswap.vacant] at hsaved
    cases hsaved
  have hsource : t.get? a = some (.file text) := by
    rw [← h.get?_eq a hnew (h.notMem_beside ha)]
    exact hswap.source
  have hvacant : t.get? (beside a) = none := by
    rw [← h.get?_eq (beside a) (h.beside_notMem ha) hbeside]
    exact hswap.vacant
  refine ⟨?_, ?_, ?_, ?_⟩
  · rw [List.nodup_append]
    refine ⟨h.nodup, by simp, ?_⟩
    intro b hb c hc
    rw [List.mem_singleton.mp hc]
    rintro rfl
    exact hnew hb
  · intro b hb
    rw [List.mem_append, List.mem_singleton] at hb
    rcases hb with hb | rfl
    · have hold := h.swapped b hb
      have hne : a ≠ b := by
        rintro rfl
        exact hnew hb
      have hne' : beside a ≠ beside b := fun heq => hne (Twin.beside_inj ha hold.atSource heq)
      refine ⟨hold.atSource, hold.vacant, ?_, ?_⟩
      · rw [hget, if_neg (Twin.ne_beside ha hold.atSource), if_neg hne']
        exact hold.saved
      · rw [hget, if_neg hne, if_neg (Ne.symm (Twin.ne_beside hold.atSource ha))]
        exact hold.replaced
    · refine ⟨ha, hvacant, ⟨text, hsource, ?_⟩, ⟨out, ?_⟩⟩
      · rw [hget, if_neg (Twin.ne_beside ha ha), if_pos rfl]
      · rw [hget, if_pos rfl]
  · intro b hb hb'
    simp only [List.mem_append, List.mem_singleton, not_or, List.map_append, List.map_cons,
      List.map_nil] at hb hb'
    rw [hget, if_neg (Ne.symm hb.2), if_neg (Ne.symm hb'.2)]
    exact h.get?_eq b hb.1 hb'.1
  · rw [hswap.addresses_swap ha, h.addresses_eq, List.append_assoc, List.map_append]
    rfl

/-- **A twin that is restored is no longer pending.** -/
theorem unswap {t t' : Tree} {pending : List Address} {a : Address} {text : Bytes}
    (h : Exchanged t pending t') (ha : a ∈ pending)
    (hsaved : t'.get? (beside a) = some (.file text)) :
    Exchanged t (pending.erase a) (Batch.unswap t' a text) := by
  have hswapped := h.swapped a ha
  obtain ⟨out, hout⟩ := hswapped.replaced
  have hne : a ≠ beside a := Twin.ne_beside hswapped.atSource hswapped.atSource
  have hput := Tree.get?_put (Tree.accepts_of_file hout) (.file text)
  have htwin : (t'.put a (.file text)).get? (beside a) ≠ some .dir := by
    rw [hput, if_neg hne, hsaved]
    simp
  have hget (b : Address) : (Batch.unswap t' a text).get? b
      = if b = beside a then none else if a = b then some (.file text) else t'.get? b := by
    rw [Batch.unswap, Tree.get?_remove_of_ne_dir htwin, hput]
  have herase : pending.erase a = pending.filter (· != a) := h.nodup.erase_eq_filter a
  refine ⟨h.nodup.erase a, ?_, ?_, ?_⟩
  · intro b hb
    rw [h.nodup.mem_erase_iff] at hb
    have hold := h.swapped b hb.2
    have hbeside : beside b ≠ beside a := by
      intro heq
      exact hb.1 (Twin.beside_inj hold.atSource hswapped.atSource heq)
    refine ⟨hold.atSource, hold.vacant, ?_, ?_⟩
    · rw [hget, if_neg hbeside, if_neg (Twin.ne_beside hswapped.atSource hold.atSource)]
      exact hold.saved
    · rw [hget, if_neg (Twin.ne_beside hold.atSource hswapped.atSource), if_neg (Ne.symm hb.1)]
      exact hold.replaced
  · intro b hb hb'
    rw [hget]
    split
    next hb => rw [hb, hswapped.vacant]
    next hbeside =>
    split
    next heq =>
      subst heq
      obtain ⟨text', htext', hsaved'⟩ := hswapped.saved
      rw [htext', ← hsaved', hsaved]
    next hne =>
      refine h.get?_eq b ?_ ?_
      · intro hmem
        exact hb (h.nodup.mem_erase_iff.mpr ⟨Ne.symm hne, hmem⟩)
      · intro hmem
        obtain ⟨c, hc, rfl⟩ := List.mem_map.mp hmem
        refine hb' (List.mem_map_of_mem (h.nodup.mem_erase_iff.mpr ⟨?_, hc⟩))
        rintro rfl
        exact hbeside rfl
  · have hsome : (t'.get? a).isSome = true := by
      rw [hout]
      rfl
    have hold : beside a ∉ t.addresses := by
      rw [Tree.mem_addresses_iff, hswapped.vacant]
      simp
    rw [Batch.unswap, Tree.addresses_remove htwin, Tree.addresses_put_of_mem _ hsome,
      h.addresses_eq, List.filter_append, herase, List.filter_map]
    congr 1
    · rw [List.filter_eq_self]
      intro b hb
      rw [bne_iff_ne]
      rintro rfl
      exact hold hb
    · refine congrArg (List.map beside) (List.filter_congr fun b hb => ?_)
      have hiff : beside b = beside a ↔ b = a :=
        ⟨Twin.beside_inj (h.swapped b hb).atSource hswapped.atSource, congrArg beside⟩
      rw [Function.comp_apply, Bool.eq_iff_iff, bne_iff_ne, bne_iff_ne, ne_eq, ne_eq, hiff]

theorem sameShape {t t' : Tree} {pending : List Address} (h : Exchanged t pending t') :
    t.SameShape t' := by
  have hpending {a : Address} (ha : a ∈ pending) :
      ∃ text out, t.get? a = some (.file text) ∧ t'.get? a = some (.file out) := by
    obtain ⟨text, htext, -⟩ := (h.swapped a ha).saved
    obtain ⟨out, hout⟩ := (h.swapped a ha).replaced
    exact ⟨text, out, htext, hout⟩
  have htwin {b : Address} (hb : b ∈ pending.map beside) :
      ∃ text, t.get? b = none ∧ t'.get? b = some (.file text) := by
    obtain ⟨a, ha, rfl⟩ := List.mem_map.mp hb
    obtain ⟨text, -, hsaved⟩ := (h.swapped a ha).saved
    exact ⟨text, (h.swapped a ha).vacant, hsaved⟩
  constructor
  · intro a
    by_cases ha : a ∈ pending
    · obtain ⟨text, out, htext, hout⟩ := hpending ha
      simp [htext, hout]
    by_cases ha' : a ∈ pending.map beside
    · obtain ⟨text, hnone, hsaved⟩ := htwin ha'
      simp [hnone, hsaved]
    rw [h.get?_eq a ha ha']
  · intro a target hlink
    by_cases ha : a ∈ pending
    · obtain ⟨text, out, htext, -⟩ := hpending ha
      simp [htext] at hlink
    by_cases ha' : a ∈ pending.map beside
    · obtain ⟨text, hnone, -⟩ := htwin ha'
      simp [hnone] at hlink
    rwa [h.get?_eq a ha ha']
  · intro a data hfile
    by_cases ha : a ∈ pending
    · obtain ⟨text, out, -, hout⟩ := hpending ha
      exact ⟨out, hout⟩
    by_cases ha' : a ∈ pending.map beside
    · obtain ⟨text, hnone, -⟩ := htwin ha'
      simp [hnone] at hfile
    exact ⟨data, by rwa [h.get?_eq a ha ha']⟩

end Exchanged

/-- The texts that the sources in `pending` have in `t` stand at their twins in `t'`; the sources
themselves may be gone there or hold anything, and nothing else differs. -/
structure Owed (t : Tree) (pending : List Address) (t' : Tree) : Prop where
  atSource : ∀ a ∈ pending, AtSource a
  vacant : ∀ a ∈ pending, t.get? (beside a) = none
  saved : ∀ a ∈ pending, ∃ text, t.get? a = some (.file text) ∧
    t'.get? (beside a) = some (.file text)
  plain : ∀ a ∈ pending, t'.IsPlain a
  get?_eq : ∀ b, b ∉ pending → b ∉ pending.map beside → t'.get? b = t.get? b

theorem Exchanged.owed {t t' : Tree} {pending : List Address} (h : Exchanged t pending t') :
    Owed t pending t' :=
  ⟨fun a ha => (h.swapped a ha).atSource, fun a ha => (h.swapped a ha).vacant,
    fun a ha => (h.swapped a ha).saved, fun a ha => .inr (h.swapped a ha).replaced, h.get?_eq⟩

/-! ### One twin -/

/-- **The twin of a pending source is copied back and removed.** -/
theorem restoreFile_eq {t t' : Tree} {pending : List Address} {a : Address} {f : Found}
    (h : Exchanged t pending t') (ha : a ∈ pending) (hf : f.address = beside a)
    (hshort : Tree.tooLong f.shown = false) (links : Nat) :
    ∃ script text, restoreFile links t' f = (⟨script, none⟩, unswap t' a text) ∧
      t'.get? (beside a) = some (.file text) := by
  have hswapped := h.swapped a ha
  obtain ⟨text, -, hsaved⟩ := hswapped.saved
  obtain ⟨out, hout⟩ := hswapped.replaced
  have hne : a ≠ beside a := Twin.ne_beside hswapped.atSource hswapped.atSource
  refine ⟨f.shown.withName a.name, text, ?_, hsaved⟩
  have htarget := Tree.writeTarget_of_file links hout
  have hscript : (⟨f.address.dir, a.name⟩ : Address) = a := by
    rw [hf]
    rfl
  have hcopy : t'.copy links f.address a = .ok (t'.put a (.file text)) := by
    rw [hf, Tree.copy, hsaved]
    dsimp only
    rw [htarget]
    simp [hne]
  have hunlink : (t'.put a (.file text)).unlink (beside a) = .ok (unswap t' a text) := by
    rw [Tree.unlink, Tree.get?_put (Tree.accepts_of_file hout), if_neg hne, hsaved]
    rfl
  rw [restoreFile, hf, Twin.minName?_beside hswapped.atSource]
  dsimp only
  rw [restoreAs, hscript, Tree.calledOn_eq_ok_iff.mpr ⟨hshort, hcopy⟩]
  dsimp only
  rw [hf, hunlink]

end Batch

end ScriptMinifier
