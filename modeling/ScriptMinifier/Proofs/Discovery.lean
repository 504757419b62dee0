import ScriptMinifier.Proofs.RoundTrip
import ScriptMinifier.Proofs.Ways

/-!
# The files that are listed

`Tree.Down` says what a listing should have without any listing: an entry of a directory, or an
entry further down, reached through directories alone.  A path that opens a directory lists exactly
the files down from it, in the order of their paths (`discover_lists_files`).

The order is that of the steps of a path, not that of its bytes: the slash behind a name ends it,
and so comes before every byte that could make it longer (`Path.Before`).

A directory whose path is too long cannot be listed, and then nothing is (`discover_of_long_path`).
-/

namespace ScriptMinifier

/-! ### Going down -/

/-- The names lead down from the directory to an entry of the kind, through directories alone. -/
inductive Tree.Down (t : Tree) (kind : Entry → Bool) : Dir → List Name → Prop
  | here {d : Dir} {n : Name} {e : Entry} (hget : t.get? ⟨d, n⟩ = some e) (hkind : kind e = true) :
      Down t kind d [n]
  | through {d : Dir} {n : Name} {names : List Name} (hget : t.get? ⟨d, n⟩ = some .dir)
      (hdown : Down t kind (n :: d) names) : Down t kind d (n :: names)

namespace Scope

theorem namesFrom_append (root below : Dir) (n : Name) :
    namesFrom root ⟨below ++ root, n⟩ = below.reverse ++ [n] := by
  rw [namesFrom, List.length_append, Nat.add_sub_cancel, List.take_left, List.reverse_cons]

theorem length_namesFrom (root : Dir) (a : Address) :
    (namesFrom root a).length = a.dir.length - root.length + 1 := by
  rw [namesFrom, List.length_reverse, List.length_cons, List.length_take]
  omega

theorem covers_iff {root : Dir} {recursive : Bool} {a : Address} :
    covers root recursive a.dir = true ↔
      root <:+ a.dir ∧ (recursive = false → (namesFrom root a).length = 1) := by
  constructor
  · intro h
    refine ⟨suffix_of_covers h, ?_⟩
    rintro rfl
    obtain rfl : a.dir = root := beq_iff_eq.mp h
    rw [length_namesFrom, Nat.sub_self]
  · rintro ⟨hsuffix, hone⟩
    cases recursive with
    | true => exact List.isSuffixOf_iff_suffix.mpr hsuffix
    | false =>
      have hlength := hone rfl
      rw [length_namesFrom] at hlength
      have heq := hsuffix.eq_of_length (Nat.le_antisymm hsuffix.length_le (by omega))
      exact beq_iff_eq.mpr heq.symm

end Scope

namespace Tree

open Scope (namesFrom)

variable {t : Tree} {kind : Entry → Bool} {d : Dir} {names : List Name}

theorem Down.exists_address (h : t.Down kind d names) :
    ∃ a e, t.get? a = some e ∧ kind e = true ∧ d <:+ a.dir ∧ namesFrom d a = names := by
  induction h with
  | @here d n e hget hkind =>
    exact ⟨⟨d, n⟩, e, hget, hkind, List.suffix_refl d, Scope.namesFrom_append d [] n⟩
  | @through d n names hget hdown ih =>
    obtain ⟨⟨dir, m⟩, e, hget', hkind, ⟨below, rfl⟩, rfl⟩ := ih
    refine ⟨⟨below ++ n :: d, m⟩, e, hget', hkind, ⟨below ++ [n], by simp⟩, ?_⟩
    have hdeep := Scope.namesFrom_append d (below ++ [n]) m
    rw [List.append_assoc, List.singleton_append, List.reverse_append, List.reverse_singleton,
      List.singleton_append, List.cons_append] at hdeep
    rw [hdeep, Scope.namesFrom_append]

theorem down_of_get? {below : Dir} {n : Name} {e : Entry}
    (hget : t.get? ⟨below ++ d, n⟩ = some e) (hkind : kind e = true) :
    t.Down kind d (below.reverse ++ [n]) := by
  generalize hlength : below.length = k
  induction k generalizing below d with
  | zero =>
    obtain rfl := List.length_eq_zero_iff.mp hlength
    exact .here hget hkind
  | succ k ih =>
    rcases List.eq_nil_or_concat below with rfl | ⟨front, m, rfl⟩
    · cases hlength
    · rw [List.concat_eq_append] at hget hlength ⊢
      rw [List.append_assoc, List.singleton_append] at hget
      have hdir : t.get? ⟨d, m⟩ = some .dir :=
        get?_of_isDir (isDir_of_get? hget) ⟨front, rfl⟩
      rw [List.reverse_append, List.reverse_singleton, List.singleton_append, List.cons_append]
      exact .through hdir (ih hget (by simpa using hlength))

/-- **The ways down are the entries below a directory.** -/
theorem down_iff :
    t.Down kind d names ↔
      ∃ a e, t.get? a = some e ∧ kind e = true ∧ d <:+ a.dir ∧ namesFrom d a = names := by
  refine ⟨Down.exists_address, ?_⟩
  rintro ⟨⟨dir, n⟩, e, hget, hkind, ⟨below, rfl⟩, rfl⟩
  rw [Scope.namesFrom_append]
  exact down_of_get? hget hkind

theorem Down.isName (h : t.Down kind d names) : ∀ n ∈ names, Path.IsName n := by
  induction h with
  | here hget hkind => simpa using (isEntryName_of_get? hget).toIsName
  | through hget hdown ih => simpa using ⟨(isEntryName_of_get? hget).toIsName, ih⟩

end Tree

/-! ### The order of paths -/

namespace Path

def Component.rank : Component → Nat
  | top => 0
  | here => 1
  | up => 2
  | name _ => 3

/-- The order of steps: names come last, and by their bytes. -/
inductive Component.Before : Component → Component → Prop
  | kind {c c' : Component} (h : c.rank < c'.rank) : Before c c'
  | name {n n' : Name} (h : n < n') : Before (.name n) (.name n')

def Before (p q : Path) : Prop := List.Lex Component.Before (components p) (components q)

theorem components_foldl_push {names : List Name} (h : ∀ n ∈ names, IsName n) (root : Path) :
    components (names.foldl push root) = components root ++ names.map .name := by
  induction names generalizing root with
  | nil => simp
  | cons n names ih =>
    rw [List.foldl_cons, ih (fun m hm => h m (List.mem_cons_of_mem n hm)),
      components_push (h n List.mem_cons_self), List.append_assoc]
    rfl

/-- **Names lead to different paths.** -/
theorem foldl_push_inj {names names' : List Name} (h : ∀ n ∈ names, IsName n)
    (h' : ∀ n ∈ names', IsName n) {root : Path}
    (heq : names.foldl push root = names'.foldl push root) : names = names' := by
  have hcomponents := congrArg components heq
  rw [components_foldl_push h, components_foldl_push h', List.append_cancel_left_eq] at hcomponents
  exact (List.map_inj_right fun n m => Component.name.inj).mp hcomponents

theorem lex_map_name {names names' : List Name} (h : names < names') :
    List.Lex Component.Before (names.map .name) (names'.map .name) := by
  have hlex : List.Lex (· < ·) names names' := h
  induction hlex with
  | nil => exact .nil
  | rel hlt => exact .rel (.name hlt)
  | cons hrest ih => exact .cons (ih hrest)

/-- **Paths that go on from the same one are ordered by their names.** -/
theorem before_of_names_lt {names names' : List Name} (h : ∀ n ∈ names, IsName n)
    (h' : ∀ n ∈ names', IsName n) (root : Path) (hlt : names < names') :
    Before (names.foldl push root) (names'.foldl push root) := by
  rw [Before, components_foldl_push h, components_foldl_push h']
  induction components root with
  | nil => exact lex_map_name hlt
  | cons c cs ih => exact .cons ih

theorem Component.Before.asymm {c c' : Component} (h : c.Before c') : ¬ c'.Before c := by
  intro h'
  cases h with
  | kind h =>
    cases h' with
    | kind h' => exact Nat.lt_asymm h h'
    | name h' => exact Nat.lt_irrefl _ h
  | name h =>
    cases h' with
    | kind h' => exact Nat.lt_irrefl _ h'
    | name h' => exact List.lt_asymm h h'

theorem Before.asymm {p q : Path} (h : Before p q) : ¬ Before q p := by
  have hlex {cs ds : List Component} (h : List.Lex Component.Before cs ds) :
      ¬ List.Lex Component.Before ds cs := by
    induction h with
    | nil => exact nofun
    | rel hstep =>
      intro h'
      cases h' with
      | rel hstep' => exact hstep.asymm hstep'
      | cons h' => exact hstep.asymm hstep
    | cons h ih =>
      intro h'
      cases h' with
      | rel hstep' => exact hstep'.asymm hstep'
      | cons h' => exact ih h'
  exact hlex h

/-- **Paths can be put in order in one way only.** -/
theorem eq_of_before {ps qs : List Path} (hps : ps.Pairwise Before) (hqs : qs.Pairwise Before)
    (h : ∀ p, p ∈ ps ↔ p ∈ qs) : ps = qs := by
  have hnodup {rs : List Path} (hrs : rs.Pairwise Before) : rs.Nodup := by
    refine hrs.imp fun {p q} hpq heq => ?_
    subst heq
    exact hpq.asymm hpq
  refine List.Perm.eq_of_pairwise ?_ hps hqs ?_
  · intro p q _ _ hpq hqp
    exact absurd hqp hpq.asymm
  · exact (List.perm_ext_iff_of_nodup (hnodup hps) (hnodup hqs)).mpr h

end Path

/-! ### Listings -/

section

variable {t : Tree} {start : Dir} {root : Path} {recursive : Bool} {d : Dir} {links : Nat}

theorem openScope_of_locate (hroot : t.locate start root = .ok (.dir d, links))
    (hshort : recursive = true → ∀ names, t.Down Entry.isDir d names →
      Tree.tooLong (names.foldl Path.push root) = false) :
    openScope t start root recursive = .ok ⟨some d, root, recursive, links⟩ := by
  rw [openScope_eq_ok_iff, Scope.locate, hroot]
  refine ⟨rfl, ?_⟩
  rw [Scope.unlisted?]
  split
  next hrecursive =>
    rw [List.find?_eq_none]
    intro f hf
    obtain ⟨root', a, e, hdir, hget, hkind, hcovers, rfl⟩ := Scope.mem_members_iff.mp hf
    obtain rfl : d = root' := Option.some.inj hdir
    have hdown := Tree.down_iff.mpr ⟨a, e, hget, hkind, Scope.suffix_of_covers hcovers, rfl⟩
    rw [Scope.foundAt, hshort hrecursive _ hdown]
    exact Bool.false_ne_true
  next => rfl

/-- **The files of a scope are those down from its directory.** -/
theorem mem_files_iff_down {names : List Name} :
    (∃ f ∈ Scope.files ⟨some d, root, recursive, links⟩ t, f.names = names) ↔
      t.Down Entry.isFile d names ∧ (recursive = false → names.length = 1) := by
  rw [Tree.down_iff]
  constructor
  · rintro ⟨f, hf, rfl⟩
    obtain ⟨root', a, e, hdir, hget, hkind, hcovers, rfl⟩ := Scope.mem_members_iff.mp hf
    obtain rfl : d = root' := Option.some.inj hdir
    obtain ⟨hsuffix, hone⟩ := Scope.covers_iff.mp hcovers
    exact ⟨⟨a, e, hget, hkind, hsuffix, rfl⟩, hone⟩
  · rintro ⟨⟨a, e, hget, hkind, hsuffix, rfl⟩, hone⟩
    exact ⟨_, Scope.mem_members_iff.mpr
      ⟨d, a, e, rfl, hget, hkind, Scope.covers_iff.mpr ⟨hsuffix, hone⟩, rfl⟩, rfl⟩

theorem shown_of_mem_files {f : Found}
    (hf : f ∈ Scope.files ⟨some d, root, recursive, links⟩ t) :
    f.shown = f.names.foldl Path.push root := by
  obtain ⟨root', a, -, -, -, -, -, rfl⟩ := Scope.mem_members_iff.mp hf
  rfl

theorem mem_shown_iff {p : Path} :
    p ∈ (Scope.files ⟨some d, root, recursive, links⟩ t).map Found.shown ↔
      ∃ names, t.Down Entry.isFile d names ∧ (recursive = false → names.length = 1) ∧
        p = names.foldl Path.push root := by
  rw [List.mem_map]
  constructor
  · rintro ⟨f, hf, rfl⟩
    obtain ⟨hdown, hone⟩ := mem_files_iff_down.mp ⟨f, hf, rfl⟩
    exact ⟨f.names, hdown, hone, shown_of_mem_files hf⟩
  · rintro ⟨names, hdown, hone, rfl⟩
    obtain ⟨f, hf, rfl⟩ := mem_files_iff_down.mpr ⟨hdown, hone⟩
    exact ⟨f, hf, shown_of_mem_files hf⟩

theorem before_shown :
    ((Scope.files ⟨some d, root, recursive, links⟩ t).map Found.shown).Pairwise Path.Before := by
  rw [List.pairwise_map]
  refine (Scope.sorted_members _ Entry.isFile t).imp_of_mem fun {f g} hf hg hlt => ?_
  have hisName {f : Found} (hf : f ∈ Scope.files ⟨some d, root, recursive, links⟩ t) :=
    (mem_files_iff_down.mp ⟨f, hf, rfl⟩).1.isName
  rw [shown_of_mem_files hf, shown_of_mem_files hg]
  exact Path.before_of_names_lt (hisName hf) (hisName hg) root hlt

end

/-- **Discovery lists the files of a directory, each once and in order.**  Let a path lead to a
directory, and let every directory that is to be listed have a path that is not too long.  Then the
files are found: one name down from the directory, or any number of names down.  Different files
have different paths; the paths come in their order; and there is no other list of these paths in
that order, so it does not matter in which order the tree holds its entries. -/
theorem discover_lists_files {t : Tree} {start : Dir} {root : Path} (recursive : Bool) {d : Dir}
    {links : Nat} (hroot : t.locate start root = .ok (.dir d, links))
    (hshort : recursive = true → ∀ names, t.Down Entry.isDir d names →
      Tree.tooLong (names.foldl Path.push root) = false) :
    ∃ paths, discover t start root recursive = .ok paths ∧
      (∀ p, p ∈ paths ↔ ∃ names, t.Down Entry.isFile d names ∧
        (recursive = false → names.length = 1) ∧ p = names.foldl Path.push root) ∧
      (∀ names names', t.Down Entry.isFile d names → t.Down Entry.isFile d names' →
        names.foldl Path.push root = names'.foldl Path.push root → names = names') ∧
      paths.Pairwise Path.Before ∧
      (∀ ps : List Path, ps.Pairwise Path.Before → (∀ p, p ∈ ps ↔ p ∈ paths) → ps = paths) ∧
      ∀ t', t.Same t' → discover t' start root recursive = .ok paths := by
  have hscope := openScope_of_locate hroot hshort
  have hsorted :
      ((Scope.files ⟨some d, root, recursive, links⟩ t).map Found.shown).Pairwise Path.Before :=
    before_shown
  refine ⟨_, by rw [discover, hscope]; rfl, fun p => mem_shown_iff, ?_, hsorted, ?_, ?_⟩
  · intro names names' hdown hdown' heq
    exact Path.foldl_push_inj hdown.isName hdown'.isName heq
  · intro ps hps hmem
    exact Path.eq_of_before hps hsorted hmem
  · intro t' hsame
    rw [discover, openScope_of_sameShape hsame.sameShape hscope, Except.map, Scope.files,
      Scope.members_of_same hsame]
    rfl

/-! ### Two trees -/

/-- The directory `d`, with a link to it outside and two links in it. -/
def linkedTree : Tree where
  entries :=
    [(⟨[], utf8 "k"⟩, .link (utf8 "/d")), (⟨[], utf8 "d"⟩, .dir),
      (⟨[utf8 "d"], utf8 "a-b.js"⟩, .file (utf8 "1")),
      (⟨[utf8 "d"], utf8 "l"⟩, .link (utf8 "a")),
      (⟨[utf8 "d"], utf8 "l.js"⟩, .link (utf8 "a-b.js")),
      (⟨[utf8 "d"], utf8 "a"⟩, .dir),
      (⟨[utf8 "a", utf8 "d"], utf8 "b.js"⟩, .file (utf8 "2"))]
  nodup := by decide
  rooted := by decide
  named := by decide

theorem locate_linkedTree :
    linkedTree.locate [utf8 "d"] (utf8 "/k") = .ok (.dir [utf8 "d"], 39) := by
  have hk : Tree.IsEntryName (utf8 "k") := by decide
  have hd : Tree.IsEntryName (utf8 "d") := by decide
  have hlink : linkedTree.get? ⟨[], utf8 "k"⟩ = some (.link (utf8 "/d")) := by decide
  have hdir : linkedTree.get? ⟨[], utf8 "d"⟩ = some .dir := by decide
  calc linkedTree.locate [utf8 "d"] (utf8 "/k")
      = linkedTree.walk false (39 + 1) [] [[], utf8 "k"] := rfl
    _ = linkedTree.walk false (39 + 1) [] [utf8 "k"] := Tree.walk_of_isIdle rfl
    _ = linkedTree.walk false 39 [] [[], utf8 "d"] :=
      Tree.walk_of_link (hk.looksUp (.inl rfl)) hlink
    _ = linkedTree.walk false 39 [] [utf8 "d"] := Tree.walk_of_isIdle rfl
    _ = linkedTree.walk false 39 [utf8 "d"] [] := Tree.walk_of_dir (hd.looksUp (.inl rfl)) hdir
    _ = .ok (.dir [utf8 "d"], 39) := Tree.walk_nil

/-- Through a link to the directory its files are listed, and its links are not; `a/b.js` comes
first. -/
theorem discover_lists_files_through_link :
    discover linkedTree [utf8 "d"] (utf8 "/k") true = .ok [utf8 "/k/a/b.js", utf8 "/k/a-b.js"] := by
  have hshort : ∀ x ∈ linkedTree.entries,
      Tree.tooLong ((Scope.namesFrom [utf8 "d"] x.1).foldl Path.push (utf8 "/k")) = false := by
    decide
  have hfiles : ∀ x ∈ linkedTree.entries, Entry.isFile x.2 = true →
      (Scope.namesFrom [utf8 "d"] x.1).foldl Path.push (utf8 "/k")
        ∈ [utf8 "/k/a/b.js", utf8 "/k/a-b.js"] := by
    decide
  have hsorted : [utf8 "/k/a/b.js", utf8 "/k/a-b.js"].Pairwise Path.Before := by
    have hbefore : Path.Before (utf8 "/k/a/b.js") (utf8 "/k/a-b.js") :=
      .cons (.cons (.rel (.name (by decide))))
    simpa using hbefore
  obtain ⟨paths, hpaths, hmem, -, -, honly, -⟩ := discover_lists_files true locate_linkedTree
    (fun _ names hdown => by
      obtain ⟨a, e, hget, -, -, rfl⟩ := hdown.exists_address
      exact hshort _ (Tree.mem_entries_iff.mpr hget))
  rw [hpaths, honly _ hsorted]
  intro p
  rw [hmem]
  constructor
  · intro hp
    have hor : p = utf8 "/k/a/b.js" ∨ p = utf8 "/k/a-b.js" := by simpa using hp
    rcases hor with rfl | rfl
    · exact ⟨[utf8 "a", utf8 "b.js"], .through rfl (.here rfl rfl), by simp, by decide⟩
    · exact ⟨[utf8 "a-b.js"], .here rfl rfl, by simp, by decide⟩
  · rintro ⟨names, hdown, -, rfl⟩
    obtain ⟨a, e, hget, hkind, -, rfl⟩ := hdown.exists_address
    exact hfiles _ (Tree.mem_entries_iff.mpr hget) hkind

def longName : Name := List.replicate 255 97

def deepTree : Tree where
  entries :=
    [(⟨[], utf8 "d"⟩, .dir), (⟨[utf8 "d"], longName⟩, .dir),
      (⟨[longName, utf8 "d"], utf8 "x.js"⟩, .file (utf8 "1"))]
  nodup := by decide +kernel
  rooted := by decide +kernel
  named := by decide +kernel

/-- **Where a directory below cannot be listed, nothing is.** -/
theorem discover_of_unlisted {t : Tree} {start : Dir} {root : Path} {recursive : Bool} {s : Scope}
    {f : Found} (hs : Scope.locate t start root recursive = .ok s)
    (hf : s.unlisted? t = some f) :
    discover t start root recursive = .error (.walk f.shown .nameTooLong) := by
  rw [discover, openScope, hs]
  dsimp only
  rw [hf]
  rfl

/-- The path leads to the directory and the file is there, but the path of the directory between
them is too long, and no file is listed. -/
theorem discover_of_long_path :
    deepTree.locate [] (Path.winding 1920) = .ok (.dir [utf8 "d"], Tree.maxLinks) ∧
      deepTree.Down Entry.isFile [utf8 "d"] [longName, utf8 "x.js"] ∧
      discover deepTree [] (Path.winding 1920) true
        = .error (.walk (Path.winding 1920 ++ longName) .nameTooLong) := by
  have hroot := locate_winding (t := deepTree) (by decide) (n := 1920) (by decide)
  have hdir : deepTree.get? ⟨[utf8 "d"], longName⟩ = some .dir := by decide +kernel
  have hfile : deepTree.get? ⟨[longName, utf8 "d"], utf8 "x.js"⟩ = some (.file (utf8 "1")) := by
    decide +kernel
  refine ⟨hroot, .through hdir (.here hfile rfl), ?_⟩
  have hlong : Tree.tooLong (Path.winding 1920 ++ longName) = true := by
    rw [Tree.tooLong, List.length_append, Path.length_winding, longName, List.length_replicate]
    decide
  have hs : Scope.locate deepTree [] (Path.winding 1920) true
      = .ok ⟨some [utf8 "d"], Path.winding 1920, true, Tree.maxLinks⟩ := by
    rw [Scope.locate, hroot]
  have hfound (root : Path) : deepTree.entries.filterMap
      (Scope.found? ⟨some [utf8 "d"], root, true, Tree.maxLinks⟩ [utf8 "d"] Entry.isDir)
      = [⟨⟨[utf8 "d"], longName⟩, [longName], root.push longName⟩] := rfl
  refine discover_of_unlisted (f := ⟨⟨[utf8 "d"], longName⟩, [longName], _⟩) hs ?_
  rw [Scope.unlisted?, if_pos rfl, Scope.dirs,
    Scope.members_of_pairwise rfl (hfound _) (List.pairwise_singleton _ _), Path.push_winding]
  exact List.find?_cons_of_pos hlong

end ScriptMinifier
