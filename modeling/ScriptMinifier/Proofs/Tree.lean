import ScriptMinifier.Batch.Run

/-!
# Addresses, listings and shapes of trees

A tree is known by its addresses, in the order in which it holds them, and what stands at each
(`Tree.eq_of_get?`).  A listing of a scope has exactly the entries of the scope, each once and in
the order of their names (`Scope.mem_members_iff`, `Scope.nodup_members`, `Scope.sorted_members`).

Two trees of the same shape have the same directories and links, and every file of the first is a
file of the second (`Tree.SameShape`).  A path that opens a scope in the first opens the same scope
in the second (`openScope_of_sameShape`): walks go through directories and links, and a listing
fails only at a directory.
-/

namespace ScriptMinifier

namespace Tree

/-! ### Addresses -/

def addresses (t : Tree) : List Address := t.entries.map Prod.fst

theorem mem_addresses_iff {t : Tree} {a : Address} : a ∈ t.addresses ↔ (t.get? a).isSome := by
  rw [Option.isSome_iff_exists, addresses, List.mem_map]
  constructor
  · rintro ⟨⟨b, e⟩, hmem, rfl⟩
    exact ⟨e, mem_entries_iff.mp hmem⟩
  · rintro ⟨e, he⟩
    exact ⟨(a, e), mem_entries_iff.mpr he, rfl⟩

theorem entries_eq_of_lookupIn {xs ys : List (Address × Entry)} (hxs : (xs.map Prod.fst).Nodup)
    (hkeys : ys.map Prod.fst = xs.map Prod.fst) (h : ∀ a, lookupIn a ys = lookupIn a xs) :
    ys = xs := by
  induction xs generalizing ys with
  | nil => exact List.map_eq_nil_iff.mp hkeys
  | cons x xs ih =>
    cases ys with
    | nil => cases hkeys
    | cons y ys =>
      obtain ⟨hkey, hrest⟩ := List.cons.inj hkeys
      rw [List.map_cons, List.nodup_cons] at hxs
      have hhead : y = x := by
        have hx := h x.1
        rw [lookupIn, lookupIn, if_pos hkey, if_pos rfl] at hx
        exact Prod.ext hkey (Option.some.inj hx)
      subst hhead
      have hnot {zs : List (Address × Entry)} (hzs : y.1 ∉ zs.map Prod.fst) :
          lookupIn y.1 zs = none := by
        cases hz : lookupIn y.1 zs with
        | none => rfl
        | some e => exact absurd (List.mem_map_of_mem (mem_of_lookupIn hz)) hzs
      refine congrArg (y :: ·) (ih hxs.2 hrest ?_)
      intro a
      by_cases ha : y.1 = a
      · subst ha
        rw [hnot hxs.1, hnot (hrest ▸ hxs.1)]
      · have htail := h a
        rwa [lookupIn, lookupIn, if_neg ha, if_neg ha] at htail

/-- **A tree is its addresses and what stands at each.** -/
theorem eq_of_get? {t t' : Tree} (haddresses : t'.addresses = t.addresses)
    (h : ∀ a, t'.get? a = t.get? a) : t' = t := by
  have hentries : t'.entries = t.entries := entries_eq_of_lookupIn t.nodup haddresses h
  cases t
  cases t'
  cases hentries
  rfl

theorem keys_putIn_of_mem {a : Address} {e : Entry} {entries : List (Address × Entry)}
    (h : (lookupIn a entries).isSome = true) :
    (putIn a e entries).map Prod.fst = entries.map Prod.fst := by
  induction entries with
  | nil => cases h
  | cons x rest ih =>
    rw [putIn]
    split
    next hx => simp [hx]
    next hx =>
      rw [lookupIn, if_neg hx] at h
      rw [List.map_cons, List.map_cons, ih h]

theorem keys_putIn_of_vacant {a : Address} {e : Entry} {entries : List (Address × Entry)}
    (h : lookupIn a entries = none) :
    (putIn a e entries).map Prod.fst = entries.map Prod.fst ++ [a] := by
  induction entries with
  | nil => rfl
  | cons x rest ih =>
    rw [lookupIn] at h
    split at h
    next => cases h
    next hx => rw [putIn, if_neg hx, List.map_cons, ih h, List.map_cons, List.cons_append]

theorem addresses_put_of_mem {t : Tree} {a : Address} (e : Entry) (h : (t.get? a).isSome = true) :
    (t.put a e).addresses = t.addresses := by
  rw [put]
  split
  · exact keys_putIn_of_mem h
  · rfl

theorem addresses_put_of_vacant {t : Tree} {a : Address} (e : Entry) (hacc : t.accepts a = true)
    (h : t.get? a = none) : (t.put a e).addresses = t.addresses ++ [a] := by
  rw [put, dif_pos hacc]
  exact keys_putIn_of_vacant h

theorem addresses_remove {t : Tree} {a : Address} (h : t.get? a ≠ some .dir) :
    (t.remove a).addresses = t.addresses.filter (· != a) := by
  rw [addresses, remove, addresses, List.filter_map]
  refine congrArg (List.map Prod.fst) (List.filter_congr fun x hx => ?_)
  have hholds : a.holds x.1 = false := by
    rw [← Bool.not_eq_true]
    intro hholds
    exact h (get?_of_holds (mem_entries_iff.mp hx) hholds)
  simp [survives, hholds, bne]

end Tree

/-! ### Calls -/

namespace Tree

theorem calledOn_eq_ok_iff {α : Type} {p : Path} {result : Except OsError α} {x : α} :
    calledOn p result = .ok x ↔ tooLong p = false ∧ result = .ok x := by
  rw [calledOn]
  cases tooLong p <;> simp

theorem read_eq_ok_iff {t : Tree} {a : Address} {text : Bytes} :
    t.read a = .ok text ↔ t.get? a = some (.file text) := by
  rw [read]
  split
  next data h => simp [h]
  next h => simp [h]
  next h => simp [h]
  next h => simp [h]

theorem create_eq_ok_iff {t t' : Tree} {a : Address} {data : Bytes} :
    t.create a data = .ok t' ↔
      a.name.length ≤ maxName ∧ t.get? a = none ∧ t.put a (.file data) = t' := by
  rw [create]
  split
  next h => simp [Nat.not_le.mpr h]
  next h =>
    split
    next hsome => simp [Option.isSome_iff_ne_none.mp hsome]
    next hnone => simp [Nat.not_lt.mp h, Option.not_isSome_iff_eq_none.mp hnone]

theorem accepts_of_file {t : Tree} {a : Address} {data : Bytes}
    (h : t.get? a = some (.file data)) : t.accepts a = true := by
  rw [accepts_iff, h]
  exact ⟨isDir_of_get? h, isEntryName_of_get? h, by simp⟩

end Tree

/-! ### Steps of a walk -/

namespace Tree

variable {t : Tree} {creating : Bool} {links : Nat} {d : Dir} {s : Bytes} {rest : List Bytes}

/-- A walk looks `s` up in the directory it has come to, with `rest` still before it. -/
structure LooksUp (creating : Bool) (s : Bytes) (rest : List Bytes) : Prop where
  notIdle : ¬ Path.isIdle s = true
  ne_up : s ≠ Path.up
  goesOn : ¬ (creating = true ∧ rest ≠ [] ∧ rest.all (· == []) = true)
  length_le : ¬ maxName < s.length

theorem IsEntryName.looksUp (h : IsEntryName s) (hrest : creating = false ∨ rest = []) :
    LooksUp creating s rest := by
  refine ⟨by simp [h.notIdle], h.ne_up, ?_, Nat.not_lt.mpr h.length_le⟩
  rintro ⟨hcreating, hne, -⟩
  rcases hrest with hrest | hrest
  · rw [hrest] at hcreating
    cases hcreating
  · exact hne hrest

theorem walk_nil : t.walk creating links d [] = .ok (.dir d, links) := by
  rw [walk]

theorem walk_of_isIdle (h : Path.isIdle s = true) :
    t.walk creating links d (s :: rest) = t.walk creating links d rest := by
  rw [walk.eq_def]
  simp only [if_pos h]

theorem walk_append_of_isIdle {idle : List Bytes} (h : ∀ s ∈ idle, Path.isIdle s = true) :
    t.walk creating links d (idle ++ rest) = t.walk creating links d rest := by
  induction idle with
  | nil => rfl
  | cons s idle ih =>
    rw [List.cons_append, walk_of_isIdle (h s List.mem_cons_self)]
    exact ih fun s' hs' => h s' (List.mem_cons_of_mem s hs')

theorem walk_up :
    t.walk creating links d (Path.up :: rest) = t.walk creating links d.tail rest := by
  rw [walk.eq_def]
  simp only [show Path.isIdle Path.up = false from rfl, Bool.false_eq_true, if_false, if_true]

theorem walk_of_looksUp (h : LooksUp creating s rest) :
    t.walk creating links d (s :: rest)
      = match t.get? ⟨d, s⟩ with
        | none => if rest = [] then .ok (.vacant ⟨d, s⟩, links) else .error .notFound
        | some .dir => t.walk creating links (s :: d) rest
        | some (.file _) => if rest = [] then .ok (.file ⟨d, s⟩, links) else .error .notDirectory
        | some (.link target) =>
          match links with
          | 0 => .error .tooManyLinks
          | left + 1 => t.walk creating left (origin d target) (Path.segments target ++ rest) := by
  rw [walk.eq_def]
  exact (if_neg h.notIdle).trans
    ((if_neg h.ne_up).trans ((if_neg h.goesOn).trans (if_neg h.length_le)))

theorem walk_of_dir (h : LooksUp creating s rest) (hget : t.get? ⟨d, s⟩ = some .dir) :
    t.walk creating links d (s :: rest) = t.walk creating links (s :: d) rest := by
  rw [walk_of_looksUp h, hget]

/-- **A name at which a link stands leads where its target leads.** -/
theorem walk_of_link {target : Path} (h : LooksUp creating s rest)
    (hget : t.get? ⟨d, s⟩ = some (.link target)) :
    t.walk creating (links + 1) d (s :: rest)
      = t.walk creating links (origin d target) (Path.segments target ++ rest) := by
  rw [walk_of_looksUp h, hget]

theorem walk_of_file {data : Bytes} (h : LooksUp creating s [])
    (hget : t.get? ⟨d, s⟩ = some (.file data)) :
    t.walk creating links d [s] = .ok (.file ⟨d, s⟩, links) := by
  rw [walk_of_looksUp h, hget]
  rfl

theorem walk_of_none (h : LooksUp creating s []) (hget : t.get? ⟨d, s⟩ = none) :
    t.walk creating links d [s] = .ok (.vacant ⟨d, s⟩, links) := by
  rw [walk_of_looksUp h, hget]
  rfl

/-- **A path leads to a directory at the top** if it starts there and names nothing else. -/
theorem locate_of_top {start : Dir} {p : Path} {n : Name} (hget : t.get? ⟨[], n⟩ = some .dir)
    (hsegments : (Path.segments p).filter (fun s => !Path.isIdle s) = [n])
    (horigin : origin start p = []) (hshort : tooLong p = false) :
    t.locate start p = .ok (.dir [n], maxLinks) := by
  have hne : p ≠ [] := by
    rintro rfl
    cases hsegments
  obtain ⟨idle, idle', hsplit, hidle, -, hidle'⟩ := List.filter_eq_cons_iff.mp hsegments
  simp only [Bool.not_eq_true', Bool.not_eq_false, List.filter_eq_nil_iff] at hidle hidle'
  rw [locate, calledOn, hshort, if_neg Bool.false_ne_true, if_neg hne, horigin, hsplit,
    walk_append_of_isIdle hidle,
    walk_of_dir ((isEntryName_of_get? hget).looksUp (.inl rfl)) hget,
    ← List.append_nil idle', walk_append_of_isIdle hidle', walk_nil]

theorem writeTarget_of_file {a : Address} {data : Bytes} (links : Nat)
    (h : t.get? a = some (.file data)) : t.writeTarget links a = .ok a := by
  rw [writeTarget, walk_of_file ((isEntryName_of_get? h).looksUp (.inr rfl)) h]

theorem writeTarget_of_dir {a : Address} (links : Nat) (h : t.get? a = some .dir) :
    t.writeTarget links a = .error .isDirectory := by
  rw [writeTarget, walk_of_dir ((isEntryName_of_get? h).looksUp (.inr rfl)) h, walk_nil]

end Tree

/-! ### Listings -/

namespace Scope

/-- **A listing has the entries of the scope.** -/
theorem mem_members_iff {s : Scope} {kind : Entry → Bool} {t : Tree} {f : Found} :
    f ∈ s.members kind t ↔
      ∃ root a e, s.dir = some root ∧ t.get? a = some e ∧ kind e = true ∧
        covers root s.recursive a.dir = true ∧ f = s.foundAt root a := by
  rw [members]
  split
  next hdir => simp [hdir]
  next root hdir =>
    rw [(List.mergeSort_perm _ _).mem_iff, List.mem_filterMap]
    constructor
    · rintro ⟨⟨a, e⟩, hmem, hfound⟩
      rw [found?] at hfound
      split at hfound
      next hkind =>
        rw [Bool.and_eq_true] at hkind
        exact ⟨root, a, e, hdir, Tree.mem_entries_iff.mp hmem, hkind.1, hkind.2,
          (Option.some.inj hfound).symm⟩
      next => cases hfound
    · rintro ⟨root', a, e, hdir', hget, hkind, hcovers, rfl⟩
      obtain rfl : root = root' := Option.some.inj (hdir.symm.trans hdir')
      refine ⟨(a, e), Tree.mem_entries_iff.mpr hget, ?_⟩
      rw [found?, hkind, hcovers]
      rfl

theorem nodup_members (s : Scope) (kind : Entry → Bool) (t : Tree) :
    ((s.members kind t).map Found.address).Nodup := by
  rw [members]
  split
  next => exact List.nodup_nil
  next root hdir =>
    rw [((List.mergeSort_perm _ _).map Found.address).nodup_iff]
    have hsublist : ∀ entries : List (Address × Entry),
        ((entries.filterMap (s.found? root kind)).map Found.address).Sublist
          (entries.map Prod.fst) := by
      intro entries
      induction entries with
      | nil => exact List.Sublist.refl _
      | cons x rest ih =>
        rw [List.filterMap_cons, found?]
        split
        next hnone => exact ih.cons x.1
        next f hsome =>
          split at hsome
          next =>
            obtain rfl := Option.some.inj hsome
            exact ih.cons_cons x.1
          next => cases hsome
    exact t.nodup.sublist (hsublist t.entries)

theorem suffix_of_covers {root d : Dir} {recursive : Bool} (h : covers root recursive d = true) :
    root <:+ d := by
  rw [covers] at h
  split at h
  · exact List.isSuffixOf_iff_suffix.mp h
  · obtain rfl := beq_iff_eq.mp h
    exact List.suffix_refl d

/-- **The names from a directory down tell the entries below it apart.** -/
theorem namesFrom_inj {root : Dir} {a b : Address} (ha : root <:+ a.dir) (hb : root <:+ b.dir)
    (h : namesFrom root a = namesFrom root b) : a = b := by
  obtain ⟨above, hab⟩ := ha
  obtain ⟨above', hbb⟩ := hb
  rw [namesFrom, namesFrom, List.reverse_inj, ← hab, ← hbb] at h
  simp only [List.length_append, Nat.add_sub_cancel, List.take_left, List.cons.injEq] at h
  cases a
  cases b
  simp_all

/-- **A listing is in order**, and no two of its entries have the same names. -/
theorem sorted_members (s : Scope) (kind : Entry → Bool) (t : Tree) :
    (s.members kind t).Pairwise fun f g => f.names < g.names := by
  have hsorted : (s.members kind t).Pairwise fun f g => f.names ≤ g.names := by
    rw [members]
    split
    next => exact .nil
    next root hdir =>
      refine (List.pairwise_mergeSort ?_ ?_ _).imp fun hbefore => of_decide_eq_true hbefore
      · intro f g k hfg hgk
        exact decide_eq_true (List.le_trans (of_decide_eq_true hfg) (of_decide_eq_true hgk))
      · intro f g
        simp only [Bool.or_eq_true, decide_eq_true_eq]
        exact List.le_total f.names g.names
  have hnodup := s.nodup_members kind t
  rw [List.Nodup, List.pairwise_map] at hnodup
  refine (hsorted.and hnodup).imp_of_mem fun {f g} hf hg hfg => Std.lt_of_le_of_ne hfg.1 ?_
  intro hnames
  obtain ⟨root, a, -, hdir, -, -, ha, rfl⟩ := mem_members_iff.mp hf
  obtain ⟨root', b, -, hdir', -, -, hb, rfl⟩ := mem_members_iff.mp hg
  obtain rfl : root = root' := Option.some.inj (hdir.symm.trans hdir')
  exact hfg.2 (namesFrom_inj (suffix_of_covers ha) (suffix_of_covers hb) hnames)

/-- **A tree that holds its entries in order** is listed as it is. -/
theorem members_of_pairwise {s : Scope} {kind : Entry → Bool} {t : Tree} {root : Dir}
    {fs : List Found} (hdir : s.dir = some root)
    (hfound : t.entries.filterMap (s.found? root kind) = fs)
    (hsorted : fs.Pairwise fun f g => f.names ≤ g.names) : s.members kind t = fs := by
  rw [members, hdir]
  dsimp only
  rw [hfound]
  exact List.mergeSort_of_pairwise (hsorted.imp fun h => decide_eq_true h)

end Scope

theorem openScope_of_top {t : Tree} {start : Dir} {root : Path} {n : Name}
    (hget : t.get? ⟨[], n⟩ = some .dir)
    (hsegments : (Path.segments root).filter (fun s => !Path.isIdle s) = [n])
    (horigin : Tree.origin start root = []) (hshort : Tree.tooLong root = false) :
    openScope t start root false = .ok ⟨some [n], root, false, Tree.maxLinks⟩ := by
  rw [openScope, Scope.locate, Tree.locate_of_top hget hsegments horigin hshort]
  rfl

/-! ### Shapes -/

/-- The trees have the same directories and links, and what is a file stays one. -/
structure Tree.SameShape (t t' : Tree) : Prop where
  dir_iff : ∀ a, t'.get? a = some .dir ↔ t.get? a = some .dir
  link : ∀ a target, t.get? a = some (.link target) → t'.get? a = some (.link target)
  file : ∀ a data, t.get? a = some (.file data) → ∃ data', t'.get? a = some (.file data')

/-- **A walk that finds something finds it in every tree of the same shape.** -/
theorem Tree.SameShape.walk_eq {t t' : Tree} (h : t.SameShape t') {creating : Bool} {links : Nat}
    {d : Dir} {segments : List Bytes} {place : Place} {left : Nat}
    (hwalk : t.walk creating links d segments = .ok (place, left))
    (hplace : ∀ a, place ≠ .vacant a) : t'.walk creating links d segments = .ok (place, left) := by
  fun_induction Tree.walk t creating links d segments with
  | case1 links d =>
    rw [Tree.walk_nil]
    exact hwalk
  | case2 links d s rest hidle ih =>
    rw [Tree.walk_of_isIdle hidle]
    exact ih hwalk
  | case3 links d rest hidle ih =>
    rw [Tree.walk_up]
    exact ih hwalk
  | case6 links d s hidle hup hname hget hslash =>
    obtain ⟨rfl, -⟩ := Prod.mk.inj (Except.ok.inj hwalk)
    exact absurd rfl (hplace _)
  | case8 links d s rest hidle hup hslash hname hget ih =>
    rw [Tree.walk_of_dir ⟨hidle, hup, hslash, hname⟩ ((h.dir_iff _).mpr hget)]
    exact ih hwalk
  | case9 links d s hidle hup hname data hget hslash =>
    obtain ⟨data', hget'⟩ := h.file _ data hget
    rw [Tree.walk_of_file ⟨hidle, hup, hslash, hname⟩ hget']
    exact hwalk
  | case12 d s rest hidle hup hslash hname target hget left ih =>
    rw [Tree.walk_of_link ⟨hidle, hup, hslash, hname⟩ (h.link _ target hget)]
    exact ih hwalk
  | case4 | case5 | case7 | case10 | case11 => cases hwalk

theorem Tree.SameShape.scopeLocate_eq {t t' : Tree} (h : t.SameShape t') {start : Dir} {root : Path}
    {recursive : Bool} {s : Scope} (hs : Scope.locate t start root recursive = .ok s) :
    Scope.locate t' start root recursive = .ok s := by
  have hlocate {place : Place} {left : Nat} (hfound : t.locate start root = .ok (place, left))
      (hplace : ∀ a, place ≠ .vacant a) : t'.locate start root = .ok (place, left) := by
    rw [Tree.locate, Tree.calledOn] at hfound ⊢
    split at hfound
    next => cases hfound
    next hlong =>
    rw [if_neg hlong]
    split at hfound
    next => cases hfound
    next hpath =>
    rw [if_neg hpath]
    exact h.walk_eq hfound hplace
  rw [Scope.locate] at hs
  split at hs
  next => cases hs
  next d links hfound =>
    rw [Scope.locate, hlocate hfound (by simp)]
    exact hs
  next a links hfound =>
    rw [Scope.locate, hlocate hfound (by simp)]
    exact hs
  next => cases hs

theorem Scope.unlisted?_eq_none {t t' : Tree}
    (h : ∀ a, t'.get? a = some .dir ↔ t.get? a = some .dir) {s : Scope}
    (hs : s.unlisted? t = none) : s.unlisted? t' = none := by
  rw [Scope.unlisted?] at hs ⊢
  split
  next hrecursive =>
    rw [if_pos hrecursive, List.find?_eq_none] at hs
    rw [List.find?_eq_none]
    intro f hf
    obtain ⟨root, a, e, hdir, hget, hkind, hcovers, rfl⟩ := Scope.mem_members_iff.mp hf
    obtain rfl : e = .dir := by
      cases e with
      | dir => rfl
      | file data => cases hkind
      | link target => cases hkind
    exact hs _ (Scope.mem_members_iff.mpr
      ⟨root, a, .dir, hdir, (h a).mp hget, hkind, hcovers, rfl⟩)
  next => rfl

theorem openScope_eq_ok_iff {t : Tree} {start : Dir} {root : Path} {recursive : Bool} {s : Scope} :
    openScope t start root recursive = .ok s ↔
      Scope.locate t start root recursive = .ok s ∧ s.unlisted? t = none := by
  rw [openScope]
  cases hlocate : Scope.locate t start root recursive with
  | error e => simp
  | ok s' =>
    simp only [Except.ok.injEq]
    cases hunlisted : s'.unlisted? t with
    | some d =>
      simp only [reduceCtorEq, false_iff, not_and]
      rintro rfl
      simp [hunlisted]
    | none =>
      simp only [Except.ok.injEq]
      constructor
      · rintro rfl
        exact ⟨rfl, hunlisted⟩
      · exact And.left

/-- **A path opens the same scope in every tree of the same shape.** -/
theorem openScope_of_sameShape {t t' : Tree} (h : t.SameShape t') {start : Dir} {root : Path}
    {recursive : Bool} {s : Scope} (hs : openScope t start root recursive = .ok s) :
    openScope t' start root recursive = .ok s := by
  rw [openScope_eq_ok_iff] at hs ⊢
  exact ⟨h.scopeLocate_eq hs.1, Scope.unlisted?_eq_none h.dir_iff hs.2⟩

end ScriptMinifier
