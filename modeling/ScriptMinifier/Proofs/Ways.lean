import ScriptMinifier.Proofs.Tree

/-!
# Ways through a tree

A walk goes through directories and links, and a file only ends it.  So two trees with the same
directories and links (`Tree.SameWays`) are walked alike, whatever files come and go: a walk that
ends in one of them ends at the same spot in the other (`Tree.SameWays.walk_eq`).  Writing a file
and removing one leave the ways (`Tree.SameWays.put_file`, `Tree.SameWays.remove_file`), so the
address that a text is written to stays the same along a run (`Tree.SameWays.writeTarget_eq`), and
it is also the one that is read (`Tree.readThrough_eq_ok_iff`).

Two trees with the same entries (`Tree.Same`) may hold them in different orders.  A listing does not
show it: it is sorted by the names on the way to an entry, and no two entries of a scope have the
same ones (`Scope.members_of_same`).
-/

namespace ScriptMinifier

/-! ### Walks -/

def Place.spot : Place → Dir ⊕ Address
  | .dir d => .inl d
  | .file a => .inr a
  | .vacant a => .inr a

/-- The tree has at the place what the place is said to be. -/
def Place.Holds (t : Tree) : Place → Prop
  | .dir d => t.isDir d = true
  | .file a => ∃ data, t.get? a = some (.file data)
  | .vacant a => t.get? a = none ∧ t.accepts a = true

namespace Tree

def IsPlain (t : Tree) (a : Address) : Prop :=
  t.get? a = none ∨ ∃ data, t.get? a = some (.file data)

theorem walk_last {t : Tree} {creating : Bool} {links : Nat} {d : Dir} {s : Bytes}
    (hs : LooksUp creating s []) (h : t.IsPlain ⟨d, s⟩) :
    ∃ place, t.walk creating links d [s] = .ok (place, links) ∧ place.spot = .inr ⟨d, s⟩ := by
  rcases h with hnone | ⟨data, hfile⟩
  · exact ⟨.vacant ⟨d, s⟩, walk_of_none hs hnone, rfl⟩
  · exact ⟨.file ⟨d, s⟩, walk_of_file hs hfile, rfl⟩

/-- The trees have the same directories and the same links. -/
structure SameWays (t t' : Tree) : Prop where
  dir_iff : ∀ a, t'.get? a = some .dir ↔ t.get? a = some .dir
  link_iff : ∀ a target, t'.get? a = some (.link target) ↔ t.get? a = some (.link target)

namespace SameWays

theorem refl (t : Tree) : t.SameWays t := ⟨fun _ => Iff.rfl, fun _ _ => Iff.rfl⟩

theorem symm {t t' : Tree} (h : t.SameWays t') : t'.SameWays t :=
  ⟨fun a => (h.dir_iff a).symm, fun a target => (h.link_iff a target).symm⟩

theorem trans {t t' t'' : Tree} (h : t.SameWays t') (h' : t'.SameWays t'') : t.SameWays t'' :=
  ⟨fun a => (h'.dir_iff a).trans (h.dir_iff a),
    fun a target => (h'.link_iff a target).trans (h.link_iff a target)⟩

theorem isPlain {t t' : Tree} (h : t.SameWays t') {a : Address} (ha : t.IsPlain a) :
    t'.IsPlain a := by
  have hdir : t.get? a ≠ some .dir := by
    rcases ha with hnone | ⟨data, hfile⟩ <;> simp [*]
  have hlink (target : Path) : t.get? a ≠ some (.link target) := by
    rcases ha with hnone | ⟨data, hfile⟩ <;> simp [*]
  cases hget : t'.get? a with
  | none => exact .inl hget
  | some e =>
    cases e with
    | file data => exact .inr ⟨data, hget⟩
    | dir => exact absurd ((h.dir_iff a).mp hget) hdir
    | link target => exact absurd ((h.link_iff a target).mp hget) (hlink target)

/-- **A walk ends at the same spot in every tree with the same ways.** -/
theorem walk_eq {t t' : Tree} (h : t.SameWays t') {creating : Bool} {links : Nat} {d : Dir}
    {segments : List Bytes} {place : Place} {left : Nat}
    (hwalk : t.walk creating links d segments = .ok (place, left)) :
    ∃ place', t'.walk creating links d segments = .ok (place', left) ∧
      place'.spot = place.spot := by
  fun_induction Tree.walk t creating links d segments with
  | case1 links d =>
    rw [walk_nil]
    exact ⟨place, hwalk, rfl⟩
  | case2 links d s rest hidle ih =>
    rw [walk_of_isIdle hidle]
    exact ih hwalk
  | case3 links d rest hidle ih =>
    rw [walk_up]
    exact ih hwalk
  | case6 links d s hidle hup hname hget hslash =>
    obtain ⟨rfl, rfl⟩ := Prod.mk.inj (Except.ok.inj hwalk)
    exact walk_last ⟨hidle, hup, hslash, hname⟩ (h.isPlain (.inl hget))
  | case8 links d s rest hidle hup hslash hname hget ih =>
    rw [walk_of_dir ⟨hidle, hup, hslash, hname⟩ ((h.dir_iff _).mpr hget)]
    exact ih hwalk
  | case9 links d s hidle hup hname data hget hslash =>
    obtain ⟨rfl, rfl⟩ := Prod.mk.inj (Except.ok.inj hwalk)
    exact walk_last ⟨hidle, hup, hslash, hname⟩ (h.isPlain (.inr ⟨data, hget⟩))
  | case12 d s rest hidle hup hslash hname target hget left ih =>
    rw [walk_of_link ⟨hidle, hup, hslash, hname⟩ ((h.link_iff _ target).mpr hget)]
    exact ih hwalk
  | case4 | case5 | case7 | case10 | case11 => cases hwalk

end SameWays

theorem isDir_origin {t : Tree} {d : Dir} (hd : t.isDir d = true) (p : Path) :
    t.isDir (origin d p) = true := by
  rw [origin]
  split
  · exact isDir_nil t
  · exact hd

theorem isDir_tail {t : Tree} {d : Dir} (hd : t.isDir d = true) : t.isDir d.tail = true := by
  cases d with
  | nil => exact hd
  | cons n d => exact isDir_of_get? (isDir_cons.mp hd)

/-- **A walk from a directory ends where it says**: in a directory, at a file, or at nothing where
an entry can be put. -/
theorem holds_of_walk {t : Tree} {creating : Bool} {links : Nat} {d : Dir}
    {segments : List Bytes} {place : Place} {left : Nat} (hd : t.isDir d = true)
    (hsegments : ∀ s ∈ segments, Byte.slash ∉ s)
    (hwalk : t.walk creating links d segments = .ok (place, left)) : place.Holds t := by
  fun_induction Tree.walk t creating links d segments with
  | case1 links d =>
    obtain ⟨rfl, -⟩ := Prod.mk.inj (Except.ok.inj hwalk)
    exact hd
  | case2 links d s rest hidle ih =>
    exact ih hd (fun s' hs' => hsegments s' (List.mem_cons_of_mem s hs')) hwalk
  | case3 links d rest hidle ih =>
    exact ih (isDir_tail hd) (fun s' hs' => hsegments s' (List.mem_cons_of_mem _ hs')) hwalk
  | case6 links d s hidle hup hname hget hslash =>
    obtain ⟨rfl, -⟩ := Prod.mk.inj (Except.ok.inj hwalk)
    have hentry : IsEntryName s :=
      ⟨⟨hsegments s List.mem_cons_self, by simpa using hidle, hup⟩, Nat.not_lt.mp hname⟩
    exact ⟨hget, accepts_iff.mpr ⟨hd, hentry, by simp [hget]⟩⟩
  | case8 links d s rest hidle hup hslash hname hget ih =>
    exact ih (isDir_cons.mpr hget) (fun s' hs' => hsegments s' (List.mem_cons_of_mem s hs')) hwalk
  | case9 links d s hidle hup hname data hget hslash =>
    obtain ⟨rfl, -⟩ := Prod.mk.inj (Except.ok.inj hwalk)
    exact ⟨data, hget⟩
  | case12 d s rest hidle hup hslash hname target hget left ih =>
    refine ih (isDir_origin hd target) (fun s' hs' => ?_) hwalk
    rcases List.mem_append.mp hs' with hs' | hs'
    · exact Path.notMem_of_mem_segments hs'
    · exact hsegments s' (List.mem_cons_of_mem s hs')
  | case4 | case5 | case7 | case10 | case11 => cases hwalk

theorem LooksUp.of_creating {s : Bytes} {rest : List Bytes} (h : LooksUp true s rest) :
    LooksUp false s rest :=
  ⟨h.notIdle, h.ne_up, by simp, h.length_le⟩

theorem walk_of_creating {t : Tree} {links : Nat} {d : Dir} {segments : List Bytes}
    {result : Place × Nat} (hwalk : t.walk true links d segments = .ok result) :
    t.walk false links d segments = .ok result := by
  fun_induction Tree.walk t true links d segments with
  | case1 links d =>
    rw [walk_nil]
    exact hwalk
  | case2 links d s rest hidle ih =>
    rw [walk_of_isIdle hidle]
    exact ih hwalk
  | case3 links d rest hidle ih =>
    rw [walk_up]
    exact ih hwalk
  | case6 links d s hidle hup hname hget hslash =>
    rw [walk_of_none (LooksUp.of_creating ⟨hidle, hup, hslash, hname⟩) hget]
    exact hwalk
  | case8 links d s rest hidle hup hslash hname hget ih =>
    rw [walk_of_dir (LooksUp.of_creating ⟨hidle, hup, hslash, hname⟩) hget]
    exact ih hwalk
  | case9 links d s hidle hup hname data hget hslash =>
    rw [walk_of_file (LooksUp.of_creating ⟨hidle, hup, hslash, hname⟩) hget]
    exact hwalk
  | case12 d s rest hidle hup hslash hname target hget left ih =>
    rw [walk_of_link (LooksUp.of_creating ⟨hidle, hup, hslash, hname⟩) hget]
    exact ih hwalk
  | case4 | case5 | case7 | case10 | case11 => cases hwalk

/-! ### Writing and reading through links -/

theorem writeTarget_eq_ok_iff {t : Tree} {links : Nat} {a b : Address} :
    t.writeTarget links a = .ok b ↔
      ∃ place left, t.walk true links a.dir [a.name] = .ok (place, left) ∧
        place.spot = .inr b := by
  rw [writeTarget]
  cases t.walk true links a.dir [a.name] with
  | error e => simp
  | ok result =>
    obtain ⟨place, left⟩ := result
    cases place <;> simp [Place.spot, and_assoc]

theorem SameWays.writeTarget_eq {t t' : Tree} (h : t.SameWays t') {links : Nat} {a b : Address}
    (hb : t.writeTarget links a = .ok b) : t'.writeTarget links a = .ok b := by
  obtain ⟨place, left, hwalk, hspot⟩ := writeTarget_eq_ok_iff.mp hb
  obtain ⟨place', hwalk', hspot'⟩ := h.walk_eq hwalk
  exact writeTarget_eq_ok_iff.mpr ⟨place', left, hwalk', hspot'.trans hspot⟩

/-- **What a text is written to is as the walk says.** -/
theorem holds_of_writeTarget {t : Tree} {links : Nat} {a b : Address} (ha : t.isDir a.dir = true)
    (hslash : Byte.slash ∉ a.name) (hb : t.writeTarget links a = .ok b) :
    ∃ place left, t.walk true links a.dir [a.name] = .ok (place, left) ∧ place.spot = .inr b ∧
      place.Holds t := by
  obtain ⟨place, left, hwalk, hspot⟩ := writeTarget_eq_ok_iff.mp hb
  refine ⟨place, left, hwalk, hspot, holds_of_walk ha (fun s hs => ?_) hwalk⟩
  rwa [List.mem_singleton.mp hs]

theorem accepts_of_writeTarget {t : Tree} {links : Nat} {a b : Address} (ha : t.isDir a.dir = true)
    (hslash : Byte.slash ∉ a.name) (hb : t.writeTarget links a = .ok b) :
    t.IsPlain b ∧ t.accepts b = true := by
  obtain ⟨place, -, -, hspot, hholds⟩ := holds_of_writeTarget ha hslash hb
  cases place with
  | dir d => cases hspot
  | file c =>
    obtain rfl := Sum.inr.inj hspot
    obtain ⟨data, hfile⟩ := hholds
    exact ⟨.inr ⟨data, hfile⟩, accepts_of_file hfile⟩
  | vacant c =>
    obtain rfl := Sum.inr.inj hspot
    exact ⟨.inl hholds.1, hholds.2⟩

theorem writeTarget_of_isPlain {t : Tree} {a : Address} (links : Nat) (h : t.IsPlain a)
    (hname : IsEntryName a.name) : t.writeTarget links a = .ok a := by
  obtain ⟨place, hwalk, hspot⟩ := walk_last (d := a.dir) (hname.looksUp (.inr rfl)) h
  exact writeTarget_eq_ok_iff.mpr ⟨place, links, hwalk, hspot⟩

def readThrough (t : Tree) (links : Nat) (a : Address) : Except OsError Bytes :=
  match t.walk false links a.dir [a.name] with
  | .error e => .error e
  | .ok (.dir _, _) => .error .isDirectory
  | .ok (.file b, _) => t.read b
  | .ok (.vacant _, _) => .error .notFound

/-- **What is read is what stands where it would be written.** -/
theorem readThrough_eq_ok_iff {t : Tree} {links : Nat} {a b : Address} {text : Bytes}
    (ha : t.isDir a.dir = true) (hslash : Byte.slash ∉ a.name)
    (hb : t.writeTarget links a = .ok b) :
    t.readThrough links a = .ok text ↔ t.get? b = some (.file text) := by
  obtain ⟨place, left, hwalk, hspot, hholds⟩ := holds_of_writeTarget ha hslash hb
  rw [readThrough, walk_of_creating hwalk]
  cases place with
  | dir d => cases hspot
  | file c =>
    obtain rfl := Sum.inr.inj hspot
    exact read_eq_ok_iff
  | vacant c =>
    obtain rfl := Sum.inr.inj hspot
    simp [hholds.1]

/-! ### Files that come and go -/

namespace SameWays

/-- **Writing a file leaves the ways.** -/
theorem put_file {t : Tree} {a : Address} (ha : t.IsPlain a) (hacc : t.accepts a = true)
    (data : Bytes) : t.SameWays (t.put a (.file data)) := by
  constructor
  · intro b
    rw [get?_put hacc]
    split
    next hb =>
      subst hb
      rcases ha with h | ⟨old, h⟩ <;> simp [h]
    next => rfl
  · intro b target
    rw [get?_put hacc]
    split
    next hb =>
      subst hb
      rcases ha with h | ⟨old, h⟩ <;> simp [h]
    next => rfl

/-- **Removing a file leaves the ways.** -/
theorem remove_file {t : Tree} {a : Address} {data : Bytes} (ha : t.get? a = some (.file data)) :
    t.SameWays (t.remove a) := by
  have hget := get?_remove_of_ne_dir (t := t) (a := a) (by simp [ha])
  constructor
  · intro b
    rw [hget]
    split
    next hb => simp [hb, ha]
    next => rfl
  · intro b target
    rw [hget]
    split
    next hb => simp [hb, ha]
    next => rfl

theorem isDir_eq {t t' : Tree} (h : t.SameWays t') {d : Dir} (hd : t.isDir d = true) :
    t'.isDir d = true := by
  cases d with
  | nil => rfl
  | cons n d => exact isDir_cons.mpr ((h.dir_iff _).mpr (isDir_cons.mp hd))

end SameWays

end Tree

/-! ### Scopes -/

/-- **A path to a directory opens the same scope in every tree with the same ways.** -/
theorem Tree.SameWays.openScope_eq {t t' : Tree} (h : t.SameWays t') {start : Dir} {root : Path}
    {recursive : Bool} {s : Scope} (hs : openScope t start root recursive = .ok s)
    (hdir : s.dir ≠ none) : openScope t' start root recursive = .ok s := by
  rw [openScope_eq_ok_iff] at hs ⊢
  obtain ⟨hlocate, hunlisted⟩ := hs
  refine ⟨?_, Scope.unlisted?_eq_none h.dir_iff hunlisted⟩
  rw [Scope.locate] at hlocate ⊢
  split at hlocate
  next => cases hlocate
  next d links hfound =>
    have hfound' : t'.locate start root = .ok (.dir d, links) := by
      rw [Tree.locate, Tree.calledOn_eq_ok_iff] at hfound ⊢
      refine ⟨hfound.1, ?_⟩
      have hwalk := hfound.2
      split at hwalk
      next => cases hwalk
      next hpath =>
        rw [if_neg hpath]
        obtain ⟨place, hwalk', hspot⟩ := h.walk_eq hwalk
        cases place with
        | dir d' => rw [hwalk', Sum.inl.inj hspot]
        | file a => cases hspot
        | vacant a => cases hspot
    rw [hfound']
    exact hlocate
  next a links hfound =>
    obtain rfl := Except.ok.inj hlocate
    exact absurd rfl hdir
  next => cases hlocate

/-! ### Trees with the same entries -/

/-- The trees have the same entries, in whatever order they hold them. -/
def Tree.Same (t t' : Tree) : Prop := ∀ a, t'.get? a = t.get? a

theorem Tree.Same.sameShape {t t' : Tree} (h : t.Same t') : t.SameShape t' := by
  refine ⟨fun a => by rw [h a], fun a target => by rw [h a]; exact id, ?_⟩
  intro a data hfile
  exact ⟨data, by rw [h a, hfile]⟩

theorem Tree.Same.perm_entries {t t' : Tree} (h : t.Same t') : t'.entries.Perm t.entries := by
  have hnodup (u : Tree) : u.entries.Nodup :=
    List.Pairwise.of_map Prod.fst (fun _ _ hne heq => hne (congrArg Prod.fst heq)) u.nodup
  rw [List.perm_ext_iff_of_nodup (hnodup t') (hnodup t)]
  rintro ⟨a, e⟩
  rw [Tree.mem_entries_iff, Tree.mem_entries_iff, h a]

namespace Scope

theorem exists_append_of_covers {root : Dir} {recursive : Bool} {d : Dir}
    (h : covers root recursive d = true) : ∃ below, d = below ++ root := by
  rw [covers] at h
  split at h
  next =>
    obtain ⟨below, rfl⟩ := List.isSuffixOf_iff_suffix.mp h
    exact ⟨below, rfl⟩
  next => exact ⟨[], by simpa using h⟩

theorem address_eq_of_namesFrom {root : Dir} {recursive : Bool} {a b : Address}
    (ha : covers root recursive a.dir = true) (hb : covers root recursive b.dir = true)
    (h : namesFrom root a = namesFrom root b) : a = b := by
  obtain ⟨below, hbelow⟩ := exists_append_of_covers ha
  obtain ⟨below', hbelow'⟩ := exists_append_of_covers hb
  have hnames := List.reverse_inj.mp h
  rw [hbelow, hbelow', List.length_append, List.length_append, Nat.add_sub_cancel,
    Nat.add_sub_cancel, List.take_left, List.take_left] at hnames
  obtain ⟨hname, rfl⟩ := List.cons.inj hnames
  cases a
  cases b
  simp_all

theorem members_of_same {t t' : Tree} (h : t.Same t') (s : Scope) (kind : Entry → Bool) :
    s.members kind t' = s.members kind t := by
  rw [members, members]
  split
  next => rfl
  next root hdir =>
  have htrans (f g k : Found) (hfg : before f g = true) (hgk : before g k = true) :
      before f k = true := by
    rw [before, decide_eq_true_eq] at *
    exact List.le_trans hfg hgk
  have htotal (f g : Found) : (before f g || before g f) = true := by
    simp only [before, Bool.or_eq_true, decide_eq_true_eq]
    exact List.le_total f.names g.names
  have hsorted (fs : List Found) := List.pairwise_mergeSort htrans htotal fs
  refine List.Perm.eq_of_pairwise ?_ (hsorted _) (hsorted _) ?_
  · intro f g hf hg hfg hgf
    have hmem {u : Tree} {f : Found}
        (hf : f ∈ (u.entries.filterMap (s.found? root kind)).mergeSort before) :
        ∃ a, covers root s.recursive a.dir = true ∧ f = s.foundAt root a := by
      have hmembers : f ∈ s.members kind u := by
        rw [members, hdir]
        exact hf
      obtain ⟨root', a, e, hdir', -, -, hcovers, rfl⟩ := mem_members_iff.mp hmembers
      obtain rfl : root = root' := Option.some.inj (hdir.symm.trans hdir')
      exact ⟨a, hcovers, rfl⟩
    obtain ⟨a, ha, rfl⟩ := hmem hf
    obtain ⟨b, hb, rfl⟩ := hmem hg
    rw [before, decide_eq_true_eq] at hfg hgf
    rw [address_eq_of_namesFrom ha hb (List.le_antisymm hfg hgf)]
  · refine (List.mergeSort_perm _ _).trans (.trans ?_ (List.mergeSort_perm _ _).symm)
    exact h.perm_entries.filterMap _

theorem mem_files_iff {s : Scope} {t : Tree} {f : Found} :
    f ∈ s.files t ↔
      ∃ root a text, s.dir = some root ∧ t.get? a = some (.file text) ∧
        covers root s.recursive a.dir = true ∧ f = s.foundAt root a := by
  rw [files, mem_members_iff]
  constructor
  · rintro ⟨root, a, e, hdir, hget, hkind, hcovers, rfl⟩
    cases e with
    | file text => exact ⟨root, a, text, hdir, hget, hcovers, rfl⟩
    | dir => cases hkind
    | link target => cases hkind
  · rintro ⟨root, a, text, hdir, hget, hcovers, rfl⟩
    exact ⟨root, a, .file text, hdir, hget, rfl, hcovers, rfl⟩

end Scope

end ScriptMinifier
