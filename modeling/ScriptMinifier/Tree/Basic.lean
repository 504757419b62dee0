import ScriptMinifier.Path

/-!
# Directory trees

A tree is a finite map from addresses to entries: files with their bytes, directories, and links
with the text of their target.  A directory is known by the names on the way from it up to the top,
the innermost first, so the top is `[]` and the directory above `n :: d` is `d`.  An address is a
directory and a name in it.

Three facts hold of every tree by its type: no address has two entries, every entry stands in a
directory, and its name is one that an entry can have.

* `Tree.get?`: the entry at an address.
* `Tree.get?_put`: putting an entry changes that address and nothing else.
* `Tree.get?_remove`: removing takes away an address with all below it and nothing else.
* `Tree.get?_of_holds`: nothing stands below a file or a link.
-/

namespace ScriptMinifier

/-- What an address holds. -/
inductive Entry where
  | file (data : Bytes)
  | dir
  | link (target : Path)
  deriving DecidableEq, Repr

namespace Entry

def isFile : Entry → Bool
  | file _ => true
  | dir | link _ => false

def isDir : Entry → Bool
  | dir => true
  | file _ | link _ => false

end Entry

/-- A directory: the names from it up to the top, the innermost first. -/
abbrev Dir := List Name

/-- A place in a tree. -/
structure Address where
  dir : Dir
  name : Name
  deriving DecidableEq, Repr

namespace Address

def asDir (a : Address) : Dir := a.name :: a.dir

/-- `b` lies below the directory at `a`. -/
def holds (a b : Address) : Bool := a.asDir.isSuffixOf b.dir

theorem holds_iff {a b : Address} : a.holds b = true ↔ a.asDir <:+ b.dir := by
  simp [holds]

end Address

namespace Tree

/-! ### Names of entries -/

def maxName : Nat := 255

/-- An entry can have the name. -/
structure IsEntryName (n : Name) : Prop extends Path.IsName n where
  length_le : n.length ≤ maxName

instance (n : Name) : Decidable (IsEntryName n) :=
  decidable_of_iff (Path.IsName n ∧ n.length ≤ maxName) ⟨fun h => ⟨h.1, h.2⟩, fun h => ⟨h.1, h.2⟩⟩

/-! ### Maps from addresses to entries -/

def lookupIn (a : Address) : List (Address × Entry) → Option Entry
  | [] => none
  | x :: rest => if x.1 = a then some x.2 else lookupIn a rest

/-- The list with the entry at an address replaced or, if there is none, appended. -/
def putIn (a : Address) (e : Entry) : List (Address × Entry) → List (Address × Entry)
  | [] => [(a, e)]
  | x :: rest => if x.1 = a then (a, e) :: rest else x :: putIn a e rest

/-- There is a directory in the list, or it is the top. -/
def isDirIn (entries : List (Address × Entry)) : Dir → Bool
  | [] => true
  | n :: d => lookupIn ⟨d, n⟩ entries == some .dir

theorem lookupIn_putIn (a b : Address) (e : Entry) (entries : List (Address × Entry)) :
    lookupIn b (putIn a e entries) = if a = b then some e else lookupIn b entries := by
  induction entries with
  | nil => simp [putIn, lookupIn]
  | cons x rest ih =>
    simp only [putIn]
    by_cases hx : x.1 = a
    · rw [if_pos hx]
      by_cases hb : a = b
      · simp [lookupIn, hb]
      · have hxb : ¬ x.1 = b := fun h => hb (hx.symm.trans h)
        simp [lookupIn, hb, hxb]
    · rw [if_neg hx]
      simp only [lookupIn, ih]
      by_cases hb : x.1 = b
      · have hab : ¬ a = b := fun h => hx (hb.trans h.symm)
        simp [hb, hab]
      · simp [hb]

theorem mem_putIn {a : Address} {e : Entry} {x : Address × Entry}
    {entries : List (Address × Entry)} (h : x ∈ putIn a e entries) : x = (a, e) ∨ x ∈ entries := by
  induction entries with
  | nil => simpa [putIn] using h
  | cons y rest ih =>
    simp only [putIn] at h
    split at h
    · rcases List.mem_cons.mp h with rfl | h
      · exact Or.inl rfl
      · exact Or.inr (List.mem_cons_of_mem _ h)
    · rcases List.mem_cons.mp h with rfl | h
      · exact Or.inr List.mem_cons_self
      · rcases ih h with rfl | h
        · exact Or.inl rfl
        · exact Or.inr (List.mem_cons_of_mem _ h)

theorem nodup_putIn {a : Address} {e : Entry} {entries : List (Address × Entry)}
    (h : (entries.map Prod.fst).Nodup) : ((putIn a e entries).map Prod.fst).Nodup := by
  induction entries with
  | nil => simp [putIn]
  | cons x rest ih =>
    rw [List.map_cons, List.nodup_cons] at h
    simp only [putIn]
    split
    · rename_i hx
      rw [List.map_cons, List.nodup_cons]
      exact ⟨by simpa [hx] using h.1, h.2⟩
    · rename_i hx
      rw [List.map_cons, List.nodup_cons]
      refine ⟨?_, ih h.2⟩
      intro hmem
      obtain ⟨y, hy, hyx⟩ := List.mem_map.mp hmem
      rcases mem_putIn hy with rfl | hy
      · exact hx hyx.symm
      · exact h.1 (List.mem_map.mpr ⟨y, hy, hyx⟩)

theorem lookupIn_eq_some_of_mem {x : Address × Entry} {entries : List (Address × Entry)}
    (hnodup : (entries.map Prod.fst).Nodup) (h : x ∈ entries) :
    lookupIn x.1 entries = some x.2 := by
  induction entries with
  | nil => cases h
  | cons y rest ih =>
    rw [List.map_cons, List.nodup_cons] at hnodup
    rcases List.mem_cons.mp h with rfl | h
    · simp [lookupIn]
    · have hne : ¬ y.1 = x.1 := fun hyx => hnodup.1 (hyx ▸ List.mem_map_of_mem h)
      simpa [lookupIn, hne] using ih hnodup.2 h

theorem mem_of_lookupIn {a : Address} {e : Entry} {entries : List (Address × Entry)}
    (h : lookupIn a entries = some e) : (a, e) ∈ entries := by
  induction entries with
  | nil => cases h
  | cons x rest ih =>
    simp only [lookupIn] at h
    split at h
    · rename_i hx
      have he : x.2 = e := by simpa using h
      exact List.mem_cons.mpr (Or.inl (by rw [← hx, ← he]))
    · exact List.mem_cons_of_mem _ (ih h)

/-- Entries that are filtered by their address. -/
theorem lookupIn_filter (keep : Address → Bool) (b : Address) (entries : List (Address × Entry)) :
    lookupIn b (entries.filter fun x => keep x.1)
      = if keep b then lookupIn b entries else none := by
  induction entries with
  | nil => simp [lookupIn]
  | cons x rest ih =>
    by_cases hx : x.1 = b
    · by_cases hb : keep b
      · simp [lookupIn, hx, hb]
      · simp [hx, hb, ih]
    · by_cases hk : keep x.1
      · simp [lookupIn, hx, hk, ih]
      · simp [lookupIn, hx, hk, ih]

end Tree

/-! ### Trees -/

/-- A directory tree. -/
structure Tree where
  entries : List (Address × Entry)
  /-- No address has two entries. -/
  nodup : (entries.map Prod.fst).Nodup
  /-- Every entry stands in a directory. -/
  rooted : ∀ x ∈ entries, Tree.isDirIn entries x.1.dir = true
  named : ∀ x ∈ entries, Tree.IsEntryName x.1.name

namespace Tree

/-- The tree with nothing in it. -/
def empty : Tree := ⟨[], by simp, by simp, by simp⟩

def get? (t : Tree) (a : Address) : Option Entry := lookupIn a t.entries

def isDir (t : Tree) (d : Dir) : Bool := isDirIn t.entries d

theorem isDir_nil (t : Tree) : t.isDir [] = true := rfl

theorem isDir_cons {t : Tree} {n : Name} {d : Dir} :
    t.isDir (n :: d) = true ↔ t.get? ⟨d, n⟩ = some .dir := by
  simp [isDir, isDirIn, get?]

theorem mem_entries_iff {t : Tree} {a : Address} {e : Entry} :
    (a, e) ∈ t.entries ↔ t.get? a = some e :=
  ⟨fun h => lookupIn_eq_some_of_mem t.nodup h, fun h => mem_of_lookupIn h⟩

/-- **Every entry stands in a directory.** -/
theorem isDir_of_get? {t : Tree} {a : Address} {e : Entry} (h : t.get? a = some e) :
    t.isDir a.dir = true :=
  t.rooted (a, e) (mem_entries_iff.mpr h)

theorem isEntryName_of_get? {t : Tree} {a : Address} {e : Entry} (h : t.get? a = some e) :
    IsEntryName a.name :=
  t.named (a, e) (mem_entries_iff.mpr h)

theorem get?_of_isDir {t : Tree} {a : Address} {d : Dir} (hd : t.isDir d = true)
    (h : a.asDir <:+ d) : t.get? a = some .dir := by
  induction d with
  | nil => simp [Address.asDir] at h
  | cons n d ih =>
    have hn := isDir_cons.mp hd
    rcases List.suffix_cons_iff.mp h with heq | h
    · obtain ⟨rfl, rfl⟩ : a.name = n ∧ a.dir = d := by simpa [Address.asDir] using heq
      exact hn
    · exact ih (isDir_of_get? hn) h

/-- **What holds an entry is a directory**, so nothing stands below a file or a link. -/
theorem get?_of_holds {t : Tree} {a b : Address} {e : Entry} (h : t.get? b = some e)
    (hab : a.holds b = true) : t.get? a = some .dir :=
  get?_of_isDir (isDir_of_get? h) (Address.holds_iff.mp hab)

/-- An entry may be put at an address: its directory is there, an entry can have its name, and no
directory would go. -/
def accepts (t : Tree) (a : Address) : Bool :=
  t.isDir a.dir && decide (IsEntryName a.name) && t.get? a != some .dir

theorem accepts_iff {t : Tree} {a : Address} :
    t.accepts a = true ↔ t.isDir a.dir = true ∧ IsEntryName a.name ∧ t.get? a ≠ some .dir := by
  simp [accepts, and_assoc]

theorem isDirIn_putIn {entries : List (Address × Entry)} {a : Address} {e : Entry} {d : Dir}
    (ha : lookupIn a entries ≠ some .dir) (h : isDirIn entries d = true) :
    isDirIn (putIn a e entries) d = true := by
  cases d with
  | nil => rfl
  | cons n d =>
    have hn : lookupIn ⟨d, n⟩ entries = some .dir := by simpa [isDirIn] using h
    have hne : ¬ a = ⟨d, n⟩ := fun heq => ha (heq ▸ hn)
    simp [isDirIn, lookupIn_putIn, hne, hn]

/-- Puts an entry at an address that accepts one. -/
def put (t : Tree) (a : Address) (e : Entry) : Tree :=
  if h : t.accepts a = true then
    { entries := putIn a e t.entries
      nodup := nodup_putIn t.nodup
      rooted := by
        obtain ⟨hdir, -, hfree⟩ := accepts_iff.mp h
        intro x hx
        rcases mem_putIn hx with rfl | hx
        · exact isDirIn_putIn hfree hdir
        · exact isDirIn_putIn hfree (t.rooted x hx)
      named := by
        intro x hx
        rcases mem_putIn hx with rfl | hx
        · exact (accepts_iff.mp h).2.1
        · exact t.named x hx }
  else t

/-- **Putting an entry changes its address and nothing else.** -/
theorem get?_put {t : Tree} {a : Address} (h : t.accepts a = true) (e : Entry) (b : Address) :
    (t.put a e).get? b = if a = b then some e else t.get? b := by
  rw [put, dif_pos h]
  exact lookupIn_putIn a b e t.entries

/-- The addresses that stay when `a` is removed. -/
def survives (a b : Address) : Bool := !(b == a) && !a.holds b

theorem isDirIn_filter {entries : List (Address × Entry)} {a b : Address}
    (hb : survives a b = true) (h : isDirIn entries b.dir = true) :
    isDirIn (entries.filter fun x => survives a x.1) b.dir = true := by
  cases hd : b.dir with
  | nil => rfl
  | cons n d =>
    rw [hd] at h
    have hn : lookupIn ⟨d, n⟩ entries = some .dir := by simpa [isDirIn] using h
    have hholds : a.holds b = false := by
      have hb' : ¬ b = a ∧ a.holds b = false := by simpa [survives] using hb
      exact hb'.2
    -- the directory of `b` stays, else `b` would go with it
    have hkeep : survives a ⟨d, n⟩ = true := by
      have hne : ¬ (⟨d, n⟩ : Address) = a := by
        intro heq
        have : a.holds b = true := Address.holds_iff.mpr (by
          rw [hd, ← heq]
          exact List.suffix_refl _)
        rw [this] at hholds
        cases hholds
      have hnot : a.holds ⟨d, n⟩ = false := by
        rw [Bool.eq_false_iff]
        intro hup
        have : a.holds b = true := Address.holds_iff.mpr (by
          rw [hd]
          exact (Address.holds_iff.mp hup).trans (List.suffix_cons n d))
        rw [this] at hholds
        cases hholds
      simp [survives, hne, hnot]
    simp [isDirIn, lookupIn_filter, hkeep, hn]

/-- Removes an address with everything below it. -/
def remove (t : Tree) (a : Address) : Tree where
  entries := t.entries.filter fun x => survives a x.1
  nodup := t.nodup.sublist (List.filter_sublist.map Prod.fst)
  rooted := by
    intro x hx
    rw [List.mem_filter] at hx
    exact isDirIn_filter hx.2 (t.rooted x hx.1)
  named := fun x hx => t.named x (List.mem_filter.mp hx).1

/-- **Removing takes away an address with all below it and nothing else.** -/
theorem get?_remove (t : Tree) (a b : Address) :
    (t.remove a).get? b = if survives a b then t.get? b else none :=
  lookupIn_filter (survives a) b t.entries

/-- **Removing a file or a link takes away nothing else.** -/
theorem get?_remove_of_ne_dir {t : Tree} {a : Address} (ha : t.get? a ≠ some .dir) (b : Address) :
    (t.remove a).get? b = if b = a then none else t.get? b := by
  rw [get?_remove]
  by_cases hb : b = a
  · simp [survives, hb]
  · cases hholds : a.holds b with
    | false => simp [survives, hb, hholds]
    | true =>
      cases hget : t.get? b with
      | none => simp
      | some e => exact absurd (get?_of_holds hget hholds) ha

end Tree

end ScriptMinifier
