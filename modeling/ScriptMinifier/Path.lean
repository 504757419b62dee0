import ScriptMinifier.Text

/-!
# Paths

A path is a text of bytes, cut at its slashes.  Empty segments and single dots mean nothing, except
a slash at the very start (the top of all directories) and a dot at the very start (the directory
one is in).  Two dots lead up; every other segment is a name.

* `Path.components`: what a path means, apart from how it is written.
* `Path.name?`: its last component, if that is a name.
* `Path.withName`: the path with another last name, its end written in the shortest way.
* `Path.push`, `Path.join`: a name or a path appended, with one slash where one is missing.
* `Path.IsName`: the segments that are names.
* `Path.glue_segments`: cutting a path at its slashes loses nothing.
-/

namespace ScriptMinifier

abbrev Name := Bytes

abbrev Path := Bytes

namespace Path

/-! ### Segments -/

/-- The text cut at every slash; empty segments are kept. -/
def segments : Bytes → List Bytes
  | [] => [[]]
  | b :: rest =>
    if b = Byte.slash then [] :: segments rest
    else
      match segments rest with
      | [] => [[b]]
      | s :: ss => (b :: s) :: ss

def glue : List Bytes → Bytes
  | [] => []
  | [s] => s
  | s :: ss => s ++ Byte.slash :: glue ss

def up : Bytes := [Byte.dot, Byte.dot]

/-- A segment without meaning: empty, or a single dot. -/
def isIdle (s : Bytes) : Bool := s == [] || s == [Byte.dot]

def isAbsolute (p : Bytes) : Bool := p.head? == some Byte.slash

/-- A segment that names an entry. -/
structure IsName (n : Name) : Prop where
  notMem : Byte.slash ∉ n
  notIdle : isIdle n = false
  ne_up : n ≠ up

instance (n : Name) : Decidable (IsName n) :=
  decidable_of_iff (Byte.slash ∉ n ∧ isIdle n = false ∧ n ≠ up)
    ⟨fun h => ⟨h.1, h.2.1, h.2.2⟩, fun h => ⟨h.notMem, h.notIdle, h.ne_up⟩⟩

theorem segments_ne_nil (p : Bytes) : segments p ≠ [] := by
  cases p with
  | nil => simp [segments]
  | cons b rest =>
    simp only [segments]
    split
    · simp
    · split <;> simp

theorem notMem_of_mem_segments {p s : Bytes} (hs : s ∈ segments p) : Byte.slash ∉ s := by
  induction p generalizing s with
  | nil =>
    rw [List.mem_singleton.mp hs]
    exact List.not_mem_nil
  | cons b p ih =>
    rw [segments] at hs
    split at hs
    · rcases List.mem_cons.mp hs with rfl | hs
      · exact List.not_mem_nil
      · exact ih hs
    next hb =>
      cases hp : segments p with
      | nil => exact absurd hp (segments_ne_nil p)
      | cons t ts =>
        rw [hp] at hs ih
        rcases List.mem_cons.mp hs with rfl | hs
        · rw [List.mem_cons, not_or]
          exact ⟨Ne.symm hb, ih List.mem_cons_self⟩
        · exact ih (List.mem_cons_of_mem t hs)

/-- **Gluing the segments gives the text back.** -/
theorem glue_segments (p : Bytes) : glue (segments p) = p := by
  induction p with
  | nil => rfl
  | cons b rest ih =>
    simp only [segments]
    split
    · rename_i hb
      have hne := segments_ne_nil rest
      cases hs : segments rest with
      | nil => exact absurd hs hne
      | cons s ss =>
        rw [glue, ← hs, ih, hb]
        · rfl
        · simp
    · cases hs : segments rest with
      | nil => exact absurd hs (segments_ne_nil rest)
      | cons s ss =>
        rw [hs] at ih
        cases ss with
        | nil => simpa [glue] using ih
        | cons t ts => simpa [glue] using ih

/-! ### Components -/

/-- One step of a path. -/
inductive Component where
  /-- The top of all directories. -/
  | top
  /-- The directory one is in, written at the start. -/
  | here
  /-- The directory above. -/
  | up
  | name (n : Name)
  deriving DecidableEq, Repr

/-- The first byte stands for itself: a slash, or a dot that is the whole first segment. -/
def leads (p : Path) : Bool :=
  match p with
  | [] => false
  | b :: rest =>
    b == Byte.slash || (b == Byte.dot && (rest.isEmpty || rest.head? == some Byte.slash))

/-- The start of the path that stands for itself. -/
def lead (p : Path) : Bytes := if leads p then p.take 1 else []

/-- The path behind its lead. -/
def body (p : Path) : Bytes := if leads p then p.drop 1 else p

def leadComponent (p : Path) : List Component :=
  match lead p with
  | [] => []
  | b :: _ => if b = Byte.slash then [.top] else [.here]

def componentOf (s : Bytes) : Component := if s = up then .up else .name s

/-- The steps of a path. -/
def components (p : Path) : List Component :=
  leadComponent p ++ ((segments (body p)).filter fun s => !isIdle s).map componentOf

def name? (p : Path) : Option Name :=
  match (components p).getLast? with
  | some (.name n) => some n
  | _ => none

/-! ### Making paths -/

/-- The path with `n` appended, behind one slash unless the path is empty or ends in one. -/
def push (p : Path) (n : Name) : Path :=
  if p = [] ∨ p.getLast? = some Byte.slash then p ++ n else p ++ Byte.slash :: n

/-- A path that goes on from another one; an absolute path stands for itself. -/
def join (p q : Path) : Path := if isAbsolute q then q else push p q

/-- The segments without the idle ones at their end. -/
def trimEnd (ss : List Bytes) : List Bytes := (ss.reverse.dropWhile isIdle).reverse

/-- The text in front of the last component that is not the lead. -/
def parent (p : Path) : Path := lead p ++ glue (trimEnd (trimEnd (segments (body p))).dropLast)

/-- The path with its last name replaced. -/
def withName (p : Path) (n : Name) : Path :=
  match name? p with
  | some _ => push (parent p) n
  | none => push p n

/-- The path as it is shown; bytes that are no text are shown as replacement characters. -/
def display (p : Path) : String :=
  match ofUtf8? p with
  | some text => text
  | none =>
    String.ofList (p.map fun b => if b < 128 then Char.ofNat b.toNat else Char.ofNat 0xfffd)

end Path

end ScriptMinifier
