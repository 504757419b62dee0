import ScriptMinifier.Tree.Basic

/-!
# Walking a tree

A path leads from a directory through names, up by two dots, and through links, each of which is
replaced by the path it holds.  An absolute path, also one that a link holds, leads on from the top
of the tree, and two dots at the top lead nowhere (`Tree.origin`, `Tree.walk`).  The walk ends in a
directory, at a file, or at an address where nothing is; or it fails with an `OsError`.  At most
`Tree.maxLinks` links are followed, so a walk round a circle of links ends too.

A path is limited in two ways: no name on it may have more than `Tree.maxName` bytes, and the path
as it is handed to a call has less than `Tree.maxPath` (`Tree.calledOn`), whatever it leads to.
-/

namespace ScriptMinifier

inductive OsError where
  | notFound
  | alreadyExists
  | notDirectory
  | isDirectory
  | nameTooLong
  | tooManyLinks
  deriving DecidableEq, Repr

namespace OsError

def code : OsError → Nat
  | notFound => 2
  | alreadyExists => 17
  | notDirectory => 20
  | isDirectory => 21
  | nameTooLong => 36
  | tooManyLinks => 40

def describe : OsError → String
  | notFound => "No such file or directory"
  | alreadyExists => "File exists"
  | notDirectory => "Not a directory"
  | isDirectory => "Is a directory"
  | nameTooLong => "File name too long"
  | tooManyLinks => "Too many levels of symbolic links"

def message (e : OsError) : String := e.describe ++ " (os error " ++ toString e.code ++ ")"

end OsError

/-- Where a walk ends. -/
inductive Place where
  | dir (d : Dir)
  | file (a : Address)
  /-- The directory is there, the name is not. -/
  | vacant (a : Address)
  deriving DecidableEq, Repr

namespace Tree

/-- How many links one walk follows. -/
def maxLinks : Nat := 40

/-- The directory in which a path starts that is met in `d`. -/
def origin (d : Dir) (p : Path) : Dir := if Path.isAbsolute p then [] else d

/-- Walks from `d` along segments.  `links` is the number of links that may still be followed, and
what is left of it comes back with the place.  With `creating`, the walk is for a file that may have
to be made, and the last name may not have a slash behind it. -/
def walk (t : Tree) (creating : Bool) (links : Nat) (d : Dir) :
    List Bytes → Except OsError (Place × Nat)
  | [] => .ok (.dir d, links)
  | s :: rest =>
    if Path.isIdle s then t.walk creating links d rest
    else if s = Path.up then t.walk creating links d.tail rest
    else if creating ∧ rest ≠ [] ∧ rest.all (· == []) then .error .isDirectory
    else if maxName < s.length then .error .nameTooLong
    else
      match t.get? ⟨d, s⟩ with
      | none => if rest = [] then .ok (.vacant ⟨d, s⟩, links) else .error .notFound
      | some .dir => t.walk creating links (s :: d) rest
      | some (.file _) => if rest = [] then .ok (.file ⟨d, s⟩, links) else .error .notDirectory
      | some (.link target) =>
        match links with
        | 0 => .error .tooManyLinks
        | left + 1 => t.walk creating left (origin d target) (Path.segments target ++ rest)
termination_by segments => (links, segments.length)

/-! ### Paths of calls -/

def maxPath : Nat := 4096

def tooLong (p : Path) : Bool := maxPath ≤ p.length

/-- A call on the path `p`, which is refused before anything else if the path is too long. -/
def calledOn {α : Type} (p : Path) (result : Except OsError α) : Except OsError α :=
  if tooLong p then .error .nameTooLong else result

/-- Where a path leads from a directory, links followed to the end. -/
def locate (t : Tree) (start : Dir) (p : Path) : Except OsError (Place × Nat) :=
  calledOn p (if p = [] then .error .notFound
    else t.walk false maxLinks (origin start p) (Path.segments p))

/-! ### Files -/

def read (t : Tree) (a : Address) : Except OsError Bytes :=
  match t.get? a with
  | some (.file data) => .ok data
  | some .dir => .error .isDirectory
  | some (.link _) | none => .error .notFound

/-- The address that a text written to `a` goes to: `a` itself, or where the links at `a` lead. -/
def writeTarget (t : Tree) (links : Nat) (a : Address) : Except OsError Address :=
  match t.walk true links a.dir [a.name] with
  | .error e => .error e
  | .ok (.dir _, _) => .error .isDirectory
  | .ok (.file b, _) => .ok b
  | .ok (.vacant b, _) => .ok b

/-- Copies the file at `source` to `target`.  The target is emptied before the source is read, so a
file copied onto itself is lost. -/
def copy (t : Tree) (links : Nat) (source target : Address) : Except OsError Tree :=
  match t.get? source with
  | some (.file data) =>
    match t.writeTarget links target with
    | .error e => .error e
    | .ok b => .ok (t.put b (.file (if b = source then [] else data)))
  | _ => .error .notFound

def create (t : Tree) (a : Address) (data : Bytes) : Except OsError Tree :=
  if maxName < a.name.length then .error .nameTooLong
  else if (t.get? a).isSome then .error .alreadyExists
  else .ok (t.put a (.file data))

def unlink (t : Tree) (a : Address) : Except OsError Tree :=
  match t.get? a with
  | none => .error .notFound
  | some .dir => .error .isDirectory
  | some (.file _) | some (.link _) => .ok (t.remove a)

end Tree

end ScriptMinifier
