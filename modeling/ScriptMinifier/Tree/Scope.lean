import ScriptMinifier.Tree.Walk

/-!
# Scopes

A scope is the part of a tree that one run works on: the files of a directory, or all files at any
depth below it.  Links are not followed below the directory and are not listed; the path to the
directory itself may go through links.

`Scope.files` lists the files of a scope.  They come in the order of their names from the directory
down, compared name by name and byte by byte, whatever order the tree holds them in.

A directory can be listed only if its path is not too long.  `Scope.unlisted?` is the first one in a
scope that cannot.
-/

namespace ScriptMinifier

/-- The part of a tree that one run works on. -/
structure Scope where
  /-- The directory; `none` if the path leads to a file, which holds no files. -/
  dir : Option Dir
  /-- The path as it was given. -/
  shown : Path
  /-- Directories below are taken too. -/
  recursive : Bool
  /-- How many more links a walk from here may follow. -/
  links : Nat
  deriving DecidableEq, Repr

/-- An entry of a scope. -/
structure Found where
  address : Address
  /-- The names from the directory of the scope down to the entry. -/
  names : List Name
  /-- The path of the entry, as the path of the scope goes on. -/
  shown : Path
  deriving DecidableEq, Repr

namespace Scope

/-- The scope that a path opens. -/
def locate (t : Tree) (start : Dir) (p : Path) (recursive : Bool) : Except OsError Scope :=
  match t.locate start p with
  | .error e => .error e
  | .ok (.dir d, links) => .ok ⟨some d, p, recursive, links⟩
  | .ok (.file _, links) => .ok ⟨none, p, recursive, links⟩
  | .ok (.vacant _, _) => .error .notFound

def covers (root : Dir) (recursive : Bool) (d : Dir) : Bool :=
  if recursive then root.isSuffixOf d else d == root

def namesFrom (root : Dir) (a : Address) : List Name :=
  (a.name :: a.dir.take (a.dir.length - root.length)).reverse

def foundAt (s : Scope) (root : Dir) (a : Address) : Found :=
  ⟨a, namesFrom root a, (namesFrom root a).foldl Path.push s.shown⟩

/-- An entry of a tree, if it is of the scope and of the kind asked for. -/
def found? (s : Scope) (root : Dir) (kind : Entry → Bool) (x : Address × Entry) : Option Found :=
  if kind x.2 && covers root s.recursive x.1.dir then some (s.foundAt root x.1) else none

/-- The order in which entries are listed. -/
def before (f g : Found) : Bool := decide (f.names ≤ g.names)

/-- The entries of one kind, in order. -/
def members (s : Scope) (kind : Entry → Bool) (t : Tree) : List Found :=
  match s.dir with
  | none => []
  | some root => (t.entries.filterMap (s.found? root kind)).mergeSort before

def files (s : Scope) (t : Tree) : List Found := s.members Entry.isFile t

def dirs (s : Scope) (t : Tree) : List Found := s.members Entry.isDir t

/-- The first directory below that belongs to the scope and whose path is too long to be listed. -/
def unlisted? (s : Scope) (t : Tree) : Option Found :=
  if s.recursive then (s.dirs t).find? fun f => Tree.tooLong f.shown else none

end Scope

end ScriptMinifier
