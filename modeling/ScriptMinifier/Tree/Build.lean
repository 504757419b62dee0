import ScriptMinifier.Tree.Walk

/-!
# Building trees

`Tree.place` puts an entry at a path and makes the directories that are missing on the way;
`Tree.clear` takes away whatever a path leads to.  What cannot be done leaves the tree as it is.
-/

namespace ScriptMinifier.Tree

/-- The directory that segments lead to from `d`, made where it is missing. -/
def makeDirs (t : Tree) (d : Dir) : List Bytes → Option (Tree × Dir)
  | [] => some (t, d)
  | s :: rest =>
    if Path.isIdle s then t.makeDirs d rest
    else if s = Path.up then t.makeDirs d.tail rest
    else
      match t.get? ⟨d, s⟩ with
      | none => if t.accepts ⟨d, s⟩ then (t.put ⟨d, s⟩ .dir).makeDirs (s :: d) rest else none
      | some .dir => t.makeDirs (s :: d) rest
      | some (.file _) => none
      | some (.link _) =>
        match t.walk false maxLinks d [s] with
        | .ok (.dir d', _) => t.makeDirs d' rest
        | _ => none

/-- The address that a path names below `start`, in a tree with the directories on the way. -/
def reserve (t : Tree) (start : Dir) (p : Path) : Option (Tree × Address) :=
  match ((Path.segments p).filter fun s => !Path.isIdle s).reverse with
  | [] => none
  | n :: above => (t.makeDirs (origin start p) above.reverse).map fun (t', d) => (t', ⟨d, n⟩)

/-- Puts an entry at a path.  A file is written through links; a link replaces what is there. -/
def place (t : Tree) (start : Dir) (p : Path) (e : Entry) : Tree :=
  match e with
  | .dir =>
    match t.makeDirs (origin start p) (Path.segments p) with
    | some (t', _) => t'
    | none => t
  | .file data =>
    match t.reserve start p with
    | some (t', a) =>
      match t'.writeTarget maxLinks a with
      | .ok b => t'.put b (.file data)
      | .error _ => t'
    | none => t
  | .link target =>
    match t.reserve start p with
    | some (t', a) => (t'.remove a).put a (.link target)
    | none => t

/-- Removes the entry that a path names, with everything below it; a link on the way is followed, a
link at the end is not. -/
def clear (t : Tree) (start : Dir) (p : Path) : Tree :=
  match ((Path.segments p).filter fun s => !Path.isIdle s).reverse with
  | [] => t
  | n :: above =>
    match t.walk false maxLinks (origin start p) above.reverse with
    | .ok (.dir d, _) => t.remove ⟨d, n⟩
    | _ => t

end ScriptMinifier.Tree
