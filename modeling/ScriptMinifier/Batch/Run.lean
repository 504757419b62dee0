import ScriptMinifier.Batch.Report
import ScriptMinifier.Minify
import ScriptMinifier.Tree.Scope
import ScriptMinifier.Twin

/-!
# Runs over a directory

A run works on the files of a scope in two phases.

1. *Restoring*: every dev twin is copied over the script it belongs to, and then removed.
2. *Minifying*, unless the run only undoes an earlier one: every source is minified in place, after
   its text was saved as a new dev twin.

Each phase lists the files of the scope once, before its first step.  A file that fails is reported
and the phase goes on with the next.  A source is minified before anything is written, so one that
fails is left as it was, and a dev twin that exists is never written over.

* `restore`, `minifySources`: the two phases.
* `Batch.run`: both.
* `discover`, `restoreTree`, `minifyTree`: the same on the path of a directory.
-/

namespace ScriptMinifier

/-- What a run over a directory is to do. -/
structure BatchOptions where
  /-- Directories below are taken too. -/
  recursive : Bool := false
  /-- Only undo an earlier run. -/
  undo : Bool := false
  /-- How each file is minified. -/
  minify : Options := {}
  deriving DecidableEq, Repr, Inhabited

namespace Batch

/-- Steps over files one after the other, each on the tree that the one before it left. -/
def sweep {α : Type} (step : Tree → Found → α × Tree) (t : Tree) : List Found → List α × Tree
  | [] => ([], t)
  | f :: rest =>
    let (outcome, t₁) := step t f
    let (outcomes, t₂) := sweep step t₁ rest
    (outcome :: outcomes, t₂)

/-! ### Restoring -/

/-- What became of one dev twin. -/
structure Restored where
  /-- The script it belongs to. -/
  script : Path
  failure : Option BatchError
  deriving DecidableEq, Repr

/-- Copies the dev twin `f` over the script `name` beside it and removes the twin.  The path of the
twin is the longer one, so it alone can be too long. -/
def restoreAs (links : Nat) (t : Tree) (f : Found) (name : Name) : Restored × Tree :=
  let script := f.shown.withName name
  match Tree.calledOn f.shown (t.copy links f.address ⟨f.address.dir, name⟩) with
  | .error e => (⟨script, some (.io script e)⟩, t)
  | .ok t₁ =>
    match t₁.unlink f.address with
    | .error e => (⟨script, some (.io f.shown e)⟩, t₁)
    | .ok t₂ => (⟨script, none⟩, t₂)

def restoreFile (links : Nat) (t : Tree) (f : Found) : Restored × Tree :=
  match Twin.minName? f.address.name with
  | some name => restoreAs links t f name
  | none => (⟨f.shown, none⟩, t)

def devFiles (s : Scope) (t : Tree) : List Found :=
  (s.files t).filter fun f => Twin.isDevName f.address.name

def restore (s : Scope) (t : Tree) : List Restored × Tree :=
  sweep (restoreFile s.links) t (devFiles s t)

/-! ### Minifying -/

/-- What became of one source. -/
structure Minified where
  file : Path
  /-- The strings and regular expressions that were opened. -/
  openings : List Opening
  /-- The counts, if the text could be minified. -/
  stats : Option Stats
  failure : Option BatchError
  deriving DecidableEq, Repr

/-- Saves `text` as the dev twin `name` of `f` and writes `out` in its place. -/
def exchange (t : Tree) (f : Found) (name : Name) (text out : Bytes) : Option BatchError × Tree :=
  let twin := f.shown.withName name
  match Tree.calledOn twin (t.create ⟨f.address.dir, name⟩ text) with
  | .error .alreadyExists => (some (.devExists twin), t)
  | .error e => (some (.io twin e), t)
  | .ok t₁ => (none, t₁.put f.address (.file out))

/-- Minifies the source `f` in place, with `name` for its dev twin. -/
def minifyAs (o : Options) (t : Tree) (f : Found) (name : Name) : Minified × Tree :=
  match Tree.calledOn f.shown (t.read f.address) with
  | .error e => (⟨f.shown, [], none, some (.io f.shown e)⟩, t)
  | .ok text =>
    match (scan text).result o with
    | .error u => (⟨f.shown, (scan text).openings, none, some (.unterminated f.shown u)⟩, t)
    | .ok out =>
      let (failure, t₁) := exchange t f name text out
      (⟨f.shown, (scan text).openings, some (Stats.of text out), failure⟩, t₁)

def minifyFile (o : Options) (t : Tree) (f : Found) : Minified × Tree :=
  match Twin.devName? f.address.name with
  | some name => minifyAs o t f name
  | none => (⟨f.shown, [], none, none⟩, t)

def sourceFiles (s : Scope) (t : Tree) : List Found :=
  (s.files t).filter fun f => Twin.isSourceName f.address.name

def minifySources (o : Options) (s : Scope) (t : Tree) : List Minified × Tree :=
  sweep (minifyFile o) t (sourceFiles s t)

/-! ### Whole runs -/

def Restored.report (r : Restored) : Report :=
  match r.failure with
  | some e => { failures := [e] }
  | none => { restored := 1 }

def Minified.report (p : Minified) : Report :=
  match p.failure, p.stats with
  | some e, _ => { failures := [e] }
  | none, some stats =>
    { minified := 1, bytesIn := stats.bytesRead, bytesOut := stats.bytesWritten }
  | none, none => {}

/-- What became of every file of a run, and the tree it left. -/
structure Run where
  restored : List Restored
  minified : List Minified
  tree : Tree

def Run.report (r : Run) : Report :=
  (r.restored.map Restored.report ++ r.minified.map Minified.report).foldl Report.merge {}

/-- Restores a scope and, unless the run only undoes an earlier one, minifies it. -/
def run (o : BatchOptions) (s : Scope) (t : Tree) : Run :=
  let (restored, t₁) := restore s t
  if o.undo then ⟨restored, [], t₁⟩
  else
    let (minified, t₂) := minifySources o.minify s t₁
    ⟨restored, minified, t₂⟩

end Batch

/-- The scope of a path, or the directory that cannot be listed. -/
def openScope (t : Tree) (start : Dir) (root : Path) (recursive : Bool) : Except BatchError Scope :=
  match Scope.locate t start root recursive with
  | .error e => .error (.walk root e)
  | .ok s =>
    match s.unlisted? t with
    | some d => .error (.walk d.shown .nameTooLong)
    | none => .ok s

/-- The paths of all files in a directory, or at any depth below it. -/
def discover (t : Tree) (start : Dir) (root : Path) (recursive : Bool) :
    Except BatchError (List Path) :=
  (openScope t start root recursive).map fun s => (s.files t).map Found.shown

/-- Copies every dev twin back and removes it. -/
def restoreTree (t : Tree) (start : Dir) (root : Path) (recursive : Bool) :
    Except BatchError Batch.Run :=
  (openScope t start root recursive).map fun s => Batch.run { recursive, undo := true } s t

/-- Undoes any earlier run on a directory, then minifies its sources in place. -/
def minifyTree (t : Tree) (start : Dir) (root : Path) (o : BatchOptions) :
    Except BatchError Batch.Run :=
  (openScope t start root o.recursive).map fun s => Batch.run o s t

end ScriptMinifier
