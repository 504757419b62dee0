import ScriptMinifier.Path

/-!
# Arguments

Arguments are read from left to right.  A long option is spelled in full behind two dashes; short
options can share one dash.  No option takes a value, and none may be given twice.  Everything else
is the directory, of which there is at most one: a dash alone, and whatever follows two dashes
alone.

Asking for help or for the version ends the reading at once, so what stands behind it is not looked
at.
-/

namespace ScriptMinifier.CommandLine

/-- What an option asks for. -/
inductive Flag where
  | recursive
  | undo
  | stdio
  | collapse
  | trailing
  | verbose
  | help
  | version
  deriving DecidableEq, Repr

namespace Flag

def ofLong? : String → Option Flag
  | "recursive" => some recursive
  | "undo" => some undo
  | "stdio" => some stdio
  | "collapse-comment-line-breaks" => some collapse
  | "keep-trailing-newline" => some trailing
  | "verbose" => some verbose
  | "help" => some help
  | "version" => some version
  | _ => none

def ofShort? : Char → Option Flag
  | 'r' => some recursive
  | 'u' => some undo
  | 'o' => some stdio
  | 'v' => some verbose
  | 'h' => some help
  | 'V' => some version
  | _ => none

end Flag

/-- Why the reading of arguments ends early. -/
inductive Stop where
  | help
  | version
  /-- The arguments are wrong. -/
  | usage
  deriving DecidableEq, Repr

/-- What has been read so far. -/
structure Arguments where
  flags : List Flag := []
  dir : Option String := none
  deriving DecidableEq, Repr, Inhabited

namespace Arguments

def has (a : Arguments) (f : Flag) : Bool := a.flags.contains f

def addFlag (a : Arguments) (f : Flag) : Except Stop Arguments :=
  match f with
  | .help => .error .help
  | .version => .error .version
  | f => if a.has f then .error .usage else .ok { a with flags := f :: a.flags }

def addShorts (a : Arguments) : List Char → Except Stop Arguments
  | [] => .ok a
  | c :: rest =>
    match Flag.ofShort? c with
    | none => .error .usage
    | some f =>
      match a.addFlag f with
      | .error stop => .error stop
      | .ok a' => a'.addShorts rest

def addDir (a : Arguments) (dir : String) : Except Stop Arguments :=
  if dir.isEmpty ∨ a.dir.isSome then .error .usage else .ok { a with dir := some dir }

def add (a : Arguments) (arg : String) : Except Stop Arguments :=
  match arg.toList with
  | '-' :: '-' :: long =>
    match Flag.ofLong? (String.ofList long) with
    | none => .error .usage
    | some f => a.addFlag f
  | '-' :: c :: rest => a.addShorts (c :: rest)
  | _ => a.addDir arg

def readDirs (a : Arguments) : List String → Except Stop Arguments
  | [] => .ok a
  | arg :: rest =>
    match a.addDir arg with
    | .error stop => .error stop
    | .ok a' => a'.readDirs rest

/-- Takes arguments from left to right. -/
def read (a : Arguments) : List String → Except Stop Arguments
  | [] => .ok a
  | arg :: rest =>
    if arg = "--" then a.readDirs rest
    else
      match a.add arg with
      | .error stop => .error stop
      | .ok a' => a'.read rest

def parse (args : List String) : Except Stop Arguments := ({} : Arguments).read args

end Arguments

end ScriptMinifier.CommandLine
