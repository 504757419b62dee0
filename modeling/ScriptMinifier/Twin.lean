import ScriptMinifier.Path

/-!
# Twins

A script `name.js` that was minified in place keeps its first text beside it as `name-dev.js`, its
*dev twin*.  Whether a file is a script or a twin is read off its name, which has to be UTF-8:

* a *source* ends in `.js` but not in `-dev.js`, and `Twin.devName?` is the name of its twin;
* a *dev twin* ends in `-dev.js`, and `Twin.minName?` is the name of the script it belongs to.

The same on paths: `Twin.isSource`, `Twin.isDev`, `Twin.dev?`, `Twin.min?`.
-/

namespace ScriptMinifier.Twin

def scriptEnding : Bytes := ['.', 'j', 's'].map Byte.ofChar

def devEnding : Bytes := ['-', 'd', 'e', 'v', '.', 'j', 's'].map Byte.ofChar

/-! ### Names -/

def hasEnding (ending : Bytes) (n : Name) : Bool := (ofUtf8? n).isSome && ending.isSuffixOf n

/-- The name of a script that is not a twin. -/
def isSourceName (n : Name) : Bool := hasEnding scriptEnding n && !devEnding.isSuffixOf n

/-- The name of a dev twin. -/
def isDevName (n : Name) : Bool := hasEnding devEnding n

/-- The name without its ending, and another one in its place. -/
def swapEnding (old new : Bytes) (n : Name) : Name := n.take (n.length - old.length) ++ new

def devName? (n : Name) : Option Name :=
  if isSourceName n then some (swapEnding scriptEnding devEnding n) else none

def minName? (n : Name) : Option Name :=
  if isDevName n then some (swapEnding devEnding scriptEnding n) else none

/-! ### Paths -/

def isSource (p : Path) : Bool := p.name?.any isSourceName

def isDev (p : Path) : Bool := p.name?.any isDevName

def dev? (p : Path) : Option Path := (p.name?.bind devName?).map (Path.withName p)

def min? (p : Path) : Option Path := (p.name?.bind minName?).map (Path.withName p)

end ScriptMinifier.Twin
