import ScriptMinifier.CommandLine.Run
import ScriptMinifier.Tree.Listing

/-!
# The program

Carries bytes between the standard streams and `CommandLine.perform`.  With `--stdio` standard input
is the script.  Otherwise it is the listing of the tree that the command works in, and the listing
of the tree it leaves goes to standard output, so the program itself touches no files.
-/

open ScriptMinifier

def main (args : List String) : IO UInt32 := do
  let input ← (← IO.getStdin).readBinToEnd
  let asked ← IO.getEnv "JSMIN_LOG"
  let bytes := input.data.toList
  let onTree := CommandLine.worksOnTree args
  let tree := if onTree then Listing.read ((ofUtf8? bytes).getD "") else Tree.empty
  let exit := CommandLine.perform args bytes asked tree []
  let stdout ← IO.getStdout
  let stderr ← IO.getStderr
  stdout.write (ByteArray.mk exit.stdout.toArray)
  if onTree then
    for line in Listing.write exit.tree do
      stdout.putStrLn line
  stdout.flush
  match exit.log with
  | some entries =>
    for entry in entries do
      stderr.putStrLn entry
  | none => stderr.putStr CommandLine.usageText
  return exit.code.toUInt32
