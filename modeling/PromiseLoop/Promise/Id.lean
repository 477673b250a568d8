/-!
# Ids and handles of promises

A promise record is addressed by its slot in the heap of its loop and the generation of that slot.
A `Promise` is a handle: it says which promise of which loop it is a handle of, once and for all, and
at which id the record was stored.  Two handles are equal exactly if they are handles of one promise.
-/

namespace PromiseLoop

/-- The number of an event loop.  No two loops of a run share one, dropped loops included. -/
structure LoopId where
  number : Nat
deriving DecidableEq, Repr, Inhabited

/-- The address of a promise record within its loop.  Slots are reused, with a new generation. -/
structure PromiseId where
  index : UInt32
  generation : UInt32
deriving DecidableEq, Repr, Inhabited

/-- The text of an id, as in `promise#3.1`. -/
def PromiseId.text (id : PromiseId) : String :=
  "promise#" ++ toString id.index ++ "." ++ toString id.generation

/-- A handle on a promise. -/
structure Promise where
  home : LoopId
  /-- The number of the promise among those that its loop has created. -/
  serial : Nat
  id : PromiseId
deriving DecidableEq, Repr, Inhabited

/-- The text of a handle, as in `Promise(promise#0.0)`. -/
def Promise.debug (p : Promise) : String := "Promise(" ++ p.id.text ++ ")"

/-- The text of a completer of the promise with this id. -/
def PromiseId.completerText (id : PromiseId) : String := "Completer(" ++ id.text ++ ")"

end PromiseLoop
