import PromiseLoop.Promise.RecordText
import PromiseLoop.Session.HeapSession

/-!
# Record sessions

A session applies operations to one promise record.  The promises that its reactions derive come
from a heap that the whole session shares.
-/

namespace PromiseLoop

/-- An operation on a record. -/
inductive RecordOperation
  | settle (state : State) (v : Value)
  /-- Pushes a reaction with a new derived promise. -/
  | react (side : Side) (handler : Option Value)
  | edit (e : RecordEdit)
  | debug
deriving DecidableEq, Repr

/-- A reaction as an answer shows it. -/
structure ReactionView where
  side : Side
  handler : Option Shown
  derived : PromiseId
deriving DecidableEq, Repr, Inhabited

def Reaction.view (r : Reaction) : ReactionView :=
  { side := r.side, handler := r.handler.map Value.shownAlone, derived := r.derived.id }

/-- What an operation on a record gives. -/
inductive RecordFinding
  | nothing
  | settlement (fire discarded : List ReactionView)
  | text (s : String)
deriving DecidableEq, Repr, Inhabited

/-- The record of a session and the heap of its derived promises. -/
structure RecordSession where
  record : Record := .pending
  derived : Heap := .empty
deriving Inhabited

namespace RecordSession

/-- Applies an operation to the record. -/
def step (s : RecordSession) (op : RecordOperation) : RecordFinding × RecordSession :=
  match op with
  | .settle state v =>
    match s.record.settle state v with
    | some (r, released) =>
      (.settlement (released.fire.map Reaction.view) (released.discarded.map Reaction.view),
        { s with record := r })
    | none => (.nothing, s)
  | .react side handler =>
    let (id, derived) := s.derived.allocate .pending
    let reaction : Reaction := { side, handler, derived := { home := ⟨0⟩, serial := s.derived.size, id } }
    (.nothing, { record := s.record.addReaction reaction, derived })
  | .edit e => (.nothing, { s with record := s.record.edit e })
  | .debug => (.text (s.record.debug fun _ => .empty), s)

end RecordSession
end PromiseLoop
