import PromiseLoop.Promise.Heap
import PromiseLoop.Script.Answer

/-!
# Heap sessions

A session applies operations to promise heaps that go by names.  Ids go by names as well and are
not tied to the heap they come from, so that stale and foreign ids can be tried.
-/

namespace PromiseLoop

/-- Which flags of a record to set. -/
structure RecordEdit where
  isHandled : Option Bool := none
  alreadyResolved : Option Bool := none
  rejectionReported : Option Bool := none
deriving DecidableEq, Repr, Inhabited

def Record.edit (r : Record) (e : RecordEdit) : Record :=
  { r with
    isHandled := e.isHandled.getD r.isHandled
    alreadyResolved := e.alreadyResolved.getD r.alreadyResolved
    rejectionReported := e.rejectionReported.getD r.rejectionReported }

/-- A record as an answer shows it. -/
structure RecordView where
  state : State
  result : Option Shown
  isPending : Bool
  fulfillReactions : Nat
  rejectReactions : Nat
  isHandled : Bool
  alreadyResolved : Bool
  rejectionReported : Bool
  awaitsReport : Bool
deriving DecidableEq, Repr, Inhabited

/-- Shows a value where no variables are about. -/
def Value.shownAlone (v : Value) : Shown := v.shown fun _ => []

def Record.view (r : Record) : RecordView :=
  { state := r.state
    result := r.value.map Value.shownAlone
    isPending := r.isPending
    fulfillReactions := r.fulfillReactions.length
    rejectReactions := r.rejectReactions.length
    isHandled := r.isHandled
    alreadyResolved := r.alreadyResolved
    rejectionReported := r.rejectionReported
    awaitsReport := r.awaitsReport }

/-- An operation on a heap. -/
inductive HeapOperation
  /-- Stores a record, settled first if a settlement is given, and names its id. -/
  | allocate (name : String) (settlement : Option (State × Value))
  | get (id : String)
  | remove (id : String)
  | edit (id : String) (e : RecordEdit)
  /-- Whether two ids are the same. -/
  | same (id other : String)
deriving DecidableEq, Repr

/-- What an operation on a heap gives. -/
inductive HeapFinding
  | id (id : PromiseId)
  | record (r : Option RecordView)
  | flag (b : Bool)
deriving DecidableEq, Repr, Inhabited

/-- What is found after an operation: its result, and the heap's size, emptiness and text. -/
structure HeapAnswer where
  finding : HeapFinding
  size : Nat
  isEmpty : Bool
  debug : String
deriving DecidableEq, Repr, Inhabited

/-- The heaps and ids of a session, by name. -/
structure HeapSession where
  heaps : List (String × Heap) := []
  ids : List (String × PromiseId) := []
deriving Inhabited

namespace HeapSession

/-- The heap of a name, which is empty when it is first named. -/
def heap (s : HeapSession) (name : String) : Heap :=
  ((s.heaps.find? fun e => e.1 = name).map Prod.snd).getD .empty

def setHeap (s : HeapSession) (name : String) (h : Heap) : HeapSession :=
  { s with heaps := (name, h) :: s.heaps.filter fun e => e.1 ≠ name }

def id? (s : HeapSession) (name : String) : Option PromiseId :=
  (s.ids.find? fun e => e.1 = name).map Prod.snd

/-- A new record, settled if a settlement is given. -/
def newRecord (settlement : Option (State × Value)) : Record :=
  match settlement with
  | none => .pending
  | some (state, v) =>
    match Record.pending.settle state v with
    | some (r, _) => r
    | none => .pending

/-- Applies an operation to a heap. -/
def apply (s : HeapSession) (name : String) (op : HeapOperation) : HeapFinding × HeapSession :=
  let h := s.heap name
  match op with
  | .allocate idName settlement =>
    let (id, h) := h.allocate (newRecord settlement)
    (.id id, { s.setHeap name h with ids := (idName, id) :: s.ids })
  | .get id => (.record (((s.id? id).bind h.get?).map Record.view), s.setHeap name h)
  | .remove id =>
    match (s.id? id).bind h.remove? with
    | some (r, h) => (.record (some r.view), s.setHeap name h)
    | none => (.record none, s.setHeap name h)
  | .edit id e =>
    match s.id? id with
    | some id =>
      let h := h.modify id fun r => r.edit e
      (.record ((h.get? id).map Record.view), s.setHeap name h)
    | none => (.record none, s.setHeap name h)
  | .same id other => (.flag (s.id? id = s.id? other), s.setHeap name h)

/-- Applies an operation and looks at the heap afterwards. -/
def step (s : HeapSession) (name : String) (op : HeapOperation) : HeapAnswer × HeapSession :=
  let (finding, s) := s.apply name op
  let h := s.heap name
  ({ finding, size := h.size, isEmpty := h.isEmpty, debug := h.debug }, s)

end HeapSession
end PromiseLoop
