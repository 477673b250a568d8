import PromiseLoop.Value.Text

/-!
# Promise records

A record holds the state of one promise and the reactions that wait for it.  Settling a pending
record is irreversible; it detaches both lists of reactions and says which of them fire.

Main results:

* `settle_eq_none_iff`: only a pending record can be settled, and only to a settled state.
* `settle_settle`: a record that has been settled refuses to be settled again.
-/

namespace PromiseLoop

/-- The state of a promise. -/
inductive State
  | pending
  | fulfilled
  | rejected
deriving DecidableEq, Repr, Inhabited

namespace State

/-- The name of a state, as scripts see it. -/
def name : State → String
  | pending => "pending"
  | fulfilled => "fulfilled"
  | rejected => "rejected"

/-- The name of a state, as debug texts show it. -/
def debugName : State → String
  | pending => "Pending"
  | fulfilled => "Fulfilled"
  | rejected => "Rejected"

/-- The state of a given name. -/
def ofName? (s : String) : Option State :=
  [pending, fulfilled, rejected].find? (fun st => st.name = s)

end State

/-- One side of a registration on a promise.  The two sides of one registration share the derived
promise, and only the side that matches the settlement runs. -/
structure Reaction where
  side : Side
  /-- What to call, or nothing to pass the settlement through. -/
  handler : Option Value
  /-- The promise that the outcome of the reaction settles. -/
  derived : Promise
deriving DecidableEq, Repr, Inhabited

/-- What a reaction holds. -/
def Reaction.held (r : Reaction) : List Value := r.handler.toList ++ [.promise r.derived]

/-- What a list of reactions holds, in the order in which it is let go. -/
def heldByReactions (rs : List Reaction) : List Value := rs.flatMap Reaction.held

/-- The state of one promise. -/
structure Record where
  state : State := .pending
  /-- What the promise was settled with. -/
  value : Option Value := none
  fulfillReactions : List Reaction := []
  rejectReactions : List Reaction := []
  /-- Set when the first reaction is attached. -/
  isHandled : Bool := false
  /-- Set when a resolution from outside has been accepted. -/
  alreadyResolved : Bool := false
  /-- Set when the missing handler of a rejection has been reported. -/
  rejectionReported : Bool := false
deriving DecidableEq, Repr, Inhabited

/-- What settling a record releases. -/
structure Settlement where
  /-- The reactions to schedule, in the order of registration. -/
  fire : List Reaction
  /-- The reactions of the other side, which can never run. -/
  discarded : List Reaction
deriving DecidableEq, Repr

namespace Record

/-- A fresh record. -/
def pending : Record := {}

def isPending (r : Record) : Bool := r.state = .pending

/-- The values a record holds, in the order in which they are let go. -/
def held (r : Record) : List Value :=
  r.value.toList ++ heldByReactions r.fulfillReactions ++ heldByReactions r.rejectReactions

/-- The record after it was settled to `s` with `v`. -/
def settled (r : Record) (s : State) (v : Value) : Record :=
  { r with state := s, value := some v, fulfillReactions := [], rejectReactions := [] }

/-- The reactions that settling to `s` releases. -/
def released (r : Record) (s : State) : Settlement :=
  match s with
  | .fulfilled => { fire := r.fulfillReactions, discarded := r.rejectReactions }
  | _ => { fire := r.rejectReactions, discarded := r.fulfillReactions }

/-- Settles a pending record.  A settled record, or a call that asks for the pending state, changes
nothing and gives nothing. -/
def settle (r : Record) (s : State) (v : Value) : Option (Record × Settlement) :=
  if r.isPending && s ≠ .pending then some (r.settled s v, r.released s) else none

/-- Whether the record is a rejection that nobody handles and nobody has been told about. -/
def awaitsReport (r : Record) : Bool :=
  r.state = .rejected && !r.isHandled && !r.rejectionReported

/-- What a rejection is reported with. -/
def reason (r : Record) : Value := r.value.getD .undefined

/-- Adds a reaction to the list of its side. -/
def addReaction (r : Record) (x : Reaction) : Record :=
  match x.side with
  | .fulfill => { r with fulfillReactions := r.fulfillReactions ++ [x] }
  | .reject => { r with rejectReactions := r.rejectReactions ++ [x] }

/-! ## Settling -/

theorem settle_eq_none_iff (r : Record) (s : State) (v : Value) :
    r.settle s v = none ↔ r.state ≠ .pending ∨ s = .pending := by
  cases h : r.state <;> cases s <;> simp [settle, isPending, h]

theorem settle_settle {r r' : Record} {s : State} {v : Value} {x : Settlement}
    (h : r.settle s v = some (r', x)) (t : State) (w : Value) : r'.settle t w = none := by
  unfold settle at h
  split at h
  · rename_i hs
    obtain ⟨rfl, -⟩ := Prod.mk.inj (Option.some.inj h)
    have hs' : s ≠ .pending := by simpa using (Bool.and_eq_true_iff.mp hs).2
    exact (settle_eq_none_iff _ _ _).mpr (Or.inl hs')
  · exact absurd h (by simp)

end Record
end PromiseLoop
