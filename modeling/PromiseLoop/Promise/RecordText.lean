import PromiseLoop.Promise.Record

/-!
# Debug texts of records
-/

namespace PromiseLoop

def Reaction.debug (properties : ObjectId → Properties) (r : Reaction) : String :=
  Text.fields "PromiseReaction"
    [ ("kind", r.side.name),
      ("handler", Text.optional (r.handler.map (Value.debug properties))),
      ("derived", r.derived.debug) ]

def Record.debug (properties : ObjectId → Properties) (r : Record) : String :=
  Text.fields "PromiseRecord"
    [ ("state", r.state.debugName),
      ("value", Text.optional (r.value.map (Value.debug properties))),
      ("fulfill_reactions", Text.list (r.fulfillReactions.map (Reaction.debug properties))),
      ("reject_reactions", Text.list (r.rejectReactions.map (Reaction.debug properties))),
      ("is_handled", Text.flag r.isHandled),
      ("already_resolved", Text.flag r.alreadyResolved),
      ("rejection_reported", Text.flag r.rejectionReported) ]

end PromiseLoop
