import PromiseLoop.Loop.Basic

/-!
# Unhandled rejections and collection

At a checkpoint the loop reports the rejections that nobody handles, and frees the records whose
last handle has gone.  A record is reported at most once; one that is freed before its checkpoint
is reported when it is freed.
-/

namespace PromiseLoop.Loop

/-- Marks a record as reported, if it waits for that, and puts it on the list of reports. -/
def selectReport (acc : List (PromiseId × Value) × Loop) (id : PromiseId) :
    List (PromiseId × Value) × Loop :=
  match acc.2.heap.get? id with
  -- freed in the meantime, and reported then
  | none => acc
  | some r =>
    if r.awaitsReport then
      (acc.1 ++ [(id, r.reason)],
        acc.2.modifyRecord id fun r => { r with rejectionReported := true })
    else acc

/-- The rejections to report now, each with its reason, marked as reported.  Nothing is reported
where rejections are not tracked. -/
def takeReports (l : Loop) : List (PromiseId × Value) × Loop :=
  let cleared := { l with awaiting := [] }
  if l.config.trackUnhandledRejections then l.awaiting.foldl selectReport ([], cleared)
  else ([], cleared)

/-- Adds an event to the rejection log, if the loop has one. -/
def logEvent (l : Loop) (e : RejectionEvent) : Loop :=
  match l.tracker with
  | .log => { l with log := l.log ++ [e] }
  | _ => l

/-- Reports a rejection that nobody handles. -/
def report (l : Loop) (id : PromiseId) (reason : Value) : Loop :=
  (l.note (.reported id reason)).logEvent (.unhandled id reason)

/-- Reports that a reported rejection got its first handler. -/
def reportHandled (l : Loop) (id : PromiseId) : Loop :=
  (l.note (.handledLate id)).logEvent (.handled id)

/-- The reasons of the unhandled rejections in the log. -/
def unhandledReasons (l : Loop) : List Value :=
  l.log.filterMap fun
    | .unhandled _ reason => some reason
    | .handled _ => none

/-! ## Collection -/

/-- Queues the id of a promise whose last handle has gone. -/
def release (l : Loop) (id : PromiseId) : Loop := { l with releases := l.releases ++ [id] }

/-- Takes the queue of releases. -/
def takeReleases (l : Loop) : List PromiseId × Loop := (l.releases, { l with releases := [] })

/-- Whether freeing this record has to report it first. -/
def reportsOnFree (l : Loop) (r : Record) : Bool :=
  l.config.trackUnhandledRejections && r.awaitsReport

/-- Frees a record, and reports it if that has to be done. -/
def free? (l : Loop) (id : PromiseId) : Option (Record × Loop) :=
  (l.heap.remove? id).map fun (r, heap) =>
    let l := { l with heap := heap }
    (r, (if l.reportsOnFree r then l.report id r.reason else l).note (.freed id r))

end PromiseLoop.Loop
