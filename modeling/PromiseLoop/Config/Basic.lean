/-!
# Configuration

The settings of an event loop.
-/

namespace PromiseLoop

/-- The settings of an event loop. -/
structure Config where
  /-- Report rejections that nobody handles at the end of a checkpoint, or at collection. -/
  trackUnhandledRejections : Bool := true
  /-- Free unreachable promise records at every checkpoint. -/
  collectAtCheckpoint : Bool := true
  /-- The name of the threads that run background work. -/
  workerThreadName : String := "async-runtime-worker"
deriving DecidableEq, Repr, Inhabited

namespace Config

/-- The settings of a loop that sets none. -/
def default : Config := {}

/-- The settings a configuration can name. -/
inductive Key
  | trackUnhandledRejections
  | collectAtCheckpoint
  | workerThreadName
deriving DecidableEq, Repr

namespace Key

/-- The name of a setting in a text. -/
def name : Key → String
  | trackUnhandledRejections => "track_unhandled_rejections"
  | collectAtCheckpoint => "collect_at_checkpoint"
  | workerThreadName => "worker_thread_name"

/-- All settings, in the order in which they are written. -/
def all : List Key := [trackUnhandledRejections, collectAtCheckpoint, workerThreadName]

/-- The setting of a given name. -/
def ofName? (s : String) : Option Key := all.find? (fun k => k.name = s)

end Key
end Config
end PromiseLoop
