import PromiseLoop.Machine.Step

/-!
# Running scripts

A script is given to a machine command by command.  Each command yields its answer, what was traced
while it ran, and the number of microtasks that the loop `main` has then.
-/

namespace PromiseLoop.Script

/-- What one command of a script yields. -/
structure Line where
  answer : Answer
  trace : List Entry
  /-- The number of waiting microtasks of `main`, if it has not been dropped. -/
  microtasks : Option Nat
deriving Repr, Inhabited

/-- What a script yields: a line for every command, and the logs of the loops that are left. -/
structure Report where
  lines : List Line
  events : List (String × Finding)
deriving Repr, Inhabited

/-- The line of a command that has just been performed. -/
def line (m : Machine) : Line :=
  { answer := match m.control with
      | .idle a => a
      | _ => .done
    trace := m.trace.reverse
    microtasks := ((m.named? "main").bind m.loop?).map fun l => l.microtasks.size }

/-- Performs commands one after another. -/
def perform : Machine → List Command → List Line × Machine
  | m, [] => ([], m)
  | m, c :: cs =>
    let m := m.perform c
    let (lines, last) := perform m cs
    (line m :: lines, last)

/-- The logs of the loops that have one. -/
def logs (m : Machine) : List (String × Finding) :=
  m.names.filterMap fun (name, id) =>
    match m.loop? id with
    | some l => if l.tracker = .log then some (name, m.showEvents l) else none
    | none => none

/-- Runs a script on a machine that has the loop `main` with the given settings. -/
def run (config : Config) (tracker : Tracker) (bridge : BridgeChoice) (script : List Command) :
    Report :=
  let (lines, m) := perform (Machine.boot config tracker (Machine.bridgeOf bridge)) script
  { lines, events := logs m }

end PromiseLoop.Script
