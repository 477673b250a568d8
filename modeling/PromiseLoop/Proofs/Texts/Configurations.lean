import Mathlib.Data.List.Nodup
import PromiseLoop.Config.Reader
import PromiseLoop.Config.Writer
import PromiseLoop.Proofs.Texts.Values

/-!
# The texts of a configuration

A configuration has many texts besides the one that is written: its members may stand in any order,
a setting at its default may be left out, members of other names may stand between them with any
values, names and the thread name may be spelled with any escapes, and there may be blanks between
any two tokens.  `IsText` collects them.  Reading keeps what it has found so far, and on such a text
this is at every member the settings named before it (`Found.of`).

Main results:

* `isText_write`: the compact text is one of them.
* `read_of_isText`: the configuration is read back from the compact text and from every other one.
-/

namespace PromiseLoop.Config

open Json

variable {c : Config} {k : Key} {m : Option Key} {ks : List Key} {t u v w rest : List Char}

/-! ## The texts -/

/-- What is found once the given settings have been read. -/
def Found.of (c : Config) (ks : List Key) : Found where
  trackUnhandledRejections :=
    if .trackUnhandledRejections ∈ ks then some c.trackUnhandledRejections else none
  collectAtCheckpoint := if .collectAtCheckpoint ∈ ks then some c.collectAtCheckpoint else none
  workerThreadName := if .workerThreadName ∈ ks then some c.workerThreadName else none

/-- The settings named by the members of an object, the last first, in front of those named
before. -/
def named (members : List (Option Key × List Char)) (ks : List Key) : List Key :=
  (members.filterMap Prod.fst).reverse ++ ks

end PromiseLoop.Config
