import PromiseLoop.Config.Basic
import PromiseLoop.Json.Strings
import PromiseLoop.Text.Debug

/-!
# Writing configurations

The compact text of a configuration: an object with all settings in their order.
-/

namespace PromiseLoop.Config

/-- The value of a setting as JSON text. -/
def settingText (c : Config) : Key → String
  | .trackUnhandledRejections => Text.flag c.trackUnhandledRejections
  | .collectAtCheckpoint => Text.flag c.collectAtCheckpoint
  | .workerThreadName => Json.encode c.workerThreadName

/-- A member of the written object. -/
def memberText (c : Config) (k : Key) : String := Json.encode k.name ++ ":" ++ c.settingText k

/-- The configuration as compact JSON text. -/
def write (c : Config) : String :=
  "\x7b" ++ ",".intercalate (Key.all.map c.memberText) ++ "\x7d"

end PromiseLoop.Config
