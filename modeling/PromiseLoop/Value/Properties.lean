import PromiseLoop.Value.Basic

/-!
# Properties

The properties of an object, in the order in which their keys were first put.  A property is a
value or a getter; putting a key again replaces the property in place.

Main results:

* `keys_put`: a new key goes to the end, a known one keeps its place.
* `lookup?_put`: the last put of a key is what is found under it.
-/

namespace PromiseLoop

/-- What an object keeps under a key. -/
inductive Property
  | data (v : Value)
  | getter (f : Callable)
deriving DecidableEq, Repr, Inhabited

/-- The value in whose shape the property holds its handle. -/
def Property.held : Property → Value
  | .data v => v
  | .getter f => .function f

/-- The properties of one object, oldest key first. -/
structure Properties where
  entries : List (String × Property)
deriving DecidableEq, Repr, Inhabited

namespace Properties

def empty : Properties := ⟨[]⟩

def keys (ps : Properties) : List String := ps.entries.map Prod.fst

/-- Replaces the property of the first entry with this key, or adds one at the end. -/
def putEntry (key : String) (p : Property) :
    List (String × Property) → List (String × Property)
  | [] => [(key, p)]
  | (k, q) :: rest => if k = key then (k, p) :: rest else (k, q) :: putEntry key p rest

def put (ps : Properties) (key : String) (p : Property) : Properties :=
  ⟨putEntry key p ps.entries⟩

def lookup? (ps : Properties) (key : String) : Option Property :=
  (ps.entries.find? (fun e => e.1 = key)).map Prod.snd

def has (ps : Properties) (key : String) : Bool := ps.entries.any (fun e => e.1 = key)

/-- The values held by the properties, in order. -/
def held (ps : Properties) : List Value := ps.entries.map (fun e => e.2.held)

/-- The keys as a set of quoted texts, as in `{"a", "b"}`. -/
def debug (ps : Properties) : String := Text.set (ps.keys.map Text.quoted)

/-! ## The order of keys -/

theorem map_fst_putEntry (key : String) (p : Property) (es : List (String × Property)) :
    (putEntry key p es).map Prod.fst =
      if key ∈ es.map Prod.fst then es.map Prod.fst else es.map Prod.fst ++ [key] := by
  induction es with
  | nil => simp [putEntry]
  | cons e es ih =>
    obtain ⟨k, q⟩ := e
    by_cases hk : k = key
    · simp [putEntry, hk]
    · have hk' : ¬ key = k := fun h => hk h.symm
      simp only [putEntry, if_neg hk, List.map_cons, ih, List.mem_cons, hk', false_or]
      split <;> rfl

/-- A new key goes to the end, a known one keeps its place. -/
theorem keys_put (ps : Properties) (key : String) (p : Property) :
    (ps.put key p).keys = if key ∈ ps.keys then ps.keys else ps.keys ++ [key] :=
  map_fst_putEntry key p ps.entries

theorem find?_putEntry (key k : String) (p : Property) (es : List (String × Property)) :
    ((putEntry key p es).find? (fun e => e.1 = k)).map Prod.snd =
      if key = k then some p else (es.find? (fun e => e.1 = k)).map Prod.snd := by
  induction es with
  | nil => by_cases h : key = k <;> simp [putEntry, h]
  | cons e es ih =>
    obtain ⟨j, q⟩ := e
    by_cases hj : j = key
    · subst hj
      by_cases hk : j = k <;> simp [putEntry, hk]
    · by_cases hk : j = k
      · subst hk
        have hj' : ¬ key = j := fun h => hj h.symm
        simp [putEntry, hj, hj']
      · simpa [putEntry, hj, hk] using ih

/-- The last put of a key is what is found under it. -/
theorem lookup?_put (ps : Properties) (key k : String) (p : Property) :
    (ps.put key p).lookup? k = if key = k then some p else ps.lookup? k :=
  find?_putEntry key k p ps.entries

theorem lookup?_empty (k : String) : empty.lookup? k = none := rfl

end Properties
end PromiseLoop
