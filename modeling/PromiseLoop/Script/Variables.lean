import PromiseLoop.Value.Basic

/-!
# Variables

The variables of a script, sorted by name.  The order makes lists of names come out sorted.

Main results:

* `lookup?_assign`: the last value given to a variable is what is found under its name.
* `lookup?_remove`: a removed variable is gone, and no other one is.
-/

namespace PromiseLoop

/-- Variables with their values, sorted by name. -/
structure Variables where
  entries : List (String × Value)
deriving DecidableEq, Repr, Inhabited

namespace Variables

def empty : Variables := ⟨[]⟩

def lookup? (vs : Variables) (name : String) : Option Value :=
  (vs.entries.find? fun e => e.1 = name).map Prod.snd

/-- Puts a value in its place among sorted entries. -/
def insert (name : String) (v : Value) : List (String × Value) → List (String × Value)
  | [] => [(name, v)]
  | e :: rest =>
    if e.1 = name then (name, v) :: rest
    else if name < e.1 then (name, v) :: e :: rest
    else e :: insert name v rest

/-- Gives a variable a value. -/
def assign (vs : Variables) (name : String) (v : Value) : Variables :=
  ⟨insert name v vs.entries⟩

/-- Removes a variable. -/
def remove (vs : Variables) (name : String) : Variables :=
  ⟨vs.entries.filter fun e => e.1 ≠ name⟩

/-- The values of all variables. -/
def held (vs : Variables) : List Value := vs.entries.map Prod.snd

/-- The names of the variables that hold a value, sorted. -/
def holders (vs : Variables) (v : Value) : List String :=
  (vs.entries.filter fun e => e.2 = v).map Prod.fst

/-! ## Looking up after a change -/

@[simp] theorem lookup?_empty (name : String) : empty.lookup? name = none := rfl

theorem find?_insert (name k : String) (v : Value) (es : List (String × Value)) :
    ((insert name v es).find? fun e => e.1 = k).map Prod.snd =
      if name = k then some v else (es.find? fun e => e.1 = k).map Prod.snd := by
  induction es with
  | nil => by_cases h : name = k <;> simp [insert, h]
  | cons e rest ih =>
    obtain ⟨j, w⟩ := e
    by_cases hj : j = name
    · subst hj
      by_cases hk : j = k <;> simp [insert, hk]
    · by_cases hlt : name < j
      · by_cases hk : name = k
        · subst hk
          simp [insert, hj, hlt]
        · simp [insert, hj, hlt, hk]
      · by_cases hk : j = k
        · subst hk
          have hj' : ¬ name = j := fun h => hj h.symm
          simp [insert, hj, hlt, hj']
        · simpa [insert, hj, hlt, hk] using ih

/-- The last value given to a variable is what is found under its name. -/
theorem lookup?_assign (vs : Variables) (name k : String) (v : Value) :
    (vs.assign name v).lookup? k = if name = k then some v else vs.lookup? k :=
  find?_insert name k v vs.entries

/-- A removed variable is gone, and no other one is. -/
theorem lookup?_remove (vs : Variables) (name k : String) :
    (vs.remove name).lookup? k = if name = k then none else vs.lookup? k := by
  unfold lookup? remove
  induction vs.entries with
  | nil => simp
  | cons e rest ih =>
    obtain ⟨j, w⟩ := e
    by_cases hj : j = name
    · by_cases hk : name = k <;> simp_all
    · by_cases hk : j = k
      · subst hk
        have hne : ¬ name = j := fun h => hj h.symm
        simp [hj, hne]
      · simpa [hj, hk] using ih

end Variables
end PromiseLoop
