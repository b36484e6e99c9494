import Trellis.Scalar.Basic

/-!
Values of responses.

An object is a list of fields in response order. `Object.add` keeps each key once and merges
objects under one key, so an object built by it alone (`Object.ofFields`) has distinct keys at every
level it was merged.
-/

namespace Trellis

inductive Value where
  | null
  | scalar (s : Scalar)
  | list (items : List Value)
  | object (fields : List (String × Value))
deriving Inhabited

/-- Fields of a response object in order. -/
abbrev Object := List (String × Value)

namespace Value

def string (s : String) : Value := .scalar (.string s)

def isNull : Value → Bool
  | .null => true
  | _ => false

def scalar? : Value → Option Scalar
  | .scalar s => some s
  | _ => none

def list? : Value → Option (List Value)
  | .list items => some items
  | _ => none

def object? : Value → Option Object
  | .object fields => some fields
  | _ => none

end Value

namespace Object

def get? (o : Object) (key : String) : Option Value := o.lookup key

def contains (o : Object) (key : String) : Bool := (o.get? key).isSome

def keys (o : Object) : List String := o.map (·.1)

/-- Changes the value under a key in its place, or puts a new field at the end. -/
def adjust (o : Object) (key : String) (change : Value → Value) (new : Value) : Object :=
  match o with
  | [] => [(key, new)]
  | (k, v) :: rest =>
    if k = key then (k, change v) :: rest else (k, v) :: adjust rest key change new

end Object

mutual

/-- What an old value becomes when a new one arrives under its key: two objects are merged, and
otherwise the new value replaces the old one. -/
def Value.merge (old : Value) : Value → Value
  | .object new =>
    match old with
    | .object existing => .object (Object.addAll existing new)
    | _ => .object new
  | new => new

def Object.addAll (o : Object) : List (String × Value) → Object
  | [] => o
  | (key, value) :: rest => Object.addAll (o.adjust key (·.merge value) value) rest

end

namespace Object

/-- Adds a field. An existing value is merged with the new one or replaced in its place. -/
def add (o : Object) (key : String) (value : Value) : Object :=
  o.adjust key (·.merge value) value

/-- The value that adding a field replaces: the existing one, unless the two are objects and
merge. -/
def replaced? (o : Object) (key : String) (value : Value) : Option Value :=
  match o.get? key, value with
  | some (.object _), .object _ => none
  | existing, _ => existing

/-- The object that results from adding fields in order. -/
def ofFields (fields : List (String × Value)) : Object := addAll [] fields

theorem addAll_cons (o : Object) (key : String) (value : Value) (rest : List (String × Value)) :
    addAll o ((key, value) :: rest) = addAll (o.add key value) rest := by
  rw [addAll, add]

/-- Adding fields in order is a left fold of adding one. -/
theorem addAll_eq_foldl (o : Object) (fields : List (String × Value)) :
    addAll o fields = fields.foldl (fun o field => o.add field.1 field.2) o := by
  induction fields generalizing o with
  | nil => rw [addAll, List.foldl_nil]
  | cons field rest ih => rw [addAll_cons, ih, List.foldl_cons]

end Object

mutual

/-- Whether two values are equal. The order of the fields of an object does not count. -/
def Value.same : Value → Value → Bool
  | .null, .null => true
  | .scalar a, .scalar b => a.same b
  | .list a, .list b => Value.sameItems a b
  | .object a, .object b => a.length == b.length && Value.sameFields a b
  | _, _ => false

def Value.sameItems : List Value → List Value → Bool
  | [], [] => true
  | a :: as, b :: bs => a.same b && Value.sameItems as bs
  | _, _ => false

/-- Whether every field of the first object has an equal one in the second. -/
def Value.sameFields : List (String × Value) → Object → Bool
  | [], _ => true
  | (key, a) :: rest, o =>
    (match o.get? key with
      | some b => a.same b
      | none => false) && Value.sameFields rest o

end

end Trellis
