import Sluice.Keyed

/-!
# JSON documents

A document is a tree of nulls, booleans, numbers, strings, arrays and objects. Whole numbers and
floats are kept apart. The entries of an object stand in ascending key order, each key once.
-/

namespace Sluice

/-- A number of a JSON document. -/
inductive Json.Number
  | integer (n : Int)
  | real (x : Float)

/-- A JSON document. -/
inductive Json where
  | null
  | bool (b : Bool)
  | number (n : Json.Number)
  | string (s : String)
  | array (items : List Json)
  | object (entries : List (String × Json))
  deriving Inhabited

end Sluice
