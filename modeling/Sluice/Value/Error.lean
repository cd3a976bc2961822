import Sluice.Value.Basic
import Sluice.Text.Quoted

/-!
# What can go wrong with a value

The failures of stored things and of the conversion to JSON, and the message for each.
-/

namespace Sluice

/-- Why a value cannot be written as JSON. -/
inductive Unrepresentable
  | nonFiniteFloat
  | unresolvedLink
  /-- Values of this kind have no JSON form at all. -/
  | kind (k : Value.Kind)
  deriving DecidableEq

/-- What has no place in JSON, in words. -/
def Unrepresentable.text : Unrepresentable → String
  | nonFiniteFloat => "non-finite float"
  | unresolvedLink => "unresolved link"
  | .kind k => k.name

/-- Why an operation on a value failed. -/
inductive ValueError
  /-- An iterator was read before the first element or after the last. -/
  | notPositioned
  | iteratorClosed
  /-- A link was resolved a second time. -/
  | alreadyResolved (path : String)
  | notRepresentable (reason : Unrepresentable)
  /-- A text key was needed. -/
  | nonTextKey (found : Value.Kind)
  /-- A failure of the stored thing itself, in its own words. -/
  | other (text : String)
  deriving DecidableEq

/-- The message of a failure. -/
def ValueError.message : ValueError → String
  | notPositioned => "iterator is not positioned on a value"
  | iteratorClosed => "iterator is closed"
  | alreadyResolved path => "link " ++ Text.quote path ++ " is already resolved"
  | notRepresentable reason => reason.text ++ " has no JSON representation"
  | nonTextKey found => "mapping key must be text, got " ++ found.name
  | other text => text

end Sluice
