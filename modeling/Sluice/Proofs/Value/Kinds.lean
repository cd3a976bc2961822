import Sluice.Proofs.Eval.Folding

/-!
# Documents of some kinds

The kinds of the scalars in a document say much about what a filter can make of it. Here are the
documents whose scalars are of given kinds (`Value.OfKinds`), among them those that are made of what
JSON has (`Value.IsJson`).
-/

namespace Sluice.Value

/-- Whether a value is a document whose scalars are of given kinds, and which holds dicts only if
dicts are of these kinds too. -/
inductive OfKinds (kinds : Kind → Bool) : Value → Prop
  | scalar {value : Value} :
      value.category = .scalar → kinds value.kind = true → OfKinds kinds value
  | sequence {items : List Value} :
      (∀ item ∈ items, OfKinds kinds item) → OfKinds kinds (.sequence items)
  | mapping {entries : List (String × Value)} :
      (∀ entry ∈ entries, OfKinds kinds entry.2) → OfKinds kinds (.mapping entries)
  | dict {entries : List (Value × Value)} :
      kinds .dict = true → (∀ entry ∈ entries, OfKinds kinds entry.1) →
      (∀ entry ∈ entries, OfKinds kinds entry.2) → OfKinds kinds (.dict entries)

/-- Whether given kinds include those of the scalars that evaluation makes. -/
structure ClosedKinds (kinds : Kind → Bool) : Prop where
  null : kinds .null = true
  integer : kinds .integer = true
  float : kinds .float = true
  text : kinds .text = true
  byte : kinds .bytes = true → kinds .byte = true

/-- A value of given kinds is a document. -/
theorem OfKinds.isDocument {kinds : Kind → Bool} {value : Value} (h : value.OfKinds kinds) :
    value.isDocument = true := by
  induction h with
  | @scalar value hscalar _ => cases value <;> first | rfl | cases hscalar
  | sequence _ ih => exact everyLeaf_sequence.mpr ih
  | mapping _ ih => exact everyLeaf_mapping.mpr ih
  | dict _ _ _ hkeys hvalues =>
    exact everyLeaf_dict.mpr fun entry hmem => ⟨hkeys entry hmem, hvalues entry hmem⟩

/-- Every document is one of any kinds. -/
theorem ofKinds_of_isDocument {value : Value} (h : value.isDocument = true) :
    value.OfKinds fun _ => true := by
  match value with
  | .sequence items =>
    refine .sequence fun item hmem => ?_
    have hlt := sizeOf_lt_of_mem_sequence hmem
    exact ofKinds_of_isDocument (everyLeaf_sequence.mp h item hmem)
  | .mapping entries =>
    refine .mapping fun entry hmem => ?_
    have hlt := sizeOf_lt_of_mem_mapping hmem
    exact ofKinds_of_isDocument (everyLeaf_mapping.mp h entry hmem)
  | .dict entries =>
    have hparts := everyLeaf_dict.mp h
    refine .dict rfl (fun entry hmem => ?_) fun entry hmem => ?_
    · have hlt := (sizeOf_lt_of_mem_dict hmem).1
      exact ofKinds_of_isDocument (hparts entry hmem).1
    · have hlt := (sizeOf_lt_of_mem_dict hmem).2
      exact ofKinds_of_isDocument (hparts entry hmem).2
  | .null | .bool _ | .int _ | .float _ | .byte _ | .bytes _ | .text _ => exact .scalar rfl rfl
  | .link _ | .map _ | .array _ | .iterator _ | .byteStream _ | .stream _ => cases h
termination_by sizeOf value
decreasing_by all_goals assumption

/-- All kinds together include what evaluation makes. -/
theorem closedKinds_true : ClosedKinds fun _ => true := ⟨rfl, rfl, rfl, rfl, fun _ => rfl⟩

/-- Whether a kind is one of what JSON has. -/
def Kind.isJson : Kind → Bool
  | null | boolean | integer | float | text | sequence | mapping => true
  | _ => false

/-- Whether a value is built only from null, booleans, integers, floats, text, sequences and
mappings. -/
def IsJson (value : Value) : Prop := value.OfKinds Kind.isJson

/-- The kinds that JSON has include what evaluation makes, as JSON has no bytes. -/
theorem closedKinds_isJson : ClosedKinds Kind.isJson := ⟨rfl, rfl, rfl, rfl, nofun⟩

end Sluice.Value
