import Sluice.Proofs.Value.LinkDepth

/-!
# Documents as values and back

A document whose whole numbers fit 64 signed bits comes back from its value
(`toJsonWith_ofJson`), and every value that is made of what JSON has is the value of a document
(`exists_converts_of_plain`). So either conversion undoes the other, no number changes between whole
and float on the way, and nothing is lost.
-/

namespace Sluice

/-- Whether the whole numbers of a document fit 64 signed bits and its floats are finite. -/
inductive Json.Fits : Json → Prop
  | null : Fits .null
  | bool (b : Bool) : Fits (.bool b)
  | integer {n : Int} :
      Int64.minValue.toInt ≤ n → n ≤ Int64.maxValue.toInt → Fits (.number (.integer n))
  | real {x : Float} : x.isFinite = true → Fits (.number (.real x))
  | string (s : String) : Fits (.string s)
  | array {items : List Json} : (∀ item ∈ items, Fits item) → Fits (.array items)
  | object {entries : List (String × Json)} :
      (∀ entry ∈ entries, Fits entry.2) → Fits (.object entries)

/-- Whether a value is built only from null, booleans, integers, finite floats, text, sequences and
mappings. -/
inductive Value.Plain : Value → Prop
  | null : Plain .null
  | bool (b : Bool) : Plain (.bool b)
  | int (n : Int64) : Plain (.int n)
  | float {x : Float} : x.isFinite = true → Plain (.float x)
  | text (s : String) : Plain (.text s)
  | sequence {items : List Value} : (∀ item ∈ items, Plain item) → Plain (.sequence items)
  | mapping {entries : List (String × Value)} :
      (∀ entry ∈ entries, Plain entry.2) → Plain (.mapping entries)

namespace Value

/-- A whole number that fits is the integer with its value. -/
theorem ofNumber_integer {n : Int} (hmin : Int64.minValue.toInt ≤ n)
    (hmax : n ≤ Int64.maxValue.toInt) : ofNumber (.integer n) = .int (Int64.ofInt n) := by
  have hfits : (Int64.minValue.toInt ≤ n && n ≤ Int64.maxValue.toInt) = true := by
    simp only [hmin, hmax, decide_true, Bool.and_self]
  rw [ofNumber, Decimal.fitInt64?, if_pos hfits]

/-- A 64-bit integer comes back from its JSON number. -/
theorem ofNumber_toInt (n : Int64) : ofNumber (.integer n.toInt) = .int n := by
  rw [ofNumber_integer n.minValue_le_toInt n.toInt_le, Int64.ofInt_toInt]

/-- A finite float is a JSON number. -/
theorem floatToJson_of_isFinite {x : Float} (h : x.isFinite = true) :
    floatToJson x = pure (.number (.real x)) :=
  if_pos h

variable {ofLink : Handle .link → Conversion Json}

/-- Items come back if each of them does. -/
theorem toJsonItems_ofJsonItems {items : List Json}
    (h : ∀ item ∈ items, toJsonWith ofLink (ofJson item) = pure item) :
    toJsonItems ofLink (ofJsonItems items) = pure items := by
  induction items with
  | nil => rfl
  | cons item items ih =>
    obtain ⟨hitem, hitems⟩ := List.forall_mem_cons.mp h
    rw [ofJsonItems, toJsonItems, hitem, pure_bind, ih hitems, pure_bind]

/-- Entries come back if the value of each does. -/
theorem toJsonEntries_ofJsonEntries {entries : List (String × Json)}
    (h : ∀ entry ∈ entries, toJsonWith ofLink (ofJson entry.2) = pure entry.2) :
    toJsonEntries ofLink (ofJsonEntries entries) = pure entries := by
  induction entries with
  | nil => rfl
  | cons entry entries ih =>
    obtain ⟨hentry, hentries⟩ := List.forall_mem_cons.mp h
    rw [ofJsonEntries, toJsonEntries, hentry, pure_bind, ih hentries, pure_bind]

/-- The value of a document has that document. -/
theorem toJsonWith_ofJson {document : Json} (h : document.Fits) :
    toJsonWith ofLink (ofJson document) = pure document := by
  induction h with
  | null | bool | string => rfl
  | @integer n hmin hmax =>
    have hvalue : (Int64.ofInt n).toInt = n :=
      Int64.toInt_ofInt_of_le hmin (Int.lt_of_le_of_lt hmax (by decide))
    rw [ofJson, ofNumber_integer hmin hmax, toJsonWith, hvalue]
  | real hfinite => exact floatToJson_of_isFinite hfinite
  | array _ ih => rw [ofJson, toJsonWith, toJsonItems_ofJsonItems ih, pure_bind]
  | object _ ih => rw [ofJson, toJsonWith, toJsonEntries_ofJsonEntries ih, pure_bind]

/-- Whether a value and a document are converted to each other. -/
structure Converts (ofLink : Handle .link → Conversion Json) (value : Value) (document : Json) :
    Prop where
  fits : document.Fits
  toJson : toJsonWith ofLink value = pure document
  ofJson : ofJson document = value

/-- Items that convert one by one are those of a list of documents. -/
theorem exists_items_of_converts {items : List Value}
    (h : ∀ item ∈ items, ∃ document, Converts ofLink item document) :
    ∃ documents : List Json, (∀ document ∈ documents, document.Fits) ∧
      toJsonItems ofLink items = pure documents ∧ ofJsonItems documents = items := by
  induction items with
  | nil => exact ⟨[], by simp, rfl, rfl⟩
  | cons item items ih =>
    obtain ⟨⟨document, hdocument⟩, hitems⟩ := List.forall_mem_cons.mp h
    obtain ⟨documents, hfits, hto, hof⟩ := ih hitems
    refine ⟨document :: documents, List.forall_mem_cons.mpr ⟨hdocument.fits, hfits⟩, ?_, ?_⟩
    · rw [toJsonItems, hdocument.toJson, pure_bind, hto, pure_bind]
    · rw [ofJsonItems, hdocument.ofJson, hof]

/-- Entries whose values convert are those of a list of keyed documents. -/
theorem exists_entries_of_converts {entries : List (String × Value)}
    (h : ∀ entry ∈ entries, ∃ document, Converts ofLink entry.2 document) :
    ∃ documents : List (String × Json), (∀ document ∈ documents, document.2.Fits) ∧
      toJsonEntries ofLink entries = pure documents ∧ ofJsonEntries documents = entries := by
  induction entries with
  | nil => exact ⟨[], by simp, rfl, rfl⟩
  | cons entry entries ih =>
    obtain ⟨key, value⟩ := entry
    obtain ⟨⟨document, hdocument⟩, hentries⟩ := List.forall_mem_cons.mp h
    obtain ⟨documents, hfits, hto, hof⟩ := ih hentries
    refine ⟨(key, document) :: documents, List.forall_mem_cons.mpr ⟨hdocument.fits, hfits⟩, ?_, ?_⟩
    · rw [toJsonEntries, hdocument.toJson, pure_bind, hto, pure_bind]
    · rw [ofJsonEntries, hdocument.ofJson, hof]

/-- A value made of what JSON has is the value of its document. -/
theorem exists_converts_of_plain {value : Value} (h : value.Plain) :
    ∃ document, Converts ofLink value document := by
  induction h with
  | null => exact ⟨.null, .null, rfl, rfl⟩
  | bool b => exact ⟨.bool b, .bool b, rfl, rfl⟩
  | text s => exact ⟨.string s, .string s, rfl, rfl⟩
  | int n =>
    have hfits : Json.Fits (.number (.integer n.toInt)) :=
      .integer n.minValue_le_toInt n.toInt_le
    exact ⟨_, hfits, rfl, ofNumber_toInt n⟩
  | float hfinite => exact ⟨_, .real hfinite, floatToJson_of_isFinite hfinite, rfl⟩
  | sequence _ ih =>
    obtain ⟨documents, hfits, hto, hof⟩ := exists_items_of_converts ih
    refine ⟨.array documents, .array hfits, ?_, ?_⟩
    · rw [toJsonWith, hto, pure_bind]
    · rw [ofJson, hof]
  | mapping _ ih =>
    obtain ⟨documents, hfits, hto, hof⟩ := exists_entries_of_converts ih
    refine ⟨.object documents, .object hfits, ?_, ?_⟩
    · rw [toJsonWith, hto, pure_bind]
    · rw [ofJson, hof]

/-- **Documents and values are converted to each other without loss.** A document whose whole
numbers fit is the document of its value, and a value that is made of what JSON has is the value of
its document. -/
theorem toJson_round_trip (store : Store) :
    (∀ document : Json, document.Fits →
      ((ofJson document).toJson store).run = some (.ok document)) ∧
    ∀ value : Value, value.Plain → ∃ document : Json,
      (value.toJson store).run = some (.ok document) ∧ document.Fits ∧ ofJson document = value := by
  refine ⟨fun document h => ?_, fun value h => ?_⟩
  · rw [toJson_eq_toJsonWith, toJsonWith_ofJson h]
    rfl
  · obtain ⟨document, hfits, hto, hof⟩ := exists_converts_of_plain h
    refine ⟨document, ?_, hfits, hof⟩
    rw [toJson_eq_toJsonWith, hto]
    rfl

/-- The price 8.95 stays a float and the price 12 an integer, in either direction. -/
theorem toJson_round_trip_of_prices :
    ((ofJson (.array [.object [("price", .number (.real 8.95))],
        .object [("price", .number (.integer 12))]])).toJson {}).run =
      some (.ok (.array [.object [("price", .number (.real 8.95))],
        .object [("price", .number (.integer 12))]])) ∧
    ∃ document : Json,
      ((sequence [mapping [("price", float 8.95)], mapping [("price", int 12)]]).toJson {}).run =
        some (.ok document) ∧
      document.Fits ∧
      ofJson document =
        sequence [mapping [("price", float 8.95)], mapping [("price", int 12)]] := by
  have hfinite : Float.isFinite 8.95 = true := by decide
  have hreal : Json.Fits (.object [("price", .number (.real 8.95))]) :=
    .object (by simpa using .real hfinite)
  have hinteger : Json.Fits (.object [("price", .number (.integer 12))]) :=
    .object (by simpa using .integer (by decide) (by decide))
  have hfloat : Plain (mapping [("price", float 8.95)]) := .mapping (by simpa using .float hfinite)
  have hint : Plain (mapping [("price", int 12)]) := .mapping (by simpa using .int 12)
  exact ⟨(toJson_round_trip {}).1 _ (.array (by simpa using ⟨hreal, hinteger⟩)),
    (toJson_round_trip {}).2 _ (.sequence (by simpa using ⟨hfloat, hint⟩))⟩

end Value

end Sluice
