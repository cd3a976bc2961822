import Sluice.Proofs.Eval.Pairing

/-!
# Streams that have run out

A value may hold streams. While all of them have run out the value flattens in one way
(`Blank`), and flattening leaves them so. In no other case does it flatten in that way, because the
first stream with elements left gives them.
-/

namespace Sluice

open Sluice.Store

/-- Whether no stream in a value has elements left. -/
def Store.isExhausted (store : Store) (value : Value) : Bool :=
  value.everyLeaf fun
    | .stream stream => (store.remaining stream).isEmpty
    | _ => true

section Exhausted

variable {store after : Store} {value : Value}

/-- A document holds no streams that could have elements left. -/
theorem Store.isExhausted_of_isDocument (store : Store) (h : value.isDocument = true) :
    store.isExhausted value = true := by
  refine Value.everyLeaf_mono (fun leaf hleaf => ?_) h
  cases leaf <;> first | rfl | cases hleaf

/-- A stream has run out if nothing remains in it. -/
@[simp] theorem Store.isExhausted_stream {stream : Handle .stream} :
    store.isExhausted (.stream stream) = true ↔ store.remaining stream = [] :=
  List.isEmpty_iff

/-- The streams in a sequence have run out if those in its items have. -/
@[simp] theorem Store.isExhausted_sequence {items : List Value} :
    store.isExhausted (.sequence items) = true ↔ ∀ item ∈ items, store.isExhausted item = true :=
  Value.everyLeaf_sequence

/-- The streams in a mapping have run out if those in its values have. -/
@[simp] theorem Store.isExhausted_mapping {entries : List (String × Value)} :
    store.isExhausted (.mapping entries) = true ↔
      ∀ value ∈ entries.map (·.2), store.isExhausted value = true := by
  rw [List.forall_mem_map]
  exact Value.everyLeaf_mapping

/-- Taking elements out of streams keeps those that have run out. -/
theorem Store.isExhausted_of_suffix
    (hsuffix : ∀ stream, after.remaining stream <:+ store.remaining stream)
    (h : store.isExhausted value = true) : after.isExhausted value = true := by
  refine Value.everyLeaf_mono (fun leaf hleaf => ?_) h
  cases leaf with
  | stream stream =>
    have hnil : store.remaining stream = [] := List.isEmpty_iff.mp hleaf
    have hsuffix := hsuffix stream
    rw [hnil] at hsuffix
    exact List.isEmpty_iff.mpr (List.suffix_nil.mp hsuffix)
  | _ => rfl

end Exhausted

section Flattening

variable {F : Handle .stream → StateM Store (List Value)}

/-- A stream is flattened to the sequence of what it gives. -/
theorem run_flattenWith_stream (stream : Handle .stream) (store : Store) :
    (flattenWith F (.stream stream)).run store =
      (.sequence ((F stream).run store).1, ((F stream).run store).2) := rfl

/-- A sequence is flattened item by item. -/
theorem run_flattenWith_sequence (items : List Value) (store : Store) :
    (flattenWith F (.sequence items)).run store =
      (.sequence ((flattenItemsWith F items).run store).1,
        ((flattenItemsWith F items).run store).2) := rfl

/-- Items are flattened from the first on. -/
theorem run_flattenItemsWith_cons (item : Value) (rest : List Value) (store : Store) :
    (flattenItemsWith F (item :: rest)).run store =
      (((flattenWith F item).run store).1 ::
        ((flattenItemsWith F rest).run ((flattenWith F item).run store).2).1,
        ((flattenItemsWith F rest).run ((flattenWith F item).run store).2).2) := rfl

/-- Flattening keeps the number of items. -/
theorem length_flattenItemsWith (items : List Value) (store : Store) :
    ((flattenItemsWith F items).run store).1.length = items.length := by
  induction items generalizing store with
  | nil => rfl
  | cons item rest ih => rw [run_flattenItemsWith_cons, List.length_cons, ih, List.length_cons]

/-- Flattening a mapping flattens its values in order. -/
theorem flattenMappingWith_eq (entries : List (String × Value)) :
    flattenMappingWith F entries = (do
      let flats ← flattenItemsWith F (entries.map (·.2))
      pure ((entries.map (·.1)).zip flats)) := by
  induction entries with
  | nil => rfl
  | cons entry rest ih =>
    rw [flattenMappingWith, ih]
    rfl

/-- A mapping is flattened as the sequence of its values, under the same keys. -/
theorem run_flattenWith_mapping (entries : List (String × Value)) (store : Store) :
    (flattenWith F (.mapping entries)).run store =
      (.mapping ((entries.map (·.1)).zip
        ((flattenItemsWith F (entries.map (·.2))).run store).1),
        ((flattenItemsWith F (entries.map (·.2))).run store).2) := by
  rw [flattenWith, flattenMappingWith_eq]
  rfl

end Flattening

/-- Whether a flat form is that of a value in exactly the stores where its streams have run out. -/
structure Blank (value flat : Value) : Prop where
  run_of_exhausted : ∀ (store : Store) (depth : Nat), store.isExhausted value = true →
    (flattenWith (flattenStream depth) value).run store = (flat, store)
  exhausted_of_eq : ∀ (store : Store) (depth : Nat),
    ((flattenWith (flattenStream (depth + 1)) value).run store).1 = flat →
    store.isExhausted value = true

/-- Whether flat forms are those of values in exactly the stores where the streams have run out. -/
structure BlankItems (items flats : List Value) : Prop where
  length_eq : flats.length = items.length
  run_of_exhausted : ∀ (store : Store) (depth : Nat),
    (∀ item ∈ items, store.isExhausted item = true) →
    (flattenItemsWith (flattenStream depth) items).run store = (flats, store)
  exhausted_of_eq : ∀ (store : Store) (depth : Nat),
    ((flattenItemsWith (flattenStream (depth + 1)) items).run store).1 = flats →
    ∀ item ∈ items, store.isExhausted item = true

section Blank

/-- A document is flat, whatever the store. -/
theorem blank_of_isDocument {value : Value} (h : value.isDocument = true) : Blank value value :=
  ⟨fun store depth _ => by rw [flattenWith_of_isInert (Value.isInert_of_isDocument h)]; rfl,
    fun store _ _ => store.isExhausted_of_isDocument h⟩

/-- A stream that has run out is flattened to no items. -/
theorem blank_stream (stream : Handle .stream) : Blank (.stream stream) (.sequence []) := by
  refine ⟨fun store depth hexhausted => ?_, fun store depth heq => ?_⟩
  · rw [run_flattenWith_stream, run_flattenStream_of_nil (isExhausted_stream.mp hexhausted)]
  · rw [run_flattenWith_stream, run_flattenStream_succ] at heq
    refine isExhausted_stream.mpr ?_
    rcases hpull : store.pull stream with ⟨_ | element, after⟩
    · exact (pull_none hpull).1
    · -- An element that is left shows in the flat form.
      rw [(pull_some hpull).1, List.length_cons, run_flattenPulled_of_some hpull] at heq
      cases heq

/-- Items that have run out are flattened one by one to what does not depend on the store. -/
theorem exists_blankItems {items : List Value} (h : ∀ item ∈ items, ∃ flat, Blank item flat) :
    ∃ flats, BlankItems items flats := by
  induction items with
  | nil => exact ⟨[], rfl, fun _ _ _ => rfl, fun _ _ _ => List.forall_mem_nil _⟩
  | cons item rest ih =>
    obtain ⟨⟨flat, hitem⟩, hothers⟩ := List.forall_mem_cons.mp h
    obtain ⟨flats, hrest⟩ := ih hothers
    refine ⟨flat :: flats, congrArg (· + 1) hrest.length_eq, fun store depth hexhausted => ?_,
      fun store depth heq => ?_⟩
    · obtain ⟨hfirst, hlater⟩ := List.forall_mem_cons.mp hexhausted
      rw [run_flattenItemsWith_cons, hitem.run_of_exhausted store depth hfirst,
        hrest.run_of_exhausted store depth hlater]
    · rw [run_flattenItemsWith_cons] at heq
      obtain ⟨hhead, htail⟩ := List.cons.inj heq
      have hfirst := hitem.exhausted_of_eq store depth hhead
      rw [hitem.run_of_exhausted store _ hfirst] at htail
      exact List.forall_mem_cons.mpr ⟨hfirst, hrest.exhausted_of_eq store depth htail⟩

/-- A sequence of items that have run out is flattened to what does not depend on the store. -/
theorem exists_blank_sequence {items : List Value} (h : ∀ item ∈ items, ∃ flat, Blank item flat) :
    ∃ flat, Blank (.sequence items) flat := by
  obtain ⟨flats, hflats⟩ := exists_blankItems h
  refine ⟨.sequence flats, fun store depth hexhausted => ?_, fun store depth heq => ?_⟩
  · rw [run_flattenWith_sequence,
      hflats.run_of_exhausted store depth (isExhausted_sequence.mp hexhausted)]
  · rw [run_flattenWith_sequence] at heq
    exact isExhausted_sequence.mpr
      (hflats.exhausted_of_eq store depth (Value.sequence.inj heq))

/-- A mapping of values that have run out is flattened to what does not depend on the store. -/
theorem exists_blank_mapping {entries : List (String × Value)}
    (h : ∀ entry ∈ entries, ∃ flat, Blank entry.2 flat) :
    ∃ flat, Blank (.mapping entries) flat := by
  obtain ⟨flats, hflats⟩ := exists_blankItems (List.forall_mem_map.mpr h)
  refine ⟨.mapping ((entries.map (·.1)).zip flats), fun store depth hexhausted => ?_,
    fun store depth heq => ?_⟩
  · rw [run_flattenWith_mapping,
      hflats.run_of_exhausted store depth (isExhausted_mapping.mp hexhausted)]
  · rw [run_flattenWith_mapping] at heq
    have hvalues := congrArg (List.map (·.2)) (Value.mapping.inj heq)
    have hlength := hflats.length_eq
    rw [List.map_snd_zip (by rw [length_flattenItemsWith]; simp),
      List.map_snd_zip (by rw [hlength]; simp)] at hvalues
    exact isExhausted_mapping.mpr (hflats.exhausted_of_eq store depth hvalues)

end Blank

variable {kinds : Value.Kind → Bool} {pairing : Pairing} {count : Nat}

/-- What evaluation makes of a document has a flat form that shows whether its streams have run
out. -/
theorem exists_blank {value part : Value} (h : Renamed kinds pairing count value part) :
    ∃ flat, Blank value flat := by
  cases h with
  | scalar hscalar hkind =>
    have hkinds : value.OfKinds kinds := .scalar hscalar hkind
    exact ⟨value, blank_of_isDocument hkinds.isDocument⟩
  | stream => exact ⟨_, blank_stream _⟩
  | sequence hitems =>
    refine exists_blank_sequence fun item hmem => ?_
    obtain ⟨part, hpart⟩ := exists_of_mem_forall₂ hitems hmem
    have hlt := Value.sizeOf_lt_of_mem_sequence hmem
    exact exists_blank hpart
  | mapping hentries =>
    refine exists_blank_mapping fun entry hmem => ?_
    obtain ⟨part, ⟨hpart⟩⟩ := exists_of_mem_forall₂ hentries hmem
    have hlt := Value.sizeOf_lt_of_mem_mapping hmem
    exact exists_blank hpart
  | dict hdict => exact ⟨_, blank_of_isDocument hdict.isDocument⟩
termination_by sizeOf value
decreasing_by all_goals assumption

section Drained

variable {limit : Nat} {store : Store}

/-- When items have been flattened their streams have run out, as no later item refills them. -/
theorem isExhausted_flattenItemsWith {items : List Value}
    (h : ∀ item ∈ items, ∀ store, totalRemaining store ≤ limit →
      ((flattenWith (flattenStream limit) item).run store).2.isExhausted item = true)
    (hlimit : store.totalRemaining ≤ limit) :
    ∀ item ∈ items,
      ((flattenItemsWith (flattenStream limit) items).run store).2.isExhausted item = true := by
  induction items generalizing store with
  | nil => exact List.forall_mem_nil _
  | cons item rest ih =>
    obtain ⟨hitem, hothers⟩ := List.forall_mem_cons.mp h
    have hstream := flattening_flattens.flattenStream limit
    have hfirst := flattening_flattens.flattenWith hstream item store hlimit
    have hfewer := Nat.le_trans hfirst.fewer hlimit
    have hrest := flattening_flattens.flattenItemsWith hstream rest _ hfewer
    rw [run_flattenItemsWith_cons]
    exact List.forall_mem_cons.mpr
      ⟨isExhausted_of_suffix hrest.suffix (hitem store hlimit), ih hothers hfewer⟩

/-- Pulling takes every element, whatever is made of the elements on the way. -/
theorem remaining_flattenPulled {flat : Value → StateM Store Value} {stream : Handle .stream}
    (hflat : ∀ value store, totalRemaining store ≤ limit →
      Flattens store ((flat value).run store).2 [value] [((flat value).run store).1])
    {pulls : Nat} (hpulls : (store.remaining stream).length ≤ pulls)
    (hlimit : store.totalRemaining ≤ limit + 1) :
    ((flattenPulled flat stream pulls).run store).2.remaining stream = [] := by
  induction pulls generalizing store with
  | zero => exact List.length_eq_zero_iff.mp (Nat.le_zero.mp hpulls)
  | succ pulls ih =>
    rcases hpull : store.pull stream with ⟨_ | element, middle⟩
    · obtain ⟨hnil, rfl⟩ := pull_none hpull
      rw [run_flattenPulled_of_none hpull]
      exact hnil
    · obtain ⟨hremaining, _, htotal, _⟩ := pull_some hpull
      have helement := hflat element middle (by omega)
      have hlength := (helement.suffix stream).length_le
      have hfewer := helement.fewer
      rw [hremaining, List.length_cons] at hpulls
      rw [run_flattenPulled_of_some hpull]
      exact ih (by omega) (by omega)

/-- A value that has been flattened has no elements left in its streams. -/
theorem isExhausted_flattenWith {limit : Nat} {store : Store} {value part : Value}
    (h : Renamed kinds pairing count value part) (hlimit : store.totalRemaining ≤ limit) :
    ((flattenWith (flattenStream limit) value).run store).2.isExhausted value = true := by
  cases h with
  | scalar hscalar hkind =>
    have hkinds : value.OfKinds kinds := .scalar hscalar hkind
    exact isExhausted_of_isDocument _ hkinds.isDocument
  | @stream stream other =>
    rw [run_flattenWith_stream, isExhausted_stream]
    cases limit with
    | zero => exact remaining_eq_nil (Nat.le_zero.mp hlimit) stream
    | succ limit =>
      have hstream := flattening_flattens.flattenStream limit
      rw [run_flattenStream_succ]
      exact remaining_flattenPulled (flattening_flattens.flattenWith hstream) (Nat.le_refl _) hlimit
  | sequence hitems =>
    rw [run_flattenWith_sequence, isExhausted_sequence]
    refine isExhausted_flattenItemsWith (fun item hmem store hlimit => ?_) hlimit
    obtain ⟨part, hpart⟩ := exists_of_mem_forall₂ hitems hmem
    have hlt := Value.sizeOf_lt_of_mem_sequence hmem
    exact isExhausted_flattenWith hpart hlimit
  | mapping hentries =>
    rw [run_flattenWith_mapping, isExhausted_mapping]
    refine isExhausted_flattenItemsWith ?_ hlimit
    refine List.forall_mem_map.mpr fun entry hmem store hlimit => ?_
    obtain ⟨part, ⟨hpart⟩⟩ := exists_of_mem_forall₂ hentries hmem
    have hlt := Value.sizeOf_lt_of_mem_mapping hmem
    exact isExhausted_flattenWith hpart hlimit
  | dict hdict => exact isExhausted_of_isDocument _ hdict.isDocument
termination_by sizeOf value
decreasing_by all_goals assumption

/-- A pair of one value twice flattens to a pair of equals only if the streams in it have run
out. -/
theorem isExhausted_of_flatten_pair {value part flat : Value}
    (h : Renamed kinds pairing count value part) (hflat : ((flatten value).run store).1 = flat)
    (hpair : ((flatten (.sequence [value, value])).run store).1 = .sequence [flat, flat]) :
    store.isExhausted value = true := by
  obtain ⟨blank, hblank⟩ := exists_blank h
  have hdrained := isExhausted_flattenWith h (Nat.le_succ store.totalRemaining)
  rw [run_flatten, run_flattenWith_sequence, run_flattenItemsWith_cons,
    run_flattenItemsWith_cons] at hpair
  -- The streams have run out when the value is met again, so the second flat form is blank.
  rw [hblank.run_of_exhausted _ _ hdrained] at hpair
  obtain ⟨_, hrest⟩ := List.cons.inj (Value.sequence.inj hpair)
  exact hblank.exhausted_of_eq store store.totalRemaining (hflat.trans (List.cons.inj hrest).1.symm)

end Drained

end Sluice
