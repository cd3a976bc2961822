import Sluice.Filter.Compiled
import Sluice.Proofs.Eval.Actions
import Sluice.Proofs.Store.Release

/-!
# The streams in a flat value

Flattening replaces the streams that lie in items, in the values of entries and in the elements of
other streams. The keys of dicts it leaves as they are. So the streams in a flat value are those
that lay in the key of a dict, wherever the dict lay (`Store.contains_flatten_iff`), and the same
holds of what a filter hands out (`contains_flat_iff_inKey`).
-/

namespace Sluice

/-- Whether a stream lies in a value, as an item of a sequence, the value of an entry, the key of a
dict, or inside one of them. What a stream holds does not lie in the value. -/
inductive Value.Contains (stream : Handle .stream) : Value → Prop
  | self : Contains stream (.stream stream)
  | item {items : List Value} {item : Value} :
      item ∈ items → Contains stream item → Contains stream (.sequence items)
  | entry {entries : List (String × Value)} {entry : String × Value} :
      entry ∈ entries → Contains stream entry.2 → Contains stream (.mapping entries)
  | dictKey {entries : List (Value × Value)} {entry : Value × Value} :
      entry ∈ entries → Contains stream entry.1 → Contains stream (.dict entries)
  | dictValue {entries : List (Value × Value)} {entry : Value × Value} :
      entry ∈ entries → Contains stream entry.2 → Contains stream (.dict entries)

namespace Store

/-- Whether a stream lies in the key of a dict that is met in a value or in the elements of the
streams in it. -/
inductive InKey (store : Store) (stream : Handle .stream) : Value → Prop
  | key {entries : List (Value × Value)} {entry : Value × Value} :
      entry ∈ entries → entry.1.Contains stream → InKey store stream (.dict entries)
  | item {items : List Value} {item : Value} :
      item ∈ items → InKey store stream item → InKey store stream (.sequence items)
  | entry {entries : List (String × Value)} {entry : String × Value} :
      entry ∈ entries → InKey store stream entry.2 → InKey store stream (.mapping entries)
  | dictValue {entries : List (Value × Value)} {entry : Value × Value} :
      entry ∈ entries → InKey store stream entry.2 → InKey store stream (.dict entries)
  | element {holder : Handle .stream} {element : Value} :
      element ∈ store.remaining holder → InKey store stream element →
      InKey store stream (.stream holder)

section Inversion

variable {store : Store} {stream : Handle .stream}

/-- A stream contains itself and no other. -/
@[simp] theorem contains_stream_iff {holder : Handle .stream} :
    (Value.stream holder).Contains stream ↔ stream = holder := by
  constructor
  · rintro ⟨⟩
    rfl
  · rintro rfl
    exact .self

/-- No stream lies in a key in an integer. -/
@[simp] theorem not_inKey_int {n : Int64} : ¬ store.InKey stream (.int n) := nofun

/-- A sequence contains what its items contain. -/
@[simp] theorem contains_sequence_iff {items : List Value} :
    (Value.sequence items).Contains stream ↔ ∃ item ∈ items, item.Contains stream := by
  constructor
  · rintro (_ | ⟨hmem, hitem⟩)
    exact ⟨_, hmem, hitem⟩
  · rintro ⟨item, hmem, hitem⟩
    exact .item hmem hitem

/-- A mapping contains what its values contain. -/
@[simp] theorem contains_mapping_iff {entries : List (String × Value)} :
    (Value.mapping entries).Contains stream ↔ ∃ entry ∈ entries, entry.2.Contains stream := by
  constructor
  · rintro (_ | _ | ⟨hmem, hentry⟩)
    exact ⟨_, hmem, hentry⟩
  · rintro ⟨entry, hmem, hentry⟩
    exact .entry hmem hentry

/-- A dict contains what its keys and values contain. -/
@[simp] theorem contains_dict_iff {entries : List (Value × Value)} :
    (Value.dict entries).Contains stream ↔
      ∃ entry ∈ entries, entry.1.Contains stream ∨ entry.2.Contains stream := by
  constructor
  · rintro (_ | _ | _ | ⟨hmem, hentry⟩ | ⟨hmem, hentry⟩)
    · exact ⟨_, hmem, Or.inl hentry⟩
    · exact ⟨_, hmem, Or.inr hentry⟩
  · rintro ⟨entry, hmem, hentry | hentry⟩
    · exact .dictKey hmem hentry
    · exact .dictValue hmem hentry

/-- What lies in keys in a sequence lies in keys in its items. -/
@[simp] theorem inKey_sequence_iff {items : List Value} :
    store.InKey stream (.sequence items) ↔ ∃ item ∈ items, store.InKey stream item := by
  constructor
  · rintro (_ | ⟨hmem, hitem⟩)
    exact ⟨_, hmem, hitem⟩
  · rintro ⟨item, hmem, hitem⟩
    exact .item hmem hitem

/-- What lies in keys in a mapping lies in keys in its values. -/
@[simp] theorem inKey_mapping_iff {entries : List (String × Value)} :
    store.InKey stream (.mapping entries) ↔ ∃ entry ∈ entries, store.InKey stream entry.2 := by
  constructor
  · rintro (_ | _ | ⟨hmem, hentry⟩)
    exact ⟨_, hmem, hentry⟩
  · rintro ⟨entry, hmem, hentry⟩
    exact .entry hmem hentry

/-- What lies in keys in a dict lies in its own keys, or in keys in its values. -/
@[simp] theorem inKey_dict_iff {entries : List (Value × Value)} :
    store.InKey stream (.dict entries) ↔
      ∃ entry ∈ entries, entry.1.Contains stream ∨ store.InKey stream entry.2 := by
  constructor
  · rintro (⟨hmem, hkey⟩ | _ | _ | ⟨hmem, hvalue⟩)
    · exact ⟨_, hmem, Or.inl hkey⟩
    · exact ⟨_, hmem, Or.inr hvalue⟩
  · rintro ⟨entry, hmem, hkey | hvalue⟩
    · exact .key hmem hkey
    · exact .dictValue hmem hvalue

/-- What lies in keys in a stream lies in keys in its remaining elements. -/
@[simp] theorem inKey_stream_iff {holder : Handle .stream} :
    store.InKey stream (.stream holder) ↔
      ∃ element ∈ store.remaining holder, store.InKey stream element := by
  constructor
  · rintro (_ | _ | _ | _ | ⟨hmem, helement⟩)
    exact ⟨_, hmem, helement⟩
  · rintro ⟨element, hmem, helement⟩
    exact .element hmem helement

end Inversion

/-- Where streams have lost elements from the front, nothing has got into keys. -/
theorem InKey.of_suffix {store after : Store} {stream : Handle .stream} {value : Value}
    (hkey : after.InKey stream value)
    (h : ∀ holder, after.remaining holder <:+ store.remaining holder) :
    store.InKey stream value := by
  induction hkey with
  | key hmem hkey => exact .key hmem hkey
  | item hmem _ ih => exact .item hmem ih
  | entry hmem _ ih => exact .entry hmem ih
  | dictValue hmem _ ih => exact .dictValue hmem ih
  | element hmem _ ih => exact .element ((h _).subset hmem) ih

/-- After a pull, what lay in a key still does, or it lies in a key in the element pulled. -/
theorem InKey.of_pull {store middle : Store} {holder stream : Handle .stream} {value part : Value}
    (hpull : store.pull holder = (some value, middle)) (hkey : store.InKey stream part) :
    middle.InKey stream part ∨ middle.InKey stream value := by
  obtain ⟨hremaining, hother, _, _⟩ := pull_some hpull
  induction hkey with
  | key hmem hkey => exact Or.inl (.key hmem hkey)
  | item hmem _ ih => exact ih.imp_left (.item hmem)
  | entry hmem _ ih => exact ih.imp_left (.entry hmem)
  | dictValue hmem _ ih => exact ih.imp_left (.dictValue hmem)
  | @element other element hmem _ ih =>
    rcases ih with hkey | hvalue
    · by_cases heq : other = holder
      · subst heq
        rw [hremaining] at hmem
        rcases List.mem_cons.mp hmem with rfl | hrest
        · exact Or.inr hkey
        · exact Or.inl (.element hrest hkey)
      · exact Or.inl (.element (hother other heq ▸ hmem) hkey)
    · exact Or.inr hvalue

/-- What flattening leaves: streams lose elements from the front, and the flat values contain what
lay in keys in the values, with all that no longer lies in keys elsewhere. -/
structure Leaves (store after : Store) (values flats : List Value) : Prop where
  suffix : ∀ holder, after.remaining holder <:+ store.remaining holder
  fewer : after.totalRemaining ≤ store.totalRemaining
  keeps : ∀ stream value, store.InKey stream value →
    after.InKey stream value ∨ (Value.sequence flats).Contains stream
  contains_iff : ∀ stream,
    (Value.sequence flats).Contains stream ↔ store.InKey stream (.sequence values)

namespace Leaves

variable {store middle after : Store} {values flats others otherFlats : List Value}

/-- No value leaves no flat value. -/
theorem nil (store : Store) : Leaves store store [] [] :=
  ⟨fun _ => List.suffix_refl _, Nat.le_refl _, fun _ _ => Or.inl, fun _ => by simp⟩

/-- A value without parts that is no stream stays as it is. -/
theorem atom {value : Value} (hcontains : ∀ stream, ¬ value.Contains stream)
    (hkey : ∀ stream, ¬ store.InKey stream value) : Leaves store store [value] [value] :=
  ⟨fun _ => List.suffix_refl _, Nat.le_refl _, fun _ _ => Or.inl, fun stream => by
    simp [hcontains, hkey]⟩

/-- The values may be described by others with the same streams in them. -/
theorem congr (h : Leaves store after values flats)
    (hvalues : ∀ stream, store.InKey stream (.sequence values) ↔
      store.InKey stream (.sequence others))
    (hflats : ∀ stream, (Value.sequence flats).Contains stream ↔
      (Value.sequence otherFlats).Contains stream) : Leaves store after others otherFlats :=
  ⟨h.suffix, h.fewer,
    fun stream value hkey => (h.keeps stream value hkey).imp_right (hflats stream).mp,
    fun stream => by rw [← hflats, h.contains_iff, hvalues]⟩

/-- A compound is flattened by flattening its parts. -/
theorem wrap {value flat : Value} (h : Leaves store after values flats)
    (hvalue : ∀ stream, store.InKey stream value ↔ store.InKey stream (.sequence values))
    (hflat : ∀ stream, flat.Contains stream ↔ (Value.sequence flats).Contains stream) :
    Leaves store after [value] [flat] :=
  h.congr (fun stream => by simp [← hvalue]) fun stream => by simp [← hflat]

/-- An entry of a dict is flattened by flattening its value. -/
theorem entry {key value flat : Value} (h : Leaves store after [value] [flat]) :
    Leaves store after [.dict [(key, value)]] [.dict [(key, flat)]] := by
  have hcontains (stream : Handle .stream) :
      flat.Contains stream ↔ store.InKey stream value := by
    simpa using h.contains_iff stream
  refine ⟨h.suffix, h.fewer, fun stream part hpart => ?_, fun stream => by simp [hcontains]⟩
  rcases h.keeps stream part hpart with hafter | hflat
  · exact Or.inl hafter
  · have hvalue : flat.Contains stream := by simpa using hflat
    exact Or.inr (by simp [hvalue])

/-- Flattening in order leaves what flattening each of the values leaves. -/
theorem append (h : Leaves store middle values flats)
    (hnext : Leaves middle after others otherFlats) :
    Leaves store after (values ++ others) (flats ++ otherFlats) := by
  have hflats (stream : Handle .stream) : (Value.sequence (flats ++ otherFlats)).Contains stream ↔
      (Value.sequence flats).Contains stream ∨ (Value.sequence otherFlats).Contains stream := by
    simp [or_and_right, exists_or]
  have hvalues (stream : Handle .stream) : store.InKey stream (.sequence (values ++ others)) ↔
      store.InKey stream (.sequence values) ∨ store.InKey stream (.sequence others) := by
    simp [or_and_right, exists_or]
  refine ⟨fun holder => (hnext.suffix holder).trans (h.suffix holder),
    Nat.le_trans hnext.fewer h.fewer, fun stream value hkey => ?_, fun stream => ?_⟩
  · rw [hflats]
    rcases h.keeps stream value hkey with hmiddle | hfirst
    · exact (hnext.keeps stream value hmiddle).imp_right Or.inr
    · exact Or.inr (Or.inl hfirst)
  · rw [hflats, hvalues, h.contains_iff, hnext.contains_iff]
    constructor
    · exact Or.imp_right fun hkey => hkey.of_suffix h.suffix
    · rintro (hfirst | hsecond)
      · exact Or.inl hfirst
      · rcases h.keeps stream _ hsecond with hmiddle | hfirst
        · exact Or.inr hmiddle
        · exact Or.inl ((h.contains_iff stream).mp hfirst)

/-- An element that is pulled and then flattened is flattened. -/
theorem of_pull {holder : Handle .stream} {value flat : Value}
    (hpull : store.pull holder = (some value, middle)) (h : Leaves middle after [value] [flat]) :
    Leaves store after [value] [flat] := by
  have hdrains := Drains.of_pull hpull
  have hcontains (stream : Handle .stream) :
      (Value.sequence [flat]).Contains stream ↔ middle.InKey stream value := by
    rw [h.contains_iff]
    simp
  have hvalue (stream : Handle .stream) : middle.InKey stream value ↔ store.InKey stream value :=
    ⟨fun hkey => hkey.of_suffix hdrains.suffix,
      fun hkey => or_self_iff.mp (hkey.of_pull hpull)⟩
  refine ⟨fun other => (h.suffix other).trans (hdrains.suffix other),
    Nat.le_trans h.fewer hdrains.fewer, fun stream part hkey => ?_, fun stream => ?_⟩
  · rcases hkey.of_pull hpull with hmiddle | hpulled
    · exact h.keeps stream part hmiddle
    · exact Or.inr ((hcontains stream).mpr hpulled)
  · rw [hcontains, hvalue]
    simp

end Leaves

section Parts

variable {store : Store} {stream : Handle .stream}

/-- A mapping contains what a sequence of its values contains. -/
theorem contains_mapping_iff_sequence {entries : List (String × Value)} :
    (Value.mapping entries).Contains stream ↔
      (Value.sequence (entries.map (·.2))).Contains stream := by
  simp only [contains_mapping_iff, contains_sequence_iff, List.mem_map, exists_exists_and_eq_and]

/-- What lies in keys in a mapping lies in keys in a sequence of its values. -/
theorem inKey_mapping_iff_sequence {entries : List (String × Value)} :
    store.InKey stream (.mapping entries) ↔
      store.InKey stream (.sequence (entries.map (·.2))) := by
  simp only [inKey_mapping_iff, inKey_sequence_iff, List.mem_map, exists_exists_and_eq_and]

/-- A dict contains what dicts of its single entries contain. -/
theorem contains_dict_iff_sequence {entries : List (Value × Value)} :
    (Value.dict entries).Contains stream ↔
      (Value.sequence (singleDicts entries)).Contains stream := by
  simp [singleDicts]

/-- What lies in keys in a dict lies in keys in dicts of its single entries. -/
theorem inKey_dict_iff_sequence {entries : List (Value × Value)} :
    store.InKey stream (.dict entries) ↔
      store.InKey stream (.sequence (singleDicts entries)) := by
  simp [singleDicts]

end Parts

/-- An element that was pulled leaves its flat form before that of the rest. -/
theorem Leaves.pulled {store middle next after : Store} {holder : Handle .stream}
    {value flat : Value} {flats : List Value} (hpull : store.pull holder = (some value, middle))
    (hvalue : Leaves middle next [value] [flat])
    (hrest : Leaves next after [.stream holder] flats) :
    Leaves store after [.stream holder] (flat :: flats) := by
  obtain ⟨hremaining, _, _, _⟩ := pull_some hpull
  refine ((hvalue.of_pull hpull).append hrest).congr (fun stream => ?_) fun stream => Iff.rfl
  -- The rest of the elements lies in the stream, whether it is looked at before or after.
  simp only [List.cons_append, List.nil_append, inKey_sequence_iff, List.mem_cons,
    exists_eq_or_imp, List.not_mem_nil, or_false, exists_eq_left, inKey_stream_iff, hremaining]
  tauto

/-- All that flattening does leaves the streams in keys where they are. -/
theorem flattening_leaves : Flattening Leaves where
  suffix h := h.suffix
  fewer h := h.fewer
  nil := .nil
  atom _ value hatom := by
    refine .atom (fun stream hcontains => hatom ?_) fun stream hkey => hatom ?_
    · cases hcontains <;> exact trivial
    · cases hkey <;> exact trivial
  append := .append
  sequence h := h.wrap (fun _ => Iff.rfl) fun _ => Iff.rfl
  mapping h := h.wrap (fun _ => inKey_mapping_iff_sequence) fun _ => contains_mapping_iff_sequence
  entry _ h := h.entry
  dict h := h.wrap (fun _ => inKey_dict_iff_sequence) fun _ => contains_dict_iff_sequence
  stream h := h.wrap (fun stream => by simp) fun _ => Iff.rfl
  exhausted {store} _ hnil :=
    (Leaves.nil store).congr (fun stream => by simp [hnil]) fun _ => Iff.rfl
  pulled := .pulled

/-- The streams in the flat form of a value are those that lay in a key in the value. -/
theorem contains_flatten_iff (value : Value) (store : Store) (stream : Handle .stream) :
    ((flatten value).run store).1.Contains stream ↔ store.InKey stream value := by
  simpa using (flattening_leaves.flatten value store).contains_iff stream

end Store

open Sluice.Filter

/-- A run that succeeds hands out the flat form of what its last stage gives. -/
theorem Evaluator.exists_last_of_continueRun {evaluator : Evaluator} {program : Program}
    {value result : Value} {store after : Store}
    (h : evaluator.continueRun program value store = some (.ok result, after)) :
    ∃ last atEnd, (evaluator.thread program value).run store = some (.ok last, atEnd) ∧
      (flatten last).run atEnd = (result, after) := by
  induction program generalizing value store with
  | nil =>
    cases h
    exact ⟨value, store, rfl, rfl⟩
  | cons node rest ih =>
    simp only [continueRun] at h
    rcases hnode : (evaluator.apply node value).run store with
      _ | ⟨error | next, middle⟩ <;> rw [hnode] at h
    · cases h
    · cases h
    · obtain ⟨last, atEnd, hrest, hflat⟩ := ih h
      refine ⟨last, atEnd, ?_, hflat⟩
      rw [thread, Computation.run_bind_of_ok hnode]
      exact hrest

/-- A successful run ends by flattening what the last stage has made. -/
theorem Evaluator.exists_last_of_run {evaluator : Evaluator} {program : Program}
    {input result : Value} {store after : Store}
    (h : evaluator.run program input store = some (.ok result, after)) :
    ∃ last atEnd, (evaluator.thread program input).run store = some (.ok last, atEnd) ∧
      (flatten last).run atEnd = (result, after) := by
  cases program with
  | nil => exact exists_last_of_continueRun h
  | cons node rest =>
    have hrun : evaluator.continueRun (node :: rest) input store = some (.ok result, after) := by
      simp only [run] at h
      simp only [continueRun]
      rcases hnode : (evaluator.apply node input).run store with
        _ | ⟨error | next, middle⟩ <;> rw [hnode] at h
      · cases h
      · cases h
      · exact h
    exact exists_last_of_continueRun hrun

/-- The evaluator for one application of a filter at a reading of the clock. -/
def Filter.evaluator (filter : Filter) (context : Context) (now : Nat) : Evaluator :=
  filter.options.evaluator <|
    match filter.options.timeout with
    | none => context
    | some timeout => context.withTimeout now timeout

/-- A filter is applied by running its program, with a timeout counted from now. -/
theorem Filter.apply_eq_run (filter : Filter) (context : Context) (input : Value) (store : Store) :
    filter.apply context input store =
      (filter.evaluator context store.now).run filter.program input store := rfl

/-- The streams in the flat form of a value are those that lay in the key of a dict in the value,
and the streams in what a filter makes of it are those that lay so in what the last stage gave.
There are no others, at any depth. -/
theorem contains_flat_iff_inKey (value : Value) (store : Store) :
    (∀ stream, ((flatten value).run store).1.Contains stream ↔ store.InKey stream value) ∧
    ∀ (filter : Filter) (context : Context) (result : Value) (after : Store),
      filter.apply context value store = some (.ok result, after) →
      ∃ last atEnd,
        ((filter.evaluator context store.now).thread filter.program value).run store =
          some (.ok last, atEnd) ∧
        (flatten last).run atEnd = (result, after) ∧
        ∀ stream, result.Contains stream ↔ atEnd.InKey stream last := by
  refine ⟨Store.contains_flatten_iff value store, fun filter context result after hrun => ?_⟩
  rw [filter.apply_eq_run] at hrun
  obtain ⟨last, atEnd, hthread, hflat⟩ := Evaluator.exists_last_of_run hrun
  refine ⟨last, atEnd, hthread, hflat, fun stream => ?_⟩
  have hcontains := Store.contains_flatten_iff last atEnd stream
  rwa [hflat] at hcontains

/-- The store with streams of the given elements. -/
def Store.ofStreams (elements : List (List Value)) : Store where
  streams := ⟨(elements.map fun values => ⟨.values, values⟩).toArray⟩

/-- `.` flattens a stream inside a stream and the value of a dict, but not the key. -/
theorem contains_flat_iff_inKey_of_nested_streams :
    let store := Store.ofStreams [[.stream ⟨1⟩], [.int 5], [.int 1], [.int 2]]
    let input : Value := .sequence [.stream ⟨0⟩, .dict [(.stream ⟨2⟩, .stream ⟨3⟩)]]
    ∃ result after,
      Filter.apply ⟨".", [.identity], {}⟩ .background input store = some (.ok result, after) ∧
      ∀ stream, result.Contains stream ↔ stream = ⟨2⟩ := by
  intro store input
  have hrun : Filter.apply ⟨".", [.identity], {}⟩ .background input store =
      some (.ok (.sequence [.sequence [.sequence [.int 5]],
        .dict [(.stream ⟨2⟩, .sequence [.int 2])]]), _) := rfl
  obtain ⟨last, atEnd, hthread, _, hcontains⟩ :=
    (contains_flat_iff_inKey input store).2 _ _ _ _ hrun
  cases hthread
  refine ⟨_, _, hrun, fun stream => ?_⟩
  have houter : store.remaining ⟨0⟩ = [.stream ⟨1⟩] := rfl
  have hinner : store.remaining ⟨1⟩ = [.int 5] := rfl
  have hvalue : store.remaining ⟨3⟩ = [.int 2] := rfl
  rw [hcontains]
  simp [input, houter, hinner, hvalue]

/-- `.` hands out the stream that is the key of a dict. -/
theorem exists_stream_in_result :
    let input : Value := .dict [(.stream ⟨0⟩, .int 1)]
    ∃ result after,
      Filter.apply ⟨".", [.identity], {}⟩ .background input (.ofStreams [[.int 1, .int 2]]) =
        some (.ok result, after) ∧
      result.Contains ⟨0⟩ :=
  ⟨_, _, rfl, .dictKey (List.mem_singleton_self _) .self⟩

end Sluice
