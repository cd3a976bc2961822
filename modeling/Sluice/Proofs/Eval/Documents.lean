import Sluice.Proofs.Eval.Tracing
import Sluice.Proofs.Eval.Transparency

/-!
# Filters on documents

A document holds no handles, so what a filter that never iterates makes of it does not depend on the
store and does not change the store: under the background context there is one outcome for each
filter and each document, and a result is a document again (`Evaluator.fixed_apply`).
-/

namespace Sluice

open Sluice.Action Sluice.Filter

mutual

/-- Whether `.[]` occurs in a node, at any depth. -/
def Filter.Node.iterates : Node → Bool
  | .iterate => true
  | .binary left _ right => left.iterates || right.iterates
  | .chain nodes | .array nodes | .pipeline nodes => Filter.anyIterates nodes
  | .object entries => Filter.anyEntryIterates entries
  | .text _ | .number _ | .length | .identity | .key _ | .index _ | .range _ => false

/-- Whether `.[]` occurs in one of several nodes. -/
def Filter.anyIterates : List Node → Bool
  | [] => false
  | node :: nodes => node.iterates || Filter.anyIterates nodes

/-- Whether `.[]` occurs in the value of one of several entries. -/
def Filter.anyEntryIterates : List (String × Node) → Bool
  | [] => false
  | (_, node) :: entries => node.iterates || Filter.anyEntryIterates entries

end

/-- Whether an action ends in one way from every store and leaves the store as it is, with a result
that has a property if it has one. -/
def Fixed {α : Type} (holds : α → Prop) (action : Action α) : Prop :=
  ∃ outcome, (∀ store, action.run store = some (outcome, store)) ∧ ∀ a, outcome = .ok a → holds a

/-- Whether an action has a certain result from every store and leaves the store as it is. -/
def Gives {α : Type} (action : Action α) (a : α) : Prop :=
  ∀ store, action.run store = some (.ok a, store)

/-- An action gives one result. -/
theorem Gives.unique {α : Type} {action : Action α} {a b : α} (h : Gives action a)
    (hother : Gives action b) : a = b := by
  simpa [h {}] using hother {}

namespace Fixed

variable {α β : Type} {holds : α → Prop} {action : Action α}

/-- Doing nothing ends in one way. -/
theorem pure {a : α} (h : holds a) : Fixed holds (Pure.pure a) :=
  ⟨.ok a, fun _ => rfl, by rintro _ ⟨⟩; exact h⟩

/-- Failing at once ends in one way. -/
theorem throw (error : EvalError) : Fixed holds (MonadExcept.throw error) :=
  ⟨.error error, fun _ => rfl, by rintro _ ⟨⟩⟩

/-- A result that is known ends in one way. -/
theorem ofExcept {result : Except EvalError α} (h : ∀ a, result = .ok a → holds a) :
    Fixed holds (MonadExcept.ofExcept result) :=
  ⟨result, fun store => Computation.run_ofExcept result store, h⟩

/-- Actions that end in one way do so one after the other. -/
theorem bind {property : β → Prop} {next : α → Action β} (h : Fixed holds action)
    (hnext : ∀ a, holds a → Fixed property (next a)) : Fixed property (action >>= next) := by
  obtain ⟨outcome, hrun, hholds⟩ := h
  cases outcome with
  | error error =>
    refine ⟨.error error, fun store => ?_, by rintro _ ⟨⟩⟩
    rw [Computation.run_bind, hrun]
    rfl
  | ok a =>
    obtain ⟨outcome, hrest, hproperty⟩ := hnext a (hholds a rfl)
    exact ⟨outcome, fun store => (Computation.run_bind_of_ok (hrun store) next).trans (hrest store),
      hproperty⟩

/-- An action that runs as one that ends in one way does so as well. -/
theorem congr {other : Action α} (h : Fixed holds action)
    (heq : ∀ store, other.run store = action.run store) : Fixed holds other := by
  obtain ⟨outcome, hrun, hholds⟩ := h
  exact ⟨outcome, fun store => (heq store).trans (hrun store), hholds⟩

/-- What a fixed action gives from one store, it gives from every store. -/
theorem gives_of_run (h : Fixed holds action) {store after : Store} {a : α}
    (hrun : action.run store = some (.ok a, after)) : Gives action a ∧ holds a := by
  obtain ⟨outcome, hfound, hholds⟩ := h
  obtain ⟨rfl, -⟩ : outcome = .ok a ∧ store = after := by simpa [hfound] using hrun
  exact ⟨hfound, hholds a rfl⟩

/-- What a fixed action and another after it give, is given by each on its own. -/
theorem exists_gives_of_bind {next : α → Action β} {b : β} (h : Fixed holds action)
    (hgives : Gives (action >>= next) b) :
    ∃ a, Gives action a ∧ holds a ∧ Gives (next a) b := by
  obtain ⟨a, _, hrun, _⟩ := Computation.run_bind_eq_ok (hgives {})
  obtain ⟨ha, hholds⟩ := h.gives_of_run hrun
  exact ⟨a, ha, hholds, fun store => Computation.run_bind_of_ok (ha store) next ▸ hgives store⟩

end Fixed

/-- There is nothing to close in documents. -/
theorem releaseAll_of_isDocument {values : List Value}
    (h : ∀ value ∈ values, value.isDocument = true) (store : Store) :
    releaseAll values store = store := by
  induction values with
  | nil => rfl
  | cons value values ih =>
    obtain ⟨hvalue, hvalues⟩ := List.forall_mem_cons.mp h
    have hrelease : release value store = store := by
      rw [release, releaseWith_of_isInert (Value.isInert_of_isDocument hvalue)]
      rfl
    have hrest : releaseAll (value :: values) store = releaseAll values (release value store) := rfl
    rw [hrest, hrelease, ih hvalues]

/-- Documents that are released on a failure leave the store as it is. -/
theorem Fixed.orRelease {α : Type} {holds : α → Prop} {action : Action α} {values : List Value}
    (h : Fixed holds action) (hvalues : ∀ value ∈ values, value.isDocument = true) :
    Fixed holds (action.orRelease values) := by
  refine h.congr fun store => ?_
  obtain ⟨outcome, hrun, -⟩ := h
  cases outcome <;> simp [Action.orRelease, Action.onError, hrun, releaseAll_of_isDocument hvalues]

namespace Value

variable {value : Value}

/-- A document is no link. -/
theorem ne_link_of_isDocument (h : value.isDocument = true) (link : Handle .link) :
    value ≠ .link link := by
  rintro rfl
  cases h

/-- A document is no stream. -/
theorem ne_stream_of_isDocument (h : value.isDocument = true) (stream : Handle .stream) :
    value ≠ .stream stream := by
  rintro rfl
  cases h

/-- A sequence is a document if its items are. -/
theorem isDocument_sequence_iff {items : List Value} :
    (Value.sequence items).isDocument = true ↔ ∀ item ∈ items, item.isDocument = true :=
  everyLeaf_sequence

/-- A mapping is a document if its values are. -/
theorem isDocument_mapping_iff {entries : List (String × Value)} :
    (Value.mapping entries).isDocument = true ↔ ∀ entry ∈ entries, entry.2.isDocument = true :=
  everyLeaf_mapping

end Value

namespace Evaluator

variable {evaluator : Evaluator} {input : Value}

/-- Asking the background context ends in one way. -/
theorem fixed_check (hbackground : evaluator.context = .background) :
    Fixed (fun _ => True) evaluator.check :=
  ⟨.ok (), fun _ => run_check_of_ok (by rw [hbackground]; rfl), fun _ _ => trivial⟩

/-- Passing over an input that is not supported ends in one way. -/
theorem fixed_unsupported (operation : Operation) (input : Value) :
    Fixed (·.isDocument = true) (evaluator.unsupported operation input) := by
  unfold unsupported
  split
  · exact .pure rfl
  · exact .throw _

/-- Selecting an index from a document ends in one way. -/
theorem fixed_selectIndex (position : Int64) (h : input.isDocument = true) :
    Fixed (·.isDocument = true) (evaluator.selectIndex position input) := by
  unfold selectIndex
  rw [Traced.resolve_of_ne_link (Value.ne_link_of_isDocument h), pure_bind]
  cases input with
  | sequence items =>
    exact .ofExcept fun item hitem => Value.isDocument_sequence_iff.mp h item (mem_of_select hitem)
  | text s =>
    refine .ofExcept fun item hitem => ?_
    obtain ⟨c, rfl⟩ := exists_of_map_eq_ok hitem
    rfl
  | bytes content =>
    refine .ofExcept fun item hitem => ?_
    obtain ⟨b, rfl⟩ := exists_of_map_eq_ok hitem
    rfl
  | link | map | array | iterator | byteStream | stream => cases h
  | _ => exact fixed_unsupported _ _

/-- Selecting a range from a document ends in one way. -/
theorem fixed_selectRange (range : Filter.Range) (h : input.isDocument = true) :
    Fixed (·.isDocument = true) (evaluator.selectRange range input) := by
  unfold selectRange
  split
  · exact .pure h
  · rw [Traced.resolve_of_ne_link (Value.ne_link_of_isDocument h), pure_bind]
    cases input with
    | sequence items =>
      exact .pure (Value.isDocument_sequence_iff.mpr fun item hitem =>
        Value.isDocument_sequence_iff.mp h item (mem_of_mem_slice hitem))
    | text | bytes => exact .pure rfl
    | link | map | array | iterator | byteStream | stream => cases h
    | _ => exact fixed_unsupported _ _

/-- Taking the length of a document ends in one way. -/
theorem fixed_length (h : input.isDocument = true) :
    Fixed (·.isDocument = true) (evaluator.length input) := by
  unfold length
  rw [Traced.resolve_of_ne_link (Value.ne_link_of_isDocument h), pure_bind]
  cases input with
  | text | bytes | sequence | mapping | dict => exact .pure rfl
  | link | map | array | iterator | byteStream | stream => cases h
  | _ => exact fixed_unsupported _ _

/-- Selecting an entry from a document ends in one way. -/
theorem fixed_selectEntry (name : String) (h : input.isDocument = true) :
    Fixed (·.isDocument = true) (evaluator.selectEntry name input) := by
  cases input with
  | mapping entries =>
    refine .pure ?_
    cases hlookup : entries.lookup name with
    | none => rfl
    | some value =>
      obtain ⟨before, rest, rfl, _⟩ := List.lookup_eq_some_iff.mp hlookup
      exact Value.isDocument_mapping_iff.mp h (name, value) (by simp)
  | dict entries =>
    refine .pure ?_
    rcases Store.entryUnder_eq_null_or_mem name entries with hnull | ⟨entry, hmem, hentry⟩
    · rw [hnull]
      rfl
    · rw [hentry]
      exact (Value.everyLeaf_dict.mp h entry hmem).2
  | link | map | array | iterator | byteStream | stream => cases h
  | _ => exact fixed_unsupported _ _

/-- Calculating with documents ends in one way. -/
theorem fixed_arithmetic {left right : Value} (operator : Operator)
    (hleft : left.isDocument = true) (hright : right.isDocument = true) :
    Fixed (·.isDocument = true) (evaluator.arithmetic left operator right) := by
  unfold arithmetic
  rw [Traced.resolve_of_ne_link (Value.ne_link_of_isDocument hleft), pure_bind,
    Traced.resolve_of_ne_link (Value.ne_link_of_isDocument hright), Traced.orRelease_pure,
    pure_bind]
  split
  · exact .pure rfl
  · refine ⟨.error (.unsupportedBinary left.kind operator right.kind), fun store => ?_,
      by rintro _ ⟨⟩⟩
    rw [Computation.run_bind, run_perform, releaseAll_of_isDocument (by simp [hleft, hright])]
    rfl

/-- An operation handed down as deep as streams go does not go down into a document. -/
theorem fixed_pointwise {f : Value → Action Value} (hbackground : evaluator.context = .background)
    (h : input.isDocument = true) (hf : Fixed (·.isDocument = true) (f input)) :
    Fixed (·.isDocument = true) (evaluator.pointwise f input) :=
  ((fixed_check hbackground).bind fun _ _ => hf).congr
    (run_pointwise_of_ne_stream (Value.ne_stream_of_isDocument h))

/-- Collecting from the same items with the same actions is the same. -/
theorem collect_congr {f g : Value → Action Value} {items : List Value}
    (h : ∀ item ∈ items, f item = g item) (values : List Value) :
    selectKeyWithin.collect f items values = selectKeyWithin.collect g items values := by
  induction items generalizing values with
  | nil => rfl
  | cons item rest ih =>
    obtain ⟨hitem, hrest⟩ := List.forall_mem_cons.mp h
    simp only [selectKeyWithin.collect, hitem, ih hrest]

/-- A key is carried through the sequences in a document, and there is nothing else to carry it
through: how deep it may be carried makes no difference. -/
theorem selectKeyWithin_of_isDocument (name : String) (depth : Nat) (h : input.isDocument = true) :
    evaluator.selectKeyWithin name depth input = evaluator.selectKeyWithin name 0 input := by
  induction depth, input using ask_induction with
  | sequence depth items ih =>
    have hitems (item : Value) (hmem : item ∈ items) :
        evaluator.selectKeyWithin name depth item = evaluator.selectKeyWithin name 0 item :=
      ih item hmem (Value.isDocument_sequence_iff.mp h item hmem)
    rw [selectKeyWithin_sequence, selectKeyWithin_sequence, collect_congr hitems]
  | stream depth stream _ => cases h
  | other depth value hsequence hstream _ =>
    rw [selectKeyWithin_of_ne name depth hsequence hstream,
      selectKeyWithin_of_ne name 0 hsequence hstream,
      Traced.resolve_of_ne_link (Value.ne_link_of_isDocument h), pure_bind, pure_bind,
      askTarget_of_ne name _ hsequence, askTarget_of_ne name _ hsequence]

/-- Collecting what ends in one way ends in one way. -/
theorem fixed_collect {f : Value → Action Value} {items values : List Value}
    (hf : ∀ item ∈ items, Fixed (·.isDocument = true) (f item))
    (hvalues : ∀ value ∈ values, value.isDocument = true) :
    Fixed (fun results => ∀ result ∈ results, result.isDocument = true)
      (selectKeyWithin.collect f items values) := by
  induction items generalizing values with
  | nil => exact .pure fun result hresult => hvalues result (List.mem_reverse.mp hresult)
  | cons item rest ih =>
    obtain ⟨hitem, hrest⟩ := List.forall_mem_cons.mp hf
    have hbefore : ∀ value ∈ values.reverse, value.isDocument = true := fun value hvalue =>
      hvalues value (List.mem_reverse.mp hvalue)
    exact (hitem.orRelease hbefore).bind fun value hvalue =>
      ih hrest (List.forall_mem_cons.mpr ⟨hvalue, hvalues⟩)

/-- Selecting a key from a document ends in one way, by induction on the document. -/
theorem fixed_selectKeyWithin (hbackground : evaluator.context = .background) (name : String)
    (depth : Nat) (h : input.isDocument = true) :
    Fixed (·.isDocument = true) (evaluator.selectKeyWithin name depth input) := by
  induction depth, input using ask_induction with
  | sequence depth items ih =>
    have hitems (item : Value) (hmem : item ∈ items) :
        Fixed (·.isDocument = true) (evaluator.selectKeyWithin name depth item) :=
      ih item hmem (Value.isDocument_sequence_iff.mp h item hmem)
    rw [selectKeyWithin_sequence]
    refine (fixed_check hbackground).bind fun _ _ => ?_
    refine (fixed_collect hitems (by simp)).bind fun values hvalues => ?_
    exact .pure (Value.isDocument_sequence_iff.mpr hvalues)
  | stream depth stream _ => cases h
  | other depth value hsequence hstream _ =>
    rw [selectKeyWithin_of_ne name depth hsequence hstream,
      Traced.resolve_of_ne_link (Value.ne_link_of_isDocument h), pure_bind,
      askTarget_of_ne name _ hsequence]
    exact (fixed_check hbackground).bind fun _ _ => fixed_selectEntry name h

/-- In a document a key need not be handed down into streams or links. -/
theorem run_selectKey_of_isDocument (name : String) (h : input.isDocument = true) (store : Store) :
    (evaluator.selectKey name input).run store =
      (evaluator.selectKeyWithin name 0 input).run store := by
  rw [run_selectKey, selectKeyWithin_of_isDocument name _ h]

mutual

/-- **What is made of a document depends on nothing else.** Under the background context a filter
that does not iterate ends in one way on a document, from every store, changes nothing, and makes
documents only. -/
theorem fixed_apply (hbackground : evaluator.context = .background) (node : Node)
    (hnode : node.iterates = false) {input : Value} (h : input.isDocument = true) :
    Fixed (·.isDocument = true) (evaluator.apply node input) := by
  match node with
  | .identity => exact (fixed_check hbackground).bind fun _ _ => .pure h
  | .chain steps =>
    exact (fixed_check hbackground).bind fun _ _ => fixed_thread hbackground steps hnode h
  | .pipeline stages =>
    exact (fixed_check hbackground).bind fun _ _ => fixed_thread hbackground stages hnode h
  | .iterate => cases hnode
  | .text s => exact fixed_pointwise hbackground h (.pure rfl)
  | .number x => exact fixed_pointwise hbackground h (.pure rfl)
  | .length => exact fixed_pointwise hbackground h (fixed_length h)
  | .key name =>
    exact (fixed_selectKeyWithin hbackground name 0 h).congr (run_selectKey_of_isDocument name h)
  | .index position => exact fixed_pointwise hbackground h (fixed_selectIndex position h)
  | .range bounds => exact fixed_pointwise hbackground h (fixed_selectRange bounds h)
  | .binary left operator right =>
    obtain ⟨hleft, hright⟩ := Bool.or_eq_false_iff.mp hnode
    refine fixed_pointwise hbackground h ?_
    refine (fixed_apply hbackground left hleft h).bind fun a ha => ?_
    refine ((fixed_apply hbackground right hright h).orRelease (by simp [ha])).bind fun b hb => ?_
    exact (fixed_arithmetic operator ha hb).orRelease (by simp [ha, hb])
  | .array items =>
    refine fixed_pointwise hbackground h ?_
    refine (fixed_applyAll hbackground items hnode h (by simp)).bind fun values hvalues => ?_
    exact .pure (Value.isDocument_sequence_iff.mpr hvalues)
  | .object entries =>
    refine fixed_pointwise hbackground h ?_
    refine (fixed_applyEntries hbackground entries hnode h (by simp)).bind fun values hvalues => ?_
    exact .pure (Value.isDocument_mapping_iff.mpr fun entry hentry =>
      hvalues entry (Keyed.mem_ofList hentry))
termination_by structural node

/-- Stages that never iterate end in one way on a document. -/
theorem fixed_thread (hbackground : evaluator.context = .background) (nodes : List Node)
    (hnodes : anyIterates nodes = false) {input : Value} (h : input.isDocument = true) :
    Fixed (·.isDocument = true) (thread evaluator nodes input) := by
  match nodes with
  | [] => exact .pure h
  | node :: rest =>
    obtain ⟨hnode, hrest⟩ := Bool.or_eq_false_iff.mp hnodes
    exact (fixed_apply hbackground node hnode h).bind fun _ hvalue =>
      fixed_thread hbackground rest hrest hvalue
termination_by structural nodes

/-- The parts of an array that never iterate end in one way on a document. -/
theorem fixed_applyAll (hbackground : evaluator.context = .background) (nodes : List Node)
    (hnodes : anyIterates nodes = false) {input : Value} (h : input.isDocument = true)
    {values : List Value} (hvalues : ∀ value ∈ values, value.isDocument = true) :
    Fixed (fun results => ∀ result ∈ results, result.isDocument = true)
      (applyAll evaluator nodes input values) := by
  match nodes with
  | [] => exact .pure fun result hresult => hvalues result (List.mem_reverse.mp hresult)
  | node :: rest =>
    obtain ⟨hnode, hrest⟩ := Bool.or_eq_false_iff.mp hnodes
    have hbefore : ∀ value ∈ values.reverse, value.isDocument = true := fun value hvalue =>
      hvalues value (List.mem_reverse.mp hvalue)
    exact ((fixed_apply hbackground node hnode h).orRelease hbefore).bind fun _ hvalue =>
      fixed_applyAll hbackground rest hrest h (List.forall_mem_cons.mpr ⟨hvalue, hvalues⟩)
termination_by structural nodes

/-- The parts of an object that never iterate end in one way on a document. -/
theorem fixed_applyEntries (hbackground : evaluator.context = .background)
    (entries : List (String × Node)) (hentries : anyEntryIterates entries = false) {input : Value}
    (h : input.isDocument = true) {values : List (String × Value)}
    (hvalues : ∀ value ∈ values, value.2.isDocument = true) :
    Fixed (fun results => ∀ result ∈ results, result.2.isDocument = true)
      (applyEntries evaluator entries input values) := by
  match entries with
  | [] => exact .pure fun result hresult => hvalues result (List.mem_reverse.mp hresult)
  | (key, node) :: rest =>
    obtain ⟨hnode, hrest⟩ := Bool.or_eq_false_iff.mp hentries
    have hbefore : ∀ value ∈ values.reverse.map (·.2), value.isDocument = true := by
      simpa using fun value key hvalue => hvalues (key, value) hvalue
    exact ((fixed_apply hbackground node hnode h).orRelease hbefore).bind fun _ hvalue =>
      fixed_applyEntries hbackground rest hrest h (List.forall_mem_cons.mpr ⟨hvalue, hvalues⟩)
termination_by structural entries

end

end Evaluator

end Sluice
