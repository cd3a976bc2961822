import Sluice.Proofs.Eval.Documents
import Sluice.Proofs.Store.Scope

/-!
# Streams out of reach

A value may hold scalars and streams made from some point on, and these streams may again hold
nothing else (`Value.isConfined`, `Store.Confined`). Whatever is made of such a value is of the same
sort, and the streams made before that point keep their elements, however it ends
(`Evaluator.confines_apply`).
-/

namespace Sluice

open Sluice.Filter

/-- Whether a value holds no handles but those of streams from `low` on. -/
def Value.isConfined (low : Nat) (value : Value) : Bool :=
  value.everyLeaf fun
    | .stream handle => decide (low ≤ handle.index)
    | leaf => leaf.category == .scalar

namespace Store

/-- Whether there are so many streams, and those after them hold nothing that leads back. -/
structure Confined (low : Nat) (store : Store) : Prop where
  low_le : low ≤ store.streams.size
  elements : ∀ stream, low ≤ stream.index → ∀ element ∈ store.remaining stream,
    element.isConfined low = true

/-- Whether the streams before `low` hold what they held in a store before, and those after them
nothing that leads back. -/
structure Within (low : Nat) (store after : Store) : Prop extends Confined low after where
  kept : ∀ stream, stream.index < low → after.remaining stream = store.remaining stream

end Store

open Sluice.Action Sluice.Store

variable {α β : Type} {low : Nat} {value : Value}

namespace Value

/-- A sequence is confined if its items are. -/
theorem isConfined_sequence_iff {items : List Value} :
    (Value.sequence items).isConfined low = true ↔ ∀ item ∈ items, item.isConfined low = true :=
  everyLeaf_sequence

/-- A mapping is confined if its values are. -/
theorem isConfined_mapping_iff {entries : List (String × Value)} :
    (Value.mapping entries).isConfined low = true ↔
      ∀ entry ∈ entries, entry.2.isConfined low = true :=
  everyLeaf_mapping

/-- A dict is confined if its keys and values are. -/
theorem isConfined_dict_iff {entries : List (Value × Value)} :
    (Value.dict entries).isConfined low = true ↔
      ∀ entry ∈ entries, entry.1.isConfined low = true ∧ entry.2.isConfined low = true :=
  everyLeaf_dict

/-- A stream is confined if it was made from the point on. -/
theorem isConfined_stream_iff {stream : Handle .stream} :
    (Value.stream stream).isConfined low = true ↔ low ≤ stream.index :=
  decide_eq_true_iff

/-- A document is confined, as it holds no handles. -/
theorem isConfined_of_isDocument (h : value.isDocument = true) : value.isConfined low = true := by
  refine everyLeaf_mono (fun leaf hleaf => ?_) h
  cases leaf with
  | stream stream => cases hleaf
  | _ => exact hleaf

/-- A confined value is no link. -/
theorem ne_link_of_isConfined (h : value.isConfined low = true) (link : Handle .link) :
    value ≠ .link link := by
  rintro rfl
  cases h

end Value

namespace Store.Within

variable {store middle after : Store}

/-- A confined store stays within bounds of itself. -/
theorem refl (h : Confined low store) : Within low store store := ⟨h, fun _ _ => rfl⟩

/-- What stays within bounds step by step does so altogether. -/
theorem trans (h : Within low store middle) (hnext : Within low middle after) :
    Within low store after :=
  ⟨hnext.toConfined, fun stream hstream =>
    (hnext.kept stream hstream).trans (h.kept stream hstream)⟩

/-- Pulling from a stream out of reach stays within bounds and gives a confined value. -/
theorem of_pull {stream : Handle .stream} (h : Confined low store) (hstream : low ≤ stream.index)
    (hpull : store.pull stream = (some value, after)) :
    Within low store after ∧ value.isConfined low = true := by
  obtain ⟨hremaining, hothers, -, -⟩ := pull_some hpull
  have hsize : after.streams.size = store.streams.size := by
    have hafter : after = (store.pull stream).2 := by rw [hpull]
    rw [hafter, size_pull]
  have helements := h.elements stream hstream
  rw [hremaining] at helements
  obtain ⟨hvalue, hrest⟩ := List.forall_mem_cons.mp helements
  refine ⟨⟨⟨hsize.symm ▸ h.low_le, fun other hother element helement => ?_⟩,
    fun other hother => hothers other ?_⟩, hvalue⟩
  · by_cases heq : other = stream
    · exact hrest element (heq ▸ helement)
    · exact h.elements other hother element (hothers other heq ▸ helement)
  · rintro rfl
    omega

/-- Taking an element out of an earlier stream does not concern the later ones. -/
theorem confined_of_pull {stream : Handle .stream} (h : Confined low store)
    (hstream : stream.index < low) (hpull : store.pull stream = (some value, after)) :
    Confined low after := by
  obtain ⟨-, hothers, -, -⟩ := pull_some hpull
  have hafter : after = (store.pull stream).2 := by rw [hpull]
  refine ⟨?_, fun other hother element helement => ?_⟩
  · rw [hafter, size_pull]
    exact h.low_le
  · have hne : other ≠ stream := by
      rintro rfl
      omega
    exact h.elements other hother element (hothers other hne ▸ helement)

/-- A new stream of confined elements stays within bounds. -/
theorem of_newStream (h : Confined low store) (shape : LazyStream.Shape) {elements : List Value}
    (helements : ∀ element ∈ elements, element.isConfined low = true) :
    Within low store (store.newStream shape elements).2 := by
  have hle := h.low_le
  refine ⟨⟨?_, fun stream hstream element helement => ?_⟩, fun stream hstream =>
    remaining_newStream_of_ne store shape elements (by omega)⟩
  · rw [size_newStream]
    omega
  · by_cases heq : stream.index = store.streams.size
    · rw [remaining_newStream _ _ _ heq] at helement
      exact helements element helement
    · rw [remaining_newStream_of_ne _ _ _ heq] at helement
      exact h.elements stream hstream element helement

end Store.Within

/-- Whether a change of the store leaves the streams before `low` alone. -/
def LeavesAlone (low : Nat) (change : Store → Store) : Prop :=
  ∀ ⦃store⦄, Confined low store → Within low store (change store)

section Release

/-- Doing nothing leaves the older streams alone. -/
theorem LeavesAlone.id : LeavesAlone low id := fun _ h => .refl h

/-- Changes one after the other leave the older streams alone if each does. -/
theorem LeavesAlone.comp {f g : Store → Store} (h : LeavesAlone low f) (hnext : LeavesAlone low g) :
    LeavesAlone low fun store => g (f store) := fun _ hconfined =>
  (h hconfined).trans (hnext (h hconfined).toConfined)

variable {ofStream : Handle .stream → Store → Store}

/-- Releasing items leaves the older streams alone if releasing each item does. -/
theorem leavesAlone_releaseItemsWith {items : List Value}
    (h : ∀ item ∈ items, LeavesAlone low (releaseWith ofStream item)) :
    LeavesAlone low (releaseItemsWith ofStream items) := by
  induction items with
  | nil => exact .id
  | cons item rest ih =>
    obtain ⟨hitem, hrest⟩ := List.forall_mem_cons.mp h
    exact hitem.comp (ih hrest)

/-- Releasing the entries of a mapping leaves the older streams alone if releasing each value
does. -/
theorem leavesAlone_releaseMappingWith {entries : List (String × Value)}
    (h : ∀ entry ∈ entries, LeavesAlone low (releaseWith ofStream entry.2)) :
    LeavesAlone low (releaseMappingWith ofStream entries) := by
  induction entries with
  | nil => exact .id
  | cons entry rest ih =>
    obtain ⟨hentry, hrest⟩ := List.forall_mem_cons.mp h
    exact hentry.comp (ih hrest)

/-- Releasing the entries of a dict leaves the older streams alone if releasing each key and value
does. -/
theorem leavesAlone_releaseDictWith {entries : List (Value × Value)}
    (h : ∀ entry ∈ entries, LeavesAlone low (releaseWith ofStream entry.1) ∧
      LeavesAlone low (releaseWith ofStream entry.2)) :
    LeavesAlone low (releaseDictWith ofStream entries) := by
  induction entries with
  | nil => exact .id
  | cons entry rest ih =>
    obtain ⟨⟨hkey, hvalue⟩, hrest⟩ := List.forall_mem_cons.mp h
    exact (hkey.comp hvalue).comp (ih hrest)

/-- Releasing a confined value leaves the older streams alone if releasing the streams in it
does. -/
theorem leavesAlone_releaseWith
    (hstream : ∀ stream, low ≤ stream.index → LeavesAlone low (ofStream stream)) {value : Value}
    (h : value.isConfined low = true) : LeavesAlone low (releaseWith ofStream value) := by
  match value with
  | .stream stream => exact hstream stream (Value.isConfined_stream_iff.mp h)
  | .sequence items =>
    refine leavesAlone_releaseItemsWith fun item hmem => ?_
    have hlt := Value.sizeOf_lt_of_mem_sequence hmem
    exact leavesAlone_releaseWith hstream (Value.isConfined_sequence_iff.mp h item hmem)
  | .mapping entries =>
    refine leavesAlone_releaseMappingWith fun entry hmem => ?_
    have hlt := Value.sizeOf_lt_of_mem_mapping hmem
    exact leavesAlone_releaseWith hstream (Value.isConfined_mapping_iff.mp h entry hmem)
  | .dict entries =>
    refine leavesAlone_releaseDictWith fun entry hmem => ?_
    obtain ⟨hkey, hvalue⟩ := Value.sizeOf_lt_of_mem_dict hmem
    obtain ⟨hconfined, hconfined'⟩ := Value.isConfined_dict_iff.mp h entry hmem
    exact ⟨leavesAlone_releaseWith hstream hconfined, leavesAlone_releaseWith hstream hconfined'⟩
  | .null | .bool _ | .int _ | .float _ | .byte _ | .bytes _ | .text _ => exact .id
  | .link _ | .map _ | .array _ | .iterator _ | .byteStream _ => cases h
termination_by sizeOf value
decreasing_by all_goals assumption

/-- Draining a stream out of reach leaves the older streams alone. -/
theorem leavesAlone_drain {stream : Handle .stream} (hstream : low ≤ stream.index)
    {f : Value → Store → Store}
    (h : ∀ value, value.isConfined low = true → LeavesAlone low (f value)) (limit : Nat) :
    LeavesAlone low (Store.drain stream f limit) := by
  induction limit with
  | zero => exact .id
  | succ limit ih =>
    intro store hconfined
    rcases hpull : store.pull stream with ⟨_ | value, after⟩
    · obtain ⟨-, rfl⟩ := pull_none hpull
      simp only [drain, hpull]
      exact .refl hconfined
    · obtain ⟨hwithin, hvalue⟩ := Within.of_pull hconfined hstream hpull
      simp only [drain, hpull]
      exact hwithin.trans ((h value hvalue).comp ih hwithin.toConfined)

/-- Releasing a stream out of reach leaves the older streams alone, by induction on the depth. -/
theorem leavesAlone_releaseStream (depth : Nat) {stream : Handle .stream}
    (hstream : low ≤ stream.index) : LeavesAlone low (releaseStream depth stream) := by
  induction depth generalizing stream with
  | zero => exact .id
  | succ depth ih =>
    exact fun store hconfined => leavesAlone_drain hstream (fun value hvalue =>
      leavesAlone_releaseWith (fun stream hstream => ih hstream) hvalue) _ hconfined

/-- Releasing what leads to later streams only leaves the earlier ones alone. -/
theorem leavesAlone_releaseAll {values : List Value}
    (h : ∀ value ∈ values, value.isConfined low = true) : LeavesAlone low (releaseAll values) := by
  induction values with
  | nil => exact .id
  | cons value rest ih =>
    obtain ⟨hvalue, hrest⟩ := List.forall_mem_cons.mp h
    have hrelease : LeavesAlone low (release value) := fun store hconfined =>
      leavesAlone_releaseWith (fun stream hstream =>
        leavesAlone_releaseStream (store.totalRemaining + 1) hstream) hvalue hconfined
    exact hrelease.comp (ih hrest)

end Release

/-- Whether an action leaves the streams before `low` alone, and its result has a property if it has
one. -/
def Confines (low : Nat) (holds : α → Prop) (action : Action α) : Prop :=
  ∀ ⦃store result after⦄, Confined low store → action.run store = some (result, after) →
    Within low store after ∧ ∀ a, result = .ok a → holds a

namespace Confines

variable {holds : α → Prop} {action : Action α}

/-- Doing nothing is confined, with a result of the sort. -/
theorem pure {a : α} (h : holds a) : Confines low holds (Pure.pure a) := by
  rintro store result after hconfined ⟨⟩
  exact ⟨.refl hconfined, by rintro _ ⟨⟩; exact h⟩

/-- Failing at once is confined and has no result. -/
theorem throw (error : EvalError) : Confines low holds (MonadExcept.throw error) := by
  rintro store result after hconfined ⟨⟩
  exact ⟨.refl hconfined, by rintro _ ⟨⟩⟩

/-- A result that is known is confined if it is of the sort. -/
theorem ofExcept {outcome : Except EvalError α} (h : ∀ a, outcome = .ok a → holds a) :
    Confines low holds (MonadExcept.ofExcept outcome) := by
  intro store result after hconfined hrun
  rw [Computation.run_ofExcept] at hrun
  cases hrun
  exact ⟨.refl hconfined, h⟩

/-- An action without an outcome is confined. -/
theorem diverge : Confines low holds (Action.diverge : Action α) := by
  rintro store result after hconfined ⟨⟩

/-- An operation on the store is confined if it stays within bounds. -/
theorem perform {operation : Store → α × Store}
    (h : ∀ store, Confined low store →
      Within low store (operation store).2 ∧ holds (operation store).1) :
    Confines low holds (Action.perform operation) := by
  rintro store result after hconfined ⟨⟩
  obtain ⟨hwithin, hresult⟩ := h store hconfined
  exact ⟨hwithin, by rintro _ ⟨⟩; exact hresult⟩

/-- Confined actions one after the other are confined. -/
theorem bind {property : β → Prop} {next : α → Action β} (h : Confines low holds action)
    (hnext : ∀ a, holds a → Confines low property (next a)) :
    Confines low property (action >>= next) := by
  intro store result after hconfined hrun
  rcases Computation.run_bind_eq_some hrun with
    ⟨a, middle, hfirst, hrest⟩ | ⟨error, hfirst, rfl⟩
  · obtain ⟨hwithin, hholds⟩ := h hconfined hfirst
    obtain ⟨hlater, hproperty⟩ := hnext a (hholds a rfl) hwithin.toConfined hrest
    exact ⟨hwithin.trans hlater, hproperty⟩
  · exact ⟨(h hconfined hfirst).1, by rintro _ ⟨⟩⟩

/-- Releasing confined values on a failure is confined. -/
theorem orRelease {values : List Value} (h : Confines low holds action)
    (hvalues : ∀ value ∈ values, value.isConfined low = true) :
    Confines low holds (action.orRelease values) := by
  intro store result after hconfined hrun
  simp only [Action.orRelease, Action.onError, ExceptT.run_mk] at hrun
  rcases hbody : action.run store with _ | ⟨error | a, middle⟩ <;> rw [hbody] at hrun <;> cases hrun
  · obtain ⟨hwithin, -⟩ := h hconfined hbody
    exact ⟨hwithin.trans (leavesAlone_releaseAll hvalues hwithin.toConfined), by rintro _ ⟨⟩⟩
  · exact h hconfined hbody

/-- Reading the store changes nothing. -/
theorem read (f : Store → α) :
    Confines low (fun _ => True) (Action.perform fun store => (f store, store)) :=
  .perform fun _ hconfined => ⟨.refl hconfined, trivial⟩

end Confines

namespace Evaluator

variable {evaluator : Evaluator} {input : Value}

/-- Asking the context is confined. -/
theorem confines_check : Confines low (fun _ => True) evaluator.check := by
  rintro store result after hconfined ⟨⟩
  exact ⟨.refl hconfined, fun _ _ => trivial⟩

/-- Passing over an input that is not supported is confined, as its result is null. -/
theorem confines_unsupported (operation : Operation) (input : Value) :
    Confines low (·.isConfined low = true) (evaluator.unsupported operation input) := by
  unfold unsupported
  split
  · exact .pure rfl
  · exact .throw _

section Selectors

variable (h : input.isConfined low = true)

include h

/-- A confined value needs no link to be followed. -/
theorem resolve_of_isConfined : evaluator.resolve input = pure input :=
  Traced.resolve_of_ne_link (Value.ne_link_of_isConfined h)

/-- Selecting an index from a confined value is confined. -/
theorem confines_selectIndex (position : Int64) :
    Confines low (·.isConfined low = true) (evaluator.selectIndex position input) := by
  unfold selectIndex
  rw [resolve_of_isConfined h, pure_bind]
  cases input with
  | sequence items =>
    exact .ofExcept fun item hitem => Value.isConfined_sequence_iff.mp h item (mem_of_select hitem)
  | text s =>
    refine .ofExcept fun item hitem => ?_
    obtain ⟨c, rfl⟩ := exists_of_map_eq_ok hitem
    rfl
  | bytes content =>
    refine .ofExcept fun item hitem => ?_
    obtain ⟨b, rfl⟩ := exists_of_map_eq_ok hitem
    rfl
  | link | map | array | iterator | byteStream => cases h
  | _ => exact confines_unsupported _ _

/-- Selecting a range from a confined value is confined. -/
theorem confines_selectRange (range : Filter.Range) :
    Confines low (·.isConfined low = true) (evaluator.selectRange range input) := by
  unfold selectRange
  split
  · exact .pure h
  · rw [resolve_of_isConfined h, pure_bind]
    cases input with
    | sequence items =>
      exact .pure (Value.isConfined_sequence_iff.mpr fun item hitem =>
        Value.isConfined_sequence_iff.mp h item (mem_of_mem_slice hitem))
    | text | bytes => exact .pure rfl
    | link | map | array | iterator | byteStream => cases h
    | _ => exact confines_unsupported _ _

/-- Taking the length of a confined value is confined. -/
theorem confines_length : Confines low (·.isConfined low = true) (evaluator.length input) := by
  unfold length
  rw [resolve_of_isConfined h, pure_bind]
  cases input with
  | text | bytes | sequence | mapping | dict => exact .pure rfl
  | link | map | array | iterator | byteStream => cases h
  | _ => exact confines_unsupported _ _

/-- Selecting an entry from a confined value is confined. -/
theorem confines_selectEntry (name : String) :
    Confines low (·.isConfined low = true) (evaluator.selectEntry name input) := by
  cases input with
  | mapping entries =>
    refine .pure ?_
    cases hlookup : entries.lookup name with
    | none => rfl
    | some value =>
      obtain ⟨before, rest, rfl, _⟩ := List.lookup_eq_some_iff.mp hlookup
      exact Value.isConfined_mapping_iff.mp h (name, value) (by simp)
  | dict entries =>
    refine .pure ?_
    rcases entryUnder_eq_null_or_mem name entries with hnull | ⟨entry, hmem, hentry⟩
    · rw [hnull]
      rfl
    · rw [hentry]
      exact (Value.isConfined_dict_iff.mp h entry hmem).2
  | link | map | array | iterator | byteStream => cases h
  | _ => exact confines_unsupported _ _

omit h in
/-- Making a stream of confined values is confined. -/
theorem confines_newStream (shape : LazyStream.Shape) {elements : List Value}
    (helements : ∀ element ∈ elements, element.isConfined low = true) :
    Confines low (·.isConfined low = true) (newStream shape elements) := by
  have hnew : Confines low (fun stream : Handle .stream => low ≤ stream.index)
      (perform (Store.newStream shape elements)) :=
    .perform fun store hconfined =>
      ⟨.of_newStream hconfined shape helements, hconfined.low_le⟩
  exact hnew.bind fun stream hstream => .pure (Value.isConfined_stream_iff.mpr hstream)

/-- Iterating over a confined value is confined. -/
theorem confines_iterateAll :
    Confines low (·.isConfined low = true) (evaluator.iterateAll input) := by
  have hsingle : ∀ element ∈ [input], element.isConfined low = true := by simp [h]
  unfold iterateAll
  split
  · exact confines_newStream _ hsingle
  · rw [resolve_of_isConfined h, pure_bind]
    cases input with
    | sequence items => exact confines_newStream _ (Value.isConfined_sequence_iff.mp h)
    | link | map | array | iterator | byteStream => cases h
    | _ => exact confines_newStream _ hsingle

/-- Calculating with confined values is confined. -/
theorem confines_arithmetic (operator : Operator) {right : Value}
    (hright : right.isConfined low = true) :
    Confines low (·.isConfined low = true) (evaluator.arithmetic input operator right) := by
  unfold arithmetic
  rw [resolve_of_isConfined h, pure_bind, resolve_of_isConfined hright, Traced.orRelease_pure,
    pure_bind]
  split
  · exact .pure rfl
  · have hrelease : Confines low (fun _ => True)
        (perform fun store => ((), releaseAll [input, right] store)) :=
      .perform fun store hconfined =>
        ⟨leavesAlone_releaseAll (by simp [h, hright]) hconfined, trivial⟩
    exact hrelease.bind fun _ _ => .throw _

end Selectors

section Spread

variable {f : Value → Action Value} (hf : ∀ value, value.isConfined low = true →
  Confines low (·.isConfined low = true) (f value))

include hf

/-- Going on with the elements that are left, where the results so far come newest first. -/
theorem within_of_spreadResult {stream : Handle .stream} (hstream : low ≤ stream.index)
    (limit : Nat) {results : List Value}
    (hresults : ∀ result ∈ results, result.isConfined low = true) {store after : Store}
    {outcome : Except EvalError Value} (hconfined : Confined low store)
    (hrun : spreadResult ((Store.mapEachWithin stream (fun value => (f value).run) limit results :
      StateT Store Option _) store) = some (outcome, after)) :
    Within low store after ∧ ∀ value, outcome = .ok value → value.isConfined low = true := by
  have hdone : ∀ result ∈ results.reverse, result.isConfined low = true := fun result hmem =>
    hresults result (List.mem_reverse.mp hmem)
  induction limit generalizing results store with
  | zero =>
    cases hrun
    exact ⟨.refl hconfined, by rintro _ ⟨⟩; exact Value.isConfined_sequence_iff.mpr hdone⟩
  | succ limit ih =>
    rw [Store.run_mapEachWithin_succ] at hrun
    rcases hpull : store.pull stream with ⟨_ | value, middle⟩ <;> rw [hpull] at hrun
    · cases hrun
      obtain ⟨-, rfl⟩ := pull_none hpull
      exact ⟨.refl hconfined, by rintro _ ⟨⟩; exact Value.isConfined_sequence_iff.mpr hdone⟩
    · obtain ⟨hpulled, hvalue⟩ := Within.of_pull hconfined hstream hpull
      simp only [Store.mapRest] at hrun
      rcases hresult : (f value).run middle with _ | ⟨error | result, next⟩ <;>
        rw [hresult] at hrun
      · cases hrun
      · cases hrun
        have hfailed := hpulled.trans (hf value hvalue hpulled.toConfined hresult).1
        exact ⟨hfailed.trans (leavesAlone_releaseAll hdone hfailed.toConfined), by rintro _ ⟨⟩⟩
      · obtain ⟨hmade, hconfines⟩ := hf value hvalue hpulled.toConfined hresult
        have hall : ∀ other ∈ result :: results, other.isConfined low = true :=
          List.forall_mem_cons.mpr ⟨hconfines result rfl, hresults⟩
        obtain ⟨hlater, hholds⟩ := ih hall hmade.toConfined hrun fun other hmem =>
          hall other (List.mem_reverse.mp hmem)
        exact ⟨(hpulled.trans hmade).trans hlater, hholds⟩

/-- An operation handed down into a stream out of reach is confined. -/
theorem confines_spread {stream : Handle .stream} (hstream : low ≤ stream.index) :
    Confines low (·.isConfined low = true) (spread stream f) := by
  intro store outcome after hconfined hrun
  rw [run_spread, Store.run_mapEach] at hrun
  exact within_of_spreadResult hf hstream _ (List.forall_mem_nil _) hconfined hrun

/-- An operation handed down into streams is confined on confined values, at every depth. -/
theorem confines_fanOut (depth : Nat) {input : Value} (h : input.isConfined low = true) :
    Confines low (·.isConfined low = true) (evaluator.fanOut f depth input) := by
  induction depth generalizing input with
  | zero =>
    refine confines_check.bind fun _ _ => ?_
    split
    · exact .diverge
    · exact hf _ h
  | succ depth ih =>
    refine confines_check.bind fun _ _ => ?_
    split
    · exact confines_spread (fun value hvalue => ih hvalue) (Value.isConfined_stream_iff.mp h)
    · exact hf _ h

/-- An operation handed down as deep as streams go is confined on confined values. -/
theorem confines_pointwise {input : Value} (h : input.isConfined low = true) :
    Confines low (·.isConfined low = true) (evaluator.pointwise f input) :=
  (Confines.read _).bind fun depth _ => confines_fanOut hf depth h

omit hf in
/-- Collecting what confined actions give is confined. -/
theorem confines_collect {items values : List Value}
    (hf : ∀ item ∈ items, Confines low (·.isConfined low = true) (f item))
    (hvalues : ∀ value ∈ values, value.isConfined low = true) :
    Confines low (fun results => ∀ result ∈ results, result.isConfined low = true)
      (selectKeyWithin.collect f items values) := by
  have hbefore : ∀ value ∈ values.reverse, value.isConfined low = true := fun value hvalue =>
    hvalues value (List.mem_reverse.mp hvalue)
  induction items generalizing values with
  | nil => exact .pure hbefore
  | cons item rest ih =>
    obtain ⟨hitem, hrest⟩ := List.forall_mem_cons.mp hf
    refine (hitem.orRelease hbefore).bind fun value hvalue => ?_
    have hall : ∀ other ∈ value :: values, other.isConfined low = true :=
      List.forall_mem_cons.mpr ⟨hvalue, hvalues⟩
    exact ih hrest hall fun value hmem => hall value (List.mem_reverse.mp hmem)

end Spread

/-- Selecting a key from a confined value is confined, by induction on how deep it is handed
down. -/
theorem confines_selectKeyWithin (name : String) (depth : Nat) (h : input.isConfined low = true) :
    Confines low (·.isConfined low = true) (evaluator.selectKeyWithin name depth input) := by
  induction depth, input using ask_induction with
  | sequence depth items ih =>
    rw [selectKeyWithin_sequence]
    refine confines_check.bind fun _ _ => ?_
    have hitems := Value.isConfined_sequence_iff.mp h
    refine (confines_collect (fun item hmem => ih item hmem (hitems item hmem))
      (List.forall_mem_nil _)).bind fun values hvalues => ?_
    exact .pure (Value.isConfined_sequence_iff.mpr hvalues)
  | stream depth stream ih =>
    rw [selectKeyWithin_stream]
    refine confines_check.bind fun _ _ => ?_
    cases depth with
    | zero => exact .diverge
    | succ depth => exact confines_spread (ih depth rfl) (Value.isConfined_stream_iff.mp h)
  | other depth value hsequence hstream _ =>
    rw [selectKeyWithin_of_ne name depth hsequence hstream, resolve_of_isConfined h, pure_bind,
      askTarget_of_ne name _ hsequence]
    exact confines_check.bind fun _ _ => confines_selectEntry h name

mutual

/-- **What is made of later streams leaves the earlier ones alone.** Applied to a value that holds
scalars and streams from some point on, a node leaves the streams made before that point as they
are, however it ends, and makes a value of the same sort. -/
theorem confines_apply (node : Node) {input : Value} (h : input.isConfined low = true) :
    Confines low (·.isConfined low = true) (evaluator.apply node input) := by
  match node with
  | .identity => exact confines_check.bind fun _ _ => .pure h
  | .chain nodes => exact confines_check.bind fun _ _ => confines_thread nodes h
  | .pipeline nodes => exact confines_check.bind fun _ _ => confines_thread nodes h
  | .iterate => exact confines_check.bind fun _ _ => confines_iterateAll h
  | .text s => exact confines_pointwise (fun _ _ => .pure rfl) h
  | .number x => exact confines_pointwise (fun _ _ => .pure rfl) h
  | .length => exact confines_pointwise (fun _ hvalue => confines_length hvalue) h
  | .key name =>
    exact (Confines.read _).bind fun depth _ => confines_selectKeyWithin name depth h
  | .index position =>
    exact confines_pointwise (fun _ hvalue => confines_selectIndex hvalue position) h
  | .range bounds =>
    exact confines_pointwise (fun _ hvalue => confines_selectRange hvalue bounds) h
  | .binary left operator right =>
    refine confines_pointwise (fun value hvalue => ?_) h
    refine (confines_apply left hvalue).bind fun a ha => ?_
    refine ((confines_apply right hvalue).orRelease (by simp [ha])).bind fun b hb => ?_
    exact (confines_arithmetic ha operator hb).orRelease (by simp [ha, hb])
  | .array items =>
    refine confines_pointwise (fun value hvalue => ?_) h
    refine (confines_applyAll items hvalue (List.forall_mem_nil _)).bind fun values hvalues => ?_
    exact .pure (Value.isConfined_sequence_iff.mpr hvalues)
  | .object entries =>
    refine confines_pointwise (fun value hvalue => ?_) h
    refine (confines_applyEntries entries hvalue (List.forall_mem_nil _)).bind
      fun values hvalues => ?_
    exact .pure (Value.isConfined_mapping_iff.mpr fun entry hentry =>
      hvalues entry (Keyed.mem_ofList hentry))
termination_by structural node

/-- Stages keep a confined value confined. -/
theorem confines_thread (nodes : List Node) {input : Value} (h : input.isConfined low = true) :
    Confines low (·.isConfined low = true) (thread evaluator nodes input) := by
  match nodes with
  | [] => exact .pure h
  | node :: rest => exact (confines_apply node h).bind fun _ hvalue => confines_thread rest hvalue
termination_by structural nodes

/-- The parts of an array are confined on a confined value. -/
theorem confines_applyAll (nodes : List Node) {input : Value} (h : input.isConfined low = true)
    {values : List Value} (hvalues : ∀ value ∈ values, value.isConfined low = true) :
    Confines low (fun results => ∀ result ∈ results, result.isConfined low = true)
      (applyAll evaluator nodes input values) := by
  have hbefore : ∀ value ∈ values.reverse, value.isConfined low = true := fun value hvalue =>
    hvalues value (List.mem_reverse.mp hvalue)
  match nodes with
  | [] => exact .pure hbefore
  | node :: rest =>
    exact ((confines_apply node h).orRelease hbefore).bind fun _ hvalue =>
      confines_applyAll rest h (List.forall_mem_cons.mpr ⟨hvalue, hvalues⟩)
termination_by structural nodes

/-- The parts of an object are confined on a confined value. -/
theorem confines_applyEntries (entries : List (String × Node)) {input : Value}
    (h : input.isConfined low = true) {values : List (String × Value)}
    (hvalues : ∀ value ∈ values, value.2.isConfined low = true) :
    Confines low (fun results => ∀ result ∈ results, result.2.isConfined low = true)
      (applyEntries evaluator entries input values) := by
  match entries with
  | [] => exact .pure fun result hresult => hvalues result (List.mem_reverse.mp hresult)
  | (key, node) :: rest =>
    have hbefore : ∀ value ∈ values.reverse.map (·.2), value.isConfined low = true := by
      simpa using fun value key hvalue => hvalues (key, value) hvalue
    exact ((confines_apply node h).orRelease hbefore).bind fun _ hvalue =>
      confines_applyEntries rest h (List.forall_mem_cons.mpr ⟨hvalue, hvalues⟩)
termination_by structural entries

end

end Evaluator

end Sluice
