import Sluice.Proofs.Eval.Discarding
import Sluice.Proofs.Eval.FailedRuns
import Sluice.Proofs.Eval.Pervading

/-!
# What a successful run leaves open

Every iterator that a successful run obtained has been closed once, or can be reached from the
result, or can be reached from a value that some node dropped
(`closes_eq_one_or_reachable_of_successful_run`). A node that drops a value does not close what the
value holds, so an iterator may be left open that nobody can reach any more
(`exists_open_iterator_of_successful_run`).
-/

namespace Sluice

open Sluice.Action Sluice.Filter Store

variable {α β : Type}

/-- The values that a note tells were dropped. -/
def Note.dropped? : Note → List Value
  | dropped values => values
  | _ => []

namespace Traced

/-- The values that were dropped. -/
def droppedIn (trace : List Note) : List Value := trace.flatMap Note.dropped?

/-- An empty trace tells of no dropped values. -/
@[simp] theorem droppedIn_nil : droppedIn [] = [] := rfl

/-- What was dropped is read off note by note. -/
@[simp] theorem droppedIn_cons (entry : Note) (trace : List Note) :
    droppedIn (entry :: trace) = entry.dropped? ++ droppedIn trace := List.flatMap_cons

/-- Whether between two stores with traces no iterator is lost, where some values are used, others
are made, and those that were dropped count as held. -/
structure HandsOver (state after : Store × List Note) (used made : List Value) : Prop where
  steps : Steps state.1 after.1
  keeps : Keeps state.1 after.1 (used ++ droppedIn state.2) (made ++ droppedIn after.2)

/-- Whether a computation that succeeds loses no iterator without dropping it. -/
def Hands (used : List Value) (body : Traced α) (made : α → List Value) : Prop :=
  ∀ ⦃state a after⦄, body.run state = some (.ok a, after) → HandsOver state after used (made a)

namespace HandsOver

variable {state middle after : Store × List Note} {used made last fewer more : List Value}

/-- What is made on the way is used on from there. -/
theorem trans (h : HandsOver state middle used made) (hnext : HandsOver middle after made last) :
    HandsOver state after used last :=
  ⟨h.steps.trans hnext.steps, h.keeps.trans hnext.keeps⟩

/-- Using fewer values loses no more iterators. -/
theorem anti (h : HandsOver state after used made) (hused : fewer ⊆ used) :
    HandsOver state after fewer made :=
  ⟨h.steps, h.keeps.anti (Keeps.append_subset_append hused _)⟩

/-- More values may count as made. -/
theorem mono (h : HandsOver state after used made) (hmade : made ⊆ more) :
    HandsOver state after used more :=
  ⟨h.steps, h.keeps.mono (Keeps.append_subset_append hmade _)⟩

/-- What is held besides is handed over as well. -/
theorem frame (h : HandsOver state after used made) (others : List Value) :
    HandsOver state after (used ++ others) (made ++ others) := by
  refine ⟨h.steps, ((h.keeps.frame others).anti ?_).mono ?_⟩ <;> intro value <;>
    simp only [List.mem_append] <;> tauto

/-- What does not touch the trace hands over what it keeps. -/
theorem of_keeps {store behind : Store} (hsteps : Steps store behind)
    (h : Keeps store behind used made) (trace : List Note) :
    HandsOver (store, trace) (behind, trace) used made :=
  ⟨hsteps, h.frame (droppedIn trace)⟩

end HandsOver

namespace Hands

variable {used fewer : List Value} {made more : α → List Value} {last : β → List Value}

/-- A computation that hands over some values hands over fewer. -/
theorem anti {body : Traced α} (h : Hands used body made) (hused : fewer ⊆ used) :
    Hands fewer body made := fun _ _ _ hrun => (h hrun).anti hused

/-- A computation may count as making more. -/
theorem mono {body : Traced α} (h : Hands used body made) (hmade : ∀ a, made a ⊆ more a) :
    Hands used body more := fun _ a _ hrun => (h hrun).mono (hmade a)

/-- A computation hands over what is held besides. -/
theorem frame {body : Traced α} (h : Hands used body made) (others : List Value) :
    Hands (used ++ others) body fun a => made a ++ others :=
  fun _ _ _ hrun => (h hrun).frame others

/-- The values may be replaced by others first. -/
theorem replace {body : Traced α} (hvalues : ∀ store, Keeps store store fewer used)
    (h : Hands used body made) : Hands fewer body made :=
  fun state _ _ hrun => (HandsOver.of_keeps .refl (hvalues state.1) state.2).trans (h hrun)

/-- A result that keeps what was used hands it over. -/
theorem pure {a : α} (h : ∀ store, Keeps store store used (made a)) :
    Hands used (Pure.pure a : Traced α) made := by
  rintro state result after hrun
  cases hrun
  exact .of_keeps .refl (h state.1) state.2

/-- What follows a computation has to do with its possible results only. -/
theorem bind_of_ok {x : Traced α} {f : α → Traced β} (hx : Hands used x made)
    (hf : ∀ ⦃a state after⦄, x.run state = some (.ok a, after) → Hands (made a) (f a) last) :
    Hands used (x >>= f) last := by
  intro state b after h
  obtain ⟨a, middle, hfirst, hrest⟩ := Computation.run_bind_eq_ok h
  exact (hx hfirst).trans (hf hfirst hrest)

/-- What the first computation makes the second hands on. -/
theorem bind {x : Traced α} {f : α → Traced β} (hx : Hands used x made)
    (hf : ∀ a, Hands (made a) (f a) last) : Hands used (x >>= f) last :=
  hx.bind_of_ok fun a _ _ _ => hf a

/-- An action hands over what it keeps. -/
theorem ofAction {action : Action α} (h : Keeping used action made) (hsteps : Stepwise action) :
    Hands used (Traced.ofAction action) made := by
  rintro ⟨store, trace⟩ a ⟨after, notes⟩ hrun
  obtain ⟨haction, rfl⟩ := run_ofAction_eq_some hrun
  exact .of_keeps (hsteps haction) (h haction) _

/-- Notes of other kinds change nothing. -/
theorem note {f : Store → Note} (h : ∀ store, (f store).dropped? = []) :
    Hands [] (Traced.note f) fun _ => [] := by
  rintro ⟨store, trace⟩ a after hrun
  cases hrun
  refine ⟨.refl, ?_⟩
  rw [droppedIn_cons, h]
  exact .refl store _

/-- What is dropped counts as held. -/
theorem drop (values : List Value) : Hands values (Traced.drop values) fun _ => [] := by
  rintro ⟨store, trace⟩ a after hrun
  cases hrun
  exact ⟨.refl, .refl store _⟩

/-- What an action leaves may be dropped in advance. -/
theorem drop_bind {values : List Value} {action : Action α}
    (h : Keeping used action fun a => made a ++ values) (hsteps : Stepwise action) :
    Hands used (Traced.drop values >>= fun _ => Traced.ofAction action) made := by
  rintro ⟨store, trace⟩ a ⟨after, notes⟩ hrun
  rw [Computation.run_bind] at hrun
  obtain ⟨haction, rfl⟩ := run_ofAction_eq_some
    (hrun : (Traced.ofAction action).run (store, .dropped values :: trace) = _)
  refine ⟨hsteps haction, ?_⟩
  have hkeeps := (h haction).frame (droppedIn trace)
  rw [List.append_assoc] at hkeeps
  exact hkeeps

/-- What is held meanwhile does not matter if nothing fails. -/
theorem whileHolding {body : Traced α} (h : Hands used body made) (values : List Value) :
    Hands used (Traced.whileHolding values body) made :=
  fun _ _ _ hrun => h (run_whileHolding_eq_ok hrun)

/-- A value that is held meanwhile is still there if nothing fails. -/
theorem beside {body : Traced Value} (h : Hands used body fun value => [value]) (other : Value) :
    Hands (other :: used) (Traced.whileHolding [other] body) fun value => [other, value] :=
  (((h.whileHolding [other]).frame [other]).anti (by simp)).mono (by simp)

/-- A computation that does not succeed has nothing to hand over. -/
theorem diverge : Hands used (Traced.ofAction (Action.diverge : Action α)) made := by
  rintro state a after hrun
  cases hrun

/-- The items of a sequence are used one by one. -/
theorem of_sequence {items : List Value} {x : Traced α} (h : Hands (items ++ []) x made) :
    Hands [.sequence items] x made :=
  h.replace fun store => by simpa using Keeps.of_sequence store items

/-- A sequence is made of values that are handed over. -/
theorem toSequence {x : Traced (List Value)} (h : Hands used x fun values => values) :
    Hands used (x >>= fun values => Pure.pure (.sequence values)) fun value => [value] :=
  h.bind fun values => .pure fun store => .sequence store values

end Hands

variable (evaluator : Evaluator)

/-- The start of an application loses no iterator. -/
theorem hands_start : Hands [] (start evaluator) fun _ => [] :=
  (Hands.note fun _ => rfl).bind fun _ =>
    .ofAction (Evaluator.careful_check evaluator) (Evaluator.stepwise_check evaluator)

/-- What is done after the start of an application is handed over as it is. -/
theorem Hands.start_bind {used : List Value} {made : α → List Value} {f : Unit → Traced α}
    (h : Hands used (f ()) made) : Hands used (start evaluator >>= f) made :=
  ((hands_start evaluator).frame used).bind fun _ => h

/-- Dereferencing a link loses no iterator. -/
theorem hands_resolveLink (link : Handle .link) :
    Hands [] (resolveLink evaluator link) fun _ => [] := by
  refine (Hands.ofAction (Careful.read _) (.read _)).bind fun before => ?_
  refine (Hands.ofAction (Evaluator.careful_resolveLink evaluator link)
    (Evaluator.stepwise_resolveLink evaluator link)).bind fun value => ?_
  exact (Hands.note fun _ => rfl).bind fun _ => .pure fun store => .refl store _

/-- What links lead to takes the place of the first link. -/
theorem hands_follow (links : Nat) (value : Value) :
    Hands [value] (follow evaluator links value) fun target => [target] := by
  induction links generalizing value with
  | zero =>
    cases value with
    | link link =>
      rintro state a after hrun
      cases hrun
    | _ => exact .pure fun store => .refl store _
  | succ links ih =>
    cases value with
    | link link =>
      have hnone (store : Store) : Keeps store store [.link link] [] := .of_reachable (by simp)
      refine Hands.replace hnone ((hands_resolveLink evaluator link).bind fun target => ?_)
      exact (ih target).anti (List.nil_subset _)
    | _ => exact .pure fun store => .refl store _

variable {evaluator}

/-- What resolving succeeds with is no link. -/
theorem ne_link_of_run_resolve {value target : Value} {state after : Store × List Note}
    (h : (resolve evaluator value).run state = some (.ok target, after)) :
    ∀ link, target ≠ .link link :=
  ne_link_of_run_follow ((traces_resolve evaluator value).run_eq_ok h)

/-- What follows after links have been followed has to do with values that are no links. -/
theorem Hands.resolve_bind {made : α → List Value} {f : Value → Traced α} {value : Value}
    (others : List Value)
    (h : ∀ target, (∀ link, target ≠ .link link) → Hands (target :: others) (f target) made) :
    Hands (value :: others) (resolve evaluator value >>= f) made :=
  ((hands_follow evaluator maxLinkDepth value).frame others).bind_of_ok fun target _ _ hrun =>
    h target (ne_link_of_run_resolve hrun)

/-- Selecting an index drops what is left of its input and hands over the rest. -/
theorem hands_selectIndex (position : Int64) (input : Value) :
    Hands [input] (selectIndex evaluator position input) fun value => [value] :=
  .resolve_bind [] fun target hlink => .drop_bind
    (Evaluator.keeping_selectIndex evaluator position hlink)
    (Evaluator.stepwise_selectIndex evaluator position target)

/-- Selecting a range drops what is left of its input and hands over the rest. -/
theorem hands_selectRange (range : Filter.Range) (input : Value) :
    Hands [input] (selectRange evaluator range input) fun value => [value] := by
  unfold selectRange
  split
  case isTrue => exact .pure fun store => .refl store _
  case isFalse hsome =>
    exact .resolve_bind [] fun target hlink => .drop_bind
      (Evaluator.keeping_selectRange evaluator hsome hlink)
      (Evaluator.stepwise_selectRange evaluator range target)

/-- Taking the length drops its input. -/
theorem hands_length (input : Value) :
    Hands [input] (length evaluator input) fun value => [value] :=
  .resolve_bind [] fun target hlink => .drop_bind (Evaluator.keeping_length evaluator hlink)
    (Evaluator.stepwise_length evaluator target)

/-- Iteration hands its input over to the iterator or the stream that it makes. -/
theorem hands_iterateAll (input : Value) :
    Hands [input] (iterateAll evaluator input) fun value => [value] := by
  cases input with
  | stream stream =>
    exact .ofAction (Evaluator.keeping_newStream _ _) (evaluator.composes_stepwise.newStream _ _)
  | _ =>
    exact .resolve_bind [] fun target _ =>
      .ofAction (keeping_elementsOf target)
        (holds_elementsOf evaluator.composes_stepwise target)

/-- Selecting an entry drops what is left of its input and hands over the rest. -/
theorem hands_selectEntry (name : String) (target : Value) :
    Hands [target] (selectEntry evaluator name target) fun value => [value] :=
  .drop_bind (Evaluator.keeping_selectEntry evaluator name target)
    (Evaluator.stepwise_selectEntry evaluator name target)

/-- Operands of which arithmetic makes something hold nothing. -/
theorem hands_arithmetic (left : Value) (operator : Operator) (right : Value) :
    Hands [left, right] (arithmetic evaluator left operator right) fun value => [value] := by
  refine .resolve_bind [right] fun left _ => ?_
  refine ((hands_follow evaluator maxLinkDepth right).beside left).bind fun right => ?_
  split
  case h_1 x hresult =>
    refine .pure fun store => (Evaluator.keeps_of_operate? store hresult).trans ?_
    exact .of_subset (List.nil_subset _)
  case h_2 =>
    rintro state value after hrun
    cases hrun

/-- A literal drops its input. -/
theorem hands_literal (value input : Value) :
    Hands [input] (literal value input) fun result => [result] :=
  (Hands.drop [input]).bind fun _ => .pure fun _ => .of_subset (List.nil_subset _)

/-- One item is used for one result. -/
theorem Hands.item_bind {x : Traced Value} {f : Value → Traced α} {made : α → List Value}
    {item : Value} (rest : List Value) {values held : List Value}
    (hitem : Hands [item] x fun value => [value])
    (hrest : ∀ value, Hands (rest ++ value :: values) (f value) made) :
    Hands (item :: rest ++ values) (Traced.whileHolding held x >>= f) made := by
  have hfirst : Hands (item :: rest ++ values) (Traced.whileHolding held x) fun value =>
      rest ++ value :: values :=
    ((hitem.whileHolding held).frame (rest ++ values)).mono fun value other => by
      simp only [List.mem_append, List.mem_cons]
      tauto
  exact hfirst.bind hrest

/-- From a stream with nothing left nothing can be reached. -/
theorem keeps_of_remaining_eq_nil {store : Store} {stream : Handle .stream}
    (h : store.remaining stream = []) (values : List Value) :
    Keeps store store (.stream stream :: values) [.sequence values.reverse] := by
  refine .of_reachable fun iterator value hmem hreach => ?_
  rcases List.mem_cons.mp hmem with rfl | hvalues
  · simp [h] at hreach
  · exact ⟨_, List.mem_singleton_self _, .item (List.mem_reverse.mpr hvalues) hreach⟩

/-- Taking as many elements as a stream holds empties it, since a stream never grows. -/
theorem handsOver_spreadWithin {f : Value → Traced Value}
    (hf : ∀ element, Hands [element] (f element) fun value => [value]) {stream : Handle .stream}
    {limit : Nat} {values : List Value} {result : Value} {state after : Store × List Note}
    (hbound : stream.index < state.1.streams.size)
    (hlimit : (state.1.remaining stream).length ≤ limit)
    (h : (spreadWithin stream f limit values).run state = some (.ok result, after)) :
    HandsOver state after (.stream stream :: values) [result] := by
  induction limit generalizing values state with
  | zero =>
    cases h
    have hnil := List.length_eq_zero_iff.mp (Nat.le_zero.mp hlimit)
    exact .of_keeps .refl (keeps_of_remaining_eq_nil hnil values) _
  | succ limit ih =>
    obtain ⟨store, trace⟩ := state
    obtain ⟨element, ⟨middle, _⟩, hpulled, hrest⟩ := Computation.run_bind_eq_ok h
    obtain ⟨hpull, rfl⟩ := run_ofAction_eq_some hpulled
    have hpull : store.pull stream = (element, middle) := run_perform_eq_ok hpull
    cases element with
    | none =>
      obtain ⟨hnil, rfl⟩ := pull_none hpull
      cases hrest
      exact .of_keeps .refl (keeps_of_remaining_eq_nil hnil values) _
    | some element =>
      have hstep : Steps store middle := (Drains.of_pull hpull).steps
      have hmiddle := remaining_suffix_of_steps hstep hbound
      obtain ⟨value, ⟨third, notes⟩, hvalue, hlast⟩ := Computation.run_bind_eq_ok hrest
      have helement := hf element (run_whileHolding_eq_ok hvalue)
      obtain ⟨hthird, hsuffix⟩ := remaining_suffix_of_steps helement.steps hmiddle.1
      have hremaining := (pull_some hpull).1
      have hfewer : (third.remaining stream).length ≤ limit := by
        have hle := hsuffix.length_le
        rw [hremaining, List.length_cons] at hlimit
        exact Nat.le_trans hle (Nat.le_of_succ_le_succ hlimit)
      have htaken := (HandsOver.of_keeps hstep (Keeps.of_pull hpull) _).trans helement
      have hmade := htaken.frame (.stream stream :: values)
      exact hmade.trans ((ih hthird hfewer hlast).anti (by simp))

/-- An operation handed down into a stream hands over its elements, one after the other. -/
theorem hands_spread {f : Value → Traced Value}
    (hf : ∀ element, Hands [element] (f element) fun value => [value]) (stream : Handle .stream) :
    Hands [.stream stream] (spread stream f) fun value => [value] := by
  intro state result after h
  obtain ⟨limit, middle, hlimit, hrest⟩ := Computation.run_bind_eq_ok h
  cases hlimit
  by_cases hbound : stream.index < state.1.streams.size
  · exact handsOver_spreadWithin hf hbound (Nat.le_refl _) hrest
  · have hnil := remaining_of_size_le (Nat.le_of_not_lt hbound)
    rw [hnil] at hrest
    cases hrest
    exact .of_keeps .refl (keeps_of_remaining_eq_nil hnil []) _

/-- What is handed down into streams hands over its input at every depth. -/
theorem hands_fanOut {f : Value → Traced Value}
    (hf : ∀ input, Hands [input] (f input) fun value => [value]) (depth : Nat) (input : Value) :
    Hands [input] (fanOut evaluator f depth input) fun value => [value] := by
  induction depth generalizing input with
  | zero =>
    refine .start_bind evaluator ?_
    cases input with
    | stream stream => exact .diverge
    | _ => exact hf _
  | succ depth ih =>
    refine .start_bind evaluator ?_
    cases input with
    | stream stream => exact hands_spread ih stream
    | _ => exact hf _

/-- Reading the store first changes nothing about what is handed over. -/
theorem hands_read_bind {used : List Value} {made : β → List Value} {read : Store → α}
    {f : α → Traced β} (h : ∀ a, Hands used (f a) made) :
    Hands used (ofAction (perform fun store => (read store, store)) >>= f) made :=
  ((Hands.ofAction (Careful.read read) (.read read)).frame used).bind h

/-- What is handed down into streams hands over its input. -/
theorem hands_pointwise {f : Value → Traced Value}
    (hf : ∀ input, Hands [input] (f input) fun value => [value]) (input : Value) :
    Hands [input] (pointwise evaluator f input) fun value => [value] :=
  hands_read_bind fun depth => hands_fanOut hf depth input

mutual

/-- What is handed down into sequences hands over its input. -/
theorem hands_broadcast {f : Value → Traced Value}
    (hf : ∀ input, Hands [input] (f input) fun value => [value]) (input : Value) :
    Hands [input] (broadcast evaluator f input) fun value => [value] := by
  match input with
  | .sequence items =>
    exact .start_bind evaluator (Hands.of_sequence (hands_broadcastItems hf items [])).toSequence
  | .null | .bool _ | .int _ | .float _ | .byte _ | .bytes _ | .text _ | .mapping _ | .dict _
  | .link _ | .map _ | .array _ | .iterator _ | .byteStream _ | .stream _ =>
    exact .start_bind evaluator (hf _)
termination_by structural input

/-- Items are handed over one after the other, beside the results before. -/
theorem hands_broadcastItems {f : Value → Traced Value}
    (hf : ∀ input, Hands [input] (f input) fun value => [value]) (items values : List Value) :
    Hands (items ++ values) (broadcastItems evaluator f items values) fun results => results := by
  match items with
  | [] => exact .pure fun _ => .of_subset (by simp)
  | item :: rest =>
    exact .item_bind rest (hands_broadcast hf item) fun value =>
      hands_broadcastItems hf rest (value :: values)
termination_by structural items

end

/-- Items are collected one after the other, beside the results before. -/
theorem hands_collect {f : Value → Traced Value}
    (hf : ∀ input, Hands [input] (f input) fun value => [value]) (items values : List Value) :
    Hands (items ++ values) (collect f items values) fun results => results := by
  induction items generalizing values with
  | nil => exact .pure fun _ => .of_subset (by simp)
  | cons item rest ih => exact .item_bind rest (hf item) fun value => ih (value :: values)

/-- Selecting a key hands over its input, by induction on how deep it is handed down. -/
theorem hands_selectKeyWithin (name : String) (depth : Nat) (input : Value) :
    Hands [input] (selectKeyWithin evaluator name depth input) fun value => [value] := by
  induction depth generalizing input with
  | zero =>
    refine hands_broadcast (fun input => ?_) input
    cases input with
    | stream stream => exact .diverge
    | _ =>
      refine .resolve_bind [] fun target _ => ?_
      cases target with
      | sequence items => exact .diverge
      | _ => exact hands_selectEntry name _
  | succ depth ih =>
    refine hands_broadcast (fun input => ?_) input
    cases input with
    | stream stream => exact hands_spread ih stream
    | _ =>
      refine .resolve_bind [] fun target _ => ?_
      cases target with
      | sequence items => exact (Hands.of_sequence (hands_collect ih items [])).toSequence
      | _ => exact hands_selectEntry name _

/-- Selecting a key hands over its input. -/
theorem hands_selectKey (name : String) (input : Value) :
    Hands [input] (selectKey evaluator name input) fun value => [value] :=
  hands_read_bind fun depth => hands_selectKeyWithin name depth input

/-- The input of a node with several parts, unless it has none. -/
def inputOf (parts : List β) (input : Value) : List Value :=
  if parts.isEmpty then [] else [input]

/-- A node with several parts keeps its input unless it has none, and then drops it. -/
theorem hands_dropUnused (parts : List β) (input : Value) :
    Hands [input] (dropUnused parts input) fun _ => inputOf parts input := by
  unfold dropUnused inputOf
  split
  · exact .drop [input]
  · exact .pure fun store => .refl store _

/-- Of several entries under one key all but the last are dropped. -/
theorem hands_ofList (entries : List (String × Value)) :
    Hands (entries.map (·.2))
      (drop ((Keyed.overwritten entries).map (·.2)) >>= fun _ =>
        pure (.mapping (Keyed.ofList entries))) fun value => [value] := by
  have hentries (store : Store) : Keeps store store (entries.map (·.2))
      ((Keyed.overwritten entries).map (·.2) ++ [.mapping (Keyed.ofList entries)]) := by
    refine .of_reachable fun iterator value hmem hreach => ?_
    obtain ⟨entry, hentry, rfl⟩ := List.mem_map.mp hmem
    rcases Keyed.mem_overwritten_or_mem_ofList hentry with hover | hlast
    · exact ⟨entry.2, List.mem_append_left _ (List.mem_map_of_mem hover), hreach⟩
    · exact ⟨_, List.mem_append_right _ (List.mem_singleton_self _), .entry hlast hreach⟩
  refine Hands.replace hentries ?_
  exact ((Hands.drop _).frame [_]).bind fun _ => .pure fun store => .refl store _

mutual

/-- The application of a node that succeeds loses no iterator without dropping it. -/
theorem hands_apply (node : Node) (input : Value) :
    Hands [input] (apply evaluator node input) fun value => [value] := by
  match node with
  | .identity => exact .start_bind evaluator (.pure fun store => .refl store _)
  | .chain steps => exact .start_bind evaluator (hands_thread steps input)
  | .pipeline stages => exact .start_bind evaluator (hands_thread stages input)
  | .iterate => exact .start_bind evaluator (hands_iterateAll input)
  | .text s => exact hands_pointwise (hands_literal _) input
  | .number x => exact hands_pointwise (hands_literal _) input
  | .length => exact hands_pointwise hands_length input
  | .key name => exact hands_selectKey name input
  | .index position => exact hands_pointwise (hands_selectIndex position) input
  | .range bounds => exact hands_pointwise (hands_selectRange bounds) input
  | .binary left operator right =>
    refine hands_pointwise (fun input => ?_) input
    refine (hands_apply left input).bind fun a => ?_
    have hright : Hands [a] (whileHolding [a] (apply evaluator right input)) fun b => [a, b] :=
      ((hands_apply right input).beside a).anti (by simp)
    exact hright.bind fun b => (hands_arithmetic a operator b).whileHolding [a, b]
  | .array items =>
    refine hands_pointwise (fun input => ?_) input
    refine (hands_dropUnused items input).bind fun _ => ?_
    have hitems := hands_applyAll items input []
    rw [List.append_nil] at hitems
    exact hitems.toSequence
  | .object entries =>
    refine hands_pointwise (fun input => ?_) input
    refine (hands_dropUnused entries input).bind fun _ => ?_
    have hentries := hands_applyEntries entries input []
    rw [List.map_nil, List.append_nil] at hentries
    exact hentries.bind hands_ofList
termination_by structural node

/-- Stages hand over from one to the next. -/
theorem hands_thread (nodes : List Node) (input : Value) :
    Hands [input] (thread evaluator nodes input) fun value => [value] := by
  match nodes with
  | [] => exact .pure fun store => .refl store _
  | node :: rest => exact (hands_apply node input).bind fun value => hands_thread rest value
termination_by structural nodes

/-- The parts of an array hand over the input, beside the results before. -/
theorem hands_applyAll (nodes : List Node) (input : Value) (values : List Value) :
    Hands (inputOf nodes input ++ values) (applyAll evaluator nodes input values) fun results =>
      results := by
  match nodes with
  | [] => exact .pure fun _ => .of_subset (by simp [inputOf])
  | node :: rest =>
    refine Hands.item_bind [] (hands_apply node input) fun value => ?_
    exact (hands_applyAll rest input (value :: values)).anti (List.subset_append_right _ _)
termination_by structural nodes

/-- The parts of an object hand over the input, beside the results before. -/
theorem hands_applyEntries (entries : List (String × Node)) (input : Value)
    (values : List (String × Value)) :
    Hands (inputOf entries input ++ values.map (·.2)) (applyEntries evaluator entries input values)
      fun results => results.map (·.2) := by
  match entries with
  | [] => exact .pure fun _ => .of_subset (by simp [inputOf])
  | (key, node) :: rest =>
    refine Hands.item_bind [] (hands_apply node input) fun value => ?_
    exact (hands_applyEntries rest input ((key, value) :: values)).anti
      (List.subset_append_right _ _)
termination_by structural entries

end

section Runs

variable {program : Program} {value result : Value} {state after : Store × List Note}

/-- The stages of a successful run hand over from one to the next. -/
theorem handsOver_continueRun
    (h : continueRun evaluator program value state = some (.ok result, after)) :
    HandsOver state after [value] [result] := by
  induction program generalizing value state with
  | nil =>
    cases h
    have hflat := flattens_flatten value state.1
    exact .of_keeps hflat.steps (.of_flattens hflat) state.2
  | cons node rest ih =>
    simp only [continueRun] at h
    rcases hnode : (apply evaluator node value).run state with
      _ | ⟨⟨error, held⟩ | next, middle⟩ <;> rw [hnode] at h
    · cases h
    · cases h
    · exact (hands_apply node value hnode).trans (ih h)

/-- A run that succeeds loses no iterator without dropping it. -/
theorem handsOver_runProgram
    (h : runProgram evaluator program value state = some (.ok result, after)) :
    HandsOver state after [value] [result] := by
  cases program with
  | nil => exact handsOver_continueRun h
  | cons node rest =>
    simp only [runProgram] at h
    rcases hnode : (apply evaluator node value).run state with
      _ | ⟨⟨error, held⟩ | next, middle⟩ <;> rw [hnode] at h
    · cases h
    · cases h
    · exact (hands_apply node value hnode).trans (handsOver_continueRun h)

end Runs

end Traced

/-- After a successful run the underlying close of an iterator that the run obtained has been called
at most once. If it has not been called, the iterator can be reached from the result or from a value
that some node was done with and handed on to nobody. -/
theorem closes_eq_one_or_reachable_of_successful_run {evaluator : Evaluator} {program : Program}
    {input result : Value} {store after : Store}
    (h : evaluator.run program input store = some (.ok result, after)) :
    ∃ trace, Traced.runProgram evaluator program input (store, []) =
        some (.ok result, (after, trace)) ∧
      ∀ iterator ∈ obtainedSince store after,
        (after.iterators.get iterator).closes ≤ 1 ∧
        ((after.iterators.get iterator).closes = 1 ∨
          after.Reachable (.iterator iterator) result ∨
          ∃ value ∈ Traced.droppedIn trace, after.Reachable (.iterator iterator) value) := by
  obtain ⟨trace, htrace⟩ := Traced.exists_trace_of_run h
  refine ⟨trace, htrace, fun iterator hobtained => ?_⟩
  have hover := Traced.handsOver_runProgram htrace
  have hcloses : after.ClosedOnce iterator := closedOnce_of_mem_obtainedSince hover.steps hobtained
  have hnew := ((mem_obtainedSince_iff hover.steps).mp hobtained).1
  have hbefore : store.Kept iterator (([input] ++ Traced.droppedIn []) ++ []) := by
    left
    rw [isIteratorClosed, Table.get_of_size_le hnew]
    rfl
  have hle : (after.iterators.get iterator).closes ≤ 1 := by
    rw [hcloses]
    split <;> omega
  refine ⟨hle, ?_⟩
  rcases hover.keeps hbefore with hclosed | ⟨value, hmem, hreach⟩
  · left
    rw [hcloses]
    exact if_pos hclosed
  · right
    rw [List.append_nil, List.singleton_append] at hmem
    rcases List.mem_cons.mp hmem with rfl | hdropped
    · exact Or.inl hreach
    · exact Or.inr ⟨value, hdropped, hreach⟩

/-- In `[.[], 1]` the second item drops the array, and the iterator is in the result. -/
theorem closes_eq_one_or_reachable_of_iterator_beside_number :
    ∃ result after,
      Evaluator.run { context := .background } [.array [.iterate, .number 1]] (.array ⟨0⟩)
        (.ofArray [.int 1, .int 2]) = some (.ok result, after) ∧
      (⟨0⟩ : Handle .iterator) ∈ obtainedSince (.ofArray [.int 1, .int 2]) after ∧
      (after.iterators.get ⟨0⟩).closes = 0 ∧
      after.Reachable (.iterator ⟨0⟩) result := by
  have hrun : Evaluator.run { context := .background } [.array [.iterate, .number 1]] (.array ⟨0⟩)
      (.ofArray [.int 1, .int 2]) = some (.ok _, _) := rfl
  obtain ⟨trace, htrace, hiterators⟩ := closes_eq_one_or_reachable_of_successful_run hrun
  cases htrace
  refine ⟨_, _, hrun, by decide, rfl, ?_⟩
  rcases (hiterators ⟨0⟩ (by decide)).2 with hclosed | hreach | ⟨value, hmem, hreach⟩
  · cases hclosed
  · exact hreach
  · obtain rfl : value = .array ⟨0⟩ := by simpa [Note.dropped?] using hmem
    exact absurd hreach not_reachable_array

/-- In `.[] | 1` the second stage drops the iterator, and it stays open where nobody can reach
it. -/
theorem exists_open_iterator_of_successful_run :
    ∃ result after,
      Evaluator.run { context := .background } [.iterate, .number 1] (.array ⟨0⟩)
        (.ofArray [.int 1, .int 2]) = some (.ok result, after) ∧
      ∃ iterator ∈ obtainedSince (.ofArray [.int 1, .int 2]) after,
        (after.iterators.get iterator).closes = 0 ∧
        ¬ after.Reachable (.iterator iterator) result := by
  refine ⟨_, _, rfl, ⟨0⟩, by decide, rfl, ?_⟩
  rintro ⟨hvalue⟩
  cases hvalue

end Sluice
