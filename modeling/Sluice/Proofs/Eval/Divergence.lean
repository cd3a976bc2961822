import Sluice.Proofs.Eval.Termination

/-!
# When evaluation never comes to an end

Evaluation on resolved links comes to an end for every filter and every input exactly if no link
carries a key into itself (`terminates_iff_not_carries_itself`). The bound on how many links may
stand one behind another is no help there: the items of a sequence are asked for the key one after
another, each with a bound of its own.
-/

namespace Sluice

open Sluice.Filter Sluice.Store

variable {α β : Type}

/-- Whether streams have run out and no lookup fails. -/
structure Store.Drained (links : Table .link Link) (store : Store) : Prop where
  links_eq : store.links = links
  remaining_eq : ∀ stream, store.remaining stream = []
  keyFault_eq : ∀ map name, (store.maps.get map).keyFault name = none

/-- Whether an action does not fail, and a result has a property. -/
def Flows (action : Action α) (store : Store) (P : α → Store → Prop) : Prop :=
  ∀ result after, action.run store = some (result, after) → ∃ a, result = .ok a ∧ P a after

namespace Flows

variable {store : Store} {P : α → Store → Prop} {Q : β → Store → Prop}

/-- Doing nothing does not fail. -/
theorem pure {a : α} (h : P a store) : Flows (Pure.pure a) store P := by
  rintro result after ⟨⟩
  exact ⟨a, rfl, h⟩

/-- An action without an outcome does not fail. -/
theorem of_none {action : Action α} (h : action.run store = none) : Flows action store P := by
  intro result after hrun
  rw [h] at hrun
  cases hrun

/-- An action that has succeeded does not fail. -/
theorem of_run {action : Action α} {a : α} {after : Store}
    (hrun : action.run store = some (.ok a, after)) (h : P a after) : Flows action store P := by
  intro result other hother
  rw [hrun] at hother
  cases hother
  exact ⟨a, rfl, h⟩

/-- Actions one after the other do not fail if neither does. -/
theorem bind {action : Action α} {f : α → Action β} (h : Flows action store P)
    (hf : ∀ a middle, P a middle → Flows (f a) middle Q) : Flows (action >>= f) store Q := by
  intro result after hrun
  rcases Computation.run_bind_eq_some hrun with ⟨a, middle, hfirst, hrest⟩ | ⟨error, hfirst, _⟩
  · obtain ⟨b, hb, hP⟩ := h _ _ hfirst
    cases hb
    exact hf a middle hP result after hrest
  · obtain ⟨b, hb, _⟩ := h _ _ hfirst
    cases hb

/-- An action that does not fail releases nothing. -/
theorem orRelease {action : Action α} (h : Flows action store P) (values : List Value) :
    Flows (action.orRelease values) store P := by
  intro result after hrun
  simp only [Action.orRelease, Action.onError, ExceptT.run_mk] at hrun
  rcases hfirst : action.run store with _ | ⟨error | a, middle⟩ <;> rw [hfirst] at hrun
  · cases hrun
  · obtain ⟨b, hb, _⟩ := h _ _ hfirst
    cases hb
  · cases hrun
    exact h _ _ hfirst

end Flows

/-- What comes after an action that does not fail is never reached, if it has no outcome itself. -/
theorem run_bind_eq_none {action : Action α} {f : α → Action β} {store : Store}
    {P : α → Store → Prop} (h : Flows action store P)
    (hf : ∀ a middle, P a middle → (f a).run middle = none) : (action >>= f).run store = none := by
  rw [Computation.run_bind]
  rcases hfirst : action.run store with _ | ⟨error | a, middle⟩
  · rfl
  · obtain ⟨b, hb, _⟩ := h _ _ hfirst
    cases hb
  · obtain ⟨b, hb, hP⟩ := h _ _ hfirst
    cases hb
    exact hf a middle hP

/-- Where the first part has no outcome, there is none. -/
theorem run_bind_eq_none_of_left {action : Action α} {f : α → Action β} {store : Store}
    (h : action.run store = none) : (action >>= f).run store = none := by
  rw [Computation.run_bind, h]
  rfl

/-- Without an outcome nothing is released. -/
theorem run_orRelease_eq_none {action : Action α} {store : Store} {values : List Value}
    (h : action.run store = none) : (action.orRelease values).run store = none := by
  simp only [Action.orRelease, Action.onError, ExceptT.run_mk, h]

namespace Evaluator

variable {evaluator : Evaluator} {links : Table .link Link} {store : Store}

/-- The background context allows everything. -/
theorem flows_check (hcontext : evaluator.context = .background) :
    Flows evaluator.check store fun _ after => after = store :=
  .of_run (run_check hcontext store) rfl

/-- Collecting does not fail if no item does. -/
theorem flows_collect {f : Value → Action Value} {items values : List Value}
    (hstore : store.Drained links)
    (hf : ∀ item ∈ items, ∀ store, Store.Drained links store →
      Flows (f item) store fun _ after => after.Drained links) :
    Flows (selectKeyWithin.collect f items values) store fun _ after => after.Drained links := by
  induction items generalizing values store with
  | nil => exact .pure hstore
  | cons item rest ih =>
    have hitem := hf item List.mem_cons_self store hstore
    refine .bind (hitem.orRelease _) fun value middle hmiddle => ?_
    exact ih hmiddle fun other hmem => hf other (List.mem_cons_of_mem _ hmem)

/-- An entry of a value that can be asked for a key is found. -/
theorem flows_selectEntry (hlenient : evaluator.lenient = true) (hstore : store.Drained links)
    (name : String) {target : Value} (htakes : target.takesKey = true) :
    Flows (evaluator.selectEntry name target) store fun _ after => after.Drained links := by
  have hunsupported (operation : Operation) (input : Value) :
      Flows (evaluator.unsupported operation input) store fun _ after => after.Drained links := by
    rw [unsupported, if_pos hlenient]
    exact .pure hstore
  cases target with
  | map map =>
    have hrun : (evaluator.selectEntry name (.map map)).run store =
        some (.ok (entryUnder name (store.maps.get map).entries),
          store.record (.lookedUp map name)) := by
      rw [selectEntry, Action.run_attempt]
      simp [lookUp, hstore.keyFault_eq, Except.mapError]
    exact .of_run hrun ⟨hstore.links_eq, hstore.remaining_eq, hstore.keyFault_eq⟩
  | mapping entries => exact .pure hstore
  | dict entries => exact .pure hstore
  | sequence _ | link _ | iterator _ | array _ | byteStream _ => cases htakes
  | _ => exact hunsupported _ _

/-- A stream that has run out gives no results. -/
theorem run_spread_of_drained {stream : Handle .stream} {f : Value → Action Value}
    (h : store.remaining stream = []) :
    (spread stream f).run store = some (.ok (.sequence []), store) := by
  rw [run_spread, Store.run_mapEach, h]
  rfl

/-- What is done with the value that a link leads to. -/
theorem flows_resolve (hlenient : evaluator.lenient = true) (name : String) {value : Value}
    {onItems : List Value → Action Value} (hvalue : links.Takes value)
    (hstore : store.Drained links)
    (hitems : ∀ items, links.leadsTo? value = some (.sequence items) →
      (∀ item ∈ items, links.Takes item) →
      Flows (onItems items) store fun _ after => after.Drained links) :
    Flows (evaluator.resolve value >>= evaluator.askTarget name onItems) store
      fun _ after => after.Drained links := by
  cases hvalue with
  | @entry _ target hlead htakes =>
    refine .bind (.of_run (P := fun found after => found = target ∧ after = store)
      (run_resolve_of_some (hstore.links_eq ▸ hlead)) ⟨rfl, rfl⟩) ?_
    rintro _ _ ⟨rfl, rfl⟩
    unfold askTarget
    split
    · cases htakes
    · exact flows_selectEntry hlenient hstore name htakes
  | @items _ items hlead htakes =>
    refine .bind (.of_run (P := fun found after => found = .sequence items ∧ after = store)
      (run_resolve_of_some (hstore.links_eq ▸ hlead)) ⟨rfl, rfl⟩) ?_
    rintro _ _ ⟨rfl, rfl⟩
    exact hitems items hlead htakes

/-- What takes the key does not fail, at any depth. -/
theorem flows_selectKeyWithin (hcontext : evaluator.context = .background)
    (hlenient : evaluator.lenient = true) (name : String) (depth : Nat) {value : Value}
    (hvalue : links.Takes value) (hstore : store.Drained links) :
    Flows (evaluator.selectKeyWithin name depth value) store
      fun _ after => after.Drained links := by
  induction depth, value using ask_induction generalizing store with
  | sequence depth items ih =>
    rw [selectKeyWithin_sequence]
    refine .bind (flows_check hcontext) fun _ same heq => ?_
    rw [heq]
    have hitems := hvalue.items_of_sequence
    refine .bind (flows_collect hstore fun item hmem store => ih item hmem (hitems item hmem)) ?_
    exact fun _ _ hafter => .pure hafter
  | stream depth stream =>
    rw [selectKeyWithin_stream]
    refine .bind (flows_check hcontext) fun _ same heq => ?_
    rw [heq]
    cases depth with
    | zero => exact .of_none rfl
    | succ depth => exact .of_run (run_spread_of_drained (hstore.remaining_eq stream)) hstore
  | other depth value hsequence hstream ih =>
    rw [selectKeyWithin_of_ne name depth hsequence hstream]
    refine .bind (flows_check hcontext) fun _ same heq => ?_
    rw [heq]
    refine flows_resolve hlenient name hvalue hstore fun items _ htakes => ?_
    cases depth with
    | zero => exact .of_none rfl
    | succ depth =>
      refine .bind (flows_collect hstore fun item hmem store => ?_) fun _ _ hafter => .pure hafter
      exact ih depth rfl item (htakes item hmem)

/-- A key that is asked of items never comes back from the first that carries it for ever. -/
theorem run_collect_eq_none {f : Value → Action Value} {before after values : List Value}
    {inner : Value} (hstore : store.Drained links)
    (hbefore : ∀ item ∈ before, ∀ store, Store.Drained links store →
      Flows (f item) store fun _ after => after.Drained links)
    (hinner : ∀ store, Store.Drained links store → (f inner).run store = none) :
    (selectKeyWithin.collect f (before ++ inner :: after) values).run store = none := by
  induction before generalizing values store with
  | nil => exact run_bind_eq_none_of_left (run_orRelease_eq_none (hinner store hstore))
  | cons item rest ih =>
    refine run_bind_eq_none ((hbefore item List.mem_cons_self store hstore).orRelease _)
      fun value middle hmiddle => ?_
    exact ih hmiddle fun other hmem => hbefore other (List.mem_cons_of_mem _ hmem)

/-- What is done with the items that a link leads to. -/
theorem run_resolve_bind_eq_none (name : String) {value : Value}
    {onItems : List Value → Action Value} (hvalue : links.Endless value)
    (hstore : store.Drained links)
    (hitems : ∀ before inner after, (∀ item ∈ before, links.Takes item) → links.Endless inner →
      (onItems (before ++ inner :: after)).run store = none) :
    (evaluator.resolve value >>= evaluator.askTarget name onItems).run store = none := by
  obtain ⟨inner, ⟨before, after, hlead, hbefore⟩, hinner⟩ := hvalue.exists_carries
  rw [Computation.run_bind, run_resolve_of_some (hstore.links_eq ▸ hlead)]
  exact hitems before inner after hbefore hinner

/-- A key that is carried for ever has no outcome at any depth. -/
theorem run_selectKeyWithin_eq_none (hcontext : evaluator.context = .background)
    (hlenient : evaluator.lenient = true) (name : String) (depth : Nat) {value : Value}
    (hvalue : links.Endless value) (hstore : store.Drained links) :
    (evaluator.selectKeyWithin name depth value).run store = none := by
  -- Items that come before do not fail, so that the item which carries the key is reached.
  have hcollect (depth : Nat) {before after : List Value} {inner : Value}
      (hbefore : ∀ item ∈ before, links.Takes item)
      (hinner : ∀ store, Store.Drained links store →
        (evaluator.selectKeyWithin name depth inner).run store = none) {store : Store}
      (hstore : store.Drained links) :
      (selectKeyWithin.collect (evaluator.selectKeyWithin name depth) (before ++ inner :: after)
        []).run store = none :=
    run_collect_eq_none hstore (fun item hmem store =>
      flows_selectKeyWithin hcontext hlenient name depth (hbefore item hmem)) hinner
  induction depth, value using ask_induction generalizing store with
  | sequence depth items ih =>
    rw [selectKeyWithin_sequence]
    refine run_bind_eq_none (flows_check hcontext) fun _ same heq => ?_
    rw [heq]
    obtain ⟨inner, ⟨before, after, hlead, hbefore⟩, hinner⟩ := hvalue.exists_carries
    obtain rfl : items = before ++ inner :: after := by simpa using hlead
    have hmem : inner ∈ before ++ inner :: after := by simp
    refine run_bind_eq_none_of_left (hcollect depth hbefore (fun store => ?_) hstore)
    exact ih inner hmem hinner
  | stream depth stream =>
    obtain ⟨inner, ⟨before, after, hlead, _⟩, _⟩ := hvalue.exists_carries
    cases hlead
  | other depth value hsequence hstream ih =>
    rw [selectKeyWithin_of_ne name depth hsequence hstream]
    refine run_bind_eq_none (flows_check hcontext) fun _ same heq => ?_
    rw [heq]
    refine run_resolve_bind_eq_none name hvalue hstore fun before inner after hbefore hinner => ?_
    cases depth with
    | zero => rfl
    | succ depth =>
      refine run_bind_eq_none_of_left (hcollect depth hbefore (fun store => ?_) hstore)
      exact ih depth rfl inner hinner

/-- A run that asks for a key which is carried for ever has no outcome. -/
theorem run_key_eq_none (hcontext : evaluator.context = .background)
    (hlenient : evaluator.lenient = true) (name : String) {value : Value}
    (hvalue : links.Endless value) (hstore : store.Drained links) :
    evaluator.run [.key name] value store = none := by
  have hkey : (evaluator.apply (.key name) value).run store = none := by
    rw [apply, selectKey, Computation.run_bind]
    exact run_selectKeyWithin_eq_none hcontext hlenient name _ hvalue hstore
  simp only [run, hkey]

end Evaluator

/-- The store with these links, and with as many streams as they refer to, all run out. -/
def Store.ofLinks (links : Table .link Link) : Store where
  links := links
  streams := ⟨Array.replicate
    (Value.sequence (links.cells.toList.filterMap (·.target))).streamBound default⟩

/-- In the store with given links nothing is left in streams. -/
theorem Store.drained_ofLinks (links : Table .link Link) : (Store.ofLinks links).Drained links := by
  refine ⟨rfl, fun stream => ?_, fun map name => rfl⟩
  simp only [remaining, ofLinks, Table.get, Array.getElem?_replicate]
  split <;> rfl

/-- The store with given links has all the streams that they refer to. -/
theorem Store.scoped_ofLinks (links : Table .link Link) : (Store.ofLinks links).Scoped := by
  refine ⟨fun link target htarget => ?_, fun map entry hentry => ?_,
    fun array element helement => ?_, fun iterator => ?_, fun stream element helement => ?_⟩
  · have hle := Value.streamBound_sequence_le.mp
      (Nat.le_refl (Value.sequence (links.cells.toList.filterMap (·.target))).streamBound)
    have hsize : (Store.ofLinks links).streams.size =
        (Value.sequence (links.cells.toList.filterMap (·.target))).streamBound := by
      simp [ofLinks, Table.size]
    rw [hsize]
    simp only [linkTarget?, ofLinks, Table.get] at htarget
    cases hcell : links.cells[link.index]? with
    | none =>
      rw [hcell] at htarget
      cases htarget
      exact Nat.zero_le _
    | some cell =>
      rw [hcell] at htarget
      refine hle target (List.mem_filterMap.mpr ⟨cell, ?_, htarget⟩)
      exact Array.mem_toList_iff.mpr (Array.mem_of_getElem? hcell)
  · cases hentry
  · cases helement
  · exact Iterator.within_default _
  · rw [(Store.drained_ofLinks links).remaining_eq] at helement
    cases helement

/-- On resolved links every run comes to an end exactly if no link carries a key into itself. -/
theorem terminates_iff_not_carries_itself {links : Table .link Link}
    (hresolved : links.Resolved) :
    (∀ (evaluator : Evaluator) (program : Program) (input : Value) (store : Store),
      store.links = links → store.Scoped → input.streamBound ≤ store.streams.size →
      (evaluator.run program input store).isSome = true) ↔
    ∀ link, ¬ Relation.TransGen links.Carries (.link link) (.link link) := by
  constructor
  · intro h link hcycle
    have hrun := h { context := .background } [.key ""] (.link link) (.ofLinks links) rfl
      (Store.scoped_ofLinks links) (Nat.zero_le _)
    rw [Evaluator.run_key_eq_none rfl rfl "" ⟨link, .refl, hcycle⟩
      (Store.drained_ofLinks links)] at hrun
    cases hrun
  · intro hacyclic evaluator program input store hlinks hscope hinput
    exact Evaluator.isSome_run ⟨hresolved, hacyclic⟩ program hlinks hscope hinput

/-- The links of a table with one link, which has a target. -/
def Table.ofTarget (target : Value) : Table .link Link :=
  ⟨#[{ path := "/l", target := some target }]⟩

/-- A link that has a target is resolved. -/
theorem Table.resolved_ofTarget (target : Value) : (ofTarget target).Resolved := by
  intro link
  rcases link with ⟨_ | index⟩ <;> simp [ofTarget, get, default]

/-- A link may lead to a mapping that holds it. -/
theorem terminates_of_link_inside_mapping :
    (Evaluator.run { context := .background } [.key "a", .key "a"] (.link ⟨0⟩)
      (.ofLinks (.ofTarget (.mapping [("a", .link ⟨0⟩)])))).isSome = true := by
  refine (terminates_iff_not_carries_itself (Table.resolved_ofTarget _)).mpr ?_ _ _ _ _ rfl
    (Store.scoped_ofLinks _) (Nat.zero_le _)
  intro link hcycle
  obtain ⟨inner, ⟨before, after, hlead, _⟩, _⟩ := Relation.TransGen.head'_iff.mp hcycle
  rcases link with ⟨_ | index⟩ <;> cases hlead

/-- A link to a sequence that holds it carries every key for ever. -/
theorem run_eq_none_of_link_inside_sequence :
    Evaluator.run { context := .background } [.key "a"] (.link ⟨0⟩)
      (.ofLinks (.ofTarget (.sequence [.link ⟨0⟩]))) = none := by
  have hcarries : (Table.ofTarget (.sequence [.link ⟨0⟩])).Carries (.link ⟨0⟩) (.link ⟨0⟩) :=
    ⟨[], [], rfl, by simp⟩
  exact Evaluator.run_key_eq_none rfl rfl "a" ⟨⟨0⟩, .refl, .single hcarries⟩
    (Store.drained_ofLinks _)

end Sluice
