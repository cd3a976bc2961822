import Sluice.Proofs.Eval.Pervading
import Sluice.Proofs.Store.Promptness

/-!
# Evaluation heeds the context

When the switch of its context is thrown, evaluation asks nothing more of the outside but to read
the element that it has just advanced to, and to close what it holds; and whatever node is applied
after that, the run ends with the error that it was cancelled
(`journal_subsides_of_cancelled`). The reason is that the context is asked at the start of every
application, around every fetch and between advances, and that nothing else is asked of the outside
but while the switch is not thrown (`Heeds`).
-/

namespace Sluice

open Sluice.Action Sluice.Filter Store

variable {α β ε : Type} {switch : Switch} {evaluator : Evaluator}

/-- Whether a switch is not thrown. -/
def Store.Free (switch : Switch) (store : Store) : Prop := store.isThrown switch = false

/-- Whether an action is prompt on stores of the first kind, and leaves one of the second kind if it
succeeds. -/
def Heeds (switch : Switch) (before behind : Store → Prop) (body : Action α) : Prop :=
  ∀ ⦃store result after⦄, before store → body.run store = some (result, after) →
    Prompt switch store after ∧ ∀ a, result = .ok a → behind after

namespace Heeds

variable {before between behind : Store → Prop}

/-- An action heeds the switch on fewer stores, and leaves one of more. -/
theorem weaken {body : Action α} {other last : Store → Prop} (h : Heeds switch before behind body)
    (hbefore : ∀ store, other store → before store) (hbehind : ∀ store, behind store → last store) :
    Heeds switch other last body := by
  intro store result after hstore hrun
  obtain ⟨hprompt, hafter⟩ := h (hbefore store hstore) hrun
  exact ⟨hprompt, fun a hresult => hbehind after (hafter a hresult)⟩

/-- What is prompt is prompt, whatever it leaves behind. -/
theorem any {body : Action α} (h : Heeds switch before behind body) :
    Heeds switch before (fun _ => True) body :=
  h.weaken (fun _ => id) fun _ _ => trivial

/-- Doing nothing heeds the switch. -/
theorem pure (a : α) : Heeds switch before before (Pure.pure a : Action α) := by
  rintro store result after hstore hrun
  cases hrun
  exact ⟨.refl switch store, fun _ _ => hstore⟩

/-- Failing at once heeds the switch and leaves no store. -/
theorem throw (error : EvalError) :
    Heeds switch before behind (MonadExcept.throw error : Action α) := by
  rintro store result after hstore hrun
  cases hrun
  exact ⟨.refl switch store, by simp⟩

/-- A result that is known heeds the switch. -/
theorem ofExcept (result : Except EvalError α) :
    Heeds switch before before (MonadExcept.ofExcept result : Action α) := by
  rintro store result after hstore hrun
  rw [Computation.run_ofExcept] at hrun
  cases hrun
  exact ⟨.refl switch store, fun _ _ => hstore⟩

/-- Reading the store heeds the switch. -/
theorem read (f : Store → α) :
    Heeds switch before before (perform fun store => (f store, store)) := by
  rintro store result after hstore hrun
  cases hrun
  exact ⟨.refl switch store, fun _ _ => hstore⟩

/-- Actions one after the other heed the switch if the first leaves what the second starts from. -/
theorem bind {x : Action α} {f : α → Action β} (hx : Heeds switch before between x)
    (hf : ∀ a, Heeds switch between behind (f a)) : Heeds switch before behind (x >>= f) := by
  intro store result after hstore hrun
  rcases Computation.run_bind_eq_some hrun with ⟨a, middle, hfirst, hrest⟩ | ⟨error, hfirst, rfl⟩
  · obtain ⟨hprompt, hmiddle⟩ := hx hstore hfirst
    obtain ⟨hnext, hafter⟩ := hf a (hmiddle a rfl) hrest
    exact ⟨hprompt.trans hnext, hafter⟩
  · exact ⟨(hx hstore hfirst).1, by simp⟩

/-- Changing the result does not matter. -/
theorem map {x : Action α} (hx : Heeds switch before behind x) (f : α → β) :
    Heeds switch before behind (f <$> x) := by
  rw [map_eq_pure_bind]
  exact hx.bind fun a => .pure (f a)

/-- An operation on the store heeds the switch if it is prompt. -/
theorem perform {operation : Store → α × Store}
    (h : ∀ store, before store → Prompt switch store (operation store).2)
    (hbehind : ∀ store, before store → behind (operation store).2) :
    Heeds switch before behind (Action.perform operation) := by
  intro store result after hstore hrun
  cases hrun
  exact ⟨h store hstore, fun _ _ => hbehind store hstore⟩

/-- An operation that may fail heeds the switch if it is prompt. -/
theorem attempt {toError : ε → EvalError} {operation : Store → Except ε α × Store}
    (h : ∀ store, before store → Prompt switch store (operation store).2)
    (hbehind : ∀ store, before store → behind (operation store).2) :
    Heeds switch before behind (Action.attempt toError operation) := by
  intro store result after hstore hrun
  cases hrun
  exact ⟨h store hstore, fun _ _ => hbehind store hstore⟩

/-- Closing at the end heeds the switch, since closes are allowed after it is thrown. -/
theorem thenClose {body : Action α} {close : Store → Except EvalError Unit × Store}
    (h : Heeds switch before (fun _ => True) body)
    (hclose : ∀ store, CleanUps store (close store).2) :
    Heeds switch before (fun _ => True) (body.thenClose close) := by
  intro store result after hstore hrun
  simp only [Action.thenClose, ExceptT.run_mk] at hrun
  rcases hbody : body.run store with _ | ⟨first, middle⟩ <;> rw [hbody] at hrun <;> cases hrun
  exact ⟨(h hstore hbody).1.trans (.of_cleanUps (hclose middle)), fun _ _ => trivial⟩

end Heeds

namespace Evaluator

/-- A context that allows to go on has a switch that is not thrown. -/
theorem free_of_check (hswitch : evaluator.context.switch = some switch) {store : Store}
    (h : evaluator.context.check store = .ok ()) : store.Free switch := by
  unfold Context.check Context.isCancelled at h
  rw [hswitch] at h
  rcases hthrown : store.isThrown switch with _ | _
  · exact hthrown
  · simp [hthrown] at h

/-- Asking the context refuses while the switch is thrown. -/
theorem heeds_check (hswitch : evaluator.context.switch = some switch) :
    Heeds switch (fun _ => True) (Free switch) evaluator.check := by
  intro store result after _ hrun
  have hsame : after = store := by
    cases hrun
    rfl
  refine ⟨hsame ▸ .refl switch store, fun a hresult => ?_⟩
  subst hresult
  obtain ⟨rfl, hallowed⟩ := run_check_eq_ok hrun
  exact free_of_check hswitch hallowed

/-- Dereferencing a link heeds the switch, as the context is asked before and after the fetch. -/
theorem heeds_resolveLink (hswitch : evaluator.context.switch = some switch)
    {holds : Store → Prop} (hfree : ∀ store, store.Free switch → holds store)
    (link : Handle .link) : Heeds switch holds holds (evaluator.resolveLink link) := by
  have hcheck := heeds_check hswitch
  have hfetch (resolver : Resolver) (path : String) :
      Heeds switch (Free switch) (fun _ => True)
        (Action.attempt (.resolution path) (resolver.fetch link path)) :=
    .attempt (fun store hstore => prompt_fetch hstore resolver link path) fun _ _ => trivial
  have hkeep (value : Value) :
      Heeds switch (Free switch) (Free switch) (Action.perform (Store.resolve link value)) := by
    refine .perform (fun store _ => ?_) fun store hstore => ?_ <;>
      obtain ⟨links, hkept⟩ := resolve_eq link value store <;> rw [hkept]
    · exact .of_eq rfl rfl
    · exact hstore
  unfold resolveLink
  refine (Heeds.read _).bind fun target => ?_
  split
  · exact .pure _
  · refine (Heeds.read _).bind fun path => ?_
    split
    · exact .throw _
    case h_2 resolver _ =>
      have hfetched := hcheck.bind fun _ => (hfetch resolver path).bind fun value =>
        hcheck.bind fun _ => (hkeep value).bind fun _ => .pure value
      exact hfetched.weaken (fun _ _ => trivial) hfree

/-- Resolving a value heeds the switch at every link. -/
theorem heeds_resolve (hswitch : evaluator.context.switch = some switch)
    {holds : Store → Prop} (hfree : ∀ store, store.Free switch → holds store)
    (value : Value) : Heeds switch holds holds (evaluator.resolve value) := by
  unfold resolve
  induction maxLinkDepth generalizing value with
  | zero =>
    cases value with
    | link link => exact (Heeds.read _).bind fun _ => .throw _
    | _ => exact .pure _
  | succ links ih =>
    cases value with
    | link link => exact (heeds_resolveLink hswitch hfree link).bind ih
    | _ => exact .pure _

/-- Whether an action is prompt after an advance, though the advance may have thrown the switch. -/
def HeedsAdvance (switch : Switch) (iterator : Handle .iterator) (body : Action α) : Prop :=
  ∀ ⦃store result after⦄, store.Free switch →
    body.run (store.advance iterator).2 = some (result, after) → Prompt switch store after

/-- What heeds the switch on every store does so after an advance. -/
theorem HeedsAdvance.of_heeds {iterator : Handle .iterator} {body : Action α}
    (h : Heeds switch (fun _ => True) (fun _ => True) body) :
    HeedsAdvance switch iterator body := fun _ _ _ hstore hrun =>
  (prompt_advance hstore iterator).trans (h trivial hrun).1

/-- The element that was advanced to may be read. -/
theorem HeedsAdvance.current_bind {iterator : Handle .iterator} {f : Value → Action β}
    (h : ∀ value, Heeds switch (fun _ => True) (fun _ => True) (f value)) :
    HeedsAdvance switch iterator (current iterator >>= f) := by
  intro store result after hstore hrun
  have hread := prompt_current_advance hstore iterator
  have hbehind {found : Except EvalError Value} {middle : Store}
      (hfirst : (current iterator).run (store.advance iterator).2 = some (found, middle)) :
      middle = ((store.advance iterator).2.current iterator).2 := by
    rw [current, run_attempt] at hfirst
    exact (Prod.mk.inj (Option.some.inj hfirst)).2.symm
  rcases Computation.run_bind_eq_some hrun with ⟨value, middle, hfirst, hrest⟩ | ⟨error, hfirst, _⟩
  · rw [← hbehind hfirst] at hread
    exact hread.trans (h value trivial hrest).1
  · rwa [← hbehind hfirst] at hread

/-- Advancing heeds the switch if what follows is prompt after it. -/
theorem heeds_advance_bind {iterator : Handle .iterator} {f : Bool → Action β}
    (h : ∀ more, HeedsAdvance switch iterator (f more)) :
    Heeds switch (Free switch) (fun _ => True) (advance iterator >>= f) := by
  intro store result after hstore hrun
  rw [Computation.run_bind, advance, run_perform] at hrun
  exact ⟨h _ hstore hrun, fun _ _ => trivial⟩

/-- Closing an iterator at the end heeds the switch. -/
theorem heeds_closingIterator {iterator : Handle .iterator} {before : Store → Prop}
    {body : Action α} (h : Heeds switch before (fun _ => True) body) :
    Heeds switch before (fun _ => True) (closingIterator iterator body) :=
  h.thenClose fun store => .single (.closeIterator store iterator)

/-- Seeking a position heeds the switch, as the context is asked between two advances. -/
theorem heeds_seek (hswitch : evaluator.context.switch = some switch) (iterator : Handle .iterator)
    (position : Int64) (limit skip seen : Nat) :
    Heeds switch (Free switch) (fun _ => True)
      (evaluator.seek iterator position limit skip seen) := by
  induction limit generalizing skip seen with
  | zero => exact .throw _
  | succ limit ih =>
    unfold seek
    refine heeds_advance_bind fun more => ?_
    split
    · cases skip with
      | zero =>
        have hread : HeedsAdvance switch iterator (current iterator >>= pure) :=
          .current_bind Heeds.pure
        rwa [bind_pure] at hread
      | succ skip => exact .of_heeds ((heeds_check hswitch).bind fun _ => ih skip (seen + 1))
    · exact .of_heeds (.throw _)

/-- Reading the element at a position heeds the switch. -/
theorem heeds_nth (hswitch : evaluator.context.switch = some switch) (iterator : Handle .iterator)
    (position : Int64) :
    Heeds switch (Free switch) (fun _ => True) (evaluator.nth iterator position) :=
  heeds_closingIterator <| (Heeds.ofExcept _).bind fun target => (Heeds.read _).bind fun limit =>
    heeds_seek hswitch iterator position limit target 0

/-- Collecting a window heeds the switch, as the context is asked between two advances. -/
theorem heeds_window (hswitch : evaluator.context.switch = some switch)
    (iterator : Handle .iterator) (start : Nat) (stop : Option Nat) (limit position : Nat)
    (collected : List Value) :
    Heeds switch (Free switch) (fun _ => True)
      (evaluator.window iterator start stop limit position collected) := by
  induction limit generalizing position collected with
  | zero => exact (Heeds.pure _).any
  | succ limit ih =>
    have hrest (collected : List Value) := (heeds_check hswitch).bind fun _ =>
      ih (position + 1) collected
    unfold window
    split
    · refine heeds_advance_bind fun more => ?_
      split
      · split
        · rw [bind_map_left]
          exact .current_bind fun value => hrest (value :: collected)
        · exact .of_heeds (hrest collected)
      · exact .of_heeds (.pure _)
    · exact (Heeds.pure _).any

/-- Collecting a range heeds the switch. -/
theorem heeds_collectRange (hswitch : evaluator.context.switch = some switch)
    (iterator : Handle .iterator) (range : Filter.Range) :
    Heeds switch (Free switch) (fun _ => True) (evaluator.collectRange iterator range) := by
  refine heeds_closingIterator ((Heeds.ofExcept _).bind fun bounds => ?_)
  refine (Heeds.read _).bind fun limit => ?_
  exact (heeds_window hswitch iterator bounds.1 bounds.2 limit 0 []).bind fun values => .pure _

/-- Counting on heeds the switch, as the context is asked between two advances. -/
theorem heeds_countFrom (hswitch : evaluator.context.switch = some switch)
    (iterator : Handle .iterator) (limit count : Nat) :
    Heeds switch (Free switch) (fun _ => True) (evaluator.countFrom iterator limit count) := by
  induction limit generalizing count with
  | zero => exact (Heeds.pure _).any
  | succ limit ih =>
    unfold countFrom
    refine heeds_advance_bind fun more => ?_
    split
    · exact .of_heeds ((heeds_check hswitch).bind fun _ => ih (count + 1))
    · exact .of_heeds (.pure _)

/-- Counting the elements heeds the switch. -/
theorem heeds_count (hswitch : evaluator.context.switch = some switch)
    (iterator : Handle .iterator) :
    Heeds switch (Free switch) (fun _ => True) (evaluator.count iterator) :=
  heeds_closingIterator <| (Heeds.read _).bind fun limit => heeds_countFrom hswitch iterator limit 0

/-- Reading bytes heeds the switch and does not throw it. -/
theorem heeds_readWith (read : ByteSource → Except String (List UInt8) × ByteSource)
    (stream : Handle .byteStream) :
    Heeds switch (Free switch) (Free switch)
      (Action.attempt .byteStream (Store.readWith read stream)) := by
  refine .attempt (fun store hstore => prompt_readWith hstore read stream) fun store hstore => ?_
  simp only [Store.readWith]
  split <;> exact hstore

/-- Reading a range of bytes heeds the switch. -/
theorem heeds_readRange (stream : Handle .byteStream) (range : Filter.Range) :
    Heeds switch (Free switch) (fun _ => True) (readRange stream range) := by
  refine .thenClose ?_ fun store => .single (.closeByteStream store stream)
  refine (Heeds.ofExcept _).bind fun bounds => ?_
  refine (heeds_readWith _ stream).bind fun skipped => ?_
  split
  · exact (Heeds.pure _).any
  · refine Heeds.bind ?_ fun content => .pure _
    cases bounds.2 with
    | none | some stop => exact (heeds_readWith _ stream).any

/-- Iterating a collection heeds the switch and does not throw it. -/
theorem heeds_iterateArray (array : Handle .array) :
    Heeds switch (Free switch) (Free switch) (iterateArray array) :=
  .perform (fun _ hstore => prompt_iterateArray hstore array) fun _ hstore => hstore

/-- Making a stream heeds the switch. -/
theorem heeds_newStream {before : Store → Prop} (shape : LazyStream.Shape)
    (elements : List Value) : Heeds switch before (fun _ => True) (newStream shape elements) :=
  (Heeds.perform (fun _ _ => .of_eq rfl rfl) fun _ _ => trivial).bind fun _ => .pure _

/-- Passing over an input that is not supported heeds the switch. -/
theorem heeds_unsupported {before : Store → Prop} (operation : Operation) (input : Value) :
    Heeds switch before (fun _ => True) (evaluator.unsupported operation input) := by
  unfold unsupported
  split
  · exact (Heeds.pure _).any
  · exact .throw _

/-- Rejecting an input heeds the switch, as it only closes. -/
theorem heeds_reject {before behind : Store → Prop} (operation : Operation) (input : Value) :
    Heeds switch before behind (reject operation input) := by
  have hclose : Heeds switch before (fun _ => True)
      (Action.perform fun store => ((), closeHandle input store)) :=
    .perform (fun store _ => .of_cleanUps (cleanUps_closeHandle input store)) fun _ _ => trivial
  exact hclose.bind fun _ => .throw _

/-- Selecting an index heeds the switch. -/
theorem heeds_selectIndex (hswitch : evaluator.context.switch = some switch) (position : Int64)
    (input : Value) :
    Heeds switch (Free switch) (fun _ => True) (evaluator.selectIndex position input) := by
  refine (heeds_resolve hswitch (fun _ => id) input).bind fun target => ?_
  split
  · exact heeds_nth hswitch _ position
  · exact (heeds_iterateArray _).bind fun iterator => heeds_nth hswitch iterator position
  · exact (Heeds.ofExcept _).any
  · exact (Heeds.ofExcept _).any
  · exact (Heeds.ofExcept _).any
  · exact heeds_reject _ _
  · exact heeds_unsupported _ _

/-- Selecting a range heeds the switch. -/
theorem heeds_selectRange (hswitch : evaluator.context.switch = some switch) (range : Filter.Range)
    (input : Value) :
    Heeds switch (Free switch) (fun _ => True) (evaluator.selectRange range input) := by
  unfold selectRange
  split
  · exact (Heeds.pure _).any
  · refine (heeds_resolve hswitch (fun _ => id) input).bind fun target => ?_
    split
    · exact heeds_collectRange hswitch _ range
    · exact (heeds_iterateArray _).bind fun iterator => heeds_collectRange hswitch iterator range
    · exact heeds_readRange _ range
    · exact (Heeds.pure _).any
    · exact (Heeds.pure _).any
    · exact (Heeds.pure _).any
    · exact heeds_unsupported _ _

/-- Taking the length heeds the switch. -/
theorem heeds_length (hswitch : evaluator.context.switch = some switch) (input : Value) :
    Heeds switch (Free switch) (fun _ => True) (evaluator.length input) := by
  have hcount (iterator : Handle .iterator) := (heeds_count hswitch iterator).map Value.ofCount
  have hiterate (map : Handle .map) : Heeds switch (Free switch) (Free switch)
      (Action.perform (Store.iterateMap map)) :=
    .perform (fun _ hstore => prompt_iterateMap hstore map) fun _ hstore => hstore
  refine (heeds_resolve hswitch (fun _ => id) input).bind fun target => ?_
  split
  · exact (Heeds.pure _).any
  · exact (Heeds.pure _).any
  · exact (Heeds.pure _).any
  · exact (Heeds.pure _).any
  · exact (Heeds.pure _).any
  · exact hcount _
  · exact (heeds_iterateArray _).bind hcount
  · exact (hiterate _).bind hcount
  · exact heeds_reject _ _
  · exact heeds_unsupported _ _

/-- The elements of a value that links have led to. -/
theorem heeds_elementsOf (target : Value) :
    Heeds switch (Free switch) (fun _ => True) (Traced.elementsOf target) := by
  cases target with
  | iterator => exact (Heeds.pure _).any
  | array array => exact ((heeds_iterateArray array).bind fun iterator => .pure _).any
  | _ => exact heeds_newStream _ _

/-- Selecting an entry heeds the switch. -/
theorem heeds_selectEntry (name : String) (input : Value) :
    Heeds switch (Free switch) (fun _ => True) (evaluator.selectEntry name input) := by
  unfold selectEntry
  split
  · exact .attempt (fun _ hstore => prompt_lookUp hstore _ name) fun _ _ => trivial
  · exact (Heeds.pure _).any
  · exact (Heeds.pure _).any
  · exact heeds_reject _ _
  · exact heeds_reject _ _
  · exact heeds_reject _ _
  · exact heeds_unsupported _ _

end Evaluator

namespace Traced

/-- Whether a computation is prompt. -/
abbrev IsPrompt (switch : Switch) {α : Type} (body : Traced α) : Prop :=
  Relates (fun state after => Prompt switch state.1 after.1) body

/-- Whether a computation is prompt if it starts while the switch is not thrown. -/
def IsPromptIfFree (switch : Switch) {α : Type} (body : Traced α) : Prop :=
  ∀ ⦃state result after⦄, state.1.Free switch → body.run state = some (result, after) →
    Prompt switch state.1 after.1

/-- An action that only cleans up is prompt. -/
theorem IsPrompt.of_cleanUps {operation : Store → α × Store}
    (h : ∀ store, CleanUps store (operation store).2) :
    IsPrompt switch (ofAction (perform operation)) := by
  rintro ⟨store, trace⟩ result ⟨after, notes⟩ hrun
  cases hrun
  exact .of_cleanUps (h store)

/-- An action that is prompt is so with a trace. -/
theorem IsPrompt.ofAction {action : Action α} {behind : Store → Prop}
    (h : Heeds switch (fun _ => True) behind action) : IsPrompt switch (ofAction action) :=
  fun _ _ _ hrun => (h trivial (run_ofAction_eq_some hrun).1).1

/-- An action that is prompt while the switch is not thrown is so with a trace. -/
theorem IsPromptIfFree.ofAction {action : Action α} {behind : Store → Prop}
    (h : Heeds switch (Free switch) behind action) : IsPromptIfFree switch (ofAction action) :=
  fun _ _ _ hstore hrun => (h hstore (run_ofAction_eq_some hrun).1).1

/-- A result by itself asks nothing of the outside. -/
theorem isPrompt_pure (a : α) : IsPrompt switch (pure a) :=
  .pure (fun state => .refl switch state.1) a

/-- A note asks nothing of the outside. -/
theorem isPrompt_note (f : Store → Note) : IsPrompt switch (note f) := by
  rintro state result after hrun
  cases hrun
  exact .refl switch state.1

/-- Prompt computations one after the other are prompt. -/
theorem IsPrompt.bind {x : Traced α} {f : α → Traced β} (hx : IsPrompt switch x)
    (hf : ∀ a, IsPrompt switch (f a)) : IsPrompt switch (x >>= f) :=
  Relates.bind (fun h hnext => h.trans hnext) hx hf

/-- What follows a prompt computation that leaves the switch as it should be is prompt. -/
theorem IsPrompt.bind_of_heeds {body : Traced α} {action : Action α} {before : Store → Prop}
    {f : α → Traced β} (hbody : IsPrompt switch body) (h : Traces body action)
    (haction : Heeds switch before (Free switch) action)
    (hf : ∀ a, IsPromptIfFree switch (f a)) ⦃state after : Store × List Note⦄
    ⦃result : Except (EvalError × List Value) β⦄ (hstate : before state.1)
    (hrun : (body >>= f).run state = some (result, after)) : Prompt switch state.1 after.1 := by
  rcases Computation.run_bind_eq_some hrun with ⟨a, middle, hfirst, hrest⟩ | ⟨error, hfirst, -⟩
  · obtain ⟨-, hmiddle⟩ := haction hstate (h.run_eq_ok hfirst)
    exact (hbody hfirst).trans (hf a (hmiddle a rfl) hrest)
  · exact hbody hfirst

/-- Dropping values asks nothing of the outside. -/
theorem IsPromptIfFree.drop_bind {values : List Value} {f : Unit → Traced α}
    (h : IsPromptIfFree switch (f ())) : IsPromptIfFree switch (drop values >>= f) := by
  intro state result after hstate hrun
  rw [Computation.run_bind] at hrun
  exact @h (state.1, .dropped values :: state.2) result after hstate hrun

/-- The application of a node starts promptly. -/
theorem isPrompt_start (hswitch : evaluator.context.switch = some switch) :
    IsPrompt switch (start evaluator) :=
  (isPrompt_note _).bind fun _ => .ofAction (Evaluator.heeds_check hswitch)

/-- Links are followed promptly. -/
theorem isPrompt_resolve (hswitch : evaluator.context.switch = some switch) (value : Value) :
    IsPrompt switch (resolve evaluator value) := by
  have hlink (link : Handle .link) : IsPrompt switch (resolveLink evaluator link) :=
    (IsPrompt.of_cleanUps fun _ => .refl).bind fun before =>
      (IsPrompt.ofAction (Evaluator.heeds_resolveLink hswitch (fun _ _ => trivial) link)).bind
        fun value => (isPrompt_note _).bind fun _ => isPrompt_pure value
  have hend (value : Value) : IsPrompt switch (ofAction (evaluator.follow 0 value)) := by
    have hfollow : Heeds switch (fun _ => True) (fun _ => True) (evaluator.follow 0 value) := by
      cases value with
      | link link => exact (Heeds.read _).bind fun _ => .throw _
      | _ => exact .pure _
    exact .ofAction hfollow
  unfold resolve
  induction maxLinkDepth generalizing value with
  | zero => exact hend value
  | succ links ih =>
    cases value with
    | link link => exact (hlink link).bind ih
    | _ => exact .ofAction (.pure _)

/-- What follows after links have been followed may rely on a switch that is not thrown. -/
theorem IsPromptIfFree.resolve_bind (hswitch : evaluator.context.switch = some switch)
    {f : Value → Traced α} (value : Value) (hf : ∀ target, IsPromptIfFree switch (f target)) :
    IsPromptIfFree switch (resolve evaluator value >>= f) := fun _ _ _ hstate hrun =>
  (isPrompt_resolve hswitch value).bind_of_heeds (traces_resolve evaluator value)
    (Evaluator.heeds_resolve hswitch (fun _ => id) value) hf hstate hrun

/-- Whatever an evaluation asks of the outside is prompt. -/
theorem pervades_isPrompt (hswitch : evaluator.context.switch = some switch) :
    Pervades evaluator (IsPrompt switch) (IsPromptIfFree switch) where
  pure := isPrompt_pure
  bind := .bind
  whileHolding := .whileHolding
  read _ := .of_cleanUps fun _ => .refl
  pull stream := .of_cleanUps fun store => .single (.pull store stream)
  diverge := nofun
  drop values := isPrompt_note _
  arithmetic left operator right := by
    refine (isPrompt_resolve hswitch left).bind fun left => ?_
    refine IsPrompt.bind (.whileHolding [left] (isPrompt_resolve hswitch right)) fun right => ?_
    split
    · exact isPrompt_pure _
    · exact .throw (fun state => .refl switch state.1) _
  relax h := fun _ _ _ _ hrun => h hrun
  start hf := fun _ _ _ hrun => (isPrompt_start hswitch).bind_of_heeds (.start evaluator)
    (Evaluator.heeds_check hswitch) (fun _ => hf) trivial hrun
  resolve value _ hf := .resolve_bind hswitch value hf
  iterateAll input := by
    cases input with
    | stream stream => exact .ofAction (Evaluator.heeds_newStream _ _)
    | _ => exact .resolve_bind hswitch _ fun target => .ofAction (Evaluator.heeds_elementsOf target)
  length input := .resolve_bind hswitch input fun target =>
    .drop_bind (.ofAction (Evaluator.heeds_length hswitch target))
  selectIndex position input := .resolve_bind hswitch input fun target =>
    .drop_bind (.ofAction (Evaluator.heeds_selectIndex hswitch position target))
  selectRange range input := by
    unfold selectRange
    split
    · exact fun _ _ _ _ hrun => isPrompt_pure input hrun
    · exact .resolve_bind hswitch input fun target =>
        .drop_bind (.ofAction (Evaluator.heeds_selectRange hswitch range target))
  selectEntry name target := .drop_bind (.ofAction (Evaluator.heeds_selectEntry name target))

/-- What a run asks of the outside is prompt. -/
theorem prompt_of_runProgram (hswitch : evaluator.context.switch = some switch)
    {program : Program} {input : Value} {state after : Store × List Note}
    {result : Except Failure Value}
    (h : runProgram evaluator program input state = some (result, after)) :
    Prompt switch state.1 after.1 :=
  relates_runProgram (R := fun state after => Prompt switch state.1 after.1)
    (fun h hnext => h.trans hnext) (fun _ hcleaned => .of_cleanUps hcleaned)
    (fun store _ _ => .refl switch store) (pervades_isPrompt hswitch).apply h

/-- Whether a trace tells of an application that started while the switch was thrown. -/
def StartsLate (switch : Switch) (trace : List Note) : Prop :=
  ∃ store, .applied store ∈ trace ∧ store.isThrown switch = true

/-- Whether a computation that starts an application while the switch is thrown fails for that
reason. -/
def EndsCancelled (switch : Switch) {α : Type} (body : Traced α) : Prop :=
  ∀ ⦃state result after⦄, body.run state = some (result, after) →
    ∃ new, after.2 = new ++ state.2 ∧
      (StartsLate switch new → ∃ held, result = .error (.context .cancelled, held))

/-- A late start is told by one part of a trace or the other. -/
theorem startsLate_append {first second : List Note} :
    StartsLate switch (first ++ second) ↔ StartsLate switch first ∨ StartsLate switch second := by
  simp only [StartsLate, List.mem_append, or_and_right, exists_or]

/-- A computation that starts no application late has nothing to show. -/
theorem EndsCancelled.of_not_startsLate {body : Traced α}
    (h : ∀ ⦃state result after⦄, body.run state = some (result, after) →
      ∃ new, after.2 = new ++ state.2 ∧ ¬ StartsLate switch new) : EndsCancelled switch body := by
  intro state result after hrun
  obtain ⟨new, htrace, hnew⟩ := h hrun
  exact ⟨new, htrace, fun hlate => absurd hlate hnew⟩

/-- No note tells of no late start. -/
theorem not_startsLate_nil : ¬ StartsLate switch [] := by simp [StartsLate]

/-- Doing nothing starts no application. -/
theorem EndsCancelled.pure (a : α) : EndsCancelled switch (Pure.pure a : Traced α) := by
  refine .of_not_startsLate fun state result after hrun => ?_
  cases hrun
  exact ⟨[], rfl, not_startsLate_nil⟩

/-- An error by itself starts nothing. -/
theorem EndsCancelled.throw (failure : EvalError × List Value) :
    EndsCancelled switch (MonadExcept.throw failure : Traced α) := by
  refine .of_not_startsLate fun state result after hrun => ?_
  cases hrun
  exact ⟨[], rfl, not_startsLate_nil⟩

/-- A part that starts an application late fails, and then nothing comes after it. -/
theorem EndsCancelled.bind {x : Traced α} {f : α → Traced β} (hx : EndsCancelled switch x)
    (hf : ∀ a, EndsCancelled switch (f a)) : EndsCancelled switch (x >>= f) := by
  intro state result after hrun
  rcases Computation.run_bind_eq_some hrun with ⟨a, middle, hfirst, hrest⟩ | ⟨error, hfirst, rfl⟩
  · obtain ⟨new, htrace, hnew⟩ := hx hfirst
    obtain ⟨more, hnext, hmore⟩ := hf a hrest
    refine ⟨more ++ new, by rw [hnext, htrace, List.append_assoc], fun hlate => ?_⟩
    rcases startsLate_append.mp hlate with hlate | hlate
    · exact hmore hlate
    · obtain ⟨held, hresult⟩ := hnew hlate
      cases hresult
  · obtain ⟨new, htrace, hnew⟩ := hx hfirst
    refine ⟨new, htrace, fun hlate => ?_⟩
    obtain ⟨held, hresult⟩ := hnew hlate
    cases hresult
    exact ⟨held, rfl⟩

/-- Holding values starts nothing. -/
theorem EndsCancelled.whileHolding (values : List Value) {x : Traced α}
    (hx : EndsCancelled switch x) : EndsCancelled switch (Traced.whileHolding values x) := by
  intro state result after hrun
  obtain ⟨⟨found, middle⟩, hbody, heq⟩ := Option.map_eq_some_iff.mp hrun
  cases heq
  obtain ⟨new, htrace, hnew⟩ := hx hbody
  refine ⟨new, htrace, fun hlate => ?_⟩
  obtain ⟨held, rfl⟩ := hnew hlate
  exact ⟨held ++ values, rfl⟩

/-- An action on one input starts no application. -/
theorem EndsCancelled.ofAction (action : Action α) :
    EndsCancelled switch (Traced.ofAction action) := by
  refine .of_not_startsLate fun state result after hrun => ?_
  exact ⟨[], (run_ofAction_eq_some hrun).2, not_startsLate_nil⟩

/-- Dropping values starts no application. -/
theorem EndsCancelled.drop (values : List Value) : EndsCancelled switch (Traced.drop values) := by
  refine .of_not_startsLate fun state result after hrun => ?_
  cases hrun
  exact ⟨[.dropped values], rfl, by simp [StartsLate]⟩

/-- An application that starts while the switch is thrown is refused. -/
theorem EndsCancelled.start (hswitch : evaluator.context.switch = some switch) :
    EndsCancelled switch (Traced.start evaluator) := by
  rintro ⟨store, trace⟩ result after hrun
  cases hrun
  refine ⟨[.applied store], rfl, ?_⟩
  rintro ⟨started, hmem, hthrown⟩
  obtain rfl : started = store := by simpa using hmem
  simp [Context.check, Context.isCancelled, hswitch, hthrown, Except.mapError]

/-- Dereferencing a link starts no application. -/
theorem EndsCancelled.resolveLink (link : Handle .link) :
    EndsCancelled switch (Traced.resolveLink evaluator link) := by
  refine .bind (.ofAction _) fun before => .bind (.ofAction _) fun value => ?_
  refine .bind ?_ fun _ => .pure _
  refine .of_not_startsLate fun state result after hrun => ?_
  cases hrun
  exact ⟨[_], rfl, by simp [StartsLate]⟩

/-- An application that starts late fails as cancelled, and so does one that it is part of. -/
theorem endsCancelled_apply (hswitch : evaluator.context.switch = some switch) (node : Node)
    (input : Value) : EndsCancelled switch (apply evaluator node input) :=
  (pervades_of_composes evaluator.composes_stepwise .pure .throw .bind .whileHolding
    (fun _ => .ofAction _) .drop (.start hswitch) .resolveLink).apply node input

section Run

variable {program : Program} {value : Value} {state after : Store × List Note}
  {result : Except Failure Value}

/-- A stage that succeeds has started no application late. -/
theorem exists_notes_of_stage (hswitch : evaluator.context.switch = some switch) {node : Node}
    {next : Value} {middle : Store × List Note} {P : Prop}
    (hnode : (apply evaluator node value).run state = some (.ok next, middle))
    (hrest : ∃ new, after.2 = new ++ middle.2 ∧ (StartsLate switch new → P)) :
    ∃ new, after.2 = new ++ state.2 ∧ (StartsLate switch new → P) := by
  obtain ⟨new, htrace, hnew⟩ := endsCancelled_apply hswitch node value hnode
  obtain ⟨more, hnext, hmore⟩ := hrest
  refine ⟨more ++ new, by rw [hnext, htrace, List.append_assoc], fun hlate => ?_⟩
  refine (startsLate_append.mp hlate).elim hmore fun hfirst => ?_
  obtain ⟨held, hresult⟩ := hnew hfirst
  cases hresult

/-- A stage that starts an application late fails for that reason. -/
theorem exists_notes_of_failed_stage (hswitch : evaluator.context.switch = some switch)
    {node : Node} {error : EvalError} {held others : List Value} {store : Store} {trace : List Note}
    (hnode : (apply evaluator node value).run state = some (.error (error, held), (store, trace))) :
    ∃ new, .failed store others :: trace = new ++ state.2 ∧
      (StartsLate switch new → error = .context .cancelled) := by
  obtain ⟨new, htrace, hnew⟩ := endsCancelled_apply hswitch node value hnode
  refine ⟨.failed store others :: new, congrArg _ htrace, fun hlate => ?_⟩
  obtain ⟨_, hresult⟩ := hnew (by simpa [StartsLate] using hlate)
  cases hresult
  rfl

/-- A run in which an application starts late fails as cancelled. -/
theorem endsCancelled_continueRun (hswitch : evaluator.context.switch = some switch)
    (h : continueRun evaluator program value state = some (result, after)) :
    ∃ new, after.2 = new ++ state.2 ∧ (StartsLate switch new →
      ∃ output, result = .error ⟨.context .cancelled, output⟩) := by
  induction program generalizing value state with
  | nil =>
    cases h
    exact ⟨[], rfl, fun hlate => absurd hlate not_startsLate_nil⟩
  | cons node rest ih =>
    simp only [continueRun] at h
    rcases hnode : (apply evaluator node value).run state with
      _ | ⟨⟨error, held⟩ | next, store, trace⟩ <;> rw [hnode] at h
    · cases h
    · cases h
      obtain ⟨new, htrace, hnew⟩ := exists_notes_of_failed_stage hswitch hnode
      exact ⟨new, htrace, fun hlate => ⟨_, by rw [hnew hlate]⟩⟩
    · exact exists_notes_of_stage hswitch hnode (ih h)

/-- A run in which an application starts while the switch is thrown fails for that reason. -/
theorem endsCancelled_runProgram (hswitch : evaluator.context.switch = some switch)
    (h : runProgram evaluator program value state = some (result, after)) :
    ∃ new, after.2 = new ++ state.2 ∧ (StartsLate switch new →
      ∃ output, result = .error ⟨.context .cancelled, output⟩) := by
  cases program with
  | nil => exact endsCancelled_continueRun hswitch h
  | cons node rest =>
    simp only [runProgram] at h
    rcases hnode : (apply evaluator node value).run state with
      _ | ⟨⟨error, held⟩ | next, store, trace⟩ <;> rw [hnode] at h
    · cases h
    · cases h
      obtain ⟨new, htrace, hnew⟩ := exists_notes_of_failed_stage hswitch hnode
      exact ⟨new, htrace, fun hlate => ⟨none, by rw [hnew hlate]⟩⟩
    · exact exists_notes_of_stage hswitch hnode (endsCancelled_continueRun hswitch h)

end Run

end Traced

/-- What a run asks of the outside after its switch was thrown subsides: nothing but closes if it
was thrown before the run; if it is thrown by a fetch or by an advance, the rest of the fetch or one
reading of the element just advanced to comes before them. A run in which an application starts
after that ends with the error that it was cancelled. -/
theorem journal_subsides_of_cancelled {evaluator : Evaluator} {switch : Switch} {program : Program}
    {input : Value} {store after : Store} {result : Except Failure Value}
    (hswitch : evaluator.context.switch = some switch)
    (h : evaluator.run program input store = some (result, after)) :
    (store.isThrown switch = true → ∃ closes, after.journal = closes ++ store.journal ∧
      ∀ event ∈ closes, event.IsClose) ∧
    (∀ later earlier, after.journal = later ++ .cancelled switch :: (earlier ++ store.journal) →
      Subsides (earlier ++ store.journal) later) ∧
    (after.isThrown switch = true ↔ store.isThrown switch = true ∨
      ∃ later earlier, after.journal = later ++ .cancelled switch :: (earlier ++ store.journal)) ∧
    ∃ trace, Traced.runProgram evaluator program input (store, []) =
        some (result, (after, trace)) ∧
      ((∃ started, .applied started ∈ trace ∧ started.isThrown switch = true) →
        ∃ output, result = .error ⟨.context .cancelled, output⟩) := by
  obtain ⟨trace, htrace⟩ := Traced.exists_trace_of_run h
  obtain ⟨new, hjournal, hthrown, hcloses, hsubsides⟩ := Traced.prompt_of_runProgram hswitch htrace
  obtain ⟨notes, hnotes, hlate⟩ := Traced.endsCancelled_runProgram hswitch htrace
  obtain rfl : trace = notes := by simpa using hnotes
  have hsplit {later earlier : List Event} :
      after.journal = later ++ .cancelled switch :: (earlier ++ store.journal) ↔
        new = later ++ .cancelled switch :: earlier := by
    rw [hjournal, ← List.cons_append, ← List.append_assoc]
    exact List.append_left_inj store.journal
  refine ⟨fun hstore => ⟨new, hjournal, hcloses hstore⟩, fun later earlier heq => ?_, ?_,
    trace, htrace, hlate⟩
  · exact hsubsides later earlier (hsplit.mp heq)
  · rw [hthrown, List.mem_iff_append]
    simp only [hsplit]

/-- In `length | "x"` the last advance of an iterator without elements throws the switch. The length
is still known then, the iterator is closed, and the second stage is refused. -/
theorem journal_subsides_of_last_advance :
    let evaluator : Evaluator := { context := .withCancel ⟨0⟩ }
    let store : Store :=
      { arrays := ⟨#[{ elements := [], behaviour := { cancels := fun _ => some ⟨0⟩ } }]⟩ }
    let earlier : List Event := [.advanced ⟨0⟩, .iteratedArray ⟨0⟩ ⟨0⟩]
    ∃ after trace,
      evaluator.run [.length, .text "x"] (.array ⟨0⟩) store =
        some (.error ⟨.context .cancelled, some (.ofCount 0)⟩, after) ∧
      after.journal = [.closedIterator ⟨0⟩] ++ .cancelled ⟨0⟩ :: (earlier ++ store.journal) ∧
      Subsides (earlier ++ store.journal) [.closedIterator ⟨0⟩] ∧
      Traced.runProgram evaluator [.length, .text "x"] (.array ⟨0⟩) (store, []) =
        some (.error ⟨.context .cancelled, some (.ofCount 0)⟩, (after, trace)) := by
  intro evaluator store earlier
  have hrun : evaluator.run [.length, .text "x"] (.array ⟨0⟩) store =
      some (.error ⟨.context .cancelled, some (.ofCount 0)⟩, _) := rfl
  obtain ⟨_, hsubsides, _, trace, htrace, _⟩ := journal_subsides_of_cancelled rfl hrun
  exact ⟨_, trace, hrun, rfl, hsubsides _ _ rfl, htrace⟩

end Sluice
