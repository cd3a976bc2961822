import Sluice.Proofs.Eval.Pervading
import Sluice.Proofs.Store.Settling

/-!
# What a dereference uses

A link keeps its first value for ever (`linkTarget?_of_steps`), and a dereference of a link that has
one uses it. A dereference that fetches uses what was fetched, and that is what the link keeps
unless somebody resolved the link to something else in the meantime
(`linkTarget?_eq_iff_of_run_resolveLink`). So dereferences of one link that are not overtaken in
this way agree on its value, in one run and in runs after each other (`dereferences_agree`). A
dereference that is overtaken uses a value that the link never has (`exists_overtaken_dereference`).
-/

namespace Sluice

open Sluice.Action Sluice.Filter

/-- A link that there is stays, and keeps the value that it has. -/
theorem Store.linkTarget?_of_steps {store after : Store} (h : Steps store after)
    {link : Handle .link} (hbound : link.index < store.links.size) :
    link.index < after.links.size ∧
      ∀ value, store.linkTarget? link = some value → after.linkTarget? link = some value :=
  ⟨(h.settles link hbound).1, fun _ hvalue => h.settles.linkTarget?_eq hbound hvalue⟩

/-- Whether somebody resolves a link, to something else than the value that is fetched for it, while
it is fetched for a dereference that starts on this store. -/
def Overtaken (evaluator : Evaluator) (link : Handle .link) (value : Value) (before : Store) :
    Prop :=
  before.linkTarget? link = none ∧ ∃ resolver other, evaluator.resolver = some resolver ∧
    (resolver.fetch link (before.linkPath link) before).2.linkTarget? link = some other ∧
    other ≠ value

namespace Evaluator

variable {evaluator : Evaluator} {link : Handle .link} {value : Value} {before behind : Store}

/-- A dereference of a link that has no value fetches one, offers it to the link and uses it. The
context is asked before and after. -/
theorem exists_fetch_of_run_resolveLink (hbefore : before.linkTarget? link = none)
    (h : (evaluator.resolveLink link).run before = some (.ok value, behind)) :
    ∃ resolver fetched, evaluator.resolver = some resolver ∧
      evaluator.context.check before = .ok () ∧
      resolver.fetch link (before.linkPath link) before = (.ok value, fetched) ∧
      evaluator.context.check fetched = .ok () ∧
      behind = (fetched.resolve link value).2 := by
  simp only [resolveLink, Computation.run_bind, run_perform, Computation.next, hbefore] at h
  cases hresolver : evaluator.resolver with
  | none => simp [hresolver] at h
  | some resolver =>
    rw [hresolver] at h
    obtain ⟨_, first, hallowed, hrest⟩ := Computation.run_bind_eq_ok h
    obtain ⟨rfl, hallowed⟩ := run_check_eq_ok hallowed
    obtain ⟨fetched, second, hfetch, hlast⟩ := Computation.run_bind_eq_ok hrest
    obtain ⟨_, third, hagain, hend⟩ := Computation.run_bind_eq_ok hlast
    obtain ⟨rfl, hagain⟩ := run_check_eq_ok hagain
    cases hend
    exact ⟨resolver, third, rfl, hallowed, run_attempt_eq_ok hfetch, hagain, rfl⟩

/-- A dereference uses the value that the link has afterwards, unless it is overtaken. -/
theorem linkTarget?_eq_iff_of_run_resolveLink
    (h : (evaluator.resolveLink link).run before = some (.ok value, behind)) :
    behind.linkTarget? link = some value ↔ ¬ Overtaken evaluator link value before := by
  cases hbefore : before.linkTarget? link with
  | some target =>
    simp only [resolveLink, Computation.run_bind, run_perform, Computation.next, hbefore,
      Computation.run_pure] at h
    cases h
    simp [Overtaken, hbefore]
  | none =>
    obtain ⟨resolver, fetched, hresolver, _, hfetch, _, rfl⟩ :=
      exists_fetch_of_run_resolveLink hbefore h
    rw [Store.linkTarget?_resolve]
    cases hfound : fetched.linkTarget? link with
    | none => simp [Overtaken, hbefore, hresolver, hfetch, hfound]
    | some other => simp [Overtaken, hbefore, hresolver, hfetch, hfound]

end Evaluator

namespace Traced

/-- Whether each dereference that was noted on the way to a store used the value that its link had
right afterwards, unless it was overtaken. -/
def Faithful (evaluator : Evaluator) (state : Store × List Note) : Prop :=
  ∀ link value before behind, .dereferenced link value before behind ∈ state.2 →
    (behind.linkTarget? link = some value ↔ ¬ Overtaken evaluator link value before) ∧
      Store.Steps before behind ∧ Store.Steps behind state.1

variable {evaluator : Evaluator}

/-- A trace stays faithful while the store takes steps. -/
theorem Faithful.of_steps {store after : Store} {trace : List Note}
    (h : Faithful evaluator (store, trace)) (hsteps : Store.Steps store after) :
    Faithful evaluator (after, trace) := by
  intro link value before behind hmem
  obtain ⟨hvalue, hbefore, hbehind⟩ := h link value before behind hmem
  exact ⟨hvalue, hbefore, hbehind.trans hsteps⟩

/-- A trace stays faithful with a further note that is. -/
theorem Faithful.cons {store : Store} {trace : List Note} {note : Note}
    (h : Faithful evaluator (store, trace))
    (hnote : ∀ link value before behind, note = .dereferenced link value before behind →
      (behind.linkTarget? link = some value ↔ ¬ Overtaken evaluator link value before) ∧
        Store.Steps before behind ∧ Store.Steps behind store) :
    Faithful evaluator (store, note :: trace) := by
  intro link value before behind hmem
  rcases List.mem_cons.mp hmem with heq | hrest
  · exact hnote link value before behind heq.symm
  · exact h link value before behind hrest

/-- Whether a computation keeps a trace faithful. -/
abbrev KeepsFaithful (evaluator : Evaluator) {α : Type} (x : Traced α) : Prop :=
  Relates (fun state after => Faithful evaluator state → Faithful evaluator after) x

/-- An action that notes nothing keeps a trace faithful. -/
theorem keepsFaithful_ofAction {α : Type} {action : Action α} (h : Stepwise action) :
    KeepsFaithful evaluator (ofAction action) := by
  rintro ⟨store, trace⟩ result ⟨after, notes⟩ hrun hfaithful
  obtain ⟨haction, rfl⟩ := run_ofAction_eq_some hrun
  exact hfaithful.of_steps (h haction)

/-- A note of dropped values keeps a trace faithful. -/
theorem keepsFaithful_drop (values : List Value) : KeepsFaithful evaluator (drop values) := by
  rintro ⟨store, trace⟩ result after hrun hfaithful
  cases hrun
  exact hfaithful.cons nofun

/-- The start of an application keeps a trace faithful. -/
theorem keepsFaithful_start : KeepsFaithful evaluator (start evaluator) := by
  refine .bind (fun h hnext hfaithful => hnext (h hfaithful)) ?_ fun _ =>
    keepsFaithful_ofAction (Evaluator.stepwise_check evaluator)
  rintro ⟨store, trace⟩ result after hrun hfaithful
  cases hrun
  exact hfaithful.cons nofun

/-- A dereference notes what it used and the store right afterwards. -/
theorem keepsFaithful_resolveLink (link : Handle .link) :
    KeepsFaithful evaluator (resolveLink evaluator link) := by
  rintro ⟨before, trace⟩ result ⟨after, notes⟩ hrun hfaithful
  rcases Computation.run_bind_eq_some hrun with ⟨_, _, hread, hrest⟩ | ⟨_, hread, -⟩ <;> cases hread
  rcases Computation.run_bind_eq_some hrest with ⟨value, ⟨behind, _⟩, hlink, hnoted⟩ | ⟨_, hlink, -⟩
  · obtain ⟨haction, rfl⟩ := run_ofAction_eq_some hlink
    have hsteps := Evaluator.stepwise_resolveLink evaluator link haction
    cases hnoted
    refine (hfaithful.of_steps hsteps).cons ?_
    rintro _ _ _ _ ⟨⟩
    exact ⟨Evaluator.linkTarget?_eq_iff_of_run_resolveLink haction, hsteps, .refl⟩
  · obtain ⟨haction, rfl⟩ := run_ofAction_eq_some hlink
    exact hfaithful.of_steps (Evaluator.stepwise_resolveLink evaluator link haction)

/-- The application of a node keeps a trace faithful. -/
theorem keepsFaithful_apply (node : Node) (input : Value) :
    KeepsFaithful evaluator (apply evaluator node input) := by
  have hpervades := pervades_of_composes evaluator.composes_stepwise (.pure fun _ => id)
    (.throw fun _ => id) (.bind fun h hnext hfaithful => hnext (h hfaithful)) .whileHolding
    keepsFaithful_ofAction keepsFaithful_drop keepsFaithful_start keepsFaithful_resolveLink
  exact hpervades.apply node input

/-- What was noted in a run is faithful. -/
theorem faithful_of_run {program : Program} {input : Value} {store : Store}
    {result : Except Failure Value} {after : Store × List Note}
    (h : runProgram evaluator program input (store, []) = some (result, after)) :
    Faithful evaluator after := by
  have hrelated := relates_runProgram
    (R := fun state after => Faithful evaluator state → Faithful evaluator after)
    (fun h hnext hfaithful => hnext (h hfaithful))
    (fun _ hcleaned hfaithful => hfaithful.of_steps (Store.Quiet.of_cleanUps hcleaned).steps)
    (fun _ _ _ hfaithful => hfaithful.cons nofun) keepsFaithful_apply h
  exact hrelated nofun

/-- Whether a trace tells of a dereference of a link that there is, and that has the value used for
it right afterwards. -/
def Uses (trace : List Note) (link : Handle .link) (value : Value) : Prop :=
  ∃ before behind, .dereferenced link value before behind ∈ trace ∧
    link.index < before.links.size ∧ behind.linkTarget? link = some value

/-- The value that is used for a link and that it has is the value it has for ever. -/
theorem Faithful.linkTarget?_of_uses {state : Store × List Note} {link : Handle .link}
    {value : Value} {after : Store} (h : Faithful evaluator state) (huses : Uses state.2 link value)
    (hsteps : Store.Steps state.1 after) : after.linkTarget? link = some value := by
  obtain ⟨before, behind, hmem, hbound, hvalue⟩ := huses
  obtain ⟨_, hbefore, hbehind⟩ := h link value before behind hmem
  have hthere := (Store.linkTarget?_of_steps hbefore hbound).1
  exact (Store.linkTarget?_of_steps (hbehind.trans hsteps) hthere).2 value hvalue

/-- A use that is told by a trace is told by one part of it or the other. -/
theorem Uses.of_append {trace later : List Note} {link : Handle .link} {value : Value}
    (h : Uses (trace ++ later) link value) : Uses trace link value ∨ Uses later link value := by
  obtain ⟨before, behind, hmem, hlink⟩ := h
  exact (List.mem_append.mp hmem).imp (fun hmem => ⟨before, behind, hmem, hlink⟩)
    fun hmem => ⟨before, behind, hmem, hlink⟩

end Traced

/-- Every dereference in a run uses the value that its link has right afterwards, unless it is
overtaken while it fetches. In two runs, one after the other, all dereferences of one link that use
the value it has use the same one. -/
theorem dereferences_agree {first second : Evaluator} {program other : Program}
    {input next : Value} {store middle start after : Store} {result outcome : Except Failure Value}
    (hfirst : first.run program input store = some (result, middle))
    (hbetween : Store.Steps middle start)
    (hsecond : second.run other next start = some (outcome, after)) :
    ∃ trace later,
      Traced.runProgram first program input (store, []) = some (result, (middle, trace)) ∧
      Traced.runProgram second other next (start, []) = some (outcome, (after, later)) ∧
      (∀ link value before behind, .dereferenced link value before behind ∈ trace →
        (behind.linkTarget? link = some value ↔ ¬ Overtaken first link value before)) ∧
      (∀ link value before behind, .dereferenced link value before behind ∈ later →
        (behind.linkTarget? link = some value ↔ ¬ Overtaken second link value before)) ∧
      ∀ link a b, Traced.Uses (trace ++ later) link a → Traced.Uses (trace ++ later) link b →
        a = b := by
  obtain ⟨trace, htrace⟩ := Traced.exists_trace_of_run hfirst
  obtain ⟨later, hlater⟩ := Traced.exists_trace_of_run hsecond
  have hearly := Traced.faithful_of_run htrace
  have hlate := Traced.faithful_of_run hlater
  have hsteps : Store.Steps middle after := hbetween.trans (Traced.steps_of_runProgram hlater)
  have hends {link : Handle .link} {value : Value}
      (huses : Traced.Uses (trace ++ later) link value) : after.linkTarget? link = some value :=
    huses.of_append.elim (hearly.linkTarget?_of_uses · hsteps)
      (hlate.linkTarget?_of_uses · .refl)
  refine ⟨trace, later, htrace, hlater, fun link value before behind hmem => ?_,
    fun link value before behind hmem => ?_, fun link a b ha hb => ?_⟩
  · exact (hearly link value before behind hmem).1
  · exact (hlate link value before behind hmem).1
  · exact Option.some.inj ((hends ha).symm.trans (hends hb))

/-- An evaluator that fetches two bytes for every link. During a fetch the links named are resolved
to three. -/
def Evaluator.fetchingBytes (overtaken : List (Handle .link)) : Evaluator where
  context := .background
  resolver := some ⟨fun _ _ => {
    resolves := overtaken.map fun link => (link, .ofValue (.bytes [1, 2, 3]))
    answer := .ok (.ofValue (.bytes [1, 2])) }⟩

/-- The store with one link that has no value yet. -/
def Store.ofLink (path : String) : Store := { links := ⟨#[{ path := path }]⟩ }

/-- In `[length, length]` the link is fetched once, and both parts use what it then has; so does
the run after it. -/
theorem dereferences_agree_of_fetched_bytes :
    let middle : Store :=
      { links := ⟨#[{ path := "/l", target := some (.bytes [1, 2]) }]⟩
        journal := [.fetched ⟨0⟩ "/l"] }
    ∃ trace later,
      (Evaluator.fetchingBytes []).run [.array [.length, .length]] (.link ⟨0⟩) (.ofLink "/l") =
        some (.ok (.sequence [.ofCount 2, .ofCount 2]), middle) ∧
      (Evaluator.fetchingBytes []).run [.length] (.link ⟨0⟩) middle =
        some (.ok (.ofCount 2), middle) ∧
      Traced.runProgram (.fetchingBytes []) [.array [.length, .length]] (.link ⟨0⟩)
        (.ofLink "/l", []) = some (.ok (.sequence [.ofCount 2, .ofCount 2]), (middle, trace)) ∧
      Traced.runProgram (.fetchingBytes []) [.length] (.link ⟨0⟩) (middle, []) =
        some (.ok (.ofCount 2), (middle, later)) ∧
      ∀ link a b, Traced.Uses (trace ++ later) link a → Traced.Uses (trace ++ later) link b →
        a = b := by
  intro middle
  have hfirst : (Evaluator.fetchingBytes []).run [.array [.length, .length]] (.link ⟨0⟩)
      (.ofLink "/l") = some (.ok (.sequence [.ofCount 2, .ofCount 2]), middle) := rfl
  have hsecond : (Evaluator.fetchingBytes []).run [.length] (.link ⟨0⟩) middle =
      some (.ok (.ofCount 2), middle) := rfl
  obtain ⟨trace, later, htrace, hlater, _, _, hagree⟩ := dereferences_agree hfirst .refl hsecond
  exact ⟨trace, later, hfirst, hsecond, htrace, hlater, hagree⟩

/-- In `[length, length]` the first part uses the two bytes fetched for a link, which has had three
since the fetch and gives them to the second part. -/
theorem exists_overtaken_dereference :
    ∃ after trace value before behind,
      (Evaluator.fetchingBytes [⟨0⟩]).run [.array [.length, .length]] (.link ⟨0⟩) (.ofLink "/l") =
        some (.ok (.sequence [.ofCount 2, .ofCount 3]), after) ∧
      Traced.runProgram (.fetchingBytes [⟨0⟩]) [.array [.length, .length]] (.link ⟨0⟩)
        (.ofLink "/l", []) =
        some (.ok (.sequence [.ofCount 2, .ofCount 3]), (after, trace)) ∧
      .dereferenced ⟨0⟩ value before behind ∈ trace ∧ behind.linkTarget? ⟨0⟩ ≠ some value := by
  let before : Store := .ofLink "/l"
  let behind : Store :=
    { links := ⟨#[{ path := "/l", target := some (.bytes [1, 2, 3]) }]⟩
      journal := [.fetched ⟨0⟩ "/l"] }
  have htrace : Traced.runProgram (.fetchingBytes [⟨0⟩]) [.array [.length, .length]] (.link ⟨0⟩)
      (.ofLink "/l", []) = some (.ok (.sequence [.ofCount 2, .ofCount 3]), (behind, _)) := rfl
  have hmem : Note.dereferenced ⟨0⟩ (.bytes [1, 2]) before behind ∈
      [Note.dropped [.bytes [1, 2, 3]],
        .dereferenced ⟨0⟩ (.bytes [1, 2, 3]) behind behind, .applied behind,
        .dropped [.bytes [1, 2]], .dereferenced ⟨0⟩ (.bytes [1, 2]) before behind, .applied before,
        .applied before] := by simp
  refine ⟨behind, _, .bytes [1, 2], before, behind, rfl, htrace, hmem, ?_⟩
  simp [behind, Store.linkTarget?, Table.get]

end Sluice
