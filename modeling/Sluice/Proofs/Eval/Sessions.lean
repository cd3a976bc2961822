import Mathlib.Data.List.Chain
import Sluice.Proofs.Eval.Dereferences
import Sluice.Proofs.Eval.Requests

/-!
# Runs that share links

Evaluators run one after the other on one store, each with a program, an input, a resolver and a
context of its own, and between the runs others do with the store what they like (`Session`). All
the while the state of a link changes at most once, when it gets its value. A resolver is asked for
a link only while the link has no value, at the path that the link has, and at most once in a run;
and a fetch that fails, or after which the context does not allow the run to go on, ends the run and
leaves the links as they are (`Session.links_settle`).
-/

namespace Sluice

open Sluice.Store Sluice.Filter

/-- One thing that happens to a store: an operation, or time passes. -/
inductive Store.Change (store after : Store) : Prop
  | step : Step store after → Change store after
  | time (now : Nat) : after = { store with now := now } → Change store after

/-- Any number of things that happen to a store. -/
abbrev Store.Changes : Store → Store → Prop := Relation.ReflTransGen Change

/-- Steps are changes. -/
theorem Store.Steps.changes {store after : Store} (h : Steps store after) : Changes store after :=
  Relation.ReflTransGen.mono (fun _ _ => Change.step) _ _ h

/-- A change gives a value to a link that had none, or leaves it as it is. -/
theorem Store.Change.settles {store after : Store} (h : Change store after) :
    Settles store after := by
  cases h with
  | step hstep => exact hstep.settles
  | time now hafter => exact .of_links_eq (by rw [hafter])

/-- Links settle over stretches one after the other. -/
instance : Trans Settles Settles Settles := ⟨Settles.trans⟩

section Chains

variable {α : Type} {r : α → α → Prop}

/-- What leads from one point to another is put before a chain step by step. -/
theorem exists_chain_of_reflTransGen {first second : α} {rest : List α}
    (hsteps : Relation.ReflTransGen r first second)
    (hchain : (second :: rest).IsChain (Relation.ReflGen r)) :
    ∃ between, (first :: between).IsChain (Relation.ReflGen r) ∧ second :: rest <:+ between := by
  induction hsteps using Relation.ReflTransGen.head_induction_on with
  | refl => exact ⟨second :: rest, List.isChain_cons_cons.mpr ⟨.refl, hchain⟩, List.suffix_refl _⟩
  | @head first next hstep _ ih =>
    obtain ⟨between, hnext, hsuffix⟩ := ih
    exact ⟨next :: between, List.isChain_cons_cons.mpr ⟨.single hstep, hnext⟩,
      hsuffix.trans (List.suffix_cons _ _)⟩

/-- Between the points of a chain each step can be put in. -/
theorem exists_chain_of_chain {first : α} {rest : List α}
    (h : (first :: rest).IsChain (Relation.ReflTransGen r)) :
    ∃ between, (first :: between).IsChain (Relation.ReflGen r) ∧ rest.Sublist between ∧
      (first :: between).getLast? = (first :: rest).getLast? := by
  induction rest generalizing first with
  | nil => exact ⟨[], List.isChain_singleton _, List.Sublist.refl _, rfl⟩
  | cons second rest ih =>
    obtain ⟨hsteps, hrest⟩ := List.isChain_cons_cons.mp h
    obtain ⟨later, hchain, hsublist, hlast⟩ := ih hrest
    obtain ⟨between, hbetween, hsuffix⟩ := exists_chain_of_reflTransGen hsteps hchain
    refine ⟨between, hbetween, (hsublist.cons_cons second).trans hsuffix.sublist, ?_⟩
    obtain ⟨front, rfl⟩ := hsuffix
    rw [List.getLast?_cons_cons, ← hlast, ← List.cons_append, List.getLast?_append_of_ne_nil]
    simp

end Chains

/-- The stores before a request, right behind the fetch, and after the request. -/
def Request.moments (context : Context) (request : Request) : List Store :=
  [request.before, request.behind, request.after context]

/-- From the start of a course to its end things happen one after the other. -/
theorem Course.isChain {evaluator : Evaluator} {α : Type} {store after : Store}
    {requests : List Request} {result : Except EvalError α}
    (h : Course evaluator store requests result after) :
    (store :: (requests.flatMap (Request.moments evaluator.context) ++ [after])).IsChain
      Changes := by
  induction h with
  | quiet hquiet => exact List.isChain_pair.mpr hquiet.steps.changes
  | @granted store after request requests _ _ hquiet hmade _ _ ih =>
    have hkept := request.steps_after evaluator.context
    simp only [List.flatMap_cons, Request.moments, List.cons_append, List.nil_append,
      List.isChain_cons_cons] at ih ⊢
    exact ⟨hquiet.steps.changes, hmade.steps.changes, hkept.changes, ih⟩
  | @refused store after request error hquiet hmade houtcome hlast =>
    simp only [List.flatMap_cons, List.flatMap_nil, Request.moments, List.cons_append,
      List.nil_append, List.isChain_cons_cons, Request.after_of_error houtcome]
    exact ⟨hquiet.steps.changes, hmade.steps.changes, .refl, hlast.steps.changes,
      List.isChain_singleton _⟩

/-- A run of an evaluator, with the stores before and after. -/
structure Run where
  evaluator : Evaluator
  program : Program
  input : Value
  before : Store
  result : Except Failure Value
  after : Store
  run_eq : evaluator.run program input before = some (result, after)

namespace Run

/-- The stores before a run, around each of its requests, and after it. -/
def moments (run : Run) (requests : List Request) : List Store :=
  run.before :: (requests.flatMap (Request.moments run.evaluator.context) ++ [run.after])

/-- Whether requests, oldest first, are all that a run asks of its resolver: each of them is made
while its link has no value and at the path of the link, no link is asked for twice, and after a
request that does not give a value nothing else is asked, links stay as they are and the run fails
for that reason. -/
structure Asks (run : Run) (requests : List Request) : Prop where
  asked_eq : run.after.asked =
    (requests.map fun request => (request.link, request.path)).reverse ++ run.before.asked
  madeBy : ∀ request ∈ requests, request.MadeBy run.evaluator
  nodup : (requests.map Request.link).Nodup
  refused : ∀ request ∈ requests, ∀ error,
    request.outcome run.evaluator.context = .error error →
      requests.getLast? = some request ∧
      (∃ failure, run.result = .error failure ∧ failure.error = error) ∧
      run.after.links = request.behind.links

/-- What a run asks for. -/
theorem exists_asks (run : Run) :
    ∃ requests, run.Asks requests ∧ (run.moments requests).IsChain Changes := by
  obtain ⟨requests, hcourse⟩ := Evaluator.exists_course_of_run run.run_eq
  refine ⟨requests, ⟨hcourse.asked_eq, hcourse.madeBy, hcourse.nodup, ?_⟩, hcourse.isChain⟩
  intro request hmem error houtcome
  obtain ⟨hlast, hresult, hlinks⟩ := hcourse.refused_last hmem houtcome
  refine ⟨hlast, ?_, hlinks⟩
  cases hrun : run.result with
  | error failure =>
    rw [hrun] at hresult
    exact ⟨failure, rfl, Except.error.inj hresult⟩
  | ok value =>
    rw [hrun] at hresult
    cases hresult

end Run

/-- Runs one after the other. Anything may happen to the store before, between and after them. -/
inductive Session : Store → List Run → Store → Prop
  | done {store final : Store} : Changes store final → Session store [] final
  | run {store final : Store} {run : Run} {runs : List Run} : Changes store run.before →
      Session run.after runs final → Session store (run :: runs) final

/-- A session comes with the requests of each run, and its moments follow one another by changes. -/
theorem Session.exists_log {start final : Store} {runs : List Run}
    (h : Session start runs final) :
    ∃ log : List (Run × List Request), log.map Prod.fst = runs ∧
      (∀ entry ∈ log, entry.1.Asks entry.2) ∧
      (start :: (log.flatMap (fun entry => entry.1.moments entry.2) ++ [final])).IsChain
        Changes := by
  induction h with
  | done hchanges => exact ⟨[], rfl, by simp, List.isChain_pair.mpr hchanges⟩
  | @run store final run runs hbefore _ ih =>
    obtain ⟨log, hruns, hasks, hchain⟩ := ih
    obtain ⟨requests, hrequests, hmoments⟩ := run.exists_asks
    refine ⟨(run, requests) :: log, by rw [List.map_cons, hruns],
      List.forall_mem_cons.mpr ⟨hrequests, hasks⟩, ?_⟩
    -- The run's last moment is where the rest of the session starts.
    have hwhole := List.isChain_cons_split.mpr ⟨hmoments, hchain⟩
    simp only [List.flatMap_cons, Run.moments, List.cons_append, List.append_assoc,
      List.nil_append] at hwhole ⊢
    exact List.isChain_cons_cons.mpr ⟨hbefore, hwhole⟩

/-- In a session everything happens one after the other, and the state of a link changes at most
once: whenever it is not what it was, it has got its value and kept its path. The requests of each
run are made while their links have no value, at the paths of the links, and for different links;
and one that does not give a value ends the run and leaves the links as they are. -/
theorem Session.links_settle {start final : Store} {runs : List Run}
    (h : Session start runs final) :
    ∃ (log : List (Run × List Request)) (stores : List Store), log.map Prod.fst = runs ∧
      (∀ entry ∈ log, entry.1.Asks entry.2) ∧
      (log.flatMap fun entry => entry.1.moments entry.2).Sublist stores ∧
      (start :: stores).getLast? = some final ∧
      (start :: stores).IsChain (Relation.ReflGen Change) ∧
      (start :: stores).Pairwise Settles := by
  obtain ⟨log, hruns, hasks, hchain⟩ := h.exists_log
  obtain ⟨stores, hstores, hsublist, hlast⟩ := exists_chain_of_chain hchain
  have hsettles (first second : Store) (hchange : Relation.ReflGen Change first second) :
      Settles first second := by
    cases hchange with
    | refl => exact .refl first
    | single hchange => exact hchange.settles
  refine ⟨log, stores, hruns, hasks, (List.sublist_append_left _ _).trans hsublist, ?_, hstores,
    (hstores.imp hsettles).pairwise⟩
  rw [hlast, List.getLast?_cons, List.getLast?_append]
  rfl

/-- The links that a run asks for can be read off what is recorded of it. -/
theorem Run.Asks.map_link_eq {run : Run} {requests : List Request} (h : run.Asks requests)
    {asked : List (Handle .link × String)} (hasked : run.after.asked = asked ++ run.before.asked) :
    requests.map Request.link = asked.reverse.map Prod.fst := by
  have hmap : (requests.map fun request => (request.link, request.path)).reverse = asked :=
    List.append_cancel_right (h.asked_eq.symm.trans hasked)
  rw [← hmap, List.reverse_reverse, List.map_map]
  rfl

/-- An evaluator whose resolver fails for every link. -/
def Evaluator.fetchingNothing : Evaluator where
  context := .background
  resolver := some ⟨fun _ _ => { answer := .error "unreachable" }⟩

/-- A link that cannot be fetched in the first of three runs is asked for once more in the second
one, `[length, length]`, and no more in the third one. -/
theorem Session.links_settle_after_failed_fetch :
    ∃ (log : List (Run × List Request)) (final : Store),
      Session (.ofLink "/l") (log.map Prod.fst) final ∧
      (∀ entry ∈ log, entry.1.Asks entry.2) ∧
      log.map (fun entry => entry.2.map Request.link) = [[⟨0⟩], [⟨0⟩], []] ∧
      final.linkTarget? ⟨0⟩ = some (.bytes [1, 2]) := by
  let failed : Store := { Store.ofLink "/l" with journal := [.fetched ⟨0⟩ "/l"] }
  let fetched : Store :=
    { links := ⟨#[{ path := "/l", target := some (.bytes [1, 2]) }]⟩
      journal := [.fetched ⟨0⟩ "/l", .fetched ⟨0⟩ "/l"] }
  let first : Run := ⟨.fetchingNothing, [.length], .link ⟨0⟩, .ofLink "/l",
    .error ⟨.resolution "/l" "unreachable", none⟩, failed, rfl⟩
  let second : Run := ⟨.fetchingBytes [], [.array [.length, .length]], .link ⟨0⟩, failed,
    .ok (.sequence [.ofCount 2, .ofCount 2]), fetched, rfl⟩
  let third : Run :=
    ⟨.fetchingNothing, [.length], .link ⟨0⟩, fetched, .ok (.ofCount 2), fetched, rfl⟩
  have hsession : Session (.ofLink "/l") [first, second, third] fetched :=
    .run .refl (.run .refl (.run .refl (.done .refl)))
  obtain ⟨log, _, hruns, hasks, _⟩ := hsession.links_settle
  refine ⟨log, fetched, by rwa [hruns], hasks, ?_, rfl⟩
  obtain ⟨⟨_, asked⟩, _, rfl, rfl, hlater⟩ := List.map_eq_cons_iff.mp hruns
  obtain ⟨⟨_, again⟩, _, rfl, rfl, hlast⟩ := List.map_eq_cons_iff.mp hlater
  obtain ⟨⟨_, never⟩, _, rfl, rfl, hnil⟩ := List.map_eq_cons_iff.mp hlast
  obtain rfl := List.map_eq_nil_iff.mp hnil
  simp only [List.forall_mem_cons] at hasks
  obtain ⟨hfirst, hsecond, hthird, _⟩ := hasks
  have hasked := hfirst.map_link_eq
    (show failed.asked = [(⟨0⟩, "/l")] ++ (Store.ofLink "/l").asked from rfl)
  have hagain := hsecond.map_link_eq
    (show fetched.asked = [(⟨0⟩, "/l")] ++ failed.asked from rfl)
  have hnever := hthird.map_link_eq (show fetched.asked = [] ++ fetched.asked from rfl)
  simp only [List.map_cons, List.map_nil, hasked, hagain, hnever]
  rfl

end Sluice
