import Sluice.Proofs.Eval.Pervading

/-!
# What is asked of a resolver

Whatever evaluation does, links come into it in one way: a link without a value is asked of the
resolver, at its own path. If a value comes back and the context still allows it, the link keeps the
value and evaluation goes on; otherwise that request is the last one, its error is the result, and
nothing happens to links any more (`Course`). So no link is asked for twice (`Course.nodup`).
-/

namespace Sluice

open Sluice.Store Sluice.Filter

/-- A link that is asked of a resolver, with the store before, the answer and the store behind
it. -/
structure Request where
  link : Handle .link
  before : Store
  answer : Except String Value
  behind : Store

namespace Request

/-- The path that the link has. -/
def path (request : Request) : String := request.before.linkPath request.link

/-- What comes of a request: its value, or the failure of the fetch, or the reason why the context
does not allow evaluation to go on after it. -/
def outcome (request : Request) (context : Context) : Except EvalError Value :=
  match request.answer with
  | .error reason => .error (.resolution request.path reason)
  | .ok value =>
    match context.check request.behind with
    | .error error => .error (.context error)
    | .ok () => .ok value

/-- The store after a request: a value that comes of it is kept as that of the link. -/
def after (request : Request) (context : Context) : Store :=
  match request.outcome context with
  | .error _ => request.behind
  | .ok value => (request.behind.resolve request.link value).2

/-- Whether an evaluator makes a request: the link has no value, the context allows it, and the
resolver is asked for the link at its path. -/
structure MadeBy (request : Request) (evaluator : Evaluator) : Prop where
  unresolved : request.before.linkTarget? request.link = none
  allowed : evaluator.context.check request.before = .ok ()
  fetched : ∃ resolver, evaluator.resolver = some resolver ∧
    resolver.fetch request.link request.path request.before = (request.answer, request.behind)

variable {request : Request} {evaluator : Evaluator} {context : Context} {value : Value}
  {error : EvalError}

/-- A request that gives a value leaves it with the link. -/
theorem after_of_ok (h : request.outcome context = .ok value) :
    request.after context = (request.behind.resolve request.link value).2 := by
  rw [after, h]

/-- A request that gives no value leaves the store as the fetch has left it. -/
theorem after_of_error (h : request.outcome context = .error error) :
    request.after context = request.behind := by
  rw [after, h]

/-- Keeping the value of a request takes steps. -/
theorem steps_after (request : Request) (context : Context) :
    Steps request.behind (request.after context) := by
  cases houtcome : request.outcome context with
  | error error => rw [after_of_error houtcome]
  | ok value =>
    rw [after_of_ok houtcome]
    exact (Step.resolve request.behind request.link value).steps

/-- A link that a request gives a value has one from then on. -/
theorem exists_linkTarget?_after (h : request.outcome context = .ok value) :
    ∃ target, (request.after context).linkTarget? request.link = some target := by
  rw [after_of_ok h, linkTarget?_resolve]
  exact ⟨_, rfl⟩

/-- Resolving is no request of its own. -/
theorem asked_after (request : Request) (context : Context) :
    (request.after context).asked = request.behind.asked := by
  cases houtcome : request.outcome context with
  | error error => rw [after_of_error houtcome]
  | ok value =>
    obtain ⟨links, hlinks⟩ := resolve_eq request.link value request.behind
    rw [after_of_ok houtcome, hlinks]
    rfl

namespace MadeBy

/-- A request takes steps. -/
theorem steps (h : request.MadeBy evaluator) : Steps request.before request.behind := by
  obtain ⟨resolver, _, hfetch⟩ := h.fetched
  have hsteps := steps_fetch resolver request.link request.path request.before
  rwa [hfetch] at hsteps

/-- What a fetch records is the request. -/
theorem asked_eq (h : request.MadeBy evaluator) :
    request.behind.asked = (request.link, request.path) :: request.before.asked := by
  obtain ⟨resolver, _, hfetch⟩ := h.fetched
  obtain ⟨switches, links, hbehind⟩ := exists_fetch_eq resolver request.link request.path
    request.before
  simp only [hfetch] at hbehind
  have hnone : (switches.map Event.cancelled).filterMap Event.asked? = [] := by
    simp [List.filterMap_eq_nil_iff, Event.asked?]
  simp only [asked, hbehind, List.filterMap_append, hnone, List.nil_append]
  rfl

end MadeBy

end Request

/-- How evaluation gets from one store to another and to a result, as far as links are concerned: by
requests, oldest first. The value of a request that is granted is kept, and the error of a request
that is refused is the result. -/
inductive Course (evaluator : Evaluator) {α : Type} :
    Store → List Request → Except EvalError α → Store → Prop
  | quiet {store after : Store} {result : Except EvalError α} :
      Quiet store after → Course evaluator store [] result after
  | granted {store after : Store} {request : Request} {requests : List Request} {value : Value}
      {result : Except EvalError α} :
      Quiet store request.before → request.MadeBy evaluator →
      request.outcome evaluator.context = .ok value →
      Course evaluator (request.after evaluator.context) requests result after →
      Course evaluator store (request :: requests) result after
  | refused {store after : Store} {request : Request} {error : EvalError} :
      Quiet store request.before → request.MadeBy evaluator →
      request.outcome evaluator.context = .error error → Quiet request.behind after →
      Course evaluator store [request] (.error error) after

namespace Course

variable {evaluator : Evaluator} {α β : Type} {store middle after : Store}
  {requests later : List Request} {result : Except EvalError α} {other : Except EvalError β}

/-- What becomes of a result does not matter, as long as an error stays. -/
theorem congr (h : Course evaluator store requests result after)
    (hother : ∀ error, result = .error error → other = .error error) :
    Course evaluator store requests other after := by
  induction h with
  | quiet hquiet => exact .quiet hquiet
  | granted hquiet hmade houtcome _ ih => exact .granted hquiet hmade houtcome (ih hother)
  | refused hquiet hmade houtcome hlast =>
    rw [hother _ rfl]
    exact .refused hquiet hmade houtcome hlast

/-- A course goes on quietly at its end. -/
theorem then_quiet (h : Course evaluator store requests result middle)
    (hquiet : Quiet middle after) :
    Course evaluator store requests result after := by
  induction h with
  | quiet hfirst => exact .quiet (hfirst.trans hquiet)
  | granted hfirst hmade houtcome _ ih => exact .granted hfirst hmade houtcome (ih hquiet)
  | refused hfirst hmade houtcome hlast =>
    exact .refused hfirst hmade houtcome (hlast.trans hquiet)

/-- A course may start quietly. -/
theorem of_quiet (hquiet : Quiet store middle) (h : Course evaluator middle requests result after) :
    Course evaluator store requests result after := by
  cases h with
  | quiet hnext => exact .quiet (hquiet.trans hnext)
  | granted hnext hmade houtcome hrest => exact .granted (hquiet.trans hnext) hmade houtcome hrest
  | refused hnext hmade houtcome hlast => exact .refused (hquiet.trans hnext) hmade houtcome hlast

/-- After a success evaluation goes on, since then every request has been granted. -/
theorem append {a : α} (h : Course evaluator store requests (.ok a) middle)
    (hnext : Course evaluator middle later other after) :
    Course evaluator store (requests ++ later) other after := by
  generalize hresult : (Except.ok a : Except EvalError α) = first at h
  induction h with
  | quiet hquiet => exact hnext.of_quiet hquiet
  | granted hquiet hmade houtcome _ ih => exact .granted hquiet hmade houtcome (ih hnext hresult)
  | refused => cases hresult

/-- A course takes steps. -/
theorem steps (h : Course evaluator store requests result after) : Steps store after := by
  induction h with
  | quiet hquiet => exact hquiet.steps
  | @granted _ _ request _ _ _ hquiet hmade _ _ ih =>
    have hrequest := hmade.steps.trans (request.steps_after evaluator.context)
    exact (hquiet.steps.trans hrequest).trans ih
  | refused hquiet hmade _ hlast => exact (hquiet.steps.trans hmade.steps).trans hlast.steps

/-- Every request of a course is made by the evaluator. -/
theorem madeBy (h : Course evaluator store requests result after) :
    ∀ request ∈ requests, request.MadeBy evaluator := by
  induction h with
  | quiet => simp
  | granted _ hmade _ _ ih => exact List.forall_mem_cons.mpr ⟨hmade, ih⟩
  | refused _ hmade _ _ => simpa using hmade

/-- The requests are all that is recorded of fetches. -/
theorem asked_eq (h : Course evaluator store requests result after) :
    after.asked = (requests.map fun request => (request.link, request.path)).reverse ++
      store.asked := by
  induction h with
  | quiet hquiet => exact hquiet.asked_eq
  | granted hquiet hmade _ _ ih =>
    rw [ih, Request.asked_after, hmade.asked_eq, hquiet.asked_eq]
    simp
  | refused hquiet hmade _ hlast =>
    rw [hlast.asked_eq, hmade.asked_eq, hquiet.asked_eq]
    rfl

/-- Each request is made later than the start. -/
theorem steps_before (h : Course evaluator store requests result after) :
    ∀ request ∈ requests, Steps store request.before := by
  induction h with
  | quiet => simp
  | @granted _ _ request _ _ _ hquiet hmade _ _ ih =>
    have hrequest := hmade.steps.trans (request.steps_after evaluator.context)
    refine List.forall_mem_cons.mpr ⟨hquiet.steps, fun other hmem => ?_⟩
    exact (hquiet.steps.trans hrequest).trans (ih other hmem)
  | refused hquiet _ _ _ => simpa using hquiet.steps

/-- No link is asked for twice: a link that was granted has a value when the others are asked
for. -/
theorem nodup (h : Course evaluator store requests result after) :
    (requests.map Request.link).Nodup := by
  induction h with
  | quiet => exact List.nodup_nil
  | refused => exact List.nodup_singleton _
  | @granted _ _ request requests _ _ _ hmade houtcome hrest ih =>
    refine List.nodup_cons.mpr ⟨fun hmem => ?_, ih⟩
    obtain ⟨other, hother, hlink⟩ := List.mem_map.mp hmem
    obtain ⟨target, htarget⟩ := Request.exists_linkTarget?_after houtcome
    have hbound : request.link.index < (request.after evaluator.context).links.size := by
      have hbefore := lt_size_of_linkTarget?_eq_none hmade.unresolved
      have hsteps : Steps request.before (request.after evaluator.context) :=
        hmade.steps.trans (request.steps_after evaluator.context)
      exact (hsteps.settles request.link hbefore).1
    have hlater := hrest.steps_before other hother
    have hunresolved := (hrest.madeBy other hother).unresolved
    rw [hlink, hlater.settles.linkTarget?_eq hbound htarget] at hunresolved
    cases hunresolved

/-- A request that is refused is the last one. Its error is the result, and no link changes after
it. -/
theorem refused_last (h : Course evaluator store requests result after) {request : Request}
    (hmem : request ∈ requests) {error : EvalError}
    (houtcome : request.outcome evaluator.context = .error error) :
    requests.getLast? = some request ∧ result = .error error ∧
      after.links = request.behind.links := by
  induction h with
  | quiet => cases hmem
  | @granted _ _ first requests _ _ _ _ hgranted _ ih =>
    rcases List.mem_cons.mp hmem with rfl | hrest
    · rw [hgranted] at houtcome
      cases houtcome
    · obtain ⟨hlast, hresult, hlinks⟩ := ih hrest
      exact ⟨by rw [List.getLast?_cons, hlast]; rfl, hresult, hlinks⟩
  | refused _ _ hrefused hquiet =>
    obtain rfl := List.mem_singleton.mp hmem
    rw [hrefused] at houtcome
    cases houtcome
    exact ⟨rfl, rfl, hquiet.links_eq⟩

end Course

/-- Whether an action takes a course, however it ends. -/
def TakesCourse (evaluator : Evaluator) {α : Type} (action : Action α) : Prop :=
  ∀ ⦃store result after⦄, action.run store = some (result, after) →
    ∃ requests, Course evaluator store requests result after

/-- A dereference that makes a request ends as the request does. -/
theorem Request.MadeBy.run_resolveLink {request : Request} {evaluator : Evaluator}
    (h : request.MadeBy evaluator) :
    (evaluator.resolveLink request.link).run request.before =
      some (request.outcome evaluator.context, request.after evaluator.context) := by
  obtain ⟨hunresolved, hallowed, resolver, hresolver, hfetch⟩ := h
  rw [path] at hfetch
  simp only [Evaluator.resolveLink, Computation.run_bind, Action.run_perform, Computation.next,
    hunresolved, hresolver, Evaluator.check, Action.run_attempt, hallowed, Except.mapError, hfetch,
    after, outcome, path]
  cases request.answer with
  | error reason => rfl
  | ok value =>
    dsimp only
    cases evaluator.context.check request.behind <;> rfl

/-- A dereference makes a request, or it changes nothing. -/
theorem exists_request_or_run_eq (evaluator : Evaluator) (link : Handle .link) (store : Store) :
    (∃ request : Request, request.MadeBy evaluator ∧ request.link = link ∧ request.before = store) ∨
      ∃ result, (evaluator.resolveLink link).run store = some (result, store) := by
  simp only [Evaluator.resolveLink, Computation.run_bind, Action.run_perform, Computation.next]
  cases htarget : store.linkTarget? link with
  | some target => exact .inr ⟨_, rfl⟩
  | none =>
    cases hresolver : evaluator.resolver with
    | none => exact .inr ⟨_, rfl⟩
    | some resolver =>
      simp only [Computation.run_bind, Action.run_perform, Computation.next, Evaluator.check,
        Action.run_attempt]
      cases hallowed : evaluator.context.check store with
      | error error => exact .inr ⟨_, rfl⟩
      | ok =>
        rcases hfetch : resolver.fetch link (store.linkPath link) store with ⟨answer, behind⟩
        exact .inl ⟨⟨link, store, answer, behind⟩, ⟨htarget, hallowed, resolver, hresolver, hfetch⟩,
          rfl, rfl⟩

namespace TakesCourse

variable {evaluator : Evaluator} {α β : Type}

/-- Courses of actions one after the other make one course. -/
theorem bind {x : Action α} {f : α → Action β} (hx : TakesCourse evaluator x)
    (hf : ∀ a, TakesCourse evaluator (f a)) : TakesCourse evaluator (x >>= f) := by
  intro store result after h
  rcases Computation.run_bind_eq_some h with ⟨a, middle, hfirst, hrest⟩ | ⟨error, hfirst, rfl⟩
  · obtain ⟨requests, hcourse⟩ := hx hfirst
    obtain ⟨later, hlater⟩ := hf a hrest
    exact ⟨requests ++ later, hcourse.append hlater⟩
  · obtain ⟨requests, hcourse⟩ := hx hfirst
    exact ⟨requests, hcourse.congr fun _ herror => by cases herror; rfl⟩

/-- Closing at the end goes on quietly. -/
theorem thenClose {body : Action α} {close : Store → Except EvalError Unit × Store}
    (hbody : TakesCourse evaluator body) (h : ∀ store, Quiet store (close store).2) :
    TakesCourse evaluator (body.thenClose close) := by
  intro store result after hrun
  simp only [Action.thenClose, ExceptT.run_mk] at hrun
  rcases hfirst : body.run store with _ | ⟨first, middle⟩ <;> rw [hfirst] at hrun <;> cases hrun
  obtain ⟨requests, hcourse⟩ := hbody hfirst
  refine ⟨requests, (hcourse.then_quiet (h middle)).congr fun error herror => ?_⟩
  rw [herror]
  rfl

/-- Dereferencing a link is one request, or nothing is asked for. -/
theorem resolveLink (link : Handle .link) : TakesCourse evaluator (evaluator.resolveLink link) := by
  intro store result after h
  rcases exists_request_or_run_eq evaluator link store with
    ⟨request, hmade, rfl, rfl⟩ | ⟨other, hother⟩
  · rw [hmade.run_resolveLink] at h
    cases h
    cases houtcome : request.outcome evaluator.context with
    | error error =>
      rw [Request.after_of_error houtcome]
      exact ⟨[request], .refused (.refl _) hmade houtcome (.refl _)⟩
    | ok value => exact ⟨[request], .granted (.refl _) hmade houtcome (.quiet (.refl _))⟩
  · rw [hother] at h
    cases h
    exact ⟨[], .quiet (.refl store)⟩

end TakesCourse

/-- Every action on one input takes a course, since what it is put together from does. -/
theorem Evaluator.composes_takesCourse (evaluator : Evaluator) :
    Composes evaluator fun {_} => TakesCourse evaluator where
  ofExcept result store _ _ h := by
    rw [Computation.run_ofExcept] at h
    cases h
    exact ⟨[], .quiet (.refl store)⟩
  bind := TakesCourse.bind
  perform hquiet store _ _ h := by
    rw [Action.run_perform] at h
    cases h
    exact ⟨[], .quiet (hquiet store)⟩
  attempt hquiet store _ _ h := by
    rw [Action.run_attempt] at h
    cases h
    exact ⟨[], .quiet (hquiet store)⟩
  diverge h := by cases h
  thenClose := TakesCourse.thenClose
  resolveLink := TakesCourse.resolveLink

namespace Traced

variable {evaluator : Evaluator} {α β : Type}

/-- Whether a computation takes a course, whatever it notes and holds. -/
def TakesCourse (evaluator : Evaluator) {α : Type} (x : Traced α) : Prop :=
  ∀ ⦃state result after⦄, x.run state = some (result, after) →
    ∃ requests, Course evaluator state.1 requests (result.mapError Prod.fst) after.1

/-- A computation of two parts takes the courses of both. -/
theorem TakesCourse.bind {x : Traced α} {f : α → Traced β} (hx : TakesCourse evaluator x)
    (hf : ∀ a, TakesCourse evaluator (f a)) : TakesCourse evaluator (x >>= f) := by
  intro state result after h
  rcases Computation.run_bind_eq_some h with ⟨a, middle, hfirst, hrest⟩ | ⟨failure, hfirst, rfl⟩
  · obtain ⟨requests, hcourse⟩ := hx hfirst
    obtain ⟨later, hlater⟩ := hf a hrest
    exact ⟨requests ++ later, hcourse.append hlater⟩
  · obtain ⟨requests, hcourse⟩ := hx hfirst
    exact ⟨requests, hcourse.congr fun _ herror => by cases herror; rfl⟩

/-- Holding values requests nothing. -/
theorem TakesCourse.whileHolding (values : List Value) {x : Traced α}
    (hx : TakesCourse evaluator x) : TakesCourse evaluator (Traced.whileHolding values x) := by
  intro state result after h
  obtain ⟨⟨found, middle⟩, hbody, heq⟩ := Option.map_eq_some_iff.mp h
  cases heq
  obtain ⟨requests, hcourse⟩ := hx hbody
  refine ⟨requests, hcourse.congr fun _ herror => ?_⟩
  cases found <;> cases herror
  rfl

/-- An action takes its course with a trace. -/
theorem TakesCourse.ofAction {action : Action α} (h : Sluice.TakesCourse evaluator action) :
    TakesCourse evaluator (Traced.ofAction action) :=
  fun _ _ _ hrun => h (run_ofAction_eq_some hrun).1

/-- A result by itself requests nothing. -/
theorem TakesCourse.pure (a : α) : TakesCourse evaluator (Pure.pure a : Traced α) := by
  intro state result after h
  cases h
  exact ⟨[], .quiet (.refl _)⟩

/-- An error by itself requests nothing. -/
theorem TakesCourse.throw (failure : EvalError × List Value) :
    TakesCourse evaluator (MonadExcept.throw failure : Traced α) := by
  intro state result after h
  cases h
  exact ⟨[], .quiet (.refl _)⟩

/-- A note requests nothing. -/
theorem TakesCourse.note (f : Store → Note) : TakesCourse evaluator (Traced.note f) := by
  intro state result after h
  cases h
  exact ⟨[], .quiet (.refl _)⟩

/-- The application of a node takes a course. -/
theorem takesCourse_apply (node : Node) (input : Value) :
    TakesCourse evaluator (apply evaluator node input) := by
  have hcomposes := evaluator.composes_takesCourse
  have hstart : TakesCourse evaluator (start evaluator) :=
    .bind (.note _) fun _ => .ofAction hcomposes.check
  have hresolveLink (link : Handle .link) : TakesCourse evaluator (resolveLink evaluator link) :=
    .bind (.ofAction (hcomposes.read _)) fun before =>
      .bind (.ofAction (hcomposes.resolveLink link)) fun value =>
        .bind (.note _) fun _ => .pure value
  have hpervades := pervades_of_composes hcomposes .pure .throw .bind .whileHolding .ofAction
    (fun values => .note _) hstart hresolveLink
  exact hpervades.apply node input

/-- What is cleaned up after a failed stage requests nothing. -/
theorem exists_course_of_failed_stage {node : Node} {value : Value} {state : Store × List Note}
    {error : EvalError} {held : List Value} {store behind : Store} {trace : List Note}
    {output : Option Value}
    (hnode : (apply evaluator node value).run state = some (.error (error, held), (store, trace)))
    (hcleaned : Store.CleanUps (releaseAll held store) behind) :
    ∃ requests, Course evaluator state.1 requests
      ((.error ⟨error, output⟩ : Except Failure Value).mapError Failure.error) behind := by
  obtain ⟨requests, hcourse⟩ := takesCourse_apply node value hnode
  have hquiet := Quiet.of_cleanUps ((cleanUps_releaseAll held store).trans hcleaned)
  refine ⟨requests, (hcourse.then_quiet hquiet).congr fun _ herror => ?_⟩
  cases herror
  rfl

/-- What is left of a run after some stages takes a course. -/
theorem exists_course_of_continueRun {program : Program} {value : Value}
    {state after : Store × List Note} {result : Except Failure Value}
    (h : continueRun evaluator program value state = some (result, after)) :
    ∃ requests, Course evaluator state.1 requests (result.mapError Failure.error) after.1 := by
  induction program generalizing value state with
  | nil =>
    cases h
    exact ⟨[], .quiet (.of_cleanUps (cleanUps_flatten value _))⟩
  | cons node rest ih =>
    simp only [continueRun] at h
    rcases hnode : (apply evaluator node value).run state with
      _ | ⟨⟨error, held⟩ | next, store, trace⟩ <;> rw [hnode] at h
    · cases h
    · cases h
      have hflattened := cleanUps_flatten value (releaseAll held store)
      exact exists_course_of_failed_stage hnode (hflattened.trans (cleanUps_release _ _))
    · obtain ⟨requests, hcourse⟩ := takesCourse_apply node value hnode
      obtain ⟨later, hlater⟩ := ih h
      exact ⟨requests ++ later, hcourse.append hlater⟩

/-- A run with a trace takes a course. -/
theorem exists_course_of_runProgram {program : Program} {input : Value}
    {state after : Store × List Note} {result : Except Failure Value}
    (h : runProgram evaluator program input state = some (result, after)) :
    ∃ requests, Course evaluator state.1 requests (result.mapError Failure.error) after.1 := by
  cases program with
  | nil => exact exists_course_of_continueRun h
  | cons node rest =>
    simp only [runProgram] at h
    rcases hnode : (apply evaluator node input).run state with
      _ | ⟨⟨error, held⟩ | next, store, trace⟩ <;> rw [hnode] at h
    · cases h
    · cases h
      exact exists_course_of_failed_stage hnode (cleanUps_closeHandle input _)
    · obtain ⟨requests, hcourse⟩ := takesCourse_apply node input hnode
      obtain ⟨later, hlater⟩ := exists_course_of_continueRun h
      exact ⟨requests ++ later, hcourse.append hlater⟩

end Traced

/-- A run takes a course. -/
theorem Evaluator.exists_course_of_run {evaluator : Evaluator} {program : Program} {input : Value}
    {store after : Store} {result : Except Failure Value}
    (h : evaluator.run program input store = some (result, after)) :
    ∃ requests, Course evaluator store requests (result.mapError Failure.error) after := by
  obtain ⟨trace, htrace⟩ := Traced.exists_trace_of_run h
  exact Traced.exists_course_of_runProgram htrace

end Sluice
