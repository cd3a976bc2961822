import Sluice.Proofs.Eval.Distributing

/-!
# Keys on sequences

A key after another on a sequence is carried to all items before the next key is, while the keys on
each item by itself go all the way before the next item is looked at. On documents the order makes
no difference, and neither does a stream in between (`Evaluator.keys_broadcast`): either all of it
succeeds with the same results, or one item fails and so does the whole.
-/

namespace Sluice

open Sluice.Action Sluice.Filter

variable {α β : Type}

/-- Whether an action fails with a certain error from every store and leaves the store as it is. -/
def Throws (action : Action α) : Prop :=
  ∃ error, ∀ store, action.run store = some (.error error, store)

/-- An action that ends in one way either gives a result or fails. -/
theorem Fixed.gives_or_throws {holds : α → Prop} {action : Action α} (h : Fixed holds action) :
    (∃ a, Gives action a ∧ holds a) ∨ Throws action := by
  obtain ⟨outcome, hrun, hholds⟩ := h
  cases outcome with
  | ok a => exact .inl ⟨a, hrun, hholds a rfl⟩
  | error error => exact .inr ⟨error, hrun⟩

namespace Throws

variable {action : Action α} {next : α → Action β}

/-- What follows a failure does not run. -/
theorem bind (h : Throws action) : Throws (action >>= next) := by
  obtain ⟨error, hrun⟩ := h
  refine ⟨error, fun store => ?_⟩
  rw [Computation.run_bind, hrun]
  rfl

/-- An action that runs as one that fails does so as well. -/
theorem congr {other : Action α} (h : Throws action)
    (heq : ∀ store, other.run store = action.run store) : Throws other := by
  obtain ⟨error, hrun⟩ := h
  exact ⟨error, fun store => (heq store).trans (hrun store)⟩

end Throws

/-- What comes after an action that succeeds decides whether both fail. -/
theorem Gives.throws_bind_iff {action : Action α} {next : α → Action β} {a : α}
    (h : Gives action a) : Throws (action >>= next) ↔ Throws (next a) :=
  exists_congr fun _ => forall_congr' fun store => by
    rw [Computation.run_bind_of_ok (h store)]

/-- An element of one list has a partner among those of the other. -/
theorem exists_mem_of_forall₂ {R : α → β → Prop} {xs : List α} {ys : List β}
    (h : List.Forall₂ R xs ys) {x : α} (hx : x ∈ xs) : ∃ y ∈ ys, R x y := by
  have hmem : List.Forall₂ (fun x y => y ∈ ys ∧ R x y) xs ys :=
    (forall₂_of_mem h.flip fun y hy x hxy => ⟨hy, hxy⟩).flip
  exact exists_of_mem_forall₂ hmem hx

/-- Of fixed actions on several items all succeed, or there is a first that fails. -/
theorem forall₂_gives_or_throws {f : α → Action β} {holds : β → Prop} {items : List α}
    (h : ∀ item ∈ items, Fixed holds (f item)) :
    (∃ results, List.Forall₂ (fun item result => Gives (f item) result) items results ∧
      ∀ result ∈ results, holds result) ∨
    ∃ before item rest results, items = before ++ item :: rest ∧ Throws (f item) ∧
      List.Forall₂ (fun item result => Gives (f item) result) before results ∧
      ∀ result ∈ results, holds result := by
  induction items with
  | nil => exact .inl ⟨[], .nil, List.forall_mem_nil _⟩
  | cons item rest ih =>
    obtain ⟨hitem, hrest⟩ := List.forall_mem_cons.mp h
    rcases hitem.gives_or_throws with ⟨result, hresult, hholds⟩ | hfails
    · rcases ih hrest with ⟨results, hresults, hall⟩ |
        ⟨before, failed, left, results, rfl, hfails, hresults, hall⟩
      · exact .inl ⟨result :: results, .cons hresult hresults,
          List.forall_mem_cons.mpr ⟨hholds, hall⟩⟩
      · exact .inr ⟨item :: before, failed, left, result :: results, rfl, hfails,
          .cons hresult hresults, List.forall_mem_cons.mpr ⟨hholds, hall⟩⟩
    · exact .inr ⟨[], item, rest, [], rfl, hfails, .nil, List.forall_mem_nil _⟩

namespace Evaluator

variable {evaluator : Evaluator}

section Items

variable {f : Value → Action Value} {before rest results : List Value} {item : Value}

/-- Collecting fails at the first item that fails. -/
theorem throws_collect (hfails : Throws (f item))
    (h : List.Forall₂ (fun item result => Gives (f item) result) before results)
    (hresults : ∀ result ∈ results, result.isDocument = true) {values : List Value}
    (hvalues : ∀ value ∈ values, value.isDocument = true) :
    Throws (selectKeyWithin.collect f (before ++ item :: rest) values) := by
  have hbefore {values : List Value} (hvalues : ∀ value ∈ values, value.isDocument = true) :
      ∀ value ∈ values.reverse, value.isDocument = true := fun value hvalue =>
    hvalues value (List.mem_reverse.mp hvalue)
  induction h generalizing values with
  | nil =>
    obtain ⟨error, hrun⟩ := hfails
    refine Throws.bind ⟨error, fun store => ?_⟩
    simp only [orRelease, onError, ExceptT.run_mk, hrun, releaseAll_of_isDocument (hbefore hvalues)]
  | @cons first result items results hfirst _ ih =>
    obtain ⟨hresult, hothers⟩ := List.forall_mem_cons.mp hresults
    have hgives : Gives ((f first).orRelease values.reverse) result := fun store =>
      run_orRelease_of_ok (hfirst store) _
    exact hgives.throws_bind_iff.mpr (ih hothers (List.forall_mem_cons.mpr ⟨hresult, hvalues⟩))

/-- Applying an action to the elements of a stream stops at the first that fails. The elements after
it stay in the stream. -/
theorem exists_run_mapEachWithin_of_throws {stream : Handle .stream} {error : EvalError}
    (hfails : ∀ store, (f item).run store = some (.error error, store))
    (h : List.Forall₂ (fun item result => Gives (f item) result) before results)
    (values : List Value) {store : Store}
    (hremaining : store.remaining stream = before ++ item :: rest) :
    ∃ after, (Store.mapEachWithin stream (fun value => (f value).run)
        (before ++ item :: rest).length values : StateT Store Option _) store =
          some (.error (error, values.reverse ++ results), after) ∧
      after.remaining stream = rest := by
  induction h generalizing values store with
  | nil =>
    obtain ⟨middle, hpull, hrest⟩ := exists_pull_of_remaining hremaining
    refine ⟨middle, ?_, hrest⟩
    rw [List.nil_append, List.length_cons, Store.run_mapEachWithin_succ, hpull]
    simp only [Store.mapRest, hfails middle, List.append_nil]
  | @cons first result items results hfirst _ ih =>
    obtain ⟨middle, hpull, hrest⟩ := exists_pull_of_remaining hremaining
    obtain ⟨after, hrun, hafter⟩ := ih (result :: values) hrest
    refine ⟨after, ?_, hafter⟩
    rw [List.cons_append, List.length_cons, Store.run_mapEachWithin_succ, hpull]
    simp only [Store.mapRest, hfirst middle, hrun]
    simp

/-- Handing down into a stream fails at the first element that fails. -/
theorem exists_run_spread_of_throws {stream : Handle .stream} (hfails : Throws (f item))
    (h : List.Forall₂ (fun item result => Gives (f item) result) before results) {store : Store}
    (hremaining : store.remaining stream = before ++ item :: rest) :
    ∃ error after, (spread stream f).run store = some (.error error, after) := by
  obtain ⟨error, hrun⟩ := hfails
  obtain ⟨after, hmap, -⟩ := exists_run_mapEachWithin_of_throws hrun h [] hremaining
  refine ⟨error, releaseAll results after, ?_⟩
  rw [run_spread, Store.run_mapEach, hremaining, hmap]
  rfl

end Items

section Keys

variable {xs : List Value}

/-- The steps of a filter that selects by one key after another. -/
def keySteps (names : List String) : List Node := names.map .key

/-- The steps of a filter made of keys are those keys. -/
theorem steps_ofSteps_keySteps (names : List String) :
    (Node.ofSteps (keySteps names)).steps = keySteps names := by
  have hall (names : List String) : allSteps (keySteps names) = keySteps names := by
    induction names with
    | nil => rfl
    | cons name rest ih => exact congrArg (Node.key name :: ·) ih
  match names with
  | [] => rfl
  | [name] => rfl
  | name :: second :: rest => exact hall (name :: second :: rest)

/-- No key iterates. -/
theorem anyIterates_keySteps (names : List String) : anyIterates (keySteps names) = false := by
  induction names with
  | nil => rfl
  | cons name rest ih => exact ih

/-- A filter made of keys does not iterate. -/
theorem iterates_ofSteps_keySteps (names : List String) :
    (Node.ofSteps (keySteps names)).iterates = false := by
  match names with
  | [] => rfl
  | [name] => rfl
  | name :: second :: rest => exact anyIterates_keySteps (name :: second :: rest)

/-- Selecting a key ends in one way on each of several documents. -/
theorem fixed_key (hbackground : evaluator.context = .background) (name : String)
    (hxs : ∀ x ∈ xs, x.isDocument = true) :
    ∀ x ∈ xs, Fixed (·.isDocument = true) (evaluator.apply (.key name) x) := fun x hx =>
  fixed_apply hbackground _ rfl (hxs x hx)

/-- A key fails on a sequence of which it fails on an item. -/
theorem throws_key_sequence (hbackground : evaluator.context = .background) {name : String}
    {before rest results : List Value} {x : Value}
    (hxs : ∀ value ∈ before ++ x :: rest, value.isDocument = true)
    (hfails : Throws (evaluator.apply (.key name) x))
    (h : List.Forall₂ (fun x z => Gives (evaluator.apply (.key name) x) z) before results)
    (hresults : ∀ result ∈ results, result.isDocument = true) :
    Throws (evaluator.apply (.key name) (.sequence (before ++ x :: rest))) := by
  have hwithin (value : Value) (hvalue : value ∈ before ++ x :: rest) (store : Store) :
      (evaluator.selectKeyWithin name 0 value).run store =
        (evaluator.apply (.key name) value).run store :=
    (run_selectKey_of_isDocument name (hxs value hvalue) store).symm
  have hitems : List.Forall₂ (fun x z => Gives (evaluator.selectKeyWithin name 0 x) z) before
      results := forall₂_of_mem h fun value hvalue result hresult store =>
    (hwithin value (by simp [hvalue]) store).trans (hresult store)
  have hcollect :
      Throws
        (selectKeyWithin.collect (evaluator.selectKeyWithin name 0) (before ++ x :: rest) []) :=
    throws_collect (hfails.congr (hwithin x (by simp))) hitems hresults (List.forall_mem_nil _)
  refine Throws.congr ?_
    (run_selectKey_of_isDocument name (Value.isDocument_sequence_iff.mpr hxs))
  rw [selectKeyWithin_sequence, check_eq_pure hbackground, pure_bind]
  exact hcollect.bind

/-- Keys one after another fail on a sequence of which they fail on an item. -/
theorem throws_thread_keySteps (hbackground : evaluator.context = .background)
    (names : List String) (hxs : ∀ x ∈ xs, x.isDocument = true)
    (hfails : ∃ x ∈ xs, Throws (thread evaluator (keySteps names) x)) :
    Throws (thread evaluator (keySteps names) (.sequence xs)) := by
  induction names generalizing xs with
  | nil =>
    obtain ⟨x, -, error, hrun⟩ := hfails
    cases hrun {}
  | cons name rest ih =>
    obtain ⟨x, hx, hfails⟩ := hfails
    rcases forall₂_gives_or_throws (fixed_key hbackground name hxs) with
      ⟨zs, hzs, hdocuments⟩ | ⟨before, failed, left, zs, rfl, hfailed, hzs, hdocuments⟩
    · -- The key succeeds on all items, and one of the results is where the others fail.
      obtain ⟨z, hz, hgives⟩ := exists_mem_of_forall₂ hzs hx
      have hsequence := gives_of_distributes hbackground
        (rfl : (Node.key name).distributes = true) hxs hzs
      exact hsequence.throws_bind_iff.mpr (ih hdocuments ⟨z, hz, hgives.throws_bind_iff.mp hfails⟩)
    · exact (throws_key_sequence hbackground hxs hfailed hzs hdocuments).bind

end Keys

/-- Whether a program ends with a certain value on an input, from every store. -/
def RunGives (evaluator : Evaluator) (program : Program) (input value : Value) : Prop :=
  ∀ store, ∃ after, evaluator.run program input store = some (.ok value, after)

/-- Whether a program fails on an input, from every store. -/
def RunFails (evaluator : Evaluator) (program : Program) (input : Value) : Prop :=
  ∀ store, ∃ failure after, evaluator.run program input store = some (.error failure, after)

section Runs

variable {stage : Node} {input value : Value}

/-- A run of one stage gives what the stage gives. -/
theorem runGives_of_gives (h : Gives (evaluator.apply stage input) value)
    (hvalue : value.isDocument = true) : evaluator.RunGives [stage] input value := by
  intro store
  refine ⟨store, ?_⟩
  simp only [run, h store, continueRun, flatten_of_isDocument hvalue]

/-- A run of one stage fails if the stage does. -/
theorem runFails_of_throws (h : Throws (evaluator.apply stage input)) :
    evaluator.RunFails [stage] input := by
  obtain ⟨error, hrun⟩ := h
  intro store
  refine ⟨⟨error, none⟩, closeHandle input store, ?_⟩
  simp only [run, hrun]

/-- A run that fans out by `.[]` fails with its stage. -/
theorem runFails_iterate {items : List Value} (hbackground : evaluator.context = .background)
    (h : ∀ stream store, store.remaining stream = items →
      ∃ error after, (evaluator.apply stage (.stream stream)).run store =
        some (.error error, after)) :
    evaluator.RunFails [.iterate, stage] (.sequence items) := by
  intro store
  obtain ⟨stream, middle, hremaining, hrun⟩ := exists_run_iterate hbackground [stage] items store
  obtain ⟨error, after, hfails⟩ := h stream middle hremaining
  rcases hflatten : flatten (.stream stream) after with ⟨output, last⟩
  refine ⟨⟨error, some output⟩, release output last, hrun.trans ?_⟩
  simp only [continueRun, hfails, hflatten]

/-- Keys after an iteration fail if they fail on one of the elements. -/
theorem runFails_iterate_keySteps (hbackground : evaluator.context = .background)
    {names : List String} {xs : List Value} (hxs : ∀ x ∈ xs, x.isDocument = true)
    (hfails : ∃ x ∈ xs, Throws (thread evaluator (keySteps names) x)) :
    evaluator.RunFails [.iterate, Node.ofSteps (keySteps names)] (.sequence xs) := by
  refine runFails_iterate hbackground fun stream store hremaining => ?_
  rw [apply_eq_thread hbackground, steps_ofSteps_keySteps]
  match names with
  | [] =>
    obtain ⟨x, -, error, hrun⟩ := hfails
    cases hrun {}
  | name :: rest =>
    obtain ⟨x, hx, hfails⟩ := hfails
    obtain ⟨f, hspread, hf⟩ := exists_run_eq_spread hbackground
      (rfl : (Node.key name).fansOut = true) stream store
    have hgives {before results : List Value} (hbefore : ∀ x ∈ before, x ∈ xs)
        (h : List.Forall₂ (fun x z => Gives (evaluator.apply (.key name) x) z) before results) :
        List.Forall₂ (fun x z => Gives (f x) z) before results :=
      forall₂_of_mem h fun x hx z hz store => (hf x (hxs x (hbefore x hx)) store).trans (hz store)
    -- The first key fails on an element, or the others fail on what it gives for one.
    rcases forall₂_gives_or_throws (fixed_key hbackground name hxs) with
      ⟨zs, hzs, hdocuments⟩ | ⟨before, failed, left, zs, rfl, hfailed, hzs, -⟩
    · obtain ⟨middle, hfirst, -⟩ := exists_run_spread (hgives (fun _ => id) hzs) hremaining
      obtain ⟨z, hz, hfirst'⟩ := exists_mem_of_forall₂ hzs hx
      obtain ⟨error, hothers⟩ := throws_thread_keySteps hbackground rest hdocuments
        ⟨z, hz, hfirst'.throws_bind_iff.mp hfails⟩
      exact ⟨error, middle,
        (Computation.run_bind_of_ok (hspread.trans hfirst) _).trans (hothers middle)⟩
    · have hfailed := hfailed.congr (hf failed (hxs failed (by simp)))
      obtain ⟨error, after, hrun⟩ := exists_run_spread_of_throws hfailed
        (hgives (fun x hx => by simp [hx]) hzs) hremaining
      refine ⟨error, after, ?_⟩
      have hthread : thread evaluator (keySteps (name :: rest)) (.stream stream) =
          evaluator.apply (.key name) (.stream stream) >>= thread evaluator (keySteps rest) := rfl
      rw [hthread, Computation.run_bind, hspread, hrun]
      rfl

/-- **Keys do the same to a sequence, to the stream of its items, and to each item.** Under the
background context either keys one after another give a value for each item of a sequence of
documents, and the sequence of these values for the sequence and for the stream of its items, or
they fail on some item, on the sequence and on the stream. -/
theorem keys_broadcast (hbackground : evaluator.context = .background) (names : List String)
    {xs : List Value} (hxs : ∀ x ∈ xs, x.isDocument = true) :
    (∃ ys, List.Forall₂ (evaluator.RunGives [Node.ofSteps (keySteps names)]) xs ys ∧
      evaluator.RunGives [Node.ofSteps (keySteps names)] (.sequence xs) (.sequence ys) ∧
      evaluator.RunGives [.iterate, Node.ofSteps (keySteps names)] (.sequence xs) (.sequence ys)) ∨
    ((∃ x ∈ xs, evaluator.RunFails [Node.ofSteps (keySteps names)] x) ∧
      evaluator.RunFails [Node.ofSteps (keySteps names)] (.sequence xs) ∧
      evaluator.RunFails [.iterate, Node.ofSteps (keySteps names)] (.sequence xs)) := by
  have hstage (input : Value) : evaluator.apply (Node.ofSteps (keySteps names)) input =
      thread evaluator (keySteps names) input := by
    rw [apply_eq_thread hbackground, steps_ofSteps_keySteps]
  have hfixed : ∀ x ∈ xs, Fixed (·.isDocument = true) (thread evaluator (keySteps names) x) :=
    fun x hx => fixed_thread hbackground _ (anyIterates_keySteps names) (hxs x hx)
  -- Either there is a value for every item, or there is a first item that fails.
  rcases forall₂_gives_or_throws hfixed with
    ⟨ys, hys, hdocuments⟩ | ⟨before, x, rest, ys, rfl, hfails, -, -⟩
  · have hdistributes : ∀ step ∈ keySteps names, step.distributes = true := by
      simp [keySteps, Node.distributes]
    have hsequence := gives_thread_of_distributes hbackground hdistributes
      (anyIterates_keySteps names) hxs hys
    refine .inl ⟨ys, ?_, ?_, fun store => ?_⟩
    · exact (forall₂_of_mem hys.flip fun y hy x hx =>
        runGives_of_gives (by rwa [hstage]) (hdocuments y hy)).flip
    · exact runGives_of_gives (by rwa [hstage]) (Value.isDocument_sequence_iff.mpr hdocuments)
    · have hruns : List.Forall₂ (fun x y => ∃ before after,
          (evaluator.apply (Node.ofSteps (keySteps names)) x).run before = some (.ok y, after))
          xs ys := hys.imp fun x y hy => ⟨{}, {}, by rw [hstage, hy]⟩
      obtain ⟨zs, outcome, after, -, -, -, hrun, hthen⟩ := run_iterate_stage hbackground
        (iterates_ofSteps_keySteps names) hxs hruns store
      have hothers : ∀ step ∈ (Node.ofSteps (keySteps names)).onResults, step.distributes = true :=
        fun step hstep => hdistributes step <| by
          rw [Node.onResults, steps_ofSteps_keySteps] at hstep
          exact List.mem_of_mem_tail hstep
      rw [hthen hothers] at hrun
      exact ⟨after, hrun⟩
  · have hfailing : ∃ item ∈ before ++ x :: rest,
        Throws (thread evaluator (keySteps names) item) := ⟨x, by simp, hfails⟩
    refine .inr ⟨⟨x, by simp, ?_⟩, ?_, runFails_iterate_keySteps hbackground hxs hfailing⟩
    · exact runFails_of_throws (by rwa [hstage])
    · exact runFails_of_throws (by
        rw [hstage]
        exact throws_thread_keySteps hbackground names hxs hfailing)

/-- A strict evaluator refuses a second key on a number, deep inside a sequence of sequences too. -/
theorem keys_broadcast_of_number :
    let evaluator : Evaluator := { context := .background, lenient := false }
    let xs : List Value := [.mapping [("a", .mapping [("b", .int 1)])],
      .sequence [.mapping [("a", .int 2)]]]
    evaluator.RunFails [.chain [.key "a", .key "b"]] (.sequence xs) ∧
      evaluator.RunFails [.iterate, .chain [.key "a", .key "b"]] (.sequence xs) := by
  intro evaluator xs
  have hxs : ∀ x ∈ xs, x.isDocument = true := by decide
  rcases keys_broadcast (rfl : evaluator.context = .background) ["a", "b"] hxs with
    ⟨ys, hys, -⟩ | ⟨-, hfails⟩
  · obtain ⟨_, _, -, hrest, -⟩ := List.forall₂_cons_left_iff.mp hys
    obtain ⟨_, _, hgives, -⟩ := List.forall₂_cons_left_iff.mp hrest
    obtain ⟨after, hrun⟩ := hgives {}
    obtain ⟨failure, last, hfails⟩ : ∃ failure last, evaluator.run [.chain [.key "a", .key "b"]]
        (.sequence [.mapping [("a", .int 2)]]) {} = some (.error failure, last) := ⟨_, _, rfl⟩
    cases hfails.symm.trans hrun
  · exact hfails

end Runs

end Evaluator

end Sluice
