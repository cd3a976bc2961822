import Sluice.Proofs.Eval.Broadcasting
import Sluice.Proofs.Eval.LinkChains

/-!
# Keys on records

A record is made of scalars, mappings, dicts and links. Keys one after another lead from a record to
a value in it: before each key the links are followed to what they stand for, and what the last key
gives is left as it is (`Resolver.Selects`). Evaluation fetches the links that have no target when
they are followed, in that order, and touches no other link
(`Evaluator.keys_fetch_only_before`).
-/

namespace Sluice

open Sluice.Action Sluice.Filter

/-- Whether a value is made of scalars, mappings, dicts and links only. -/
inductive Value.IsRecord : Value → Prop
  | scalar {value : Value} : value.category = .scalar → IsRecord value
  | link (link : Handle .link) : IsRecord (.link link)
  | mapping {entries : List (String × Value)} :
      (∀ entry ∈ entries, IsRecord entry.2) → IsRecord (.mapping entries)
  | dict {entries : List (Value × Value)} :
      (∀ entry ∈ entries, IsRecord entry.1) → (∀ entry ∈ entries, IsRecord entry.2) →
      IsRecord (.dict entries)

namespace Value

/-- The value under a key, or null. -/
def under (name : String) : Value → Value
  | .mapping entries => (entries.lookup name).getD .null
  | .dict entries => Store.entryUnder name entries
  | _ => .null

namespace IsRecord

variable {value : Value}

/-- Null is a record. -/
theorem null : IsRecord .null := .scalar rfl

/-- A record is inert. -/
theorem isInert (h : value.IsRecord) : value.isInert = true := by
  induction h with
  | @scalar value hscalar =>
    cases value with
    | sequence | mapping | dict | link | map | array | iterator | byteStream | stream =>
      cases hscalar
    | _ => rfl
  | link => rfl
  | mapping _ ih => exact everyLeaf_mapping.mpr ih
  | dict _ _ hkeys hvalues =>
    exact everyLeaf_dict.mpr fun entry hmem => ⟨hkeys entry hmem, hvalues entry hmem⟩

/-- A record is no sequence. -/
theorem ne_sequence (h : value.IsRecord) (items : List Value) : value ≠ .sequence items := by
  rintro rfl
  cases h with
  | scalar hscalar => cases hscalar

/-- A record is no stream. -/
theorem ne_stream (h : value.IsRecord) (stream : Handle .stream) : value ≠ .stream stream := by
  rintro rfl
  cases h with
  | scalar hscalar => cases hscalar

/-- What a record has under a key is a record. -/
theorem under (h : value.IsRecord) (name : String) : (value.under name).IsRecord := by
  cases h with
  | @scalar value hscalar =>
    cases value with
    | mapping | dict => cases hscalar
    | _ => exact null
  | link => exact null
  | @mapping entries hentries =>
    rw [Value.under]
    cases hlookup : entries.lookup name with
    | none => exact null
    | some value =>
      obtain ⟨before, rest, rfl, -⟩ := List.lookup_eq_some_iff.mp hlookup
      exact hentries (name, value) (by simp)
  | @dict entries _ hvalues =>
    rw [Value.under]
    rcases Store.entryUnder_eq_null_or_mem name entries with hnull | ⟨entry, hmem, hentry⟩
    · rw [hnull]
      exact null
    · rw [hentry]
      exact hvalues entry hmem

end IsRecord

end Value

/-- Whether all links that have a target have a record. -/
def Table.HoldsRecords (links : Table .link Link) : Prop :=
  ∀ link value, (links.get link).target = some value → value.IsRecord

/-- Whether a resolver answers with records only. -/
def Resolver.AnswersRecords (resolver : Resolver) : Prop :=
  ∀ fetched path draft, (resolver.script fetched path).answer = .ok draft →
    ∀ links, links.length = draft.paths.length → (draft.build links).IsRecord

/-- As many links are made as there are paths. -/
theorem Draft.length_newLinks (paths : List String) (store : Store) :
    (newLinks paths store).1.length = paths.length := by
  induction paths generalizing store with
  | nil => rfl
  | cons path paths ih => exact congrArg Nat.succ (ih _)

/-- Where only one link has been fetched, all others have the targets they had. -/
theorem Store.Fetching.holdsRecords {store after : Store} {link : Handle .link} {value : Value}
    (h : store.Fetching [link] after) (hrecords : store.links.HoldsRecords)
    (htarget : after.linkTarget? link = some value) (hvalue : value.IsRecord) :
    after.links.HoldsRecords := by
  intro other target hother
  by_cases heq : other = link
  · rw [heq] at hother
    exact Option.some.inj (htarget.symm.trans hother) ▸ hvalue
  · have hnot : other ∉ [link] := mt List.mem_singleton.mp heq
    by_cases hbound : other.index < store.links.size
    · rw [h.kept other hnot hbound] at hother
      exact hrecords other target hother
    · by_cases hnew : other.index < after.links.size
      · have hnone := h.fresh other hnot (Nat.le_of_not_lt hbound) hnew
        cases hnone.symm.trans hother
      · rw [Table.get_of_size_le (Nat.le_of_not_lt hnew)] at hother
        cases hother
        exact .null

namespace Resolver

/-- Whether keys one after another lead from a value to another. Before each key links are followed
to what they stand for; what is fetched then is listed in order. -/
inductive Selects (resolver : Resolver) :
    List String → Value → Store → (fetched : List (Handle .link)) → Value → Store → Prop
  | nil (value : Value) (store : Store) : Selects resolver [] value store [] value store
  | cons {key : String} {keys : List String} {value target result : Value}
      {store middle after : Store} {followed fetched later : List (Handle .link)} :
      resolver.Walk value store followed fetched target middle →
      (∀ link, target ≠ .link link) →
      Selects resolver keys (target.under key) middle later result after →
      Selects resolver (key :: keys) value store (fetched ++ later) result after

/-- Whether a link without a target is met where links are followed from a value. -/
def MeetsFrom (resolver : Resolver) (value : Value) (store : Store) (link : Handle .link) : Prop :=
  ∃ followed fetched behind, resolver.Walk value store followed fetched (.link link) behind ∧
    behind.linkTarget? link = none

/-- Whether a link without a target is met before one of several keys. -/
def Meets (resolver : Resolver) (keys : List String) (value : Value) (store : Store)
    (link : Handle .link) : Prop :=
  ∃ before key later, keys = before ++ key :: later ∧ ∃ fetched position middle,
    resolver.Selects before value store fetched position middle ∧
    resolver.MeetsFrom position middle link

/-- Whether before each of several keys at most so many links are followed directly one after
another. -/
def AtMostInARow (resolver : Resolver) (bound : Nat) (keys : List String) (value : Value)
    (store : Store) : Prop :=
  ∀ before key later, keys = before ++ key :: later → ∀ fetched position middle,
    resolver.Selects before value store fetched position middle →
    ∀ followed more last after, resolver.Walk position middle followed more last after →
    followed.length ≤ bound

variable {resolver : Resolver} {value next last target result other : Value}
  {store middle after behind : Store} {link : Handle .link} {key : String} {keys : List String}
  {found followed fetched others more : List (Handle .link)} {bound : Nat}

/-- Following links leads to one value that is no link, in one way. -/
theorem Walk.unique (h : resolver.Walk value store followed fetched last after)
    (hlast : ∀ link, last ≠ .link link)
    (hother : resolver.Walk value store others more other behind)
    (hend : ∀ link, other ≠ .link link) : more = fetched ∧ other = last ∧ behind = after := by
  induction h generalizing others more other behind with
  | here =>
    cases hother with
    | here => exact ⟨rfl, rfl, rfl⟩
    | hop => exact absurd rfl (hlast _)
  | hop hhop _ ih =>
    cases hother with
    | here => exact absurd rfl (hend _)
    | hop hagain hrest =>
      obtain ⟨rfl, rfl, rfl⟩ := hhop.unique hagain
      obtain ⟨rfl, rfl, rfl⟩ := ih hlast hrest hend
      exact ⟨rfl, rfl, rfl⟩

/-- On the way to a value that is no link no more links are followed than to come there. -/
theorem Walk.length_le (h : resolver.Walk value store followed fetched last after)
    (hlast : ∀ link, last ≠ .link link)
    (hother : resolver.Walk value store others more other behind) :
    others.length ≤ followed.length := by
  induction h generalizing others more other behind with
  | here =>
    cases hother with
    | here => exact Nat.le_refl 0
    | hop => exact absurd rfl (hlast _)
  | hop hhop _ ih =>
    cases hother with
    | here => exact Nat.zero_le _
    | hop hagain hrest =>
      obtain ⟨-, rfl, rfl⟩ := hhop.unique hagain
      exact Nat.succ_le_succ (ih hlast hrest)

/-- Selecting takes steps. -/
theorem Selects.steps (h : resolver.Selects keys value store fetched result after) :
    Store.Steps store after := by
  induction h with
  | nil => exact .refl
  | cons hwalk _ _ ih => exact hwalk.steps.trans ih

/-- Keys select in one way only. -/
theorem Selects.unique (h : resolver.Selects keys value store fetched result after)
    (hother : resolver.Selects keys value store others other behind) :
    others = fetched ∧ other = result ∧ behind = after := by
  induction h generalizing others other behind with
  | nil =>
    cases hother
    exact ⟨rfl, rfl, rfl⟩
  | cons hwalk htarget _ ih =>
    cases hother with
    | cons hagain hend hrest =>
      obtain ⟨rfl, rfl, rfl⟩ := hwalk.unique htarget hagain hend
      obtain ⟨rfl, rfl, rfl⟩ := ih hrest
      exact ⟨rfl, rfl, rfl⟩

/-- Following a link fetches it if it has no target. -/
theorem Hop.mem_fetched_iff (h : resolver.Hop link store found next middle)
    (other : Handle .link) : other ∈ found ↔ other = link ∧ store.linkTarget? link = none := by
  cases h with
  | cached htarget => simp [htarget]
  | fetched hopen => simp [hopen]

/-- What is fetched where links are followed is what is met without a target. -/
theorem Walk.mem_fetched_iff (h : resolver.Walk value store followed fetched last after)
    (hlast : ∀ link, last ≠ .link link) (link : Handle .link) :
    link ∈ fetched ↔ resolver.MeetsFrom value store link := by
  induction h with
  | here =>
    refine ⟨fun hmem => absurd hmem List.not_mem_nil, fun ⟨_, _, _, hwalk, _⟩ => ?_⟩
    cases hwalk with
    | here | hop => exact absurd rfl (hlast _)
  | hop hhop _ ih =>
    rw [List.mem_append, hhop.mem_fetched_iff, ih hlast]
    refine ⟨?_, fun ⟨_, _, _, hwalk, hopen⟩ => ?_⟩
    · rintro (⟨rfl, hopen⟩ | ⟨_, _, _, hwalk, hopen⟩)
      · exact ⟨_, _, _, .here _ _, hopen⟩
      · exact ⟨_, _, _, .hop hhop hwalk, hopen⟩
    · cases hwalk with
      | here => exact .inl ⟨rfl, hopen⟩
      | hop hagain hrest =>
        obtain ⟨-, rfl, rfl⟩ := hhop.unique hagain
        exact .inr ⟨_, _, _, hrest, hopen⟩

/-- What is met before several keys is met before the first, or before one of the others. -/
theorem meets_cons_iff (hwalk : resolver.Walk value store followed fetched target middle)
    (htarget : ∀ link, target ≠ .link link) (link : Handle .link) :
    resolver.Meets (key :: keys) value store link ↔
      resolver.MeetsFrom value store link ∨
        resolver.Meets keys (target.under key) middle link := by
  constructor
  · rintro ⟨_ | ⟨first, before⟩, name, later, heq, earlier, position, behind, hselects, hmeets⟩
    · cases hselects
      exact .inl hmeets
    · cases heq
      cases hselects with
      | cons hagain hend hrest =>
        obtain ⟨rfl, rfl, rfl⟩ := hwalk.unique htarget hagain hend
        exact .inr ⟨before, name, later, rfl, _, position, behind, hrest, hmeets⟩
  · rintro (hmeets | ⟨before, name, later, rfl, earlier, position, behind, hselects, hmeets⟩)
    · exact ⟨[], key, keys, rfl, [], value, store, .nil value store, hmeets⟩
    · exact ⟨key :: before, name, later, rfl, _, position, behind,
        .cons hwalk htarget hselects, hmeets⟩

/-- What is fetched are the links without a target that are met before one of the keys. -/
theorem Selects.mem_fetched_iff (h : resolver.Selects keys value store fetched result after)
    (link : Handle .link) : link ∈ fetched ↔ resolver.Meets keys value store link := by
  induction h with
  | nil value store =>
    refine ⟨fun hmem => absurd hmem List.not_mem_nil, ?_⟩
    rintro ⟨_ | _, _, _, heq, -⟩ <;> cases heq
  | cons hwalk htarget _ ih =>
    rw [List.mem_append, hwalk.mem_fetched_iff htarget, ih, meets_cons_iff hwalk htarget]

/-- A link leads to a record, and what its fetch makes holds records only. -/
theorem Hop.isRecord (hanswers : resolver.OnlyAnswers) (hrecords : resolver.AnswersRecords)
    (h : resolver.Hop link store found next middle) (hstore : store.links.HoldsRecords) :
    next.IsRecord ∧ middle.links.HoldsRecords := by
  cases h with
  | cached htarget => exact ⟨hstore _ _ htarget, hstore⟩
  | fetched hopen hfetch =>
    have hnext : next.IsRecord := by
      obtain ⟨draft, hanswer, heq⟩ := hanswers.exists_fetch_eq link (store.linkPath link) store
      cases hfetch.symm.trans heq
      exact hrecords _ _ draft hanswer _ (Draft.length_newLinks _ _)
    obtain ⟨hfetching, htarget⟩ := hanswers.fetching hopen hfetch
    exact ⟨hnext, hfetching.holdsRecords hstore htarget hnext⟩

/-- Links lead to a record, and what their fetches make holds records only. -/
theorem Walk.isRecord (hanswers : resolver.OnlyAnswers) (hrecords : resolver.AnswersRecords)
    (h : resolver.Walk value store followed fetched last after) (hvalue : value.IsRecord)
    (hstore : store.links.HoldsRecords) : last.IsRecord ∧ after.links.HoldsRecords := by
  induction h with
  | here => exact ⟨hvalue, hstore⟩
  | hop hhop _ ih =>
    obtain ⟨hnext, hmiddle⟩ := hhop.isRecord hanswers hrecords hstore
    exact ih hnext hmiddle

/-- Where at most so many links are in a row, following them comes to an end. -/
theorem AtMostInARow.exists_walk (hanswers : resolver.OnlyAnswers)
    (h : resolver.AtMostInARow bound (key :: keys) value store) :
    ∃ followed fetched target middle,
      resolver.Walk value store followed fetched target middle ∧ (∀ link, target ≠ .link link) ∧
      followed.length ≤ bound := by
  have hbound : ∀ followed more last after,
      resolver.Walk value store followed more last after → followed.length ≤ bound :=
    h [] key keys rfl [] value store (.nil value store)
  obtain ⟨followed, fetched, target, middle, hwalk, -, hend⟩ :=
    Walk.exists_walk hanswers (bound + 1) value store
  have hle := hbound _ _ _ _ hwalk
  rcases hend with htarget | ⟨hlength, -⟩
  · exact ⟨followed, fetched, target, middle, hwalk, htarget, hle⟩
  · exact absurd hle (by omega)

/-- Without keys no links are followed. -/
theorem atMostInARow_nil (bound : Nat) (value : Value) (store : Store) :
    resolver.AtMostInARow bound [] value store := by
  rintro (_ | _) _ _ heq <;> cases heq

/-- Not too many links stand in a row before keys if not too many stand before the first, and before
the rest behind it. -/
theorem AtMostInARow.cons (hwalk : resolver.Walk value store followed fetched target middle)
    (htarget : ∀ link, target ≠ .link link) (hlength : followed.length ≤ bound)
    (h : resolver.AtMostInARow bound keys (target.under key) middle) :
    resolver.AtMostInARow bound (key :: keys) value store := by
  rintro (_ | ⟨_, before⟩) name later heq _ position behind hselects _ _ _ _ hfrom
  · cases hselects
    exact (hwalk.length_le htarget hfrom).trans hlength
  · cases heq
    cases hselects with
    | cons hagain hend hrest =>
      obtain ⟨rfl, rfl, rfl⟩ := hwalk.unique htarget hagain hend
      exact h before name later rfl _ position behind hrest _ _ _ _ hfrom

/-- Behind the first key not too many links stand in a row before the others. -/
theorem AtMostInARow.tail (h : resolver.AtMostInARow bound (key :: keys) value store)
    (hwalk : resolver.Walk value store followed fetched target middle)
    (htarget : ∀ link, target ≠ .link link) :
    resolver.AtMostInARow bound keys (target.under key) middle := by
  rintro before name later rfl _ position behind hselects
  exact h (key :: before) name later rfl _ position behind (.cons hwalk htarget hselects)

end Resolver

namespace Evaluator

open Resolver

variable {evaluator : Evaluator} {resolver : Resolver} {value target input : Value}
  {store middle : Store} {followed fetched : List (Handle .link)} {keys : List String}

/-- Selecting from a record gives what it has under the key. -/
theorem run_selectEntry_of_isRecord (hlenient : evaluator.lenient = true)
    (hrecord : target.IsRecord) (name : String) (store : Store) :
    (evaluator.selectEntry name target).run store = some (.ok (target.under name), store) := by
  have hinert := hrecord.isInert
  cases target with
  | map | array | iterator | byteStream => cases hinert
  | mapping | dict => rfl
  | _ =>
    simp only [selectEntry, unsupported, hlenient, if_true]
    rfl

/-- A key follows the links and selects from the record that they lead to. -/
theorem run_apply_key_of_walk (hresolver : evaluator.resolver = some resolver)
    (hlenient : evaluator.lenient = true) (hvalue : value.IsRecord)
    (hwalk : resolver.Walk value store followed fetched target middle)
    (hallowed : evaluator.context.check middle = .ok ())
    (hlink : ∀ link, target ≠ .link link) (hlength : followed.length ≤ maxLinkDepth)
    (htarget : target.IsRecord) (name : String) :
    (evaluator.apply (.key name) value).run store = some (.ok (target.under name), middle) := by
  rw [apply, run_selectKey, selectKeyWithin_of_ne _ _ hvalue.ne_sequence hvalue.ne_stream,
    Computation.run_bind_of_ok (run_check_of_ok (hwalk.steps.check_eq_ok hallowed)),
    Computation.run_bind_of_ok (run_resolve_of_walk hresolver hwalk hallowed hlength hlink),
    askTarget_of_ne _ _ htarget.ne_sequence]
  exact run_selectEntry_of_isRecord hlenient htarget name middle

/-- Each key follows the links before it, and what has been fetched is kept for the next. -/
theorem exists_run_thread_keySteps (hresolver : evaluator.resolver = some resolver)
    (hlenient : evaluator.lenient = true) (hanswers : resolver.OnlyAnswers)
    (hrecords : resolver.AnswersRecords) (hvalue : value.IsRecord)
    (hstore : store.links.HoldsRecords)
    (hrow : resolver.AtMostInARow maxLinkDepth keys value store)
    (hallowed : ∀ fetched result after, resolver.Selects keys value store fetched result after →
      evaluator.context.check after = .ok ()) :
    ∃ fetched result after, resolver.Selects keys value store fetched result after ∧
      (thread evaluator (keySteps keys) value).run store = some (.ok result, after) ∧
      store.Fetching fetched after ∧ result.IsRecord := by
  -- What the context allows in the end it has allowed before each of the keys.
  induction keys generalizing value store with
  | nil => exact ⟨[], value, store, .nil value store, rfl, .refl store, hvalue⟩
  | cons key keys ih =>
    obtain ⟨followed, fetched, target, middle, hwalk, hlink, hlength⟩ := hrow.exists_walk hanswers
    obtain ⟨htarget, hmiddle⟩ := hwalk.isRecord hanswers hrecords hvalue hstore
    obtain ⟨later, result, after, hselects, hrun, hlater, hresult⟩ :=
      ih (htarget.under key) hmiddle (hrow.tail hwalk hlink)
        fun _ _ _ hrest => hallowed _ _ _ (.cons hwalk hlink hrest)
    have hall := Selects.cons hwalk hlink hselects
    have hstill := hselects.steps.check_eq_ok (hallowed _ _ _ hall)
    have hfirst :=
      run_apply_key_of_walk hresolver hlenient hvalue hwalk hstill hlink hlength htarget key
    exact ⟨fetched ++ later, result, after, hall,
      (Computation.run_bind_of_ok hfirst _).trans hrun,
      (hwalk.fetching hanswers).trans hlater, hresult⟩

/-- Steps that are put together in one node run as they do one after the other. -/
theorem run_apply_ofSteps (hallowed : evaluator.context.check store = .ok ()) (nodes : List Node)
    (input : Value) :
    (evaluator.apply (Node.ofSteps nodes) input).run store =
      (thread evaluator nodes input).run store := by
  match nodes with
  | [node] =>
    simp only [Node.ofSteps, thread, bind_pure]
  | [] | _ :: _ :: _ =>
    rw [Node.ofSteps, apply, Computation.run_bind_of_ok (run_check_of_ok hallowed)]
    simp

/-- **Keys fetch what is met before them, and nothing else.** A lenient evaluator with a resolver
that only answers, and only with records, finds what keys lead to in a record where at most 32 links
stand directly in a row, under a context that stops nothing on the way. It fetches each link that
has no target when it is met before one of the keys, once and in that order. All other links stay
as they are, also one that the last key gives. -/
theorem keys_fetch_only_before (hresolver : evaluator.resolver = some resolver)
    (hlenient : evaluator.lenient = true) (hanswers : resolver.OnlyAnswers)
    (hrecords : resolver.AnswersRecords) (hinput : input.IsRecord)
    (hstore : store.links.HoldsRecords) (keys : List String)
    (hrow : resolver.AtMostInARow 32 keys input store)
    (hallowed : ∀ fetched result after, resolver.Selects keys input store fetched result after →
      evaluator.context.check after = .ok ()) :
    ∃ fetched result after,
      evaluator.run [Node.ofSteps (keySteps keys)] input store = some (.ok result, after) ∧
      resolver.Selects keys input store fetched result after ∧
      (∀ link, link ∈ fetched ↔ resolver.Meets keys input store link) ∧
      store.Fetching fetched after := by
  obtain ⟨fetched, result, after, hselects, hthread, hfetching, hresult⟩ :=
    exists_run_thread_keySteps hresolver hlenient hanswers hrecords hinput hstore hrow hallowed
  refine ⟨fetched, result, after, ?_, hselects, hselects.mem_fetched_iff, hfetching⟩
  have hbefore := hselects.steps.check_eq_ok (hallowed _ _ _ hselects)
  have happly := (run_apply_ofSteps hbefore (keySteps keys) input).trans hthread
  simp only [run, happly, continueRun, flatten_of_isInert hresult.isInert]

/-- A link behind a fetched one is handed out as it is. The fetch takes 30 of the 100 milliseconds
that there are. -/
theorem keys_fetch_only_before_of_user :
    let resolver : Resolver := ⟨fun _ _ =>
      { answer := .ok ⟨["/users/2"], fun links => .mapping [("boss", .link (links.getD 0 ⟨0⟩))]⟩
        takes := 30 }⟩
    let evaluator : Evaluator := { context := { deadline := some 100 }, resolver := some resolver }
    let store : Store := { links := ⟨#[{ path := "/users/1" }]⟩ }
    let input : Value := .mapping [("user", .link ⟨0⟩)]
    ∃ after, evaluator.run [.chain [.key "user", .key "boss"]] input store =
        some (.ok (.link ⟨1⟩), after) ∧
      store.Fetching [⟨0⟩] after ∧ after.linkTarget? ⟨1⟩ = none := by
  intro resolver evaluator store input
  have hanswers : resolver.OnlyAnswers := fun _ _ => ⟨rfl, rfl, _, rfl⟩
  have hrecords : resolver.AnswersRecords := by
    rintro _ _ _ ⟨⟩ _ -
    exact .mapping (by simpa using .link _)
  have hinput : input.IsRecord := .mapping (by simpa [input] using .link _)
  have hstore : store.links.HoldsRecords := by
    rintro ⟨_ | index⟩ value htarget <;> cases htarget
    exact .null
  obtain ⟨after, hhop, hafter, hunresolved⟩ : ∃ after,
      resolver.Hop ⟨0⟩ store [⟨0⟩] (.mapping [("boss", .link ⟨1⟩)]) after ∧
      evaluator.context.check after = .ok () ∧ after.linkTarget? ⟨1⟩ = none :=
    ⟨_, .fetched rfl rfl, rfl, rfl⟩
  have hfirst : resolver.Walk input store [] [] input store := .here input store
  have hsecond := Walk.hop hhop (.here _ _)
  have hrow : resolver.AtMostInARow 32 ["user", "boss"] input store :=
    .cons hfirst (by simp [input]) (by decide)
      (.cons hsecond (by simp) (by decide) (atMostInARow_nil _ _ _))
  have hall : resolver.Selects ["user", "boss"] input store [⟨0⟩] (.link ⟨1⟩) after :=
    .cons hfirst (by simp [input]) (.cons hsecond (by simp) (.nil _ _))
  have hallowed : ∀ fetched result after,
      resolver.Selects ["user", "boss"] input store fetched result after →
      evaluator.context.check after = .ok () := fun _ _ _ hselects => by
    obtain ⟨-, -, rfl⟩ := hall.unique hselects
    exact hafter
  obtain ⟨fetched, result, behind, hrun, hselects, -, hfetching⟩ :=
    keys_fetch_only_before rfl rfl hanswers hrecords hinput hstore ["user", "boss"] hrow hallowed
  obtain ⟨rfl, rfl, rfl⟩ := hall.unique hselects
  exact ⟨_, hrun, hfetching, hunresolved⟩

end Evaluator

end Sluice
