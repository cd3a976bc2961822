import Sluice.Proofs.Eval.Links
import Sluice.Proofs.Store.Settling

/-!
# Chains of links

A link stands for its target, and a link without one for what is fetched for it. If that is a link
again it is followed in turn, and so on (`Resolver.Walk`). Evaluation follows at most 32 links. It
gives the value that it comes to, if that is no link, and otherwise it fails with the path of the
next link (`Evaluator.link_bound_exact`). What has been fetched on the way is kept, and nothing else
has changed (`Store.Fetching`).
-/

namespace Sluice

open Sluice.Action Sluice.Store

/-- What comes of a store when links are fetched one after another: time has passed, and each of
them had no target and has one now. Every other link is as it was, and those that are new have no
target. -/
structure Store.Fetching (store : Store) (fetched : List (Handle .link)) (after : Store) :
    Prop where
  rest_eq :
    after = { store with links := after.links, journal := after.journal, now := after.now }
  journal_eq : after.journal =
    (fetched.map fun link => Event.fetched link (after.linkPath link)).reverse ++ store.journal
  settles : Settles store after
  nodup : fetched.Nodup
  unresolved : ∀ link ∈ fetched, link.index < store.links.size → store.linkTarget? link = none
  resolved : ∀ link ∈ fetched, link.index < after.links.size ∧ after.isResolved link = true
  kept : ∀ link ∉ fetched, link.index < store.links.size →
    after.links.get link = store.links.get link
  fresh : ∀ link ∉ fetched, store.links.size ≤ link.index → link.index < after.links.size →
    after.linkTarget? link = none

/-- A link that is resolved stays so. -/
theorem Store.Settles.isResolved {store after : Store} (h : Settles store after)
    {link : Handle .link} (hbound : link.index < store.links.size)
    (hresolved : store.isResolved link = true) : after.isResolved link = true := by
  obtain ⟨target, htarget⟩ := Option.isSome_iff_exists.mp hresolved
  rw [Store.isResolved, h.linkTarget?_eq hbound htarget]
  rfl

namespace Store.Fetching

variable {store middle after : Store} {fetched later : List (Handle .link)}

/-- Nothing is fetched between a store and itself. -/
theorem refl (store : Store) : store.Fetching [] store where
  rest_eq := rfl
  journal_eq := rfl
  settles := .refl store
  nodup := .nil
  unresolved := by simp
  resolved := by simp
  kept := fun _ _ _ => rfl
  fresh := fun link _ hle hlt => absurd hlt (Nat.not_lt.mpr hle)

/-- Links fetched in two stretches are fetched one after another, none of them twice. -/
theorem trans (h : store.Fetching fetched middle) (hnext : middle.Fetching later after) :
    store.Fetching (fetched ++ later) after := by
  have hsize {link : Handle .link} (hbound : link.index < store.links.size) :
      link.index < middle.links.size := (h.settles link hbound).1
  -- What has been fetched before has a target, so it is not fetched again.
  have hapart {link : Handle .link} (hmem : link ∈ fetched) : link ∉ later := fun hlater => by
    obtain ⟨hbound, hresolved⟩ := h.resolved link hmem
    rw [isResolved, hnext.unresolved link hlater hbound] at hresolved
    cases hresolved
  refine ⟨?_, ?_, h.settles.trans hnext.settles, ?_, ?_, ?_, ?_, ?_⟩
  · rw [hnext.rest_eq, h.rest_eq]
  · have hpaths : (fetched.map fun link => Event.fetched link (middle.linkPath link)) =
        fetched.map fun link => Event.fetched link (after.linkPath link) :=
      List.map_congr_left fun link hmem => by
        rw [hnext.settles.linkPath_eq (h.resolved link hmem).1]
    rw [hnext.journal_eq, h.journal_eq, hpaths]
    simp
  · exact List.nodup_append.mpr ⟨h.nodup, hnext.nodup, fun link hmem other hother heq =>
      hapart hmem (heq ▸ hother)⟩
  · intro link hmem hbound
    rcases List.mem_append.mp hmem with hfirst | hlater
    · exact h.unresolved link hfirst hbound
    · have hnot : link ∉ fetched := fun hfirst => hapart hfirst hlater
      have hopen := hnext.unresolved link hlater (hsize hbound)
      rwa [linkTarget?, h.kept link hnot hbound] at hopen
  · intro link hmem
    rcases List.mem_append.mp hmem with hfirst | hlater
    · obtain ⟨hbound, hresolved⟩ := h.resolved link hfirst
      exact ⟨(hnext.settles link hbound).1, hnext.settles.isResolved hbound hresolved⟩
    · exact hnext.resolved link hlater
  · intro link hmem hbound
    obtain ⟨hfirst, hlater⟩ := not_or.mp (mt List.mem_append.mpr hmem)
    rw [hnext.kept link hlater (hsize hbound), h.kept link hfirst hbound]
  · intro link hmem hle hlt
    obtain ⟨hfirst, hlater⟩ := not_or.mp (mt List.mem_append.mpr hmem)
    by_cases hbound : link.index < middle.links.size
    · rw [linkTarget?, hnext.kept link hlater hbound]
      exact h.fresh link hfirst hle hbound
    · exact hnext.fresh link hlater (Nat.le_of_not_lt hbound) hlt

/-- Making a link fetches nothing. -/
theorem newLink (store : Store) (path : String) : store.Fetching [] (store.newLink path).2 where
  rest_eq := rfl
  journal_eq := rfl
  settles := (Step.newLink store path).settles
  nodup := .nil
  unresolved := by simp
  resolved := by simp
  kept := fun link _ hbound => Table.get_push_of_lt hbound _
  fresh := fun link _ hle hlt => by
    have hsize : (store.newLink path).2.links.size = store.links.size + 1 := Table.size_push _ _
    have hnew : link = (store.links.push { path := path }).1 := by
      rcases link with ⟨index⟩
      rw [hsize] at hlt
      simp only [Table.push, Handle.mk.injEq]
      exact Nat.le_antisymm (Nat.le_of_lt_succ hlt) hle
    rw [hnew]
    exact congrArg Link.target (Table.get_push_self store.links { path := path })

/-- Making links fetches nothing. -/
theorem newLinks (paths : List String) (store : Store) :
    store.Fetching [] (Draft.newLinks paths store).2 := by
  induction paths generalizing store with
  | nil => exact refl store
  | cons path paths ih => exact (newLink store path).trans (ih _)

end Store.Fetching

/-- Whether a resolver does nothing but answer, however long it takes: it throws no switch, it
resolves no link itself, and it never fails. -/
def Resolver.OnlyAnswers (resolver : Resolver) : Prop :=
  ∀ fetched path, (resolver.script fetched path).cancels = [] ∧
    (resolver.script fetched path).resolves = [] ∧
    ∃ draft, (resolver.script fetched path).answer = .ok draft

/-- A fetch is recorded, and then its time passes. -/
def Store.startFetch (store : Store) (resolver : Resolver) (link : Handle .link) (path : String) :
    Store :=
  (store.record (.fetched link path)).elapse (resolver.script store.fetches path).takes

/-- A fetch by a resolver that only answers starts, makes the answer, and does nothing else. -/
theorem Resolver.OnlyAnswers.exists_fetch_eq {resolver : Resolver} (h : resolver.OnlyAnswers)
    (link : Handle .link) (path : String) (store : Store) :
    ∃ draft, (resolver.script store.fetches path).answer = .ok draft ∧
      resolver.fetch link path store =
        (.ok (draft.realize (store.startFetch resolver link path)).1,
          (draft.realize (store.startFetch resolver link path)).2) := by
  obtain ⟨hcancels, hresolves, draft, hanswer⟩ := h store.fetches path
  refine ⟨draft, hanswer, ?_⟩
  simp only [fetch, startFetch, hcancels, hresolves, hanswer, resolveAll, List.foldl_nil]

/-- Resolving a link without a target gives it one and changes nothing else. -/
theorem Store.resolve_of_unresolved {store : Store} {link : Handle .link} (value : Value)
    (h : store.linkTarget? link = none) :
    (store.resolve link value).2 =
      { store with
        links := store.links.set link { store.links.get link with target := some value } } := by
  rw [linkTarget?] at h
  simp only [resolve, h]

/-- A fetch for a link without a target, whose answer is kept. -/
theorem Resolver.OnlyAnswers.fetching {resolver : Resolver} (h : resolver.OnlyAnswers)
    {store behind : Store} {link : Handle .link} {value : Value}
    (hopen : store.linkTarget? link = none)
    (hfetch : resolver.fetch link (store.linkPath link) store = (.ok value, behind)) :
    store.Fetching [link] (behind.resolve link value).2 ∧
      (behind.resolve link value).2.linkTarget? link = some value := by
  let start := store.startFetch resolver link (store.linkPath link)
  have hgrown : start.Fetching [] behind := by
    obtain ⟨draft, -, heq⟩ := h.exists_fetch_eq link (store.linkPath link) store
    obtain rfl := (Prod.mk.inj (hfetch.symm.trans heq)).2
    exact .newLinks draft.paths start
  have hbound : link.index < store.links.size := lt_size_of_linkTarget?_eq_none hopen
  have hstill : behind.linkTarget? link = none := by
    rw [linkTarget?, hgrown.kept link (List.not_mem_nil) hbound]
    exact hopen
  have htarget : (behind.resolve link value).2.linkTarget? link = some value := by
    rw [linkTarget?_resolve, hstill]
    rfl
  have hsettles : Settles store (behind.resolve link value).2 :=
    Settles.trans hgrown.settles (settles_resolve behind link value)
  refine ⟨⟨?_, ?_, hsettles, List.nodup_singleton link, ?_, ?_, ?_, ?_⟩, htarget⟩
  · rw [resolve_of_unresolved value hstill, hgrown.rest_eq]
    rfl
  · rw [List.map_singleton, hsettles.linkPath_eq hbound, resolve_of_unresolved value hstill]
    exact hgrown.journal_eq
  · intro other hmem _
    rwa [List.mem_singleton.mp hmem]
  · intro other hmem
    rw [List.mem_singleton.mp hmem, isResolved, htarget]
    exact ⟨(hsettles link hbound).1, rfl⟩
  · intro other hmem hother
    have hne : other ≠ link := fun heq => hmem (List.mem_singleton.mpr heq)
    rw [resolve_of_unresolved value hstill, Table.get_set_of_ne _ hne]
    exact hgrown.kept other List.not_mem_nil hother
  · intro other hmem hle hlt
    have hne : other ≠ link := fun heq => hmem (List.mem_singleton.mpr heq)
    rw [linkTarget?_resolve_of_ne behind hne]
    rw [resolve_of_unresolved value hstill, Table.size_set] at hlt
    exact hgrown.fresh other List.not_mem_nil hle hlt

/-- Whether links lead from one value to another, each of them to what it has as its target. -/
inductive Table.Chain (links : Table .link Link) : Value → List (Handle .link) → Value → Prop
  | nil (value : Value) : Chain links value [] value
  | cons {link : Handle .link} {next last : Value} {rest : List (Handle .link)} :
      (links.get link).target = some next → Chain links next rest last →
      Chain links (.link link) (link :: rest) last

/-- The links of a chain are resolved. -/
theorem Table.Chain.isResolved {store : Store} {value last : Value}
    {followed : List (Handle .link)} (h : store.links.Chain value followed last) :
    ∀ link ∈ followed, store.isResolved link = true := by
  induction h with
  | nil => simp
  | cons htarget _ ih => exact List.forall_mem_cons.mpr ⟨Option.isSome_of_eq_some htarget, ih⟩

namespace Resolver

/-- Whether following one link gives a value. A link that has a target gives this; for another one
the value is fetched and kept. -/
inductive Hop (resolver : Resolver) (link : Handle .link) (store : Store) :
    (fetched : List (Handle .link)) → Value → Store → Prop
  | cached {next : Value} :
      store.linkTarget? link = some next → Hop resolver link store [] next store
  | fetched {next : Value} {behind : Store} : store.linkTarget? link = none →
      resolver.fetch link (store.linkPath link) store = (.ok next, behind) →
      Hop resolver link store [link] next (behind.resolve link next).2

/-- Whether following links leads from one value to another. -/
inductive Walk (resolver : Resolver) :
    Value → Store → (followed fetched : List (Handle .link)) → Value → Store → Prop
  | here (value : Value) (store : Store) : Walk resolver value store [] [] value store
  | hop {link : Handle .link} {next last : Value} {store middle after : Store}
      {found followed fetched : List (Handle .link)} :
      resolver.Hop link store found next middle →
      Walk resolver next middle followed fetched last after →
      Walk resolver (.link link) store (link :: followed) (found ++ fetched) last after

variable {resolver : Resolver} {value next last other : Value} {store middle after behind : Store}
  {link : Handle .link} {found followed fetched others more : List (Handle .link)}

namespace Hop

/-- Following a link takes steps. -/
theorem steps (h : resolver.Hop link store found next middle) : Steps store middle := by
  cases h with
  | cached => exact .refl
  | @fetched next behind _ hfetch =>
    have hfetched := steps_fetch resolver link (store.linkPath link) store
    rw [hfetch] at hfetched
    exact hfetched.trans (Step.resolve behind link next).steps

/-- Following a link fetches this link or none. -/
theorem sublist (h : resolver.Hop link store found next middle) : found.Sublist [link] := by
  cases h with
  | cached => exact List.nil_sublist _
  | fetched => exact .refl _

/-- Following a link fetches as `Store.Fetching` says, and the link then has its value as its
target. -/
theorem fetching (hanswers : resolver.OnlyAnswers)
    (h : resolver.Hop link store found next middle) :
    store.Fetching found middle ∧ middle.linkTarget? link = some next := by
  cases h with
  | cached htarget => exact ⟨.refl store, htarget⟩
  | fetched hopen hfetch => exact hanswers.fetching hopen hfetch

/-- A resolver that only answers lets every link be followed. -/
theorem exists_hop (hanswers : resolver.OnlyAnswers) (link : Handle .link) (store : Store) :
    ∃ found next middle, resolver.Hop link store found next middle := by
  cases htarget : store.linkTarget? link with
  | some next => exact ⟨[], next, store, .cached htarget⟩
  | none =>
    obtain ⟨draft, -, hfetch⟩ := hanswers.exists_fetch_eq link (store.linkPath link) store
    exact ⟨[link], _, _, .fetched htarget hfetch⟩

/-- A link can be followed in one way only. -/
theorem unique (h : resolver.Hop link store found next middle)
    (hother : resolver.Hop link store others other behind) :
    others = found ∧ other = next ∧ behind = middle := by
  cases h with
  | cached htarget =>
    cases hother with
    | cached hagain =>
      cases htarget.symm.trans hagain
      exact ⟨rfl, rfl, rfl⟩
    | fetched hopen => cases htarget.symm.trans hopen
  | fetched hopen hfetch =>
    cases hother with
    | cached htarget => cases htarget.symm.trans hopen
    | fetched _ hagain =>
      cases hfetch.symm.trans hagain
      exact ⟨rfl, rfl, rfl⟩

end Hop

namespace Walk

/-- Following links takes steps. -/
theorem steps (h : resolver.Walk value store followed fetched last after) : Steps store after := by
  induction h with
  | here => exact .refl
  | hop hhop _ ih => exact hhop.steps.trans ih

/-- Only links that are followed are fetched, in that order. -/
theorem sublist (h : resolver.Walk value store followed fetched last after) :
    fetched.Sublist followed := by
  induction h with
  | here => exact .slnil
  | hop hhop _ ih => exact hhop.sublist.append ih

/-- Following links fetches as `Store.Fetching` says. -/
theorem fetching (hanswers : resolver.OnlyAnswers)
    (h : resolver.Walk value store followed fetched last after) :
    store.Fetching fetched after := by
  induction h with
  | here value store => exact .refl store
  | hop hhop _ ih => exact (hhop.fetching hanswers).1.trans ih

/-- In the end every link that was followed has the value that it led to. -/
theorem chain (hanswers : resolver.OnlyAnswers)
    (h : resolver.Walk value store followed fetched last after) :
    after.links.Chain value followed last := by
  induction h with
  | here value store => exact .nil value
  | @hop link next _ _ middle _ _ _ _ hhop hrest ih =>
    have htarget := (hhop.fetching hanswers).2
    refine .cons ?_ ih
    by_cases hbound : link.index < middle.links.size
    · exact (hrest.fetching hanswers).settles.linkTarget?_eq hbound htarget
    · -- What is no link of the store stands for null, and nothing is followed from there.
      have hnull : middle.linkTarget? link = some .null := by
        rw [linkTarget?, Table.get_of_size_le (Nat.le_of_not_lt hbound)]
        rfl
      obtain rfl : next = .null := Option.some.inj (htarget.symm.trans hnull)
      cases hrest
      exact hnull

/-- Following so many links either comes to a value before, or to the next link. -/
theorem exists_walk (hanswers : resolver.OnlyAnswers) (count : Nat) (value : Value)
    (store : Store) :
    ∃ followed fetched last after, resolver.Walk value store followed fetched last after ∧
      followed.length ≤ count ∧
      ((∀ link, last ≠ .link link) ∨ followed.length = count ∧ ∃ link, last = .link link) := by
  induction count generalizing value store with
  | zero =>
    refine ⟨[], [], value, store, .here value store, Nat.le_refl 0, ?_⟩
    cases value with
    | link link => exact .inr ⟨rfl, link, rfl⟩
    | _ => exact .inl (by simp)
  | succ count ih =>
    cases value with
    | link link =>
      obtain ⟨found, next, middle, hhop⟩ := Hop.exists_hop hanswers link store
      obtain ⟨followed, fetched, last, after, hwalk, hle, hend⟩ := ih next middle
      exact ⟨_, _, last, after, .hop hhop hwalk, Nat.succ_le_succ hle,
        hend.imp_right fun hend => ⟨congrArg Nat.succ hend.1, hend.2⟩⟩
    | _ => exact ⟨[], [], _, store, .here _ store, Nat.zero_le _, .inl (by simp)⟩

/-- A link that is its own target leads nowhere else. -/
theorem of_loop (hloop : store.linkTarget? link = some (.link link))
    (h : resolver.Walk (.link link) store followed fetched last after) :
    last = .link link ∧ after = store := by
  generalize hvalue : Value.link link = value at h
  induction h with
  | here => exact ⟨rfl, rfl⟩
  | hop hhop _ ih =>
    cases hvalue
    obtain ⟨-, rfl, rfl⟩ := (Hop.cached hloop).unique hhop
    exact ih hloop rfl

end Walk

end Resolver

namespace Evaluator

variable {evaluator : Evaluator} {resolver : Resolver} {value next last : Value}
  {store middle behind after : Store} {found followed fetched : List (Handle .link)}
  {link : Handle .link}

/-- A link without a target is dereferenced by keeping what is fetched for it. -/
theorem run_resolveLink_of_fetch (hresolver : evaluator.resolver = some resolver)
    (hallowed : evaluator.context.check store = .ok ())
    (hstill : evaluator.context.check behind = .ok ()) (hopen : store.linkTarget? link = none)
    (hfetch : resolver.fetch link (store.linkPath link) store = (.ok value, behind)) :
    (evaluator.resolveLink link).run store =
      some (.ok value, (behind.resolve link value).2) := by
  simp only [resolveLink, Computation.run_bind, run_perform, Computation.next, hopen, hresolver,
    run_check_of_ok hallowed, run_attempt, hfetch, Except.mapError, run_check_of_ok hstill,
    Computation.run_pure]

section Walks

variable (hresolver : evaluator.resolver = some resolver)

include hresolver

/-- Dereferencing follows the link, unless the context stops it on the way. -/
theorem run_resolveLink_of_hop (h : resolver.Hop link store found next middle)
    (hallowed : evaluator.context.check middle = .ok ()) :
    (evaluator.resolveLink link).run store = some (.ok next, middle) := by
  -- What lets evaluation go on in the end has done so at both checks, too.
  have hbefore := h.steps.check_eq_ok hallowed
  cases h with
  | cached htarget => exact run_resolveLink_of_some htarget
  | @fetched next behind hopen hfetch =>
    have hstill := (Step.resolve behind link next).steps.check_eq_ok hallowed
    exact run_resolveLink_of_fetch hresolver hbefore hstill hopen hfetch

/-- What is left to do after links have been followed is what is done on the value that they lead
to. -/
theorem run_follow_of_walk (h : resolver.Walk value store followed fetched last after)
    (hallowed : evaluator.context.check after = .ok ()) (more : Nat) :
    (evaluator.follow (followed.length + more) value).run store =
      (evaluator.follow more last).run after := by
  induction h with
  | here => rw [List.length_nil, Nat.zero_add]
  | hop hhop hrest ih =>
    rw [List.length_cons, Nat.add_right_comm, follow, Computation.run_bind_of_ok
      (run_resolveLink_of_hop hresolver hhop (hrest.steps.check_eq_ok hallowed))]
    exact ih hallowed

/-- Resolving gives what links lead to, if no more stand in a row than are followed. -/
theorem run_resolve_of_walk (h : resolver.Walk value store followed fetched last after)
    (hallowed : evaluator.context.check after = .ok ()) (hlength : followed.length ≤ maxLinkDepth)
    (hlast : ∀ link, last ≠ .link link) :
    (evaluator.resolve value).run store = some (.ok last, after) := by
  obtain ⟨more, hmore⟩ := Nat.exists_eq_add_of_le hlength
  rw [resolve, hmore, run_follow_of_walk hresolver h hallowed]
  cases last with
  | link link => exact absurd rfl (hlast link)
  | _ => cases more <;> rfl

/-- Resolving fails with the path of the next link, if as many have been followed as may be. -/
theorem run_resolve_of_walk_too_long
    (h : resolver.Walk value store followed fetched (.link link) after)
    (hallowed : evaluator.context.check after = .ok ())
    (hlength : followed.length = maxLinkDepth) :
    (evaluator.resolve value).run store =
      some (.error (.linkCycle (after.linkPath link)), after) := by
  rw [resolve, ← hlength]
  exact run_follow_of_walk hresolver h hallowed 0

end Walks

/-- **Links are followed up to the 32nd and no further.** With a resolver that only answers, under a
context that stops nothing on the way, a link gives the value that it leads to through at most 32
links, if that is no link. Otherwise the path of the 33rd link is reported. Either way at most 32
links have been followed, they have targets then, those of them that had none have been fetched in
that order, and no other link is touched. -/
theorem link_bound_exact (hresolver : evaluator.resolver = some resolver)
    (hanswers : resolver.OnlyAnswers) (link : Handle .link)
    (hallowed : ∀ followed fetched last after,
      resolver.Walk (.link link) store followed fetched last after → followed.length ≤ 32 →
      evaluator.context.check after = .ok ()) :
    (∀ followed fetched target after,
      resolver.Walk (.link link) store followed fetched target after →
      (∀ next, target ≠ .link next) → followed.length ≤ 32 →
      (evaluator.resolve (.link link)).run store = some (.ok target, after)) ∧
    ((∀ followed fetched target after,
      resolver.Walk (.link link) store followed fetched target after →
      (∀ next, target ≠ .link next) → 32 < followed.length) →
      ∃ followed fetched last after,
        resolver.Walk (.link link) store followed fetched (.link last) after ∧
        followed.length = 32 ∧
        (evaluator.resolve (.link link)).run store =
          some (.error (.linkCycle (after.linkPath last)), after)) ∧
    ∀ result after, (evaluator.resolve (.link link)).run store = some (result, after) →
      ∃ followed fetched target,
        resolver.Walk (.link link) store followed fetched target after ∧
        followed.length ≤ 32 ∧ fetched.length ≤ 32 ∧ fetched.Sublist followed ∧
        store.Fetching fetched after ∧ ∀ other ∈ followed, after.isResolved other = true := by
  obtain ⟨followed, fetched, last, after, hwalk, hle, hend⟩ :=
    Resolver.Walk.exists_walk hanswers maxLinkDepth (.link link) store
  have hstill := hallowed followed fetched last after hwalk hle
  refine ⟨fun followed fetched target after hwalk hlast hle => ?_, fun hfar => ?_,
    fun result behind hrun => ?_⟩
  · exact run_resolve_of_walk hresolver hwalk (hallowed _ _ _ _ hwalk hle) hle hlast
  · rcases hend with hlast | ⟨hlength, next, rfl⟩
    · exact absurd hle (Nat.not_le.mpr (hfar followed fetched last after hwalk hlast))
    · exact ⟨followed, fetched, next, after, hwalk, hlength,
        run_resolve_of_walk_too_long hresolver hwalk hstill hlength⟩
  · obtain rfl : behind = after := by
      rcases hend with hlast | ⟨hlength, next, rfl⟩
      · rw [run_resolve_of_walk hresolver hwalk hstill hle hlast] at hrun
        cases hrun
        rfl
      · rw [run_resolve_of_walk_too_long hresolver hwalk hstill hlength] at hrun
        cases hrun
        rfl
    exact ⟨followed, fetched, last, hwalk, hle, hwalk.sublist.length_le.trans hle, hwalk.sublist,
      hwalk.fetching hanswers, (hwalk.chain hanswers).isResolved⟩

/-- A link to a link that is fetched, and a link that is its own target. The two fetches take 60 of
the 100 milliseconds that there are. -/
theorem link_bound_exact_of_resolver :
    let resolver : Resolver := ⟨fun _ path =>
      { answer := .ok (if path = "/first" then ⟨["/second"], fun links => .link (links.getD 0 ⟨0⟩)⟩
          else .ofValue (.text "end"))
        takes := 30 }⟩
    let evaluator : Evaluator := { context := { deadline := some 100 }, resolver := some resolver }
    let store : Store :=
      { links := ⟨#[{ path := "/first" }, { path := "/loop", target := some (.link ⟨1⟩) }]⟩ }
    (∃ after, (evaluator.resolve (.link ⟨0⟩)).run store = some (.ok (.text "end"), after) ∧
      store.Fetching [⟨0⟩, ⟨2⟩] after) ∧
    (evaluator.resolve (.link ⟨1⟩)).run store = some (.error (.linkCycle "/loop"), store) := by
  intro resolver evaluator store
  have hresolver : evaluator.resolver = some resolver := rfl
  have hanswers : resolver.OnlyAnswers := fun _ _ => ⟨rfl, rfl, _, rfl⟩
  refine ⟨?_, ?_⟩
  · obtain ⟨middle, after, hfirst, hsecond, hmiddle, hafter⟩ : ∃ middle after,
        resolver.Hop ⟨0⟩ store [⟨0⟩] (.link ⟨2⟩) middle ∧
        resolver.Hop ⟨2⟩ middle [⟨2⟩] (.text "end") after ∧
        evaluator.context.check middle = .ok () ∧ evaluator.context.check after = .ok () :=
      ⟨_, _, .fetched rfl rfl, .fetched rfl rfl, rfl, rfl⟩
    have hwalk := Resolver.Walk.hop hfirst (.hop hsecond (.here _ _))
    refine ⟨after, (link_bound_exact hresolver hanswers ⟨0⟩ ?_).1 _ _ _ _ hwalk (by simp)
      (by decide), hwalk.fetching hanswers⟩
    intro _ _ _ _ hpart _
    cases hpart with
    | here => rfl
    | hop hhop hrest =>
      obtain ⟨rfl, rfl, rfl⟩ := hfirst.unique hhop
      cases hrest with
      | here => exact hmiddle
      | hop hhop hrest =>
        obtain ⟨rfl, rfl, rfl⟩ := hsecond.unique hhop
        cases hrest
        exact hafter
  · have hloop : store.linkTarget? ⟨1⟩ = some (.link ⟨1⟩) := rfl
    obtain ⟨_, _, _, _, hwalk, -, hrun⟩ := (link_bound_exact hresolver hanswers ⟨1⟩
      fun _ _ _ _ hpart _ => by rw [(hpart.of_loop hloop).2]; rfl).2.1
      fun _ _ _ _ hpart hlast => absurd (hpart.of_loop hloop).1 (hlast _)
    obtain ⟨heq, rfl⟩ := hwalk.of_loop hloop
    cases heq
    exact hrun

end Evaluator

end Sluice
