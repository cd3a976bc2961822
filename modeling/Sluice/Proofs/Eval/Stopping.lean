import Sluice.Proofs.Eval.Confining
import Sluice.Proofs.Eval.Distributing
import Sluice.Proofs.Eval.SharedInput

/-!
# A stream that is left at the first failure

A node that maps itself over a stream takes the elements out one by one. If it makes something of
each of them, the flat form of the whole is the sequence of the flat forms; if not, it stops at the
first element that it refuses, and the elements after that are still in the stream
(`Evaluator.run_iterate_node`). On documents each element is looked at by itself: what is made of
one leaves alone the stream and what was made of the others, streams included.
-/

namespace Sluice

open Sluice.Action Sluice.Filter Sluice.Store

/-- The pairing of the streams that are made next with the first streams of an empty store. -/
def Pairing.fresh (store : Store) : Pairing := .since {} store.streams.size (Nat.zero_le _)

namespace Evaluator

variable {evaluator : Evaluator} {node : Node} {input : Value}

/-- Whether a node makes something with a given flat form of an input, from every store. -/
def Makes (evaluator : Evaluator) (node : Node) (input flat : Value) : Prop :=
  ∀ store, ∃ own after, (evaluator.apply node input).run store = some (.ok own, after) ∧
    ((flatten own).run after).1 = flat

/-- Whether a node fails on an input with a given error, from every store. -/
def Refuses (evaluator : Evaluator) (node : Node) (input : Value) (error : EvalError) : Prop :=
  ∀ store, ∃ after, (evaluator.apply node input).run store = some (.error error, after)

/-- A node does the same on a document in any store and in an empty one, but for the names of
streams. -/
theorem abreast_apply_of_isDocument (hbackground : evaluator.context = .background) (node : Node)
    (h : input.isDocument = true) (store : Store) :
    Abreast evaluator (fun _ => true) (.fresh store) store {} (evaluator.apply node input)
      (evaluator.apply node input) (Same (fun _ => true) (.fresh store)) := by
  have hpermitted (store : Store) : evaluator.context.check store = .ok () := by
    rw [hbackground]
    rfl
  have hfollows : Follows evaluator.context {} store :=
    ⟨Nat.zero_le _, fun stream hstream => absurd hstream (Nat.not_lt_zero _), hpermitted store⟩
  exact ignoresNames_apply Value.closedKinds_true node (hfollows.level (hpermitted {}))
    (.ofKinds (Value.ofKinds_of_isDocument h))

/-- Of a document a node makes something with one flat form from all stores, or it refuses it with
one error. -/
theorem makes_or_refuses (hbackground : evaluator.context = .background) (node : Node)
    (h : input.isDocument = true) :
    (∃ flat, evaluator.Makes node input flat) ∨ ∃ error, evaluator.Refuses node input error := by
  have houtcome (store : Store) := (abreast_apply_of_isDocument hbackground node h store).outcome
  rcases houtcome {} with ⟨-, part, -, image, -, hpart, -⟩ | ⟨error, -, image, -, herror, -⟩
  · refine .inl ⟨((flatten part).run image).1, fun store => ?_⟩
    rcases houtcome store with ⟨own, other, after, found, hown, hother, hadvances, hsame⟩ |
      ⟨_, _, _, _, hother, _⟩
    · cases hpart.symm.trans hother
      have hflat := madeSame_flatten hsame (after.totalRemaining + 1) (image.totalRemaining + 1)
        hadvances.paired (Nat.le_succ _) (Nat.le_succ _)
      exact ⟨own, after, hown, hflat.1.symm⟩
    · cases hpart.symm.trans hother
  · refine .inr ⟨error, fun store => ?_⟩
    rcases houtcome store with ⟨_, _, _, _, _, hother, _⟩ | ⟨_, after, _, hrun, hother, _⟩
    · cases herror.symm.trans hother
    · cases herror.symm.trans hother
      exact ⟨after, hrun⟩

/-- Of several documents a node makes something of each, or there is a first that it refuses. -/
theorem makes_all_or_refuses (hbackground : evaluator.context = .background) (node : Node)
    {xs : List Value} (hxs : ∀ x ∈ xs, x.isDocument = true) :
    (∃ ys, List.Forall₂ (evaluator.Makes node) xs ys) ∨
    ∃ before x rest ys error, xs = before ++ x :: rest ∧
      List.Forall₂ (evaluator.Makes node) before ys ∧ evaluator.Refuses node x error := by
  induction xs with
  | nil => exact .inl ⟨[], .nil⟩
  | cons x xs ih =>
    obtain ⟨hx, hxs⟩ := List.forall_mem_cons.mp hxs
    rcases makes_or_refuses hbackground node hx with ⟨y, hy⟩ | ⟨error, hrefuses⟩
    · rcases ih hxs with ⟨ys, hys⟩ | ⟨before, failed, rest, ys, error, rfl, hys, hrefuses⟩
      · exact .inl ⟨y :: ys, .cons hy hys⟩
      · exact .inr ⟨x :: before, failed, rest, y :: ys, error, rfl, .cons hy hys, hrefuses⟩
    · exact .inr ⟨[], x, xs, [], error, rfl, .nil, hrefuses⟩

/-- What has come of a store when elements have been taken out of a stream and something was made of
each: the values made share no streams, have given flat forms and do not lead back to the
stream. -/
structure Mapped (stream : Handle .stream) (store after : Store) (values flats : List Value) :
    Prop where
  size_le : store.streams.size ≤ after.streams.size
  kept : ∀ other, other ≠ stream → other.index < store.streams.size →
    after.remaining other = store.remaining other
  apart : Apart (fun _ => true) {} after store.streams.size values flats
  confined : Confined (stream.index + 1) after
  values_confined : ∀ value ∈ values, value.isConfined (stream.index + 1) = true

section Loop

variable {stream : Handle .stream} {store middle : Store} {value : Value} {rest : List Value}

/-- What is made of an element that has been pulled keeps apart from what is made afterwards. -/
theorem exists_mapped_cons (hbackground : evaluator.context = .background) {x flat : Value}
    (hx : x.isDocument = true) (hmakes : evaluator.Makes node x flat)
    (hpull : store.pull stream = (some x, middle)) (hconfined : Confined (stream.index + 1) store) :
    ∃ own next, (evaluator.apply node x).run middle = some (.ok own, next) ∧
      Confined (stream.index + 1) next ∧ store.streams.size ≤ next.streams.size ∧
      next.remaining stream = middle.remaining stream ∧
      ∀ {after values flats}, Mapped stream next after values flats →
        Mapped stream store after (own :: values) (flat :: flats) := by
  have hpulled := Within.confined_of_pull hconfined (Nat.lt_succ_self _) hpull
  have hlt := hpulled.low_le
  have hsize : middle.streams.size = store.streams.size := by
    have hmiddle : middle = (store.pull stream).2 := by rw [hpull]
    rw [hmiddle, size_pull]
  obtain ⟨-, hothers, -, -⟩ := pull_some hpull
  obtain ⟨own, next, hrun, hflat⟩ := hmakes middle
  obtain ⟨hwithin, hown⟩ :=
    confines_apply node (Value.isConfined_of_isDocument hx) hpulled hrun
  -- The same happens in an empty store, where there is no other stream to touch.
  rcases (abreast_apply_of_isDocument hbackground node hx middle).outcome with
    ⟨_, part, _, image, hfound, _, hadvances, hsame⟩ | ⟨_, _, _, hfound, _⟩
  · cases hrun.symm.trans hfound
    refine ⟨own, next, hrun, hwithin.toConfined, hsize ▸ hadvances.size_le,
      hadvances.kept stream hlt, fun {after values flats} hmapped => ?_⟩
    have hpaired : Paired (fun _ => true) (.fresh middle) next.streams.size after image := by
      refine hadvances.paired.congr fun other hother => ?_
      rcases hother with ⟨hleft, hright⟩ | ⟨hidle, -⟩
      · refine hmapped.kept other ?_ hright
        rintro rfl
        exact absurd hlt (Nat.not_lt.mpr hleft)
      · exact absurd hidle (Nat.not_lt_zero _)
    have hflatPart : ((flatten part).run image).1 = flat := by
      rw [← hflat]
      exact (madeSame_flatten hsame (next.totalRemaining + 1) (image.totalRemaining + 1)
        hadvances.paired (Nat.le_succ _) (Nat.le_succ _)).1
    refine ⟨?_, fun other hne hother => ?_, ?_, hmapped.confined,
      List.forall_mem_cons.mpr ⟨hown own rfl, hmapped.values_confined⟩⟩
    · exact hsize ▸ Nat.le_trans hadvances.size_le hmapped.size_le
    · have hbefore : other.index < middle.streams.size := hsize ▸ hother
      rw [hmapped.kept other hne (Nat.lt_of_lt_of_le hbefore hadvances.size_le),
        hadvances.kept other hbefore, hothers other hne]
    · rw [← hsize]
      exact .cons (Nat.zero_le _) hadvances.size_le hpaired hsame hflatPart hmapped.apart
  · cases hrun.symm.trans hfound

/-- As long as a node makes something of the elements, they are taken out one after another. -/
theorem exists_mapped (hbackground : evaluator.context = .background) {f : Value → Action Value}
    {xs flats : List Value}
    (hf : ∀ x ∈ xs, ∀ store, (f x).run store = (evaluator.apply node x).run store)
    (hxs : ∀ x ∈ xs, x.isDocument = true) (h : List.Forall₂ (evaluator.Makes node) xs flats)
    (limit : Nat) (results : List Value) (hconfined : Confined (stream.index + 1) store)
    (hremaining : store.remaining stream = xs ++ rest) :
    ∃ values after, Mapped stream store after values flats ∧ after.remaining stream = rest ∧
      (Store.mapEachWithin stream (fun value => (f value).run) (xs.length + limit) results :
        StateT Store Option _) store =
      (Store.mapEachWithin stream (fun value => (f value).run) limit (values.reverse ++ results) :
        StateT Store Option _) after := by
  induction h generalizing store results with
  | nil =>
    refine ⟨[], store, ⟨Nat.le_refl _, fun _ _ _ => rfl, .nil _, hconfined,
      List.forall_mem_nil _⟩, hremaining, ?_⟩
    rw [List.length_nil, Nat.zero_add, List.reverse_nil, List.nil_append]
  | @cons x flat xs flats hmakes _ ih =>
    obtain ⟨hx, hxs⟩ := List.forall_mem_cons.mp hxs
    obtain ⟨hfx, hf⟩ := List.forall_mem_cons.mp hf
    obtain ⟨middle, hpull, hleft⟩ := exists_pull_of_remaining hremaining
    obtain ⟨own, next, hrun, hnext, -, hkept, hcons⟩ :=
      exists_mapped_cons hbackground hx hmakes hpull hconfined
    obtain ⟨values, after, hmapped, hafter, hloop⟩ :=
      ih hf hxs (own :: results) hnext (hkept.trans hleft)
    refine ⟨own :: values, after, hcons hmapped, hafter, ?_⟩
    rw [List.length_cons, Nat.add_right_comm, Store.run_mapEachWithin_succ, hpull]
    simp only [Store.mapRest, hfx middle, hrun, hloop, List.reverse_cons, List.append_assoc,
      List.singleton_append]

end Loop

section Run

variable {xs : List Value} {store : Store}

/-- The stream that `.[]` makes holds the items, and no stream has been made after it. -/
theorem confined_newStream (store : Store) (items : List Value) :
    Confined ((store.newStream .values items).1.index + 1) (store.newStream .values items).2 := by
  have hindex : (store.newStream .values items).1.index = store.streams.size := rfl
  refine ⟨Nat.le_of_eq (size_newStream store .values items).symm, fun stream hstream => ?_⟩
  rw [remaining_of_size_le (by rw [size_newStream]; omega)]
  exact List.forall_mem_nil _

/-- A run that fans a node out over documents takes the elements one after another out of the stream
that `.[]` makes. -/
theorem run_iterate_of_fansOut (hbackground : evaluator.context = .background)
    (hnode : node.fansOut = true) (xs : List Value) (store : Store) :
    ∃ stream middle f, middle.remaining stream = xs ∧ Confined (stream.index + 1) middle ∧
      (∀ x, x.isDocument = true → ∀ store, (f x).run store = (evaluator.apply node x).run store) ∧
      (evaluator.apply node (.stream stream)).run middle = (spread stream f).run middle ∧
      evaluator.run [.iterate, node] (.sequence xs) store =
        evaluator.continueRun [node] (.stream stream) middle := by
  obtain ⟨f, hspread, hf⟩ := exists_run_eq_spread hbackground hnode
    (store.newStream .values xs).1 (store.newStream .values xs).2
  exact ⟨_, _, f, Store.remaining_newStream store .values xs rfl, confined_newStream store xs, hf,
    hspread, run_iterate hbackground [node] xs store⟩

/-- What has been made of all elements has the sequence of their flat forms. -/
theorem exists_run_spread_of_makes (hbackground : evaluator.context = .background)
    {stream : Handle .stream} {f : Value → Action Value} {ys : List Value}
    (hf : ∀ x ∈ xs, ∀ store, (f x).run store = (evaluator.apply node x).run store)
    (hxs : ∀ x ∈ xs, x.isDocument = true) (h : List.Forall₂ (evaluator.Makes node) xs ys)
    (hconfined : Confined (stream.index + 1) store) (hremaining : store.remaining stream = xs) :
    ∃ values after, (spread stream f).run store = some (.ok (.sequence values), after) ∧
      ((flatten (.sequence values)).run after).1 = .sequence ys := by
  have hall : store.remaining stream = xs ++ [] := by rw [hremaining, List.append_nil]
  obtain ⟨values, after, hmapped, -, hloop⟩ :=
    exists_mapped hbackground hf hxs h 0 [] hconfined hall
  refine ⟨values, after, ?_, ?_⟩
  · have hdone : (Store.mapEachWithin stream (fun value => (f value).run) 0 values.reverse :
        StateT Store Option _) after = some (.ok values.reverse.reverse, after) := rfl
    rw [run_spread, Store.run_mapEach, hremaining, ← Nat.add_zero xs.length, hloop,
      List.append_nil, hdone, List.reverse_reverse]
    rfl
  · rw [run_flatten, run_flattenWith_sequence]
    exact congrArg Value.sequence
      (fst_run_flattenItemsWith_of_apart hmapped.apart (Nat.le_succ _))

/-- After the first element that a node refuses, the elements behind it are left in the stream. -/
theorem exists_run_spread_of_refuses (hbackground : evaluator.context = .background)
    {stream : Handle .stream} {f : Value → Action Value} {before rest ys : List Value} {x : Value}
    {error : EvalError}
    (hf : ∀ x ∈ xs, ∀ store, (f x).run store = (evaluator.apply node x).run store)
    (hxs : ∀ x ∈ xs, x.isDocument = true) (hsplit : xs = before ++ x :: rest)
    (h : List.Forall₂ (evaluator.Makes node) before ys) (hrefuses : evaluator.Refuses node x error)
    (hconfined : Confined (stream.index + 1) store) (hremaining : store.remaining stream = xs) :
    ∃ after, (spread stream f).run store = some (.error error, after) ∧
      after.remaining stream = rest := by
  have hbefore : ∀ item ∈ before, item ∈ xs := fun item hitem => by simp [hsplit, hitem]
  have hx : x ∈ xs := by simp [hsplit]
  obtain ⟨values, middle, hmapped, hmiddle, hloop⟩ := exists_mapped hbackground
    (fun item hitem => hf item (hbefore item hitem))
    (fun item hitem => hxs item (hbefore item hitem)) h (rest.length + 1) [] hconfined
    (hremaining.trans hsplit)
  obtain ⟨pulled, hpull, hleft⟩ := exists_pull_of_remaining hmiddle
  obtain ⟨failed, hrun⟩ := hrefuses pulled
  have hpulled := Within.confined_of_pull hmapped.confined (Nat.lt_succ_self _) hpull
  have hwithin := (confines_apply node (Value.isConfined_of_isDocument (hxs x hx)) hpulled hrun).1
  have hreleased := leavesAlone_releaseAll hmapped.values_confined hwithin.toConfined
  refine ⟨releaseAll values failed, ?_, ?_⟩
  · have hlength : xs.length = before.length + (rest.length + 1) := by simp [hsplit]
    rw [run_spread, Store.run_mapEach, hremaining, hlength, hloop, Store.run_mapEachWithin_succ,
      hpull]
    simp only [Store.mapRest, hf x hx, hrun, spreadResult, List.append_nil, List.reverse_reverse]
  · rw [hreleased.kept stream (Nat.lt_succ_self _), hwithin.kept stream (Nat.lt_succ_self _), hleft]

/-- **`.[]` before a node maps the node over the items and stops at the first failure.** Under the
background context, either the node makes something of each of several documents, and the run gives
the sequence of the flat forms; or there is a first one that the node refuses, and the run fails
with the same error and hands out the sequence of the documents after it. -/
theorem run_iterate_node (hbackground : evaluator.context = .background)
    (hnode : node.fansOut = true) (hxs : ∀ x ∈ xs, x.isDocument = true) (store : Store) :
    (∃ ys after, List.Forall₂ (evaluator.Makes node) xs ys ∧
      evaluator.run [.iterate, node] (.sequence xs) store = some (.ok (.sequence ys), after)) ∨
    ∃ before x rest ys error after, xs = before ++ x :: rest ∧
      List.Forall₂ (evaluator.Makes node) before ys ∧ evaluator.Refuses node x error ∧
      evaluator.run [.iterate, node] (.sequence xs) store =
        some (.error ⟨error, some (.sequence rest)⟩, after) := by
  obtain ⟨stream, middle, f, hremaining, hconfined, hf, hspread, hrun⟩ :=
    run_iterate_of_fansOut hbackground hnode xs store
  have hfxs : ∀ x ∈ xs, ∀ store, (f x).run store = (evaluator.apply node x).run store :=
    fun x hx => hf x (hxs x hx)
  rcases makes_all_or_refuses hbackground node hxs with
    ⟨ys, hys⟩ | ⟨before, x, rest, ys, error, rfl, hys, hrefuses⟩
  · obtain ⟨values, after, hvalues, hflat⟩ :=
      exists_run_spread_of_makes hbackground hfxs hxs hys hconfined hremaining
    rcases hflatten : (flatten (.sequence values)).run after with ⟨result, last⟩
    obtain rfl : result = .sequence ys := by rw [← hflat, hflatten]
    refine .inl ⟨ys, last, hys, hrun.trans ?_⟩
    rw [continueRun]
    simp only [hspread, hvalues]
    exact continueRun_nil_eq_ok_iff.mpr hflatten
  · obtain ⟨after, hfailed, hleft⟩ :=
      exists_run_spread_of_refuses hbackground hfxs hxs rfl hys hrefuses hconfined hremaining
    have hrest : ∀ item ∈ rest, item.isDocument = true :=
      fun item hitem => hxs item (by simp [hitem])
    obtain ⟨last, hflatten⟩ := exists_flatten_stream hleft hrest
    refine .inr ⟨before, x, rest, ys, error, release (.sequence rest) last, rfl, hys, hrefuses,
      hrun.trans ?_⟩
    simp only [continueRun, hspread, hfailed, hflatten]

/-- Of three sequences the second holds a text, which is not multiplied: the third is left. -/
theorem run_iterate_node_of_text :
    let evaluator : Evaluator := { context := .background }
    let node : Node := .array [.iterate, .binary (.index 0) .multiply (.number 2)]
    ∃ after, evaluator.run [.iterate, node]
      (.sequence [.sequence [.int 1], .sequence [.text "x"], .sequence [.int 3]]) {} =
        some (.error ⟨.unsupportedBinary .text .multiply .float,
          some (.sequence [.sequence [.int 3]])⟩, after) := by
  intro evaluator node
  obtain ⟨own, made, hfirst⟩ : ∃ own after,
      (evaluator.apply node (.sequence [.int 1])).run {} = some (.ok own, after) := ⟨_, _, rfl⟩
  obtain ⟨failed, hsecond⟩ : ∃ after, (evaluator.apply node (.sequence [.text "x"])).run {} =
      some (.error (.unsupportedBinary .text .multiply .float), after) := ⟨_, rfl⟩
  have hrefused (flat : Value) : ¬ evaluator.Makes node (.sequence [.text "x"]) flat := by
    intro hmakes
    obtain ⟨_, _, hrun, -⟩ := hmakes {}
    cases hsecond.symm.trans hrun
  have hxs : ∀ x ∈ [Value.sequence [.int 1], .sequence [.text "x"], .sequence [.int 3]],
      x.isDocument = true := by decide
  rcases run_iterate_node (rfl : evaluator.context = .background) (rfl : node.fansOut = true)
    hxs {} with
    ⟨ys, _, hys, -⟩ | ⟨before, x, rest, ys, error, after, hsplit, hys, hrefuses, hrun⟩
  · obtain ⟨_, _, -, hys, -⟩ := List.forall₂_cons_left_iff.mp hys
    obtain ⟨_, _, hmakes, -, -⟩ := List.forall₂_cons_left_iff.mp hys
    exact absurd hmakes (hrefused _)
  · match before with
    | [] =>
      obtain ⟨rfl, -⟩ := List.cons.inj hsplit
      obtain ⟨_, hrun⟩ := hrefuses {}
      cases hfirst.symm.trans hrun
    | [_] =>
      obtain ⟨-, hsplit⟩ := List.cons.inj hsplit
      obtain ⟨rfl, rfl⟩ := List.cons.inj hsplit
      obtain ⟨_, hfound⟩ := hrefuses {}
      cases hsecond.symm.trans hfound
      exact ⟨after, hrun⟩
    | _ :: second :: _ =>
      obtain ⟨-, hsplit⟩ := List.cons.inj hsplit
      obtain ⟨rfl, -⟩ := List.cons.inj hsplit
      obtain ⟨_, _, -, hys, -⟩ := List.forall₂_cons_left_iff.mp hys
      obtain ⟨_, _, hmakes, -, -⟩ := List.forall₂_cons_left_iff.mp hys
      exact absurd hmakes (hrefused _)

end Run

end Evaluator

end Sluice
