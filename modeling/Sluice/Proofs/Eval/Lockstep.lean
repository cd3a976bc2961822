import Sluice.Proofs.Eval.Actions
import Sluice.Proofs.Eval.Mirroring

/-!
# Actions in lockstep

An action on a store and an action on a mirror of it run in lockstep if they end with results that
belong together or with the same error, and leave stores side by side (`Lockstep`). Here this is
shown for every action on one input.
-/

namespace Sluice

open Store

variable {α β : Type} {links : Table .link Link} {base : Nat}

/-- Whether two outcomes are results that belong together, or the same error. -/
inductive Alike (R : α → α → Prop) : Except EvalError α → Except EvalError α → Prop
  | ok {a b : α} : R a b → Alike R (.ok a) (.ok b)
  | error (error : EvalError) : Alike R (.error error) (.error error)

/-- Whether two actions have outcomes that are alike and leave stores side by side. -/
def Lockstep (links : Table .link Link) (base : Nat) (store image : Store) (x y : Action α)
    (R : α → α → Store → Prop) : Prop :=
  ∃ result outcome after other, x.run store = some (result, after) ∧
    y.run image = some (outcome, other) ∧ Proceeds links base store after other ∧
    Alike (fun a b => R a b after) result outcome

/-- Whether a value is mirrored in a store. -/
def Mirrored (links : Table .link Link) (base : Nat) (value part : Value) (store : Store) : Prop :=
  Mirrors links base store.streams.size value part

namespace Lockstep

variable {store image : Store} {R : α → α → Store → Prop} {S : β → β → Store → Prop}

/-- Doing nothing is in lockstep, with results that belong together. -/
theorem pure {a b : α} (hmirror : Mirror links base store image) (h : R a b store) :
    Lockstep links base store image (Pure.pure a) (Pure.pure b) R :=
  ⟨_, _, _, _, rfl, rfl, .refl hmirror, .ok h⟩

/-- Failing with the same error is in lockstep. -/
theorem throw (hmirror : Mirror links base store image) {error : EvalError} :
    Lockstep links base store image (MonadExcept.throw error) (MonadExcept.throw error) R :=
  ⟨_, _, _, _, rfl, rfl, .refl hmirror, .error _⟩

/-- Results that are known are in lockstep if they belong together. -/
theorem ofExcept (hmirror : Mirror links base store image) {result outcome : Except EvalError α}
    (h : Alike (fun a b => R a b store) result outcome) :
    Lockstep links base store image (MonadExcept.ofExcept result) (MonadExcept.ofExcept outcome)
      R :=
  ⟨_, _, _, _, Computation.run_ofExcept result store, Computation.run_ofExcept outcome image,
    .refl hmirror, h⟩

/-- Operations on the stores are in lockstep if both stores proceed. -/
theorem perform {operation other : Store → α × Store}
    (hproceeds : Proceeds links base store (operation store).2 (other image).2)
    (h : R (operation store).1 (other image).1 (operation store).2) :
    Lockstep links base store image (Action.perform operation) (Action.perform other) R :=
  ⟨_, _, _, _, rfl, rfl, hproceeds, .ok h⟩

/-- What follows the first part may use that more streams may have been made. -/
theorem bind {x y : Action α} {f g : α → Action β} (h : Lockstep links base store image x y R)
    (hnext : ∀ a b after other, R a b after → Proceeds links base store after other →
      Lockstep links base after other (f a) (g b) S) :
    Lockstep links base store image (x >>= f) (y >>= g) S := by
  obtain ⟨_, _, middle, between, hx, hy, hproceeds, halike⟩ := h
  unfold Lockstep
  rw [Computation.run_bind, Computation.run_bind, hx, hy]
  cases halike with
  | error error => exact ⟨_, _, _, _, rfl, rfl, hproceeds, .error error⟩
  | @ok a b hR =>
    obtain ⟨result, outcome, after, other, hf, hg, hlater, halike⟩ :=
      hnext a b middle between hR hproceeds
    exact ⟨result, outcome, after, other, hf, hg, hlater.after hproceeds.size_le, halike⟩

/-- What belongs together may be described in a weaker way. -/
theorem mono {x y : Action α} {T : α → α → Store → Prop} (h : Lockstep links base store image x y R)
    (himp : ∀ a b after other, R a b after → Proceeds links base store after other → T a b after) :
    Lockstep links base store image x y T := by
  obtain ⟨result, outcome, after, other, hx, hy, hproceeds, halike⟩ := h
  refine ⟨result, outcome, after, other, hx, hy, hproceeds, ?_⟩
  cases halike with
  | error error => exact .error error
  | ok hR => exact .ok (himp _ _ _ _ hR hproceeds)

/-- After a failure mirrored values are released on both sides. -/
theorem orRelease {x y : Action α} (h : Lockstep links base store image x y R) {count : Nat}
    {values parts : List Value} (hvalues : List.Forall₂ (Mirrors links base count) values parts) :
    Lockstep links base store image (x.orRelease values) (y.orRelease parts) R := by
  obtain ⟨_, _, middle, between, hx, hy, hproceeds, halike⟩ := h
  simp only [Lockstep, Action.orRelease, Action.onError, ExceptT.run_mk, hx, hy]
  cases halike with
  | error error =>
    have hreleased := together_releaseAll hvalues hproceeds.toMirror
    exact ⟨_, _, _, _, rfl, rfl, hreleased.after hproceeds.size_le, .error error⟩
  | ok hR => exact ⟨_, _, _, _, rfl, rfl, hproceeds, .ok hR⟩

end Lockstep

/-- Items that belong together are selected alike by their position. -/
theorem alike_select {R : α → α → Prop} (position : Int64) {items parts : List α}
    (h : List.Forall₂ R items parts) : Alike R (select position items) (select position parts) := by
  unfold select
  rw [h.length_eq]
  cases indexIn position parts.length with
  | error error => exact .error error
  | ok n =>
    simp only
    by_cases hn : n < items.length
    · have hother : n < parts.length := h.length_eq ▸ hn
      rw [List.getElem?_eq_getElem hn, List.getElem?_eq_getElem hother]
      exact .ok (List.Forall₂.get h hn hother)
    · have hother : ¬ n < parts.length := h.length_eq ▸ hn
      rw [List.getElem?_eq_none (Nat.le_of_not_lt hn),
        List.getElem?_eq_none (Nat.le_of_not_lt hother)]
      exact .error _

/-- A result of one kind of value only is alike to itself. -/
theorem alike_map_self {R : β → β → Prop} {f : α → β} (h : ∀ a, R (f a) (f a))
    (result : Except EvalError α) : Alike R (result.map f) (result.map f) := by
  cases result with
  | error error => exact .error error
  | ok a => exact .ok (h a)

/-- Slices of lists that belong together belong together. -/
theorem forall₂_slice {R : α → β → Prop} (range : Filter.Range) {items : List α} {parts : List β}
    (h : List.Forall₂ R items parts) : List.Forall₂ R (slice range items) (slice range parts) := by
  simp only [slice, h.length_eq]
  exact List.forall₂_take _ (List.forall₂_drop _ h)

/-- What is found under a key belongs together if the entries do. -/
theorem forall₂_lookup {R : Value → Value → Prop} (hnull : R .null .null) (name : String)
    {entries parts : List (String × Value)} (h : List.Forall₂ (OnEntries R) entries parts) :
    R ((entries.lookup name).getD .null) ((parts.lookup name).getD .null) := by
  induction h with
  | nil => exact hnull
  | cons hentry _ ih =>
    cases hentry with
    | @intro key value part hvalue =>
      rw [List.lookup_cons, List.lookup_cons]
      cases name == key with
      | true => exact hvalue
      | false => exact ih

/-- What is found under a name in a dict belongs together if the entries do. -/
theorem mirrors_entryUnder {count : Nat} (name : String) {entries parts : List (Value × Value)}
    (hdocuments : ∀ entry ∈ entries, entry.2.isDocument = true)
    (h : List.Forall₂ (OnEntries (Folded links)) entries parts) :
    Mirrors links base count (entryUnder name entries) (entryUnder name parts) := by
  induction h with
  | nil => exact .folded rfl (.scalar rfl)
  | cons hentry _ ih =>
    cases hentry with
    | @intro key value part hvalue =>
      have hrest := ih fun entry hmem => hdocuments entry (List.mem_cons_of_mem _ hmem)
      unfold entryUnder at hrest ⊢
      rw [List.find?_cons, List.find?_cons]
      cases isTextKey name key with
      | true => exact .folded (hdocuments _ List.mem_cons_self) hvalue
      | false => exact hrest

/-- A scalar mirrors itself. -/
theorem Mirrors.ofScalar {count : Nat} {value : Value} (h : value.category = .scalar) :
    Mirrors links base count value value := (Shape.scalar h).mirrors

namespace Evaluator

variable {evaluator : Evaluator} {store image : Store}

/-- A context that never stops evaluation does not change anything. -/
theorem lockstep_check_bind (hcontext : evaluator.context = .background) {x y : Action α}
    {R : α → α → Store → Prop} (h : Lockstep links base store image x y R) :
    Lockstep links base store image (evaluator.check >>= fun _ => x)
      (evaluator.check >>= fun _ => y) R := by
  unfold Lockstep
  rw [Computation.run_bind, Computation.run_bind, run_check hcontext, run_check hcontext]
  exact h

section Selectors

variable (hmirror : Mirror links base store image)

include hmirror

/-- Values of the same kind are passed over alike. -/
theorem lockstep_unsupported {R : Value → Value → Store → Prop} (operation : Operation)
    {value part : Value} (hkind : part.kind = value.kind) (hnull : R .null .null store) :
    Lockstep links base store image (evaluator.unsupported operation value)
      (evaluator.unsupported operation part) R := by
  unfold unsupported
  rw [hkind]
  split
  · exact .pure hmirror hnull
  · exact .throw hmirror

/-- Streams made of values that belong together belong together. -/
theorem lockstep_newStream (shape : LazyStream.Shape) {elements parts : List Value}
    (h : List.Forall₂ (Mirrors links base store.streams.size) elements parts) :
    Lockstep links base store image (newStream shape elements) (newStream shape parts)
      (Mirrored links base) := by
  have hnew : Lockstep links base store image (Action.perform (Store.newStream shape elements))
      (Action.perform (Store.newStream shape parts)) fun stream other after =>
        other = stream ∧ base ≤ stream.index ∧ stream.index < after.streams.size := by
    refine .perform (hmirror.proceeds_newStream shape h) ⟨hmirror.fst_newStream shape _ _, ?_, ?_⟩
    · exact hmirror.base_le
    · rw [size_newStream]
      exact Nat.lt_succ_self _
  refine .bind hnew fun stream other after _ hstream hproceeds => ?_
  obtain ⟨rfl, hbase, hcount⟩ := hstream
  exact .pure hproceeds.toMirror (.stream hbase hcount)

/-- What becomes of the value that an input leads to, when it is iterated over. -/
def iterateTarget : Value → Action Value
  | .iterator iterator => pure (.iterator iterator)
  | .array array => do
    let iterator ← iterateArray array
    pure (.iterator iterator)
  | .sequence items => newStream .values items
  | other => newStream .single [other]

omit hmirror in
/-- What is no stream is iterated over once it has been resolved. -/
theorem iterateAll_of_ne_stream {input : Value} (h : ∀ stream, input ≠ .stream stream) :
    evaluator.iterateAll input = evaluator.resolve input >>= iterateTarget := by
  cases input with
  | stream stream => exact absurd rfl (h stream)
  | _ => rfl

/-- Selecting an entry is in lockstep, and leaves both stores as they are. -/
theorem lockstep_selectEntry (name : String) {value target : Value}
    (h : Shape links base store.streams.size value target) :
    Lockstep links base store image (evaluator.selectEntry name value)
      (evaluator.selectEntry name target) fun a b after =>
        Mirrored links base a b after ∧ after = store := by
  cases h with
  | scalar hscalar =>
    cases value with
    | null | bool _ | int _ | float _ | byte _ | bytes _ | text _ =>
      exact lockstep_unsupported hmirror _ rfl ⟨.ofScalar rfl, rfl⟩
    | _ => cases hscalar
  | stream _ _ => exact lockstep_unsupported hmirror _ rfl ⟨.ofScalar rfl, rfl⟩
  | sequence _ => exact lockstep_unsupported hmirror _ rfl ⟨.ofScalar rfl, rfl⟩
  | mapping hentries =>
    exact .pure hmirror ⟨forall₂_lookup (.folded rfl (.scalar rfl)) name hentries, rfl⟩
  | @dict entries _ hdocument hentries =>
    have hdocuments := Value.everyLeaf_dict.mp hdocument
    have hvalues : ∀ entry ∈ entries, entry.2.isDocument = true := fun entry hmem =>
      (hdocuments entry hmem).2
    exact .pure hmirror ⟨mirrors_entryUnder name hvalues hentries, rfl⟩

variable {value part : Value} (hvalue : Mirrors links base store.streams.size value part)

include hvalue

/-- A mirrored value leads to itself, and its image to a value of the same form. -/
theorem lockstep_resolve :
    Lockstep links base store image (evaluator.resolve value) (evaluator.resolve part)
      fun a b after =>
        Shape links base after.streams.size a b ∧ a = value ∧ after = store := by
  obtain ⟨target, hlead, hshape⟩ := hvalue.exists_shape
  rw [← hmirror.links_eq] at hlead
  have hself := hvalue.leadsTo?_eq store.links
  exact ⟨_, _, _, _, run_resolve_of_some hself, run_resolve_of_some hlead, .refl hmirror,
    .ok ⟨hshape, rfl, rfl⟩⟩

/-- Selecting an index is in lockstep. -/
theorem lockstep_selectIndex (position : Int64) :
    Lockstep links base store image (evaluator.selectIndex position value)
      (evaluator.selectIndex position part) (Mirrored links base) := by
  refine .bind (lockstep_resolve hmirror hvalue) fun found target after other hfound hproceeds => ?_
  have hmirror := hproceeds.toMirror
  cases hfound.1 with
  | scalar hscalar =>
    cases found with
    | text s => exact .ofExcept hmirror (alike_map_self (fun _ => .ofScalar rfl) _)
    | bytes content => exact .ofExcept hmirror (alike_map_self (fun _ => .ofScalar rfl) _)
    | null | bool _ | int _ | float _ | byte _ =>
      exact lockstep_unsupported hmirror _ rfl (.ofScalar rfl)
    | _ => cases hscalar
  | sequence hitems => exact .ofExcept hmirror (alike_select position hitems)
  | stream _ _ => exact lockstep_unsupported hmirror _ rfl (.ofScalar rfl)
  | mapping _ => exact lockstep_unsupported hmirror _ rfl (.ofScalar rfl)
  | dict _ _ => exact lockstep_unsupported hmirror _ rfl (.ofScalar rfl)

/-- Selecting a range is in lockstep. -/
theorem lockstep_selectRange (range : Filter.Range) :
    Lockstep links base store image (evaluator.selectRange range value)
      (evaluator.selectRange range part) (Mirrored links base) := by
  unfold selectRange
  split
  · exact .pure hmirror hvalue
  · refine .bind (lockstep_resolve hmirror hvalue)
      fun found target after other hfound hproceeds => ?_
    have hmirror := hproceeds.toMirror
    cases hfound.1 with
    | scalar hscalar =>
      cases found with
      | text s => exact .pure hmirror (.ofScalar rfl)
      | bytes content => exact .pure hmirror (.ofScalar rfl)
      | null | bool _ | int _ | float _ | byte _ =>
        exact lockstep_unsupported hmirror _ rfl (.ofScalar rfl)
      | _ => cases hscalar
    | sequence hitems => exact .pure hmirror (.sequence (forall₂_slice range hitems))
    | stream _ _ => exact lockstep_unsupported hmirror _ rfl (.ofScalar rfl)
    | mapping _ => exact lockstep_unsupported hmirror _ rfl (.ofScalar rfl)
    | dict _ _ => exact lockstep_unsupported hmirror _ rfl (.ofScalar rfl)

/-- Taking the length is in lockstep. -/
theorem lockstep_length :
    Lockstep links base store image (evaluator.length value) (evaluator.length part)
      (Mirrored links base) := by
  refine .bind (lockstep_resolve hmirror hvalue) fun found target after other hfound hproceeds => ?_
  have hmirror := hproceeds.toMirror
  have hcount {n m : Nat} (h : n = m) :
      Lockstep links base after other (pure (.ofCount n)) (pure (.ofCount m))
        (Mirrored links base) := by
    rw [h]
    exact .pure hmirror (.ofScalar rfl)
  cases hfound.1 with
  | scalar hscalar =>
    cases found with
    | text s => exact hcount rfl
    | bytes content => exact hcount rfl
    | null | bool _ | int _ | float _ | byte _ =>
      exact lockstep_unsupported hmirror _ rfl (.ofScalar rfl)
    | _ => cases hscalar
  | sequence hitems => exact hcount hitems.length_eq
  | mapping hentries => exact hcount hentries.length_eq
  | dict _ hentries => exact hcount hentries.length_eq
  | stream _ _ => exact lockstep_unsupported hmirror _ rfl (.ofScalar rfl)

/-- Iteration is in lockstep. -/
theorem lockstep_iterateAll :
    Lockstep links base store image (evaluator.iterateAll value) (evaluator.iterateAll part)
      (Mirrored links base) := by
  rcases hvalue.stream_or with ⟨stream, rfl, rfl, _, _⟩ | ⟨hne, hne'⟩
  · exact lockstep_newStream hmirror _ (.cons hvalue .nil)
  · rw [iterateAll_of_ne_stream hne, iterateAll_of_ne_stream hne']
    refine .bind (lockstep_resolve hmirror hvalue)
      fun found target after other hfound hproceeds => ?_
    have hmirror := hproceeds.toMirror
    have hsingle := hfound.1.mirrors
    cases hfound.1 with
    | scalar hscalar =>
      cases found with
      | null | bool _ | int _ | float _ | byte _ | bytes _ | text _ =>
        exact lockstep_newStream hmirror _ (.cons hsingle .nil)
      | _ => cases hscalar
    | sequence hitems => exact lockstep_newStream hmirror _ hitems
    | stream _ _ => exact lockstep_newStream hmirror _ (.cons hsingle .nil)
    | mapping _ => exact lockstep_newStream hmirror _ (.cons hsingle .nil)
    | dict _ _ => exact lockstep_newStream hmirror _ (.cons hsingle .nil)

/-- Calculating is in lockstep. -/
theorem lockstep_arithmetic (operator : Filter.Operator) {right rightPart : Value}
    (hright : Mirrors links base store.streams.size right rightPart) :
    Lockstep links base store image (evaluator.arithmetic value operator right)
      (evaluator.arithmetic part operator rightPart) (Mirrored links base) := by
  refine .bind (lockstep_resolve hmirror hvalue) fun a a' after other ha hproceeds => ?_
  have hright := hright.mono hproceeds.size_le
  refine .bind ((lockstep_resolve hproceeds.toMirror hright).orRelease (.cons ha.1.mirrors .nil))
    fun b b' later another hb hproceeds => ?_
  have hmirror := hproceeds.toMirror
  have hboth : List.Forall₂ (Mirrors links base later.streams.size) [a, b] [a', b'] :=
    .cons (ha.1.mirrors.mono hproceeds.size_le) (.cons hb.1.mirrors .nil)
  rw [ha.1.toFloat?_eq, hb.1.toFloat?_eq, ha.1.kind_eq, hb.1.kind_eq]
  cases a.toFloat?.bind fun x => b.toFloat?.bind fun y => operate? operator x y with
  | some x => exact .pure hmirror (.ofScalar rfl)
  | none =>
    have hreleased : Lockstep links base later another
        (Action.perform fun store => ((), releaseAll [a, b] store))
        (Action.perform fun store => ((), releaseAll [a', b'] store)) fun _ _ _ => True :=
      .perform (together_releaseAll hboth hmirror) trivial
    exact .bind hreleased fun _ _ _ _ _ hproceeds => .throw hproceeds.toMirror

end Selectors

end Evaluator

end Sluice
