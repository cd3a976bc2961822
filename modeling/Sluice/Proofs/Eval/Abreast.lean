import Sluice.Proofs.Eval.Lockstep
import Sluice.Proofs.Eval.Pairing

/-!
# Actions abreast

The same action on two stores that hold the same streams under other names has the same outcome up
to the names of streams, and leaves such stores (`Abreast`). If it fails, then in one of the few
ways in which a filter fails on a document (`EvalError.Usual`). Here this is shown for every action
on one input.
-/

namespace Sluice

open Store

/-- The errors that a filter ends with on a document. -/
inductive EvalError.Usual (lenient : Bool) : EvalError → Prop
  | index (position : Int64) (length : Nat) : Usual lenient (.index position length)
  | unsupportedBinary (left right : Value.Kind) (operator : Filter.Operator) :
      Usual lenient (.unsupportedBinary left operator right)
  | type (operation : Operation) (found : Value.Kind) :
      lenient = false → Usual lenient (.type operation found)

variable {evaluator : Evaluator} {kinds : Value.Kind → Bool} {pairing : Pairing} {α β : Type}

namespace Store

/-- Whether two stores hold the same streams under other names, the next stream that is made in both
belongs together, and evaluation may go on. -/
structure Level (context : Context) (kinds : Value.Kind → Bool) (pairing : Pairing)
    (store image : Store) : Prop where
  paired : Paired kinds pairing store.streams.size store image
  left_le : pairing.left ≤ store.streams.size
  size_eq : image.streams.size + pairing.left = store.streams.size + pairing.right
  permitted : context.check store = .ok ()
  permitted' : context.check image = .ok ()

/-- Whether two stores are level, and one of them has come from a given store by making streams and
taking elements out of paired streams. -/
structure Advances (context : Context) (kinds : Value.Kind → Bool) (pairing : Pairing)
    (start store image : Store) : Prop extends Level context kinds pairing store image where
  size_le : start.streams.size ≤ store.streams.size
  kept : ∀ stream, stream.index < pairing.left → store.remaining stream = start.remaining stream

/-- Whether streams from the pairing on hold values that are the same as others up to names. -/
def Steady (kinds : Value.Kind → Bool) (pairing : Pairing) (store : Store) : Prop :=
  ∀ stream, pairing.left ≤ stream.index → ∀ element ∈ store.remaining stream,
    ∃ part, Renamed kinds pairing stream.index element part

section Level

variable {context : Context} {start store image : Store}

/-- Level stores have advanced from themselves. -/
theorem Level.advances (h : Level context kinds pairing store image) :
    Advances context kinds pairing store store image := ⟨h, Nat.le_refl _, fun _ _ => rfl⟩

/-- Stores advance step by step. -/
theorem Advances.trans {middle between : Store}
    (h : Advances context kinds pairing start middle between)
    (hnext : Advances context kinds pairing middle store image) :
    Advances context kinds pairing start store image :=
  ⟨hnext.toLevel, Nat.le_trans h.size_le hnext.size_le, fun stream hstream =>
    (hnext.kept stream hstream).trans (h.kept stream hstream)⟩

/-- Whether evaluation may go on does not depend on what streams hold. -/
theorem Sheds.check_eq {some : Handle .stream → Prop} (h : Sheds some start store) :
    context.check store = context.check start := by
  refine context.check_congr (fun switch _ => ?_) ?_ <;> rw [h.others]
  rfl

/-- Taking elements out of paired streams keeps stores level. -/
theorem Level.shed {after other : Store} (h : Level context kinds pairing store image)
    (hshed : Shed kinds pairing store.streams.size store image after other) :
    Advances context kinds pairing store after other := by
  have hsize := hshed.left.size_eq
  have hsize' := hshed.right.size_eq
  refine ⟨⟨?_, ?_, ?_, ?_, ?_⟩, Nat.le_of_eq hsize.symm, fun stream hstream => ?_⟩
  · rw [hsize]
    exact hshed.paired
  · rw [hsize]
    exact h.left_le
  · rw [hsize, hsize']
    exact h.size_eq
  · rw [hshed.left.check_eq]
    exact h.permitted
  · rw [hshed.right.check_eq]
    exact h.permitted'
  · exact hshed.left.kept stream fun hwindow => Nat.not_lt.mpr hwindow.1 hstream

/-- New streams of values that are the same up to names belong together. -/
theorem Level.newStream (h : Level context kinds pairing store image)
    (shape : LazyStream.Shape) {elements parts : List Value}
    (helements : List.Forall₂ (Renamed kinds pairing store.streams.size) elements parts) :
    Advances context kinds pairing store (store.newStream shape elements).2
      (image.newStream shape parts).2 := by
  have hsize := h.size_eq
  have hleft := h.left_le
  have hsize' := size_newStream store shape elements
  refine ⟨⟨⟨?_, ?_⟩, ?_, ?_, ?_, ?_⟩, ?_, ?_⟩
  · intro stream other hmade hcount
    have hindex := hmade.2
    by_cases heq : stream.index = store.streams.size
    · rw [remaining_newStream _ _ _ heq, remaining_newStream _ _ _ (by omega), heq]
      exact helements
    · rw [remaining_newStream_of_ne _ _ _ heq, remaining_newStream_of_ne _ _ _ (by omega)]
      exact h.paired.elements hmade (by omega)
  · intro stream hidle
    obtain ⟨hlow, hlow'⟩ := pairing.idle_lt stream hidle
    rw [remaining_newStream_of_ne _ _ _ (by omega), remaining_newStream_of_ne _ _ _ (by omega)]
    exact h.paired.idle hidle
  · omega
  · rw [size_newStream, size_newStream]
    omega
  · exact (context.check_congr (fun _ _ => rfl) rfl).trans h.permitted
  · exact (context.check_congr (fun _ _ => rfl) rfl).trans h.permitted'
  · omega
  · intro stream hstream
    rw [remaining_newStream_of_ne _ _ _ (by omega)]

/-- A stream that belongs to one of the store is one of the other store. -/
theorem Level.index_lt (h : Level context kinds pairing store image)
    {stream other : Handle .stream} (htwin : pairing.Twin stream other)
    (hcount : stream.index < store.streams.size) : other.index < image.streams.size := by
  have hsize := h.size_eq
  have hleft := h.left_le
  rcases htwin with ⟨_, hindex⟩ | ⟨hidle, rfl⟩
  · omega
  · have hearly := pairing.idle_lt _ hidle
    omega

/-- In level stores all streams from the pairing on are paired. -/
theorem Level.steady (h : Level context kinds pairing store image) :
    Steady kinds pairing store := by
  intro stream hstream element helement
  have hcount : stream.index < store.streams.size := by
    by_contra hout
    rw [remaining_of_size_le (Nat.le_of_not_lt hout)] at helement
    cases helement
  have hmade : pairing.Made stream ⟨stream.index + pairing.right - pairing.left⟩ :=
    ⟨hstream, by simp only; omega⟩
  exact exists_of_mem_forall₂ (h.paired.elements hmade hcount) helement

/-- Releasing values leaves streams steady, as it only takes elements out. -/
theorem Steady.releaseAll (h : Steady kinds pairing store) (values : List Value) :
    Steady kinds pairing (releaseAll values store) := fun stream hstream element helement =>
  h stream hstream element (((releases_releaseAll values store).suffix stream).subset helement)

end Level

end Store

/-- Whether two outcomes are results that belong together, in stores that are level, or the same
error, of a kind that documents lead to. -/
inductive Outcomes (evaluator : Evaluator) (kinds : Value.Kind → Bool) (pairing : Pairing)
    (start : Store) (R : α → α → Store → Store → Prop) :
    Option (Except EvalError α × Store) → Option (Except EvalError α × Store) → Prop
  | ok {a b : α} {after other : Store} :
      Advances evaluator.context kinds pairing start after other → R a b after other →
      Outcomes evaluator kinds pairing start R (some (.ok a, after)) (some (.ok b, other))
  | error {error : EvalError} {after other : Store} :
      error.Usual evaluator.lenient → Steady kinds pairing after →
      Outcomes evaluator kinds pairing start R (some (.error error, after))
        (some (.error error, other))

/-- Whether two actions have outcomes that belong together. -/
def Abreast (evaluator : Evaluator) (kinds : Value.Kind → Bool) (pairing : Pairing)
    (store image : Store) (x y : Action α) (R : α → α → Store → Store → Prop) : Prop :=
  Outcomes evaluator kinds pairing store R (x.run store) (y.run image)

/-- Whether two values in two stores are the same up to the names of streams. -/
def Same (kinds : Value.Kind → Bool) (pairing : Pairing) (value part : Value) (store _ : Store) :
    Prop :=
  Renamed kinds pairing store.streams.size value part

namespace Abreast

variable {start store image : Store} {R : α → α → Store → Store → Prop}
  {S : β → β → Store → Store → Prop}

/-- Doing nothing is abreast, with results that belong together. -/
theorem pure {a b : α} (hlevel : Level evaluator.context kinds pairing store image)
    (h : R a b store image) :
    Abreast evaluator kinds pairing store image (Pure.pure a) (Pure.pure b) R :=
  .ok hlevel.advances h

/-- Failing with an error that documents lead to is abreast. -/
theorem throw {error : EvalError} (hlevel : Level evaluator.context kinds pairing store image)
    (h : error.Usual evaluator.lenient) :
    Abreast evaluator kinds pairing store image (MonadExcept.throw error)
      (MonadExcept.throw error) R :=
  .error h hlevel.steady

/-- Results that are known are abreast if they belong together. -/
theorem ofExcept {result outcome : Except EvalError α}
    (hlevel : Level evaluator.context kinds pairing store image)
    (h : Alike (fun a b => R a b store image) result outcome)
    (herror : ∀ error, result = .error error → error.Usual evaluator.lenient) :
    Abreast evaluator kinds pairing store image (MonadExcept.ofExcept result)
      (MonadExcept.ofExcept outcome) R := by
  unfold Abreast
  rw [Computation.run_ofExcept, Computation.run_ofExcept]
  cases h with
  | ok hR => exact .ok hlevel.advances hR
  | error error => exact .error (herror error rfl) hlevel.steady

/-- Actions abreast both give results, or both fail. -/
theorem outcome {x y : Action α} (h : Abreast evaluator kinds pairing store image x y R) :
    (∃ a b after other, x.run store = some (.ok a, after) ∧ y.run image = some (.ok b, other) ∧
      Advances evaluator.context kinds pairing store after other ∧ R a b after other) ∨
    ∃ error after other, x.run store = some (.error error, after) ∧
      y.run image = some (.error error, other) ∧ error.Usual evaluator.lenient ∧
      Steady kinds pairing after := by
  unfold Abreast at h
  generalize x.run store = result at h ⊢
  generalize y.run image = outcome at h ⊢
  cases h with
  | ok hadvances hR => exact Or.inl ⟨_, _, _, _, rfl, rfl, hadvances, hR⟩
  | error herror hsteady => exact Or.inr ⟨_, _, _, rfl, rfl, herror, hsteady⟩

/-- Actions one after the other are abreast if each of them is. -/
theorem bind {x y : Action α} {f g : α → Action β}
    (h : Abreast evaluator kinds pairing store image x y R)
    (hnext : ∀ a b after other, Advances evaluator.context kinds pairing store after other →
      R a b after other → Abreast evaluator kinds pairing after other (f a) (g b) S) :
    Abreast evaluator kinds pairing store image (x >>= f) (y >>= g) S := by
  unfold Abreast
  rw [Computation.run_bind, Computation.run_bind]
  rcases h.outcome with ⟨a, b, middle, between, hx, hy, hadvances, hR⟩ |
    ⟨error, after, other, hx, hy, herror, hsteady⟩
  · rcases (hnext a b middle between hadvances hR).outcome with
      ⟨c, d, after, other, hf, hg, hafter, hS⟩ | ⟨error, after, other, hf, hg, herror, hsteady⟩
    · simp only [hx, hy, Computation.next, hf, hg]
      exact .ok (hadvances.trans hafter) hS
    · simp only [hx, hy, Computation.next, hf, hg]
      exact .error herror hsteady
  · simp only [hx, hy, Computation.next]
    exact .error herror hsteady

/-- What belongs together may be described in a weaker way. -/
theorem mono {x y : Action α} {S : α → α → Store → Store → Prop}
    (h : Abreast evaluator kinds pairing store image x y R)
    (himp : ∀ a b after other, Advances evaluator.context kinds pairing store after other →
      R a b after other → S a b after other) :
    Abreast evaluator kinds pairing store image x y S := by
  unfold Abreast
  rcases h.outcome with ⟨a, b, after, other, hx, hy, hadvances, hR⟩ |
    ⟨error, after, other, hx, hy, herror, hsteady⟩
  · rw [hx, hy]
    exact .ok hadvances (himp a b after other hadvances hR)
  · rw [hx, hy]
    exact .error herror hsteady

/-- Values that are released after a failure do not matter. -/
theorem orRelease {x y : Action α} (h : Abreast evaluator kinds pairing store image x y R)
    (values parts : List Value) :
    Abreast evaluator kinds pairing store image (x.orRelease values) (y.orRelease parts) R := by
  unfold Abreast
  simp only [Action.orRelease, Action.onError, ExceptT.run_mk]
  rcases h.outcome with ⟨a, b, after, other, hx, hy, hadvances, hR⟩ |
    ⟨error, after, other, hx, hy, herror, hsteady⟩
  · simp only [hx, hy]
    exact .ok hadvances hR
  · simp only [hx, hy]
    exact .error herror (hsteady.releaseAll values)

end Abreast

/-- What is found under a name is of the given kinds, or null. -/
theorem ofKinds_entryUnder (hkinds : Value.ClosedKinds kinds) (name : String)
    {entries : List (Value × Value)} (h : ∀ entry ∈ entries, entry.2.OfKinds kinds) :
    (entryUnder name entries).OfKinds kinds := by
  rcases entryUnder_eq_null_or_mem name entries with hnull | ⟨entry, hmem, hentry⟩
  · rw [hnull]
    exact .scalar rfl hkinds.null
  · rw [hentry]
    exact h entry hmem

/-- A position out of range is an error that documents lead to. -/
theorem usual_of_select {lenient : Bool} {position : Int64} {items : List α} {error : EvalError}
    (h : select position items = .error error) : error.Usual lenient := by
  unfold select indexIn at h
  simp only at h
  split at h
  case h_1 _ hfailed =>
    cases h
    split at hfailed
    · cases hfailed
    · cases hfailed
      exact .index _ _
  case h_2 =>
    split at h
    · cases h
    · cases h
      exact .index _ _

/-- Changing what was selected does not change the error. -/
theorem usual_of_map_select {lenient : Bool} {position : Int64} {items : List α} {f : α → β}
    {error : EvalError} (h : (select position items).map f = .error error) :
    error.Usual lenient := by
  cases hselect : select position items with
  | error other =>
    rw [hselect] at h
    cases h
    exact usual_of_select hselect
  | ok item =>
    rw [hselect] at h
    cases h

namespace Evaluator

variable {store image : Store}

/-- A context that lets both sides go on changes nothing. -/
theorem abreast_check_bind {x y : Action α} {R : α → α → Store → Store → Prop}
    (hlevel : Level evaluator.context kinds pairing store image)
    (h : Abreast evaluator kinds pairing store image x y R) :
    Abreast evaluator kinds pairing store image (evaluator.check >>= fun _ => x)
      (evaluator.check >>= fun _ => y) R := by
  unfold Abreast
  rw [Computation.run_bind_of_ok (run_check_of_ok hlevel.permitted),
    Computation.run_bind_of_ok (run_check_of_ok hlevel.permitted')]
  exact h

/-- A value that is no link stands for itself. -/
theorem run_resolve_bind {value : Value} (h : ∀ link, value ≠ .link link)
    (f : Value → Action α) :
    (evaluator.resolve value >>= f).run store = (f value).run store :=
  Computation.run_bind_of_ok (run_resolve_of_some (Table.follow?_of_ne_link h)) f

/-- Values that are the same up to names stand for themselves. -/
theorem abreast_resolve_bind {value part : Value} {count : Nat}
    (hvalue : Renamed kinds pairing count value part) {f g : Value → Action α}
    {R : α → α → Store → Store → Prop}
    (h : Abreast evaluator kinds pairing store image (f value) (g part) R) :
    Abreast evaluator kinds pairing store image (evaluator.resolve value >>= f)
      (evaluator.resolve part >>= g) R := by
  unfold Abreast
  rw [run_resolve_bind hvalue.ne_link.1, run_resolve_bind hvalue.ne_link.2]
  exact h

section Selectors

variable (hkinds : Value.ClosedKinds kinds)
  (hlevel : Level evaluator.context kinds pairing store image)

include hkinds hlevel

/-- Values that are the same up to names are passed over alike. -/
theorem abreast_unsupported (operation : Operation) {value part : Value} {count : Nat}
    (hvalue : Renamed kinds pairing count value part) :
    Abreast evaluator kinds pairing store image (evaluator.unsupported operation value)
      (evaluator.unsupported operation part) fun a b after other =>
        Same kinds pairing a b after other ∧ after = store ∧ other = image := by
  unfold unsupported
  rw [hvalue.kind_eq]
  split
  · exact .pure hlevel ⟨.scalar rfl hkinds.null, rfl, rfl⟩
  · rename_i hstrict
    exact .throw hlevel (.type _ _ (by simpa using hstrict))

omit hkinds in
/-- Streams made of values that are the same up to names belong together. -/
theorem abreast_newStream (shape : LazyStream.Shape) {elements parts : List Value}
    (h : List.Forall₂ (Renamed kinds pairing store.streams.size) elements parts) :
    Abreast evaluator kinds pairing store image (newStream shape elements)
      (newStream shape parts) (Same kinds pairing) := by
  refine .ok (hlevel.newStream shape h) (.stream (Or.inl ⟨hlevel.left_le, ?_⟩) ?_)
  · exact hlevel.size_eq
  · exact Nat.lt_of_lt_of_eq (Nat.lt_succ_self _) (size_newStream store shape elements).symm

variable {value part : Value} (hvalue : Renamed kinds pairing store.streams.size value part)

include hvalue

/-- Selecting an entry is abreast, and leaves both stores as they are. -/
theorem abreast_selectEntry (name : String) :
    Abreast evaluator kinds pairing store image (evaluator.selectEntry name value)
      (evaluator.selectEntry name part) fun a b after other =>
        Same kinds pairing a b after other ∧ after = store ∧ other = image := by
  have hunsupported := abreast_unsupported hkinds hlevel .keySelector hvalue
  cases hvalue with
  | scalar hscalar =>
    cases value with
    | null | bool _ | int _ | float _ | byte _ | bytes _ | text _ => exact hunsupported
    | _ => cases hscalar
  | stream => exact hunsupported
  | sequence => exact hunsupported
  | mapping hentries =>
    exact .pure hlevel ⟨forall₂_lookup (.scalar rfl hkinds.null) name hentries, rfl, rfl⟩
  | dict hdict =>
    cases hdict with
    | scalar hscalar => cases hscalar
    | dict _ _ hvalues =>
      exact .pure hlevel ⟨.ofKinds (ofKinds_entryUnder hkinds name hvalues), rfl, rfl⟩

/-- Selecting an index is abreast. -/
theorem abreast_selectIndex (position : Int64) :
    Abreast evaluator kinds pairing store image (evaluator.selectIndex position value)
      (evaluator.selectIndex position part) (Same kinds pairing) := by
  have hunsupported := (abreast_unsupported hkinds hlevel .indexSelector hvalue).mono
    fun _ _ _ _ _ h => h.1
  refine abreast_resolve_bind hvalue ?_
  cases hvalue with
  | scalar hscalar hkind =>
    cases value with
    | text s =>
      exact .ofExcept hlevel (alike_map_self (fun _ => .scalar rfl hkinds.text) _)
        fun error => usual_of_map_select
    | bytes content =>
      exact .ofExcept hlevel (alike_map_self (fun _ => .scalar rfl (hkinds.byte hkind)) _)
        fun error => usual_of_map_select
    | null | bool _ | int _ | float _ | byte _ => exact hunsupported
    | _ => cases hscalar
  | sequence hitems =>
    exact .ofExcept hlevel (alike_select position hitems) fun error => usual_of_select
  | stream => exact hunsupported
  | mapping => exact hunsupported
  | dict => exact hunsupported

/-- Selecting a range is abreast. -/
theorem abreast_selectRange (range : Filter.Range) :
    Abreast evaluator kinds pairing store image (evaluator.selectRange range value)
      (evaluator.selectRange range part) (Same kinds pairing) := by
  have hunsupported := (abreast_unsupported hkinds hlevel .rangeSelector hvalue).mono
    fun _ _ _ _ _ h => h.1
  unfold selectRange
  split
  · exact .pure hlevel hvalue
  · refine abreast_resolve_bind hvalue ?_
    cases hvalue with
    | scalar hscalar hkind =>
      cases value with
      | text s => exact .pure hlevel (.scalar rfl hkind)
      | bytes content => exact .pure hlevel (.scalar rfl hkind)
      | null | bool _ | int _ | float _ | byte _ => exact hunsupported
      | _ => cases hscalar
    | sequence hitems => exact .pure hlevel (.sequence (forall₂_slice range hitems))
    | stream => exact hunsupported
    | mapping => exact hunsupported
    | dict => exact hunsupported

/-- Taking the length is abreast. -/
theorem abreast_length :
    Abreast evaluator kinds pairing store image (evaluator.length value)
      (evaluator.length part) (Same kinds pairing) := by
  have hunsupported := (abreast_unsupported hkinds hlevel .length hvalue).mono
    fun _ _ _ _ _ h => h.1
  have hcount {n m : Nat} (h : n = m) :
      Abreast evaluator kinds pairing store image (pure (.ofCount n)) (pure (.ofCount m))
        (Same kinds pairing) := by
    rw [h]
    exact .pure hlevel (.scalar rfl hkinds.integer)
  refine abreast_resolve_bind hvalue ?_
  cases hvalue with
  | scalar hscalar hkind =>
    cases value with
    | text s => exact hcount rfl
    | bytes content => exact hcount rfl
    | null | bool _ | int _ | float _ | byte _ => exact hunsupported
    | _ => cases hscalar
  | sequence hitems => exact hcount hitems.length_eq
  | mapping hentries => exact hcount hentries.length_eq
  | dict => exact hcount rfl
  | stream => exact hunsupported

omit hkinds in
/-- Iteration is abreast. -/
theorem abreast_iterateAll :
    Abreast evaluator kinds pairing store image (evaluator.iterateAll value)
      (evaluator.iterateAll part) (Same kinds pairing) := by
  rcases hvalue.stream_or with ⟨stream, other, rfl, rfl, _⟩ | ⟨hne, hne'⟩
  · exact abreast_newStream hlevel _ (.cons hvalue .nil)
  · rw [iterateAll_of_ne_stream hne, iterateAll_of_ne_stream hne']
    refine abreast_resolve_bind hvalue ?_
    have hsingle := abreast_newStream hlevel .single (.cons hvalue .nil)
    cases hvalue with
    | scalar hscalar =>
      cases value with
      | null | bool _ | int _ | float _ | byte _ | bytes _ | text _ => exact hsingle
      | _ => cases hscalar
    | sequence hitems => exact abreast_newStream hlevel _ hitems
    | stream => exact hsingle
    | mapping => exact hsingle
    | dict => exact hsingle

/-- Calculating is abreast. -/
theorem abreast_arithmetic (operator : Filter.Operator) {right rightPart : Value}
    (hright : Renamed kinds pairing store.streams.size right rightPart) :
    Abreast evaluator kinds pairing store image (evaluator.arithmetic value operator right)
      (evaluator.arithmetic part operator rightPart) (Same kinds pairing) := by
  have hrun {right : Value} (h : ∀ link, right ≠ .link link) (left : Value) (store : Store) :
      ((evaluator.resolve right).orRelease [left]).run store = some (.ok right, store) :=
    Action.run_orRelease_of_ok (run_resolve_of_some (Table.follow?_of_ne_link h)) _
  refine abreast_resolve_bind hvalue ?_
  unfold Abreast
  rw [Computation.run_bind_of_ok (hrun hright.ne_link.1 _ _),
    Computation.run_bind_of_ok (hrun hright.ne_link.2 _ _), hvalue.toFloat?_eq, hright.toFloat?_eq,
    hvalue.kind_eq, hright.kind_eq]
  cases value.toFloat?.bind fun a => right.toFloat?.bind fun b => operate? operator a b with
  | some x => exact .ok hlevel.advances (.scalar rfl hkinds.float)
  | none => exact .error (.unsupportedBinary _ _ _) (hlevel.steady.releaseAll _)

end Selectors

end Evaluator

end Sluice
