import Sluice.Proofs.Eval.Tracing
import Sluice.Proofs.Store.Keeping

/-!
# What a selector leaves of its input

A selector that succeeds loses no iterator as long as what it leaves of its input is held besides
its result: the items besides the selected one, or a collection that it only looks at. What it has
used up it has closed (`Keeping`).
-/

namespace Sluice

open Sluice.Action Sluice.Filter Store

variable {α β : Type}

/-- Whether an action that succeeds loses no iterator, where it uses some values and makes
others. -/
def Keeping (used : List Value) (action : Action α) (made : α → List Value) : Prop :=
  ∀ ⦃store a after⦄, action.run store = some (.ok a, after) → Keeps store after used (made a)

/-- Whether an action that succeeds loses no iterator that is held besides. -/
abbrev Careful (action : Action α) : Prop := Keeping [] action fun _ => []

namespace Keeping

variable {used fewer values : List Value} {made : α → List Value} {last : β → List Value}

/-- An action may count as making more. -/
theorem mono {action : Action α} {more : α → List Value} (h : Keeping used action made)
    (hmade : ∀ a, made a ⊆ more a) : Keeping used action more :=
  fun _ a _ hrun => (h hrun).mono (hmade a)

/-- The values may be replaced by others first. -/
theorem replace {action : Action α} (hvalues : ∀ store, Keeps store store fewer used)
    (h : Keeping used action made) : Keeping fewer action made :=
  fun store _ _ hrun => (hvalues store).trans (h hrun)

/-- A result that makes all that was used loses no iterator. -/
theorem pure {a : α} (h : used ⊆ made a) : Keeping used (Pure.pure a : Action α) made := by
  rintro store result after hrun
  cases hrun
  exact .of_subset h

/-- An action that fails loses nothing, as far as success is concerned. -/
theorem throw (error : EvalError) :
    Keeping used (MonadExcept.throw error : Action α) made := by
  rintro store result after h
  cases h

/-- What the first action makes the second may use. -/
theorem bind {x : Action α} {f : α → Action β} (hx : Keeping used x made)
    (hf : ∀ a, Keeping (made a) (f a) last) : Keeping used (x >>= f) last := by
  intro store b after h
  obtain ⟨a, middle, hfirst, hrest⟩ := Computation.run_bind_eq_ok h
  exact (hx hfirst).trans (hf a hrest)

/-- An operation on the store keeps what it keeps on every store. -/
theorem perform {operation : Store → α × Store}
    (h : ∀ store, Keeps store (operation store).2 used (made (operation store).1)) :
    Keeping used (Action.perform operation) made := by
  rintro store a after hrun
  cases hrun
  exact h store

/-- Changing the result does not change what is made besides. -/
theorem map {action : Action α} (h : Keeping used action fun _ => values) (f : α → β) :
    Keeping used (f <$> action) fun _ => values := by
  rw [map_eq_pure_bind]
  exact h.bind fun _ => .pure (List.Subset.refl _)

/-- What is closed in the end need not be held any more. -/
theorem thenClose {body : Action α} {close : Store → Except EvalError Unit × Store}
    (hbody : Careful body) (hclose : ∀ store, Keeps store (close store).2 used []) :
    Keeping used (body.thenClose close) fun _ => [] := by
  intro store a after h
  simp only [Action.thenClose, ExceptT.run_mk] at h
  rcases hrun : body.run store with _ | ⟨error | b, middle⟩ <;> rw [hrun] at h
  · cases h
  · cases h
  · obtain rfl : (close middle).2 = after := (Prod.mk.inj (Option.some.inj h)).2
    exact ((hbody hrun).frame used).trans (hclose middle)

end Keeping

namespace Careful

/-- Doing nothing is careful. -/
theorem pure (a : α) : Careful (Pure.pure a : Action α) := Keeping.pure (List.Subset.refl _)

/-- Careful actions one after the other are careful. -/
theorem bind {x : Action α} {f : α → Action β} (hx : Careful x) (hf : ∀ a, Careful (f a)) :
    Careful (x >>= f) := Keeping.bind hx hf

/-- Reading the store is careful. -/
theorem read (f : Store → α) : Careful (Action.perform fun store => (f store, store)) :=
  Keeping.perform fun store => .refl store []

/-- An operation that may fail is careful if it loses no iterator. -/
theorem attempt {ε : Type} {toError : ε → EvalError} {operation : Store → Except ε α × Store}
    (h : ∀ store, Keeps store (operation store).2 [] []) :
    Careful (Action.attempt toError operation) := by
  intro store a after hrun
  have hoperation := h store
  rwa [run_attempt_eq_ok hrun] at hoperation

/-- A result that is known is careful. -/
theorem ofExcept (result : Except EvalError α) :
    Careful (MonadExcept.ofExcept result : Action α) := by
  intro store a after h
  rw [Computation.run_ofExcept] at h
  cases h
  exact .refl store []

/-- A value that is only looked at is still there. -/
theorem besides {action : Action Value} (h : Careful action) (target : Value) :
    Keeping [target] action fun value => value :: [target] := fun _ value _ hrun =>
  ((h hrun).frame [target]).mono (List.subset_cons_self value _)

end Careful

/-- The selected item and the others are all items. -/
theorem subset_cons_besidesIndex {position : Int64} {items : List Value} {item : Value}
    (h : select position items = .ok item) :
    items ⊆ item :: (Value.sequence items).besidesIndex position := by
  unfold select at h
  unfold Value.besidesIndex
  cases hindex : indexIn position items.length with
  | error error => simp [hindex] at h
  | ok n =>
    simp only [hindex] at h ⊢
    split at h
    case h_2 => cases h
    case h_1 found hfound =>
      cases h
      obtain ⟨hbound, rfl⟩ := List.getElem?_eq_some_iff.mp hfound
      exact (List.getElem_cons_eraseIdx_perm hbound).symm.subset

/-- A slice and what lies before and after it are all items. -/
theorem subset_slice_append (range : Filter.Range) (items : List Value) :
    items ⊆ slice range items ++ (Value.sequence items).besidesRange range := by
  have hle := sliceBounds_fst_le_snd range items.length
  simp only [slice, Value.besidesRange]
  generalize sliceBounds range items.length = bounds at hle ⊢
  intro item hmem
  rw [← List.take_append_drop bounds.1 items, List.mem_append] at hmem
  simp only [List.mem_append]
  rcases hmem with hfirst | hrest
  · exact Or.inr (Or.inl hfirst)
  · rw [← List.take_append_drop (bounds.2 - bounds.1) (items.drop bounds.1), List.mem_append,
      List.drop_drop] at hrest
    have hsum : bounds.1 + (bounds.2 - bounds.1) = bounds.2 := by omega
    rw [hsum] at hrest
    exact hrest.imp_right Or.inr

/-- The value under a key and those of the other entries are all values of a mapping. -/
theorem map_snd_subset_lookup_cons (name : String) (entries : List (String × Value)) :
    entries.map (·.2) ⊆
      (entries.lookup name).getD .null :: (Value.mapping entries).besidesKey name := by
  induction entries with
  | nil => exact List.nil_subset _
  | cons entry rest ih =>
    simp only [Value.besidesKey] at ih ⊢
    rw [List.lookup_cons, List.eraseP_cons]
    cases hkey : name == entry.1 with
    | true => simp
    | false =>
      intro value hmem
      rcases List.mem_cons.mp hmem with rfl | hrest
      · simp
      · have hfound := ih hrest
        simp only [List.mem_cons] at hfound ⊢
        tauto

/-- The value under a key, the parts of the other entries and perhaps the key itself are all parts
of a dict. -/
theorem mem_entryUnder_cons_or_eq_text (name : String) {entries : List (Value × Value)}
    {part : Value} (h : part ∈ dictParts entries) :
    part ∈ entryUnder name entries :: (Value.dict entries).besidesKey name ∨
      part = .text name := by
  induction entries with
  | nil => exact absurd h List.not_mem_nil
  | cons entry rest ih =>
    obtain ⟨key, value⟩ := entry
    simp only [Value.besidesKey, entryUnder, dictParts, List.flatMap_cons, List.find?_cons,
      List.eraseP_cons] at h ih ⊢
    cases hkey : isTextKey name key with
    | true =>
      obtain rfl : key = .text name := by
        cases key <;> simp [isTextKey] at hkey
        rw [hkey]
      simp only [List.mem_append, List.mem_cons] at h ⊢
      tauto
    | false =>
      simp only [List.cons_append, List.nil_append, List.mem_cons] at h ih ⊢
      rcases h with rfl | rfl | hrest
      · tauto
      · tauto
      · have hfound := ih hrest
        tauto

namespace Keyed

/-- What further entries overwrite is still overwritten behind one more entry. -/
theorem overwritten_subset (entry : String × α) (entries : List (String × α)) :
    overwritten entries ⊆ overwritten (entry :: entries) := by
  rw [overwritten]
  split
  · exact List.subset_cons_self _ _
  · exact List.Subset.refl _

/-- An entry after which its key does not come again is found when looking from the end. -/
theorem mem_overwritten_or_lookup_reverse {entries : List (String × α)} {entry : String × α}
    (h : entry ∈ entries) :
    entry ∈ overwritten entries ∨ entries.reverse.lookup entry.1 = some entry.2 := by
  induction entries with
  | nil => exact absurd h List.not_mem_nil
  | cons head rest ih =>
    rw [List.reverse_cons, List.lookup_append]
    rcases List.mem_cons.mp h with rfl | hmem
    · by_cases hagain : rest.any (entry.1 == ·.1) = true
      · left
        rw [overwritten, if_pos hagain]
        exact List.mem_cons_self
      · right
        have hnone : rest.reverse.lookup entry.1 = none := by
          rw [List.lookup_eq_none_iff]
          intro other hother
          simp only [List.any_eq_true, not_exists, not_and] at hagain
          simpa using hagain other (List.mem_reverse.mp hother)
        rw [hnone, Option.none_or]
        exact List.lookup_cons_self
    · exact (ih hmem).imp (fun hover => overwritten_subset head rest hover) fun hrest => by
        rw [hrest, Option.some_or]

/-- Entries that are not overwritten are in the mapping. -/
theorem mem_overwritten_or_mem_ofList {entries : List (String × α)} {entry : String × α}
    (h : entry ∈ entries) : entry ∈ overwritten entries ∨ entry ∈ ofList entries := by
  refine (mem_overwritten_or_lookup_reverse h).imp_right fun hlookup => ?_
  rw [← lookup_ofList] at hlookup
  obtain ⟨before, behind, heq, _⟩ := List.lookup_eq_some_iff.mp hlookup
  rw [heq]
  exact List.mem_append_right _ List.mem_cons_self

end Keyed

namespace Evaluator

variable (evaluator : Evaluator)

/-- Asking the context is careful. -/
theorem careful_check : Careful evaluator.check := .attempt fun store => .refl store []

/-- Passing over an input that is not supported is careful. -/
theorem careful_unsupported (operation : Operation) (input : Value) :
    Careful (evaluator.unsupported operation input) := by
  unfold unsupported
  split
  · exact .pure _
  · exact .throw _

/-- What is refused does not succeed. -/
theorem keeping_reject {used : List Value} {made : Value → List Value} (operation : Operation)
    (input : Value) : Keeping used (reject operation input) made := by
  intro store a after h
  cases h

/-- Dereferencing a link is careful. -/
theorem careful_resolveLink (link : Handle .link) : Careful (evaluator.resolveLink link) := by
  unfold resolveLink
  refine (Careful.read _).bind fun target => ?_
  split
  · exact .pure _
  · refine (Careful.read _).bind fun path => ?_
    split
    · exact .throw _
    case h_2 resolver _ =>
      have hfetch : Careful (Action.attempt (.resolution path) (resolver.fetch link path)) := by
        refine .attempt fun store => ?_
        obtain ⟨switches, links, hfetched⟩ := exists_fetch_eq resolver link path store
        rw [hfetched]
        exact .of_iterators_eq rfl rfl
      have hkeep (value : Value) : Careful (Action.perform (Store.resolve link value)) := by
        refine Keeping.perform fun store => ?_
        obtain ⟨links, hkept⟩ := resolve_eq link value store
        rw [hkept]
        exact .of_iterators_eq rfl rfl
      refine (careful_check evaluator).bind fun _ => hfetch.bind fun value => ?_
      refine (careful_check evaluator).bind fun _ => (hkeep value).bind fun _ => ?_
      exact .pure value

/-- Advancing an iterator is careful. -/
theorem careful_advance (iterator : Handle .iterator) : Careful (advance iterator) :=
  Keeping.perform fun store => .advance store iterator

/-- Reading an iterator is careful. -/
theorem careful_current (iterator : Handle .iterator) : Careful (current iterator) := by
  refine .attempt fun store => ?_
  simp only [Store.current]
  split
  · exact .refl store []
  · exact .of_iterators_eq rfl rfl

/-- A careful action uses up the iterator that is closed at its end. -/
theorem keeping_closingIterator (iterator : Handle .iterator) {body : Action α}
    (h : Careful body) :
    Keeping [.iterator iterator] (closingIterator iterator body) fun _ => [] :=
  .thenClose h fun store => .closeIterator store iterator

/-- Seeking a position is careful, by induction on the advances that are left. -/
theorem careful_seek (iterator : Handle .iterator) (position : Int64) (limit skip seen : Nat) :
    Careful (evaluator.seek iterator position limit skip seen) := by
  induction limit generalizing skip seen with
  | zero => exact .throw _
  | succ limit ih =>
    unfold seek
    refine (careful_advance iterator).bind fun more => ?_
    split
    · cases skip with
      | zero => exact careful_current iterator
      | succ skip => exact (careful_check evaluator).bind fun _ => ih skip (seen + 1)
    · exact .throw _

/-- Reading the element at a position uses up the iterator. -/
theorem keeping_nth (iterator : Handle .iterator) (position : Int64) :
    Keeping [.iterator iterator] (evaluator.nth iterator position) fun _ => [] :=
  keeping_closingIterator iterator <| (Careful.ofExcept _).bind fun _ =>
    (Careful.read _).bind fun _ => careful_seek evaluator iterator position _ _ _

/-- Collecting a window is careful, by induction on the advances that are left. -/
theorem careful_window (iterator : Handle .iterator) (start : Nat) (stop : Option Nat)
    (limit position : Nat) (collected : List Value) :
    Careful (evaluator.window iterator start stop limit position collected) := by
  induction limit generalizing position collected with
  | zero => exact .pure _
  | succ limit ih =>
    have hrest (collected : List Value) := (careful_check evaluator).bind fun _ =>
      ih (position + 1) collected
    unfold window
    split
    · refine (careful_advance iterator).bind fun more => ?_
      split
      · split
        · exact ((careful_current iterator).map _).bind hrest
        · exact hrest collected
      · exact .pure _
    · exact .pure _

/-- Collecting a range uses up the iterator. -/
theorem keeping_collectRange (iterator : Handle .iterator) (range : Filter.Range) :
    Keeping [.iterator iterator] (evaluator.collectRange iterator range) fun _ => [] :=
  keeping_closingIterator iterator <| (Careful.ofExcept _).bind fun _ =>
    (Careful.read _).bind fun _ => (careful_window evaluator iterator _ _ _ _ _).bind fun _ =>
      .pure _

/-- Counting on is careful, by induction on the advances that are left. -/
theorem careful_countFrom (iterator : Handle .iterator) (limit count : Nat) :
    Careful (evaluator.countFrom iterator limit count) := by
  induction limit generalizing count with
  | zero => exact .pure _
  | succ limit ih =>
    unfold countFrom
    refine (careful_advance iterator).bind fun more => ?_
    split
    · exact (careful_check evaluator).bind fun _ => ih (count + 1)
    · exact .pure _

/-- Counting the elements uses up the iterator. -/
theorem keeping_count (iterator : Handle .iterator) :
    Keeping [.iterator iterator] (evaluator.count iterator) fun _ => [] :=
  keeping_closingIterator iterator <| (Careful.read _).bind fun _ =>
    careful_countFrom evaluator iterator _ 0

/-- Reading bytes is careful. -/
theorem careful_readWith (read : ByteSource → Except String (List UInt8) × ByteSource)
    (stream : Handle .byteStream) :
    Careful (Action.attempt .byteStream (Store.readWith read stream)) := by
  refine .attempt fun store => ?_
  simp only [Store.readWith]
  split
  · exact .refl store []
  · exact .of_iterators_eq rfl rfl

/-- Reading a range of bytes is careful. -/
theorem careful_readRange (stream : Handle .byteStream) (range : Filter.Range) :
    Careful (readRange stream range) := by
  refine .thenClose ?_ fun store => ?_
  · refine (Careful.ofExcept _).bind fun bounds => ?_
    refine (careful_readWith _ stream).bind fun skipped => ?_
    split
    · exact .pure _
    · refine Careful.bind ?_ fun _ => .pure _
      cases bounds.2 with
      | none | some stop => exact careful_readWith _ stream
  · simp only [Store.closeByteStream]
    split
    · exact .refl store []
    · exact .of_iterators_eq rfl rfl

/-- Iterating a collection makes an iterator. -/
theorem keeping_iterateArray (array : Handle .array) :
    Keeping [] (iterateArray array) fun iterator => [.iterator iterator] :=
  .perform fun _ => .of_push rfl rfl

/-- Iterating a map makes an iterator. -/
theorem keeping_iterateMap (map : Handle .map) :
    Keeping [] (Action.perform (Store.iterateMap map)) fun iterator => [.iterator iterator] :=
  .perform fun _ => .of_push rfl rfl

/-- A new stream keeps what its elements keep. -/
theorem keeping_newStream (shape : LazyStream.Shape) (elements : List Value) :
    Keeping elements (newStream shape elements) fun value => [value] :=
  Keeping.bind (.perform fun store => .newStream store shape elements) fun _ =>
    .pure (List.Subset.refl _)

/-- An index leaves the items besides the selected one, or what it only looks at. -/
theorem keeping_selectIndex (position : Int64) {target : Value}
    (hlink : ∀ link, target ≠ .link link) :
    Keeping [target] (evaluator.selectIndex position target) fun value =>
      value :: target.besidesIndex position := by
  cases target with
  | link link => exact absurd rfl (hlink link)
  | iterator iterator =>
    exact (keeping_nth evaluator iterator position).mono fun _ =>
      List.nil_subset _
  | array array =>
    have hlook : Careful (iterateArray array >>= fun iterator => evaluator.nth iterator position) :=
      (keeping_iterateArray array).bind fun iterator => keeping_nth evaluator iterator position
    exact hlook.besides _
  | sequence items =>
    intro store value after h
    have hselect : select position items = .ok value := by
      change (ofExcept (select position items) : Action Value).run store = _ at h
      rw [Computation.run_ofExcept] at h
      exact (Prod.mk.inj (Option.some.inj h)).1
    obtain rfl : store = after := by
      change (ofExcept (select position items) : Action Value).run store = _ at h
      rw [Computation.run_ofExcept] at h
      exact (Prod.mk.inj (Option.some.inj h)).2
    exact (Keeps.of_sequence store items).mono
      (subset_cons_besidesIndex hselect)
  | byteStream stream => exact keeping_reject _ _
  | text | bytes => exact Careful.besides (.ofExcept _) _
  | _ => exact (careful_unsupported evaluator _ _).besides _

/-- A range leaves the items before and after the slice, or what it only looks at. -/
theorem keeping_selectRange {range : Filter.Range} (hsome : ¬ range.isAll = true) {target : Value}
    (hlink : ∀ link, target ≠ .link link) :
    Keeping [target] (evaluator.selectRange range target) fun value =>
      value :: target.besidesRange range := by
  rw [selectRange, if_neg hsome]
  cases target with
  | link link => exact absurd rfl (hlink link)
  | iterator iterator =>
    exact (keeping_collectRange evaluator iterator range).mono fun _ =>
      List.nil_subset _
  | array array =>
    have hlook : Careful (iterateArray array >>= fun iterator =>
        evaluator.collectRange iterator range) :=
      (keeping_iterateArray array).bind fun iterator =>
        keeping_collectRange evaluator iterator range
    exact hlook.besides _
  | byteStream stream =>
    have hnone (store : Store) : Keeps store store [.byteStream stream] [] :=
      .of_reachable (by simp)
    exact ((careful_readRange stream range).replace hnone).mono fun _ =>
      List.nil_subset _
  | sequence items =>
    intro store value after h
    cases h
    have hitems := (Keeps.of_sequence store items).mono
      (subset_slice_append range items)
    exact hitems.trans ((Keeps.sequence store (slice range items)).frame _)
  | text | bytes => exact Careful.besides (.pure _) _
  | _ => exact (careful_unsupported evaluator _ _).besides _

/-- Counting leaves what it only looks at. -/
theorem keeping_length {target : Value} (hlink : ∀ link, target ≠ .link link) :
    Keeping [target] (evaluator.length target) fun value => value :: target.unlessClosed := by
  cases target with
  | link link => exact absurd rfl (hlink link)
  | iterator iterator =>
    exact ((keeping_count evaluator iterator).map _).mono fun _ =>
      List.nil_subset _
  | array array =>
    have hlook := (keeping_iterateArray array).bind fun iterator =>
      (keeping_count evaluator iterator).map Value.ofCount
    exact Careful.besides hlook _
  | map map =>
    have hlook := (keeping_iterateMap map).bind fun iterator =>
      (keeping_count evaluator iterator).map Value.ofCount
    exact Careful.besides hlook _
  | byteStream stream => exact keeping_reject _ _
  | text | bytes | sequence | mapping | dict => exact Careful.besides (.pure _) _
  | _ => exact (careful_unsupported evaluator _ _).besides _

/-- A key leaves the other entries, or what it only looks at. -/
theorem keeping_selectEntry (name : String) (target : Value) :
    Keeping [target] (evaluator.selectEntry name target) fun value =>
      value :: target.besidesKey name := by
  cases target with
  | map map =>
    have hlook : Careful (Action.attempt .value (Store.lookUp map name)) :=
      .attempt fun _ => .of_iterators_eq rfl rfl
    exact hlook.besides _
  | mapping entries =>
    intro store value after h
    cases h
    exact (Keeps.of_mapping store entries).mono
      (map_snd_subset_lookup_cons name entries)
  | dict entries =>
    intro store value after h
    cases h
    refine (Keeps.of_dict store entries).trans (.of_reachable fun iterator part hmem hreach => ?_)
    rcases mem_entryUnder_cons_or_eq_text name hmem with hpart | rfl
    · exact ⟨part, hpart, hreach⟩
    · exact absurd hreach not_reachable_text
  | iterator | array | byteStream => exact keeping_reject _ _
  | _ => exact (careful_unsupported evaluator _ _).besides _

/-- Operands of arithmetic are numbers, and no iterator can be reached from a number. -/
theorem not_reachable_of_toFloat? {store : Store} {source : Source} {value : Value} {x : Float}
    (h : value.toFloat? = some x) : ¬ store.Reachable source value := by
  rintro hreach
  cases value <;> cases h <;> rcases hreach with ⟨hvalue⟩ <;> cases source <;> cases hvalue

/-- Operands of which arithmetic makes something hold no iterator. -/
theorem keeps_of_operate? {left right : Value} {operator : Operator} {x : Float} (store : Store)
    (h : (left.toFloat?.bind fun a => right.toFloat?.bind fun b => operate? operator a b) =
      some x) : Keeps store store [left, right] [] := by
  obtain ⟨a, ha, hrest⟩ := Option.bind_eq_some_iff.mp h
  obtain ⟨b, hb, _⟩ := Option.bind_eq_some_iff.mp hrest
  refine .of_reachable fun iterator operand hmem hreach => ?_
  rcases (by simpa using hmem : operand = left ∨ operand = right) with rfl | rfl
  · exact absurd hreach (not_reachable_of_toFloat? ha)
  · exact absurd hreach (not_reachable_of_toFloat? hb)

end Evaluator

/-- What is iterated over is in the hands of its elements. -/
theorem Traced.keeping_elementsOf (target : Value) :
    Keeping [target] (elementsOf target) fun value => [value] := by
  cases target with
  | iterator iterator => exact .pure (List.Subset.refl _)
  | array array =>
    have hnone (store : Store) : Keeps store store [.array array] [] := .of_reachable (by simp)
    exact (Evaluator.keeping_iterateArray array).replace hnone |>.bind fun iterator =>
      .pure (List.Subset.refl _)
  | sequence items =>
    exact (Evaluator.keeping_newStream .values items).replace fun store => .of_sequence store items
  | _ => exact Evaluator.keeping_newStream .single _

end Sluice
