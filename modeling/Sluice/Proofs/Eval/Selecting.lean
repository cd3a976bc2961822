import Sluice.Proofs.Eval.Documents
import Sluice.Proofs.Eval.SharedInput
import Sluice.Proofs.Eval.Slicing

/-!
# Selecting from a construction

An array holds what its sub-filters make, and an object what its entries make, under their keys. So
an index behind an array, and a key behind an object, give back the result of one sub-filter
(`Evaluator.select_from_construction`). The others are applied as well, some before it and some
after. On a document that makes no difference, since a document has no streams they could share.
-/

namespace Sluice

open Sluice.Filter Sluice.Store

namespace Keyed

variable {α : Type} {entries : List (String × α)} {key : String}

/-- A key that no entry has is not found. -/
theorem lookup_eq_none_of_not_mem (h : key ∉ entries.map (·.1)) : entries.lookup key = none :=
  List.lookup_eq_none_iff.mpr fun entry hmem => by
    have hne : key ≠ entry.1 := fun heq => h (heq ▸ List.mem_map_of_mem hmem)
    simpa using hne

/-- A key that no entry has is not found in the mapping made of them. -/
theorem lookup_ofList_of_not_mem (h : key ∉ entries.map (·.1)) :
    (ofList entries).lookup key = none := by
  rw [lookup_ofList]
  exact lookup_eq_none_of_not_mem (by simpa using h)

/-- Of the entries with a key the last one counts. -/
theorem lookup_ofList_of_last {a : α} {j : Nat} (hentry : entries[j]? = some (key, a))
    (hlast : key ∉ (entries.map (·.1)).drop (j + 1)) : (ofList entries).lookup key = some a := by
  obtain ⟨hj, hget⟩ := List.getElem?_eq_some_iff.mp hentry
  have hsplit : entries = entries.take j ++ (key, a) :: entries.drop (j + 1) := by
    rw [← hget, ← List.drop_eq_getElem_cons hj, List.take_append_drop]
  have hnone : (entries.drop (j + 1)).reverse.lookup key = none := by
    rw [← List.map_drop] at hlast
    exact lookup_eq_none_of_not_mem (by simpa using hlast)
  rw [lookup_ofList, hsplit]
  simp [List.lookup_append, hnone]

end Keyed

section Lists

variable {α β : Type} {R : α → β → Prop} {xs : List α} {ys : List β}

/-- If every element has a partner, the list has a list of partners. -/
theorem exists_forall₂ (h : ∀ x ∈ xs, ∃ y, R x y) : ∃ ys, List.Forall₂ R xs ys := by
  induction xs with
  | nil => exact ⟨[], .nil⟩
  | cons x xs ih =>
    obtain ⟨⟨y, hy⟩, hxs⟩ := List.forall_mem_cons.mp h
    obtain ⟨ys, hys⟩ := ih hxs
    exact ⟨y :: ys, .cons hy hys⟩

/-- The element at a position has its partner at the same position. -/
theorem exists_getElem?_of_forall₂ (h : List.Forall₂ R xs ys) {i : Nat} {x : α}
    (hx : xs[i]? = some x) : ∃ y, ys[i]? = some y ∧ R x y := by
  obtain ⟨hi, rfl⟩ := List.getElem?_eq_some_iff.mp hx
  have hlt : i < ys.length := h.length_eq ▸ hi
  exact ⟨ys[i], List.getElem?_eq_getElem hlt, h.get hi hlt⟩

end Lists

/-- In the store that holds all of them, each value has its own flat form. -/
theorem Apart.forall₂_flatten {kinds : Value.Kind → Bool} {early store : Store} {low : Nat}
    {values flats : List Value} (h : Apart kinds early store low values flats) :
    List.Forall₂ (fun flat value => flat.OfKinds kinds ∧ ((flatten value).run store).1 = flat)
      flats values := by
  induction h with
  | nil => exact .nil
  | @cons _ _ _ _ _ _ _ image _ _ hpaired hvalue hflat _ ih =>
    have hboth := madeSame_flatten hvalue (store.totalRemaining + 1) (image.totalRemaining + 1)
    obtain ⟨hsame, hkinds, -⟩ := hboth hpaired (Nat.le_succ _) (Nat.le_succ _)
    have hown : ((flatten _).run store).1 = _ := hsame.symm.trans hflat
    exact .cons ⟨hown ▸ hkinds, hown⟩ ih

namespace Evaluator

variable {evaluator : Evaluator} {store middle : Store} {document : Value}

/-- The entries of an object are made like the items of an array, and put under their keys. -/
theorem applyEntries_eq_applyAll (entries : List (String × Node)) (input : Value)
    (before : List (String × Value)) :
    evaluator.applyEntries entries input before =
      evaluator.applyAll (entries.map (·.2)) input (before.map (·.2)) >>= fun values =>
        pure ((before.reverse.map (·.1) ++ entries.map (·.1)).zip values) := by
  induction entries generalizing before with
  | nil =>
    have hzip : before.reverse = (before.reverse.map (·.1)).zip (before.map (·.2)).reverse :=
      List.zip_of_prod rfl List.map_reverse
    simp only [applyEntries, applyAll, List.map_nil, pure_bind, List.append_nil, ← hzip]
  | cons entry rest ih => simp [applyEntries, applyAll, ih]

/-- An object is made of its keys and the results of its parts. -/
theorem run_apply_object (hpermitted : evaluator.context.check store = .ok ())
    (hne : ∀ stream, document ≠ .stream stream) {entries : List (String × Node)}
    {values : List Value}
    (hvalues : (evaluator.applyAll (entries.map (·.2)) document []).run store =
      some (.ok values, middle)) :
    (evaluator.apply (.object entries) document).run store =
      some (.ok (.mapping (Keyed.ofList ((entries.map (·.1)).zip values))), middle) := by
  have hentries : (evaluator.applyEntries entries document []).run store =
      some (.ok ((entries.map (·.1)).zip values), middle) := by
    rw [applyEntries_eq_applyAll, List.map_nil, Computation.run_bind_of_ok hvalues]
    rfl
  rw [apply, run_pointwise_of_ne_stream hne,
    Computation.run_bind_of_ok (run_check_of_ok hpermitted), Computation.run_bind_of_ok hentries]
  rfl

/-- An index, from the front or from the end, selects the element at its position. -/
theorem run_apply_index (hpermitted : evaluator.context.check store = .ok ())
    {values : List Value} {value : Value} {i : Nat} (hvalue : values[i]? = some value)
    {position : Int64} (hposition : position.toInt = i ∨ position.toInt = i - values.length) :
    (evaluator.apply (.index position) (.sequence values)).run store = some (.ok value, store) := by
  obtain ⟨hi, -⟩ := List.getElem?_eq_some_iff.mp hvalue
  have hinside : -(values.length : Int) ≤ position.toInt ∧ position.toInt < values.length := by
    omega
  have hplace : (fromStart position values.length).toNat = i := by
    unfold fromStart
    split <;> omega
  obtain ⟨item, hitem, hselect⟩ := select_eq_ok hinside
  rw [hplace, hvalue] at hitem
  cases hitem
  have hsequence : (Value.sequence values).elements? = some values := rfl
  rw [apply, run_pointwise_of_elements hpermitted hsequence, run_selectIndex hsequence, hselect]

/-- A key selects its value from a mapping, or null. -/
theorem run_apply_key (hpermitted : evaluator.context.check store = .ok ()) (key : String)
    (entries : List (String × Value)) :
    (evaluator.apply (.key key) (.mapping entries)).run store =
      some (.ok ((entries.lookup key).getD .null), store) := by
  rw [apply, run_selectKey, selectKeyWithin_of_ne _ _ (by simp) (by simp),
    Computation.run_bind_of_ok (run_check_of_ok hpermitted), run_resolve_bind (by simp)]
  rfl

/-- Whether two filters give one and the same document as their result. -/
def Agree (evaluator : Evaluator) (document : Value) (store : Store) (program other : Program) :
    Prop :=
  ∃ result after last, result.isDocument = true ∧
    evaluator.run program document store = some (.ok result, after) ∧
    evaluator.run other document store = some (.ok result, last)

/-- A run of two stages gives what the second makes of the result of the first, in flat form. -/
theorem exists_run_pair {node selector : Node} {whole part flat : Value} {after : Store}
    (hwhole : (evaluator.apply node document).run store = some (.ok whole, middle))
    (hpart : (evaluator.apply selector whole).run middle = some (.ok part, after))
    (hflat : ((flatten part).run after).1 = flat) :
    ∃ last, evaluator.run [node, selector] document store = some (.ok flat, last) := by
  have hthread : (evaluator.thread [node] document).run store = some (.ok whole, middle) :=
    Computation.run_bind_of_ok hwhole _
  exact ⟨_, (run_append_eq_ok_iff hthread).mpr ⟨part, after, hpart, Prod.ext hflat rfl⟩⟩

/-- On a document, sub-filters that each give a result alone also do so one after another. In the
store that holds what all of them have made, each value has the flat form that a run of its
sub-filter alone gives. -/
theorem exists_run_applyAll_of_isDocument (hpermitted : evaluator.context.check store = .ok ())
    (hdocument : document.isDocument = true) {items : List Node}
    (hitems : ∀ item ∈ items, ∃ own image,
      (evaluator.apply item document).run store = some (.ok own, image)) :
    ∃ values middle,
      (evaluator.applyAll items document []).run store = some (.ok values, middle) ∧
      values.length = items.length ∧
      ∀ (i : Nat) item, items[i]? = some item → ∃ value flat last, values[i]? = some value ∧
        ((flatten value).run middle).1 = flat ∧ flat.isDocument = true ∧
        evaluator.run [item] document store = some (.ok flat, last) := by
  have hflats (item : Node) (hmem : item ∈ items) : ∃ flat own image,
      (evaluator.apply item document).run store = some (.ok own, image) ∧
        ((flatten own).run image).1 = flat := by
    obtain ⟨own, image, hown⟩ := hitems item hmem
    exact ⟨_, own, image, hown, rfl⟩
  obtain ⟨flats, halone⟩ := exists_forall₂ hflats
  have hvalue : Renamed (fun _ => true) (.self store.streams.size) store.streams.size document
      document := .ofKinds (Value.ofKinds_of_isDocument hdocument)
  obtain ⟨values, middle, hrun, hapart, -⟩ := exists_run_applyAll Value.closedKinds_true hpermitted
    hvalue (store.isExhausted_of_isDocument hdocument) halone
    ⟨Nat.le_refl _, fun _ _ => rfl, hpermitted⟩ []
  have hvalues := hapart.forall₂_flatten
  refine ⟨values, middle, hrun, (halone.length_eq.trans hvalues.length_eq).symm,
    fun i item hitem => ?_⟩
  obtain ⟨flat, hflat, own, image, hown, hmade⟩ := exists_getElem?_of_forall₂ halone hitem
  obtain ⟨value, hvalue, hkinds, hsame⟩ := exists_getElem?_of_forall₂ hvalues hflat
  have hnothing : (evaluator.thread [] document).run store = some (.ok document, store) := rfl
  have hsingle := (run_append_eq_ok_iff hnothing).mpr ⟨own, image, hown, Prod.ext hmade rfl⟩
  exact ⟨value, flat, _, hvalue, hsame, hkinds.isDocument, hsingle⟩

/-- **Selecting from a construction.** If each of several sub-filters gives a result of a document,
then an index behind an array of them gives the result of the one at this place, counted from the
front or from the end. A key behind an object gives the result of the last entry with this key, and
null if there is none. -/
theorem select_from_construction (hcontext : evaluator.context = .background)
    (hdocument : document.isDocument = true) {items : List Node}
    (hitems : ∀ item ∈ items, ∃ own image,
      (evaluator.apply item document).run store = some (.ok own, image)) :
    (∀ (position : Int64) (i : Nat) item, items[i]? = some item →
      position.toInt = i ∨ position.toInt = i - items.length →
      evaluator.Agree document store [.array items, .index position] [item]) ∧
    ∀ entries : List (String × Node), entries.map (·.2) = items →
      (∀ key (j : Nat) item, entries[j]? = some (key, item) →
        key ∉ (entries.map (·.1)).drop (j + 1) →
        evaluator.Agree document store [.object entries, .key key] [item]) ∧
      ∀ key ∉ entries.map (·.1), ∃ after,
        evaluator.run [.object entries, .key key] document store = some (.ok .null, after) := by
  have hpermitted (store : Store) : evaluator.context.check store = .ok () := by
    rw [hcontext, Context.check_background]
  have hne := Value.ne_stream_of_isDocument hdocument
  obtain ⟨values, middle, hvalues, hlength, halone⟩ :=
    exists_run_applyAll_of_isDocument (hpermitted store) hdocument hitems
  refine ⟨fun position i item hitem hposition => ?_, ?_⟩
  · obtain ⟨value, flat, last, hvalue, hflat, hresult, hrun⟩ := halone i item hitem
    rw [← hlength] at hposition
    have harray := run_apply_array (hpermitted store) hne hvalues
    have hindex := run_apply_index (hpermitted middle) hvalue hposition
    obtain ⟨after, hpair⟩ := exists_run_pair harray hindex hflat
    exact ⟨flat, after, last, hresult, hpair, hrun⟩
  · rintro entries rfl
    let made := (entries.map (·.1)).zip values
    have hkeys : made.map (·.1) = entries.map (·.1) := List.map_fst_zip (by simp [hlength])
    have hobject := run_apply_object (hpermitted store) hne hvalues
    have hselect (key : String) := run_apply_key (hpermitted middle) key (Keyed.ofList made)
    refine ⟨fun key j item hentry hlast => ?_, fun key hnone => ?_⟩
    · have hitem : (entries.map (·.2))[j]? = some item := by simp [hentry]
      obtain ⟨value, flat, last, hvalue, hflat, hresult, hrun⟩ := halone j item hitem
      have hmade : made[j]? = some (key, value) := by
        simp [made, List.getElem?_zip_eq_some, hentry, hvalue]
      have hkey := hselect key
      rw [Keyed.lookup_ofList_of_last hmade (hkeys ▸ hlast)] at hkey
      obtain ⟨after, hpair⟩ := exists_run_pair hobject hkey hflat
      exact ⟨flat, after, last, hresult, hpair, hrun⟩
    · have hkey := hselect key
      rw [Keyed.lookup_ofList_of_not_mem (hkeys ▸ hnone)] at hkey
      exact exists_run_pair hobject hkey rfl

/-- The elements of a document and their number, in an array and under the same key of an object. -/
theorem select_from_construction_of_iterate :
    let evaluator : Evaluator := { context := .background }
    let document : Value := .sequence [.int 1, .int 2]
    evaluator.Agree document {} [.array [.length, .iterate], .index 0] [.length] ∧
      evaluator.Agree document {} [.array [.length, .iterate], .index (-1)] [.iterate] ∧
      evaluator.Agree document {} [.object [("a", .length), ("a", .iterate)], .key "a"]
        [.iterate] ∧
      ∃ after, evaluator.run [.object [("a", .length), ("a", .iterate)], .key "b"] document {} =
        some (.ok .null, after) := by
  intro evaluator document
  have hitems : ∀ item ∈ [Node.length, .iterate], ∃ own image,
      (evaluator.apply item document).run {} = some (.ok own, image) := by
    rintro item hmem
    rcases List.mem_pair.mp hmem with rfl | rfl <;> exact ⟨_, _, rfl⟩
  obtain ⟨hindex, hkey⟩ := select_from_construction rfl rfl hitems
  obtain ⟨hlast, hnone⟩ := hkey [("a", .length), ("a", .iterate)] rfl
  exact ⟨hindex 0 0 _ rfl (Or.inl rfl), hindex (-1) 1 _ rfl (Or.inr rfl),
    hlast "a" 1 _ rfl (by simp), hnone "b" (by simp)⟩

end Evaluator

end Sluice
