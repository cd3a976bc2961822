import Sluice.Proofs.Eval.Exhausted
import Sluice.Proofs.Eval.JsonClosure

/-!
# Sub-filters of one construction

The sub-filters of an array are applied to one input, one after another. What each of them makes is
what it makes alone as long as the input holds no stream that has elements left
(`Evaluator.sharesInput_iff_isExhausted`). Otherwise the first sub-filter to look at such a stream
takes its elements, and they are missing from what the others make.
-/

namespace Sluice

open Sluice.Filter Sluice.Store

namespace Evaluator

variable {evaluator : Evaluator}

section LastStage

variable {store middle after : Store} {input value result : Value} {node : Node}

/-- An action that asks the context first and succeeds was allowed to. -/
theorem permitted_of_run_check_bind {x : Action Value}
    (h : (evaluator.check >>= fun _ => x).run store = some (.ok result, after)) :
    evaluator.context.check store = .ok () := by
  rw [Computation.run_bind, check, Action.run_attempt] at h
  cases hcheck : evaluator.context.check store with
  | ok _ => rfl
  | error error =>
    rw [hcheck] at h
    cases h

/-- A node gives a result only if the context lets it go on. -/
theorem permitted_of_run_apply
    (h : (evaluator.apply node value).run store = some (.ok result, after)) :
    evaluator.context.check store = .ok () := by
  have hpointwise {f : Value → Action Value}
      (h : (evaluator.pointwise f value).run store = some (.ok result, after)) :
      evaluator.context.check store = .ok () := permitted_of_run_check_bind h
  cases node with
  | identity | chain _ | pipeline _ | iterate => exact permitted_of_run_check_bind h
  | key name =>
    rw [apply, run_selectKey] at h
    cases value with
    | sequence items =>
      rw [selectKeyWithin_sequence] at h
      exact permitted_of_run_check_bind h
    | stream stream =>
      rw [selectKeyWithin_stream] at h
      exact permitted_of_run_check_bind h
    | _ =>
      rw [selectKeyWithin_of_ne _ _ (by simp) (by simp)] at h
      exact permitted_of_run_check_bind h
  | _ => exact hpointwise h

/-- Behind the last stage a run gives the flat form of the value. -/
theorem continueRun_nil_eq_ok_iff :
    evaluator.continueRun [] value store = some (.ok result, after) ↔
      (flatten value).run store = (result, after) := by
  have hrun : evaluator.continueRun [] value store =
      some (.ok ((flatten value).run store).1, ((flatten value).run store).2) := rfl
  rw [hrun, Prod.ext_iff]
  simp

/-- A last stage is applied to what the stages before it give, and its result is flattened. -/
theorem continueRun_append_eq_ok_iff {stages : List Node}
    (h : (evaluator.thread stages input).run store = some (.ok value, middle)) :
    evaluator.continueRun (stages ++ [node]) input store = some (.ok result, after) ↔
      ∃ own last, (evaluator.apply node value).run middle = some (.ok own, last) ∧
        (flatten own).run last = (result, after) := by
  induction stages generalizing input store with
  | nil =>
    cases h
    rw [List.nil_append, continueRun]
    rcases hrun : (evaluator.apply node value).run middle with _ | ⟨_ | own, last⟩
    · simp [hrun]
    · rcases hflat : flatten value last with ⟨output, released⟩
      simp [hrun, hflat]
    · simp [hrun, continueRun_nil_eq_ok_iff]
  | cons stage rest ih =>
    rcases Computation.run_bind_eq_some h with ⟨own, next, hstage, hrest⟩ | ⟨_, _, ⟨⟩⟩
    simp only [List.cons_append, continueRun, hstage]
    exact ih hrest

/-- A run with one more stage gives the flat form of what this stage makes of the result of the
others. -/
theorem run_append_eq_ok_iff {stages : List Node}
    (h : (evaluator.thread stages input).run store = some (.ok value, middle)) :
    evaluator.run (stages ++ [node]) input store = some (.ok result, after) ↔
      ∃ own last, (evaluator.apply node value).run middle = some (.ok own, last) ∧
        (flatten own).run last = (result, after) := by
  cases stages with
  | nil =>
    cases h
    rw [List.nil_append, run]
    rcases hrun : (evaluator.apply node input).run store with _ | ⟨_ | own, last⟩
    · simp [hrun]
    · simp [hrun]
    · simp [hrun, continueRun_nil_eq_ok_iff]
  | cons stage rest =>
    rcases Computation.run_bind_eq_some h with ⟨own, next, hstage, hrest⟩ | ⟨_, _, ⟨⟩⟩
    simp only [List.cons_append, run, hstage]
    exact continueRun_append_eq_ok_iff hrest

/-- An array of sub-filters that gives a result holds a result of each. -/
theorem exists_of_run_apply_array {items : List Node} (hne : ∀ stream, value ≠ .stream stream)
    (h : (evaluator.apply (.array items) value).run store = some (.ok result, after)) :
    ∃ values, (evaluator.applyAll items value []).run store = some (.ok values, after) ∧
      result = .sequence values := by
  have hpermitted := permitted_of_run_apply h
  rw [apply, run_pointwise_of_ne_stream hne,
    Computation.run_bind_of_ok (run_check_of_ok hpermitted)] at h
  rcases Computation.run_bind_eq_some h with ⟨values, middle, hvalues, hresult⟩ | ⟨_, _, ⟨⟩⟩
  cases hresult
  exact ⟨values, hvalues, rfl⟩

/-- An array is made of the results of its parts. -/
theorem run_apply_array (hpermitted : evaluator.context.check store = .ok ())
    (hne : ∀ stream, value ≠ .stream stream) {items : List Node} {values : List Value}
    (hvalues : (evaluator.applyAll items value []).run store = some (.ok values, after)) :
    (evaluator.apply (.array items) value).run store = some (.ok (.sequence values), after) := by
  rw [apply, run_pointwise_of_ne_stream hne,
    Computation.run_bind_of_ok (run_check_of_ok hpermitted), Computation.run_bind_of_ok hvalues]
  rfl

/-- The identity hands out its input. -/
theorem run_apply_identity (hpermitted : evaluator.context.check store = .ok ()) :
    (evaluator.apply .identity value).run store = some (.ok value, store) := by
  rw [apply, Computation.run_bind_of_ok (run_check_of_ok hpermitted)]
  rfl

/-- Two identities in an array hand out the input twice. -/
theorem run_apply_array_identity (hpermitted : evaluator.context.check store = .ok ())
    (hne : ∀ stream, value ≠ .stream stream) :
    (evaluator.apply (.array [.identity, .identity]) value).run store =
      some (.ok (.sequence [value, value]), store) := by
  have hidentity (values : List Value) :
      ((evaluator.apply .identity value).orRelease values).run store =
        some (.ok value, store) :=
    Action.run_orRelease_of_ok (run_apply_identity hpermitted) values
  have hitems : (evaluator.applyAll [.identity, .identity] value []).run store =
      some (.ok [value, value], store) := by
    rw [applyAll, Computation.run_bind_of_ok (hidentity _), applyAll,
      Computation.run_bind_of_ok (hidentity _)]
    rfl
  exact run_apply_array hpermitted hne hitems

end LastStage

end Evaluator

variable {kinds : Value.Kind → Bool}

/-- Streams from `left` on belong to those made next in an earlier store, where what had run out
before belongs to itself. -/
def Pairing.since (early : Store) (left : Nat) (hleft : early.streams.size ≤ left) : Pairing where
  left := left
  right := early.streams.size
  idle stream := stream.index < early.streams.size ∧ early.remaining stream = []
  idle_lt _ hidle := ⟨Nat.lt_of_lt_of_le hidle.1 hleft, hidle.1⟩

/-- Whether the streams in several values of a store follow one another, and each value has a given
flat form: the one of what was made of an earlier store without the others. -/
inductive Apart (kinds : Value.Kind → Bool) (early store : Store) :
    Nat → List Value → List Value → Prop
  | nil (low : Nat) : Apart kinds early store low [] []
  | cons {low count : Nat} {value part flat : Value} {values flats : List Value} {image : Store}
      (hearly : early.streams.size ≤ low) :
      low ≤ count → Paired kinds (.since early low hearly) count store image →
      Renamed kinds (.since early low hearly) count value part →
      ((flatten part).run image).1 = flat → Apart kinds early store count values flats →
      Apart kinds early store low (value :: values) (flat :: flats)

section Apart

variable {early store after : Store} {low base count other : Nat} {values flats : List Value}

/-- A value whose streams have run out is the same under any names given to later streams. -/
theorem Renamed.since_of_isExhausted {value part : Value}
    (h : Renamed kinds (.self base) count value part) (hexhausted : early.isExhausted value = true)
    (hcount : count ≤ early.streams.size) (hearly : early.streams.size ≤ low)
    (hother : count ≤ other) :
    Renamed kinds (.since early low hearly) other value value := by
  cases h with
  | scalar hscalar hkind => exact .scalar hscalar hkind
  | stream htwin hlt =>
    have hidle := Nat.lt_of_lt_of_le hlt hcount
    exact .stream (Or.inr ⟨⟨hidle, isExhausted_stream.mp hexhausted⟩, rfl⟩)
      (Nat.lt_of_lt_of_le hlt hother)
  | sequence hitems =>
    have hparts := isExhausted_sequence.mp hexhausted
    refine .sequence (List.forall₂_same.mpr fun item hmem => ?_)
    obtain ⟨part, hpart⟩ := exists_of_mem_forall₂ hitems hmem
    have hlt := Value.sizeOf_lt_of_mem_sequence hmem
    exact hpart.since_of_isExhausted (hparts item hmem) hcount hearly hother
  | mapping hentries =>
    have hparts := List.forall_mem_map.mp (isExhausted_mapping.mp hexhausted)
    refine .mapping (List.forall₂_same.mpr fun entry hmem => ⟨?_⟩)
    obtain ⟨part, ⟨hpart⟩⟩ := exists_of_mem_forall₂ hentries hmem
    have hlt := Value.sizeOf_lt_of_mem_mapping hmem
    exact hpart.since_of_isExhausted (hparts _ hmem) hcount hearly hother
  | dict hdict => exact .dict hdict
termination_by sizeOf value
decreasing_by all_goals (subst_vars; assumption)

/-- Values stay apart while their streams keep their elements. -/
theorem Apart.congr (h : Apart kinds early store low values flats)
    (hkept : ∀ stream, low ≤ stream.index ∨ stream.index < early.streams.size →
      after.remaining stream = store.remaining stream) :
    Apart kinds early after low values flats := by
  induction h with
  | nil low => exact .nil low
  | cons hearly hle hpaired hvalue hflat _ ih =>
    refine .cons hearly hle (hpaired.congr fun stream hstream => ?_) hvalue hflat
      (ih fun stream hstream => ?_)
    · exact hkept stream (hstream.imp And.left And.left)
    · exact hkept stream (hstream.imp_left (Nat.le_trans hle))

/-- Flattening values that share no streams gives each its own flat form. -/
theorem fst_run_flattenItemsWith_of_apart {depth : Nat}
    (h : Apart kinds early store low values flats) (hdepth : store.totalRemaining ≤ depth) :
    ((flattenItemsWith (flattenStream depth) values).run store).1 = flats := by
  induction values generalizing low flats store with
  | nil =>
    cases h
    rfl
  | cons value rest ih =>
    cases h with
    | @cons _ count _ part flat _ flats image hearly hle hpaired hvalue hflat hrest =>
      have hfirst := madeSame_flatten hvalue depth (image.totalRemaining + 1)
      obtain ⟨hsame, _, hshed⟩ := hfirst hpaired hdepth (Nat.le_succ _)
      have hlater := hrest.congr fun stream hstream => hshed.left.kept stream fun hwindow => by
        have hlow : low ≤ stream.index := hwindow.1
        omega
      have hflats := ih hlater (Nat.le_trans hshed.left.fewer hdepth)
      rw [run_flattenItemsWith_cons, hflats, ← hsame]
      exact congrArg (· :: flats) hflat

end Apart

/-- Whether a store has come from an earlier one by making streams, and evaluation may go on. -/
structure Store.Follows (context : Context) (early store : Store) : Prop where
  size_le : early.streams.size ≤ store.streams.size
  kept : ∀ stream, stream.index < early.streams.size →
    store.remaining stream = early.remaining stream
  permitted : context.check store = .ok ()

section Follows

variable {context : Context} {early store image after : Store}

/-- A store that has come from an earlier one by making streams is level with it. -/
theorem Store.Follows.level (h : Follows context early store)
    (hpermitted : context.check early = .ok ()) :
    Level context kinds (.since early store.streams.size h.size_le) store early := by
  refine ⟨⟨fun hmade hcount => ?_, fun hidle => ?_⟩, Nat.le_refl _, Nat.add_comm _ _,
    h.permitted, hpermitted⟩
  · exact absurd hcount (Nat.not_lt.mpr hmade.1)
  · exact ⟨(h.kept _ hidle.1).trans hidle.2, hidle.2⟩

/-- A store goes on to follow an earlier one while it advances beside it. -/
theorem Store.Follows.advance (h : Follows context early store)
    (hadvances : Advances context kinds (.since early store.streams.size h.size_le) store after
      image) : Follows context early after :=
  ⟨Nat.le_trans h.size_le hadvances.size_le, fun stream hstream =>
    (hadvances.kept stream (Nat.lt_of_lt_of_le hstream h.size_le)).trans (h.kept stream hstream),
    hadvances.permitted⟩

end Follows

namespace Evaluator

variable {evaluator : Evaluator} {base : Nat} {early store after : Store} {value part : Value}

/-- Sub-filters that each give a result alone also do so one after another, on an input whose
streams have run out, and they make what they make alone. -/
theorem exists_run_applyAll (hkinds : Value.ClosedKinds kinds)
    (hpermitted : evaluator.context.check early = .ok ())
    (hvalue : Renamed kinds (.self base) early.streams.size value part)
    (hexhausted : early.isExhausted value = true) {items : List Node} {flats : List Value}
    (halone : List.Forall₂ (fun item flat => ∃ own image,
      (evaluator.apply item value).run early = some (.ok own, image) ∧
        ((flatten own).run image).1 = flat) items flats)
    (hfollows : Follows evaluator.context early store) (before : List Value) :
    ∃ later after,
      (evaluator.applyAll items value before).run store =
        some (.ok (before.reverse ++ later), after) ∧
      Apart kinds early after store.streams.size later flats ∧
      ∀ stream, stream.index < store.streams.size →
        after.remaining stream = store.remaining stream := by
  induction halone generalizing store before with
  | nil => exact ⟨[], store, by rw [List.append_nil]; rfl, .nil _, fun _ _ => rfl⟩
  | @cons item flat items flats hitem _ ih =>
    obtain ⟨own, image, hown, hflat⟩ := hitem
    have hsame := hvalue.since_of_isExhausted hexhausted (Nat.le_refl _) hfollows.size_le
      hfollows.size_le
    have hnode : IgnoresNames evaluator kinds
        (.since early store.streams.size hfollows.size_le) (evaluator.apply item) :=
      ignoresNames_apply hkinds item
    rcases (hnode (hfollows.level hpermitted) hsame).outcome with
      ⟨result, _, middle, _, hx, hy, hadvances, hrenamed⟩ | ⟨_, _, _, _, hy, _⟩
    · cases hown.symm.trans hy
      have hnext := hfollows.advance hadvances
      obtain ⟨later, after, hrun, hapart, hkept⟩ := ih hnext (result :: before)
      have hresults := Computation.run_bind_of_ok (Action.run_orRelease_of_ok hx before.reverse)
        fun result => evaluator.applyAll items value (result :: before)
      rw [hrun, List.reverse_cons, List.append_assoc, List.singleton_append] at hresults
      -- The sub-filters that come later leave alone what this one has made.
      have hpaired : Paired kinds (.since early store.streams.size hfollows.size_le)
          middle.streams.size after image := by
        refine hadvances.paired.congr fun stream hstream => hkept stream ?_
        rcases hstream with ⟨_, hlt⟩ | ⟨hidle, _⟩
        · exact hlt
        · exact Nat.lt_of_lt_of_le hidle hnext.size_le
      refine ⟨result :: later, after, hresults, .cons hfollows.size_le hadvances.size_le hpaired
        hrenamed hflat hapart, fun stream hstream => ?_⟩
      exact (hkept stream (Nat.lt_of_lt_of_le hstream hadvances.size_le)).trans
        (hadvances.kept stream hstream)
    · cases hown.symm.trans hy

/-- Sub-filters that are applied one after another to an input whose streams have run out make what
they make alone. -/
theorem exists_apart_of_run_applyAll (hkinds : Value.ClosedKinds kinds)
    (hpermitted : evaluator.context.check early = .ok ())
    (hvalue : Renamed kinds (.self base) early.streams.size value part)
    (hexhausted : early.isExhausted value = true) {items : List Node} {flats : List Value}
    (halone : List.Forall₂ (fun item flat => ∃ own image,
      (evaluator.apply item value).run early = some (.ok own, image) ∧
        ((flatten own).run image).1 = flat) items flats)
    (hfollows : Follows evaluator.context early store) {before values : List Value}
    (hrun : (evaluator.applyAll items value before).run store = some (.ok values, after)) :
    ∃ later, values = before.reverse ++ later ∧
      Apart kinds early after store.streams.size later flats ∧
      ∀ stream, stream.index < store.streams.size →
        after.remaining stream = store.remaining stream := by
  obtain ⟨later, last, hall, hapart, hkept⟩ :=
    exists_run_applyAll hkinds hpermitted hvalue hexhausted halone hfollows before
  cases hrun.symm.trans hall
  exact ⟨later, rfl, hapart, hkept⟩

variable {stages : List Node} {document : Value} {middle : Store}

/-- What stages make of a document is the same as itself. It is a document, or evaluation may go
on. -/
theorem renamed_of_run_thread (hkinds : Value.ClosedKinds kinds)
    (hdocument : document.OfKinds kinds)
    (h : (evaluator.thread stages document).run store = some (.ok value, middle)) :
    Renamed kinds (.self store.streams.size) middle.streams.size value value ∧
      (value.isDocument = true ∨ evaluator.context.check middle = .ok ()) := by
  cases stages with
  | nil =>
    cases h
    exact ⟨.ofKinds hdocument, Or.inl hdocument.isDocument⟩
  | cons stage rest =>
    rcases Computation.run_bind_eq_some h with ⟨own, next, hstage, _⟩ | ⟨_, _, ⟨⟩⟩
    have hlevel : Level evaluator.context kinds (.self store.streams.size) store store :=
      level_self (permitted_of_run_apply hstage)
    rcases (ignoresNames_thread hkinds (stage :: rest)).run_of_self hlevel (.ofKinds hdocument) with
      ⟨result, after, hrun, hafter, hresult⟩ | ⟨_, _, hrun, _⟩
    · cases h.symm.trans hrun
      exact ⟨hresult, Or.inr hafter.permitted⟩
    · cases h.symm.trans hrun

/-- Whether every array of sub-filters that is made in the last stage of a run holds what runs with
one of the sub-filters as the last stage give. -/
def SharesInput (evaluator : Evaluator) (stages : List Node) (document : Value) (store : Store) :
    Prop :=
  ∀ items results result after,
    evaluator.run (stages ++ [.array items]) document store = some (.ok result, after) →
    List.Forall₂ (fun item own => ∃ other,
      evaluator.run (stages ++ [item]) document store = some (.ok own, other)) items results →
    result = .sequence results

/-- The sub-filters of an array share their input exactly if no stream in it has elements left. -/
theorem sharesInput_iff_isExhausted (hdocument : document.isDocument = true)
    (hthread : (evaluator.thread stages document).run store = some (.ok value, middle))
    (hne : ∀ stream, value ≠ .stream stream) :
    evaluator.SharesInput stages document store ↔ middle.isExhausted value = true := by
  obtain ⟨hvalue, hgoesOn⟩ := renamed_of_run_thread Value.closedKinds_true
    (Value.ofKinds_of_isDocument hdocument) hthread
  constructor
  · intro hshares
    rcases hgoesOn with hinert | hpermitted
    · exact middle.isExhausted_of_isDocument hinert
    have hidentity := (run_append_eq_ok_iff hthread).mpr
      ⟨value, middle, run_apply_identity hpermitted, rfl⟩
    have harray := (run_append_eq_ok_iff hthread).mpr
      ⟨_, middle, run_apply_array_identity hpermitted hne, rfl⟩
    have hpair := hshares _ _ _ _ harray (.cons ⟨_, hidentity⟩ (.cons ⟨_, hidentity⟩ .nil))
    exact isExhausted_of_flatten_pair hvalue rfl hpair
  · intro hexhausted items results result after hrun hruns
    obtain ⟨own, last, harray, hflat⟩ := (run_append_eq_ok_iff hthread).mp hrun
    have hpermitted := permitted_of_run_apply harray
    obtain ⟨values, hvalues, rfl⟩ := exists_of_run_apply_array hne harray
    have halone : List.Forall₂ (fun item flat => ∃ own image,
        (evaluator.apply item value).run middle = some (.ok own, image) ∧
          ((flatten own).run image).1 = flat) items results := by
      refine hruns.imp fun item flat ⟨other, hitem⟩ => ?_
      obtain ⟨own, image, hown, hflat⟩ := (run_append_eq_ok_iff hthread).mp hitem
      exact ⟨own, image, hown, congrArg Prod.fst hflat⟩
    obtain ⟨later, rfl, hapart, _⟩ := exists_apart_of_run_applyAll Value.closedKinds_true
      hpermitted hvalue hexhausted halone ⟨Nat.le_refl _, fun _ _ => rfl, hpermitted⟩ hvalues
    have hflats := fst_run_flattenItemsWith_of_apart hapart (Nat.le_succ _)
    rw [run_flatten, run_flattenWith_sequence] at hflat
    exact (congrArg Prod.fst hflat).symm.trans (congrArg Value.sequence hflats)

/-- Asking for a key has taken everything out of a stream before the last stage is reached. -/
theorem sharesInput_of_key_before :
    let evaluator : Evaluator := { context := .background }
    let stages : List Node := [.array [.iterate], .array [.identity, .key "a"]]
    evaluator.SharesInput stages (.sequence [.mapping [("a", .int 1)]]) {} := by
  intro evaluator stages
  exact (sharesInput_iff_isExhausted rfl rfl (by simp)).mpr rfl

/-- Of two equal sub-filters, the second finds a stream that the first has run through. -/
theorem not_sharesInput_of_iterate_before :
    let evaluator : Evaluator := { context := .background }
    let document : Value := .sequence [.int 1, .int 2]
    document.isDocument = true ∧
      (∃ value middle, (evaluator.thread [.array [.iterate]] document).run {} =
        some (.ok value, middle) ∧ ∀ stream, value ≠ .stream stream) ∧
      ¬ evaluator.SharesInput [.array [.iterate]] document {} := by
  intro evaluator document
  refine ⟨rfl, ⟨_, _, rfl, by simp⟩, fun h => ?_⟩
  have hpair := h [.identity, .identity] [.sequence [document], .sequence [document]]
    (.sequence [.sequence [document], .sequence [.sequence []]]) _ rfl
    (.cons ⟨_, rfl⟩ (.cons ⟨_, rfl⟩ .nil))
  simp [document] at hpair

end Evaluator

end Sluice
