import Sluice.Proofs.Eval.Renaming
import Sluice.Proofs.Value.Document

/-!
# Filters stay within JSON

A filter that is applied to a document of JSON hands out documents of JSON only, whether it succeeds
or fails, and fails in a few ways only (`Evaluator.run_of_isJson`). Streams come up on the way, also
inside one another, but flattening leaves none. A store is paired with itself here.
-/

namespace Sluice

open Sluice.Filter Sluice.Store

variable {kinds : Value.Kind → Bool}

/-- Every stream from a point on belongs to itself. -/
def Pairing.self (base : Nat) : Pairing := ⟨base, base, fun _ => False, fun _ h => h.elim⟩

section Self

variable {base count : Nat} {store : Store}

/-- Where nothing is renamed, a stream belongs to itself only. -/
theorem Pairing.Twin.eq_of_self {stream other : Handle .stream}
    (h : (Pairing.self base).Twin stream other) : stream = other := by
  rcases h with ⟨_, hindex⟩ | ⟨hidle, _⟩
  · cases stream
    cases other
    exact congrArg Handle.mk (Nat.add_right_cancel hindex).symm
  · exact hidle.elim

/-- Where nothing is renamed, values that are the same up to names are the same. -/
theorem Renamed.eq_of_self {value part : Value}
    (h : Renamed kinds (.self base) count value part) : value = part := by
  cases h with
  | scalar => rfl
  | stream htwin => rw [htwin.eq_of_self]
  | @sequence items parts hitems =>
    have hparts : List.Forall₂ (· = ·) items parts :=
      forall₂_of_mem hitems fun item hmem part hitem => by
        have hlt := Value.sizeOf_lt_of_mem_sequence hmem
        exact hitem.eq_of_self
    rw [List.forall₂_eq_eq_eq] at hparts
    rw [hparts]
  | @mapping entries parts hentries =>
    have hparts : List.Forall₂ (· = ·) entries parts := forall₂_of_mem hentries <| by
      rintro _ hmem _ ⟨hvalue⟩
      have hlt := Value.sizeOf_lt_of_mem_mapping hmem
      rw [hvalue.eq_of_self]
    rw [List.forall₂_eq_eq_eq] at hparts
    rw [hparts]
  | dict => rfl
termination_by sizeOf value
decreasing_by all_goals assumption

/-- A store in which streams hold what evaluation makes is paired with itself. -/
theorem Store.Steady.paired (h : Steady kinds (.self base) store) (count : Nat) :
    Paired kinds (.self base) count store store := by
  refine ⟨fun {stream other} hmade _ => ?_, fun hidle => hidle.elim⟩
  rw [← (Pairing.Twin.eq_of_self (Or.inl hmade) : stream = other)]
  refine List.forall₂_same.mpr fun element helement => ?_
  obtain ⟨part, hpart⟩ := h stream hmade.1 element helement
  rwa [← hpart.eq_of_self] at hpart

/-- Streams that are to be made hold nothing yet. -/
theorem Store.steady_self (store : Store) : Steady kinds (.self store.streams.size) store := by
  intro stream hstream element helement
  have hle : store.streams.size ≤ stream.index := hstream
  rw [remaining_of_size_le hle] at helement
  cases helement

/-- A store that allows evaluation is level with itself. -/
theorem Store.level_self {context : Context} (h : context.check store = .ok ()) :
    Level context kinds (.self store.streams.size) store store :=
  ⟨store.steady_self.paired _, Nat.le_refl _, rfl, h, h⟩

end Self

/-- Whether a run has handed out documents of some kinds only, and failed in an expected way if it
has failed. -/
inductive StaysWithin (kinds : Value.Kind → Bool) (lenient : Bool) : Except Failure Value → Prop
  | result {value : Value} : value.OfKinds kinds → StaysWithin kinds lenient (.ok value)
  | failure {failure : Failure} :
      failure.error.Usual lenient → (∀ output ∈ failure.output, output.OfKinds kinds) →
      StaysWithin kinds lenient (.error failure)

namespace Evaluator

variable {evaluator : Evaluator} {base count : Nat} {store : Store} {value : Value}

/-- An operation makes of what evaluation has made of a document another such value, or fails in an
expected way. -/
theorem IgnoresNames.run_of_self {f : Value → Action Value}
    (hf : IgnoresNames evaluator kinds (.self base) f)
    (hlevel : Level evaluator.context kinds (.self base) store store)
    (hvalue : Renamed kinds (.self base) store.streams.size value value) :
    (∃ result after, (f value).run store = some (.ok result, after) ∧
      Level evaluator.context kinds (.self base) after after ∧
      Renamed kinds (.self base) after.streams.size result result) ∨
    ∃ error after, (f value).run store = some (.error error, after) ∧
      error.Usual evaluator.lenient ∧ Steady kinds (.self base) after := by
  rcases (hf hlevel hvalue).outcome with ⟨a, b, after, other, hx, hy, hadvances, hsame⟩ |
    ⟨error, after, other, hx, _, herror, hsteady⟩
  · cases hx.symm.trans hy
    exact Or.inl ⟨a, after, hx, hadvances.toLevel, hsame⟩
  · exact Or.inr ⟨error, after, hx, herror, hsteady⟩

/-- Flattening leaves no streams in what evaluation has made of a document. -/
theorem ofKinds_flatten (hvalue : Renamed kinds (.self base) count value value)
    (hsteady : Steady kinds (.self base) store) :
    ((flatten value).run store).1.OfKinds kinds := by
  have hflat := madeSame_flatten hvalue (store.totalRemaining + 1) (store.totalRemaining + 1)
  rw [run_flatten]
  exact (hflat (hsteady.paired _) (Nat.le_succ _) (Nat.le_succ _)).2.1

/-- Stages stay within the given kinds, whatever value they go on with. -/
theorem staysWithin_continueRun (hkinds : Value.ClosedKinds kinds) (program : Program)
    (hlevel : Level evaluator.context kinds (.self base) store store)
    (hvalue : Renamed kinds (.self base) store.streams.size value value) :
    ∃ outcome after, evaluator.continueRun program value store = some (outcome, after) ∧
      StaysWithin kinds evaluator.lenient outcome := by
  induction program generalizing store value with
  | nil => exact ⟨_, _, rfl, .result (ofKinds_flatten hvalue hlevel.steady)⟩
  | cons node rest ih =>
    rcases (ignoresNames_apply hkinds node).run_of_self hlevel hvalue with
      ⟨result, after, hrun, hafter, hresult⟩ | ⟨error, after, hrun, herror, hsteady⟩
    · simp only [continueRun, hrun]
      exact ih hafter hresult
    · simp only [continueRun, hrun]
      refine ⟨_, _, rfl, .failure herror ?_⟩
      rintro output ⟨⟩
      exact ofKinds_flatten hvalue hsteady

/-- A run stays within the given kinds. -/
theorem staysWithin_run (hkinds : Value.ClosedKinds kinds) (program : Program)
    (hpermitted : evaluator.context.check store = .ok ()) (hvalue : value.OfKinds kinds) :
    ∃ outcome after, evaluator.run program value store = some (outcome, after) ∧
      StaysWithin kinds evaluator.lenient outcome := by
  have hlevel : Level evaluator.context kinds (.self store.streams.size) store store :=
    level_self hpermitted
  cases program with
  | nil => exact staysWithin_continueRun hkinds [] hlevel (.ofKinds hvalue)
  | cons node rest =>
    rcases (ignoresNames_apply hkinds node).run_of_self hlevel (.ofKinds hvalue) with
      ⟨result, after, hrun, hafter, hresult⟩ | ⟨error, after, hrun, herror, hsteady⟩
    · simp only [run, hrun]
      exact staysWithin_continueRun hkinds rest hafter hresult
    · simp only [run, hrun]
      exact ⟨_, _, rfl, .failure herror (by simp)⟩

end Evaluator

namespace Value

/-- Whether a conversion has an answer, and fails only on a float that is not finite. -/
def Conversion.NeedsFinite {α : Type} (x : Conversion α) : Prop :=
  ∃ answer, x.run = some answer ∧
    ∀ error, answer = .error error → error = .notRepresentable .nonFiniteFloat

section NeedsFinite

variable {α β : Type}

/-- What is converted already needs no finite number. -/
theorem Conversion.NeedsFinite.pure (a : α) : Conversion.NeedsFinite (Pure.pure a) :=
  ⟨.ok a, rfl, nofun⟩

/-- Conversions one after the other fail for one reason only if each of them does. -/
theorem Conversion.NeedsFinite.bind {x : Conversion α} {f : α → Conversion β}
    (h : x.NeedsFinite) (hnext : ∀ a, (f a).NeedsFinite) : (x >>= f).NeedsFinite := by
  obtain ⟨answer, hanswer, herror⟩ := h
  unfold Conversion.NeedsFinite
  rw [Conversion.run_bind, hanswer]
  cases answer with
  | error error =>
    refine ⟨_, rfl, ?_⟩
    rintro _ ⟨⟩
    exact herror error rfl
  | ok a => exact hnext a

/-- Converting a float fails only if the float is not finite. -/
theorem needsFinite_floatToJson (x : Float) : (floatToJson x).NeedsFinite := by
  unfold floatToJson
  split
  · exact .pure _
  · refine ⟨_, rfl, ?_⟩
    rintro _ ⟨⟩
    rfl

variable {ofLink : Handle .link → Conversion Json}

/-- Converting items fails for that reason only if converting each does. -/
theorem needsFinite_toJsonItems {items : List Value}
    (h : ∀ item ∈ items, (toJsonWith ofLink item).NeedsFinite) :
    (toJsonItems ofLink items).NeedsFinite := by
  induction items with
  | nil => exact .pure _
  | cons item rest ih =>
    obtain ⟨hitem, hrest⟩ := List.forall_mem_cons.mp h
    exact hitem.bind fun _ => (ih hrest).bind fun _ => .pure _

/-- Converting entries fails for that reason only if converting each value does. -/
theorem needsFinite_toJsonEntries {entries : List (String × Value)}
    (h : ∀ entry ∈ entries, (toJsonWith ofLink entry.2).NeedsFinite) :
    (toJsonEntries ofLink entries).NeedsFinite := by
  induction entries with
  | nil => exact .pure _
  | cons entry rest ih =>
    obtain ⟨hentry, hrest⟩ := List.forall_mem_cons.mp h
    exact hentry.bind fun _ => (ih hrest).bind fun _ => .pure _

/-- Converting a value of the kinds of JSON fails only at a float that is not finite. -/
theorem IsJson.needsFinite {value : Value} (h : value.IsJson) :
    (toJsonWith ofLink value).NeedsFinite := by
  induction h with
  | @scalar value hscalar hkind =>
    cases value with
    | float x => exact needsFinite_floatToJson x
    | null | bool _ | int _ | text _ => exact .pure _
    | byte _ | bytes _ => cases hkind
    | _ => cases hscalar
  | sequence _ ih => exact (needsFinite_toJsonItems ih).bind fun _ => .pure _
  | mapping _ ih => exact (needsFinite_toJsonEntries ih).bind fun _ => .pure _
  | dict hdict => cases hdict

end NeedsFinite

end Value

namespace Evaluator

variable {evaluator : Evaluator}

/-- Every run of a filter on a document of JSON ends. A result is a document of JSON again, which
can be written unless one of its floats is not finite. A failure is an index out of range,
arithmetic that is not supported or, in strict mode, an operation on a kind of input that does not
support it, and what is handed out with it is a document of JSON. -/
theorem run_of_isJson (program : Program) {document : Value} (hdocument : document.IsJson)
    {store : Store} (hpermitted : evaluator.context.check store = .ok ()) :
    ∃ outcome after, evaluator.run program document store = some (outcome, after) ∧
      (∀ value, outcome = .ok value → value.IsJson ∧ (value.toJson after).NeedsFinite) ∧
      ∀ failure, outcome = .error failure → failure.error.Usual evaluator.lenient ∧
        ∀ output ∈ failure.output, output.IsJson := by
  obtain ⟨outcome, after, hrun, hwithin⟩ :=
    staysWithin_run Value.closedKinds_isJson program hpermitted hdocument
  refine ⟨outcome, after, hrun, ?_, ?_⟩
  · rintro value rfl
    cases hwithin with
    | result hvalue =>
      rw [Value.toJson_eq_toJsonWith]
      exact ⟨hvalue, Value.IsJson.needsFinite hvalue⟩
  · rintro failure rfl
    cases hwithin with
    | failure herror houtput => exact ⟨herror, houtput⟩

/-- A division that is not supported, after a stage whose result is handed out. -/
theorem run_of_isJson_of_division :
    let evaluator : Evaluator := { context := .background, lenient := false }
    let program : Program := [.iterate, .binary .identity .divide .length]
    let document : Value := .sequence [.int 1, .null]
    ∃ outcome after, evaluator.run program document {} = some (outcome, after) ∧
      (∀ value, outcome = .ok value → value.IsJson ∧ (value.toJson after).NeedsFinite) ∧
      ∀ failure, outcome = .error failure → failure.error.Usual evaluator.lenient ∧
        ∀ output ∈ failure.output, output.IsJson := by
  intro evaluator program document
  have hdocument : document.IsJson := by
    refine .sequence ?_
    simp only [List.forall_mem_cons]
    exact ⟨.scalar rfl rfl, .scalar rfl rfl, List.forall_mem_nil _⟩
  exact run_of_isJson program hdocument rfl

end Evaluator

end Sluice
