import Mathlib.Data.Fintype.Card
import Mathlib.Data.Fintype.EquivFin
import Mathlib.Logic.Relation
import Sluice.Proofs.Eval.Links
import Sluice.Proofs.Value.LinkDepth

/-!
# Links that lie inside themselves

The document of a value is made of the documents of its parts, one after another up to the first
that has none. So a value asks for the document of another (`Value.Asks`), and a link may come to
ask for its own. The documents and errors that are asked for on the way decide: a value has an
answer exactly if none of the links that it comes to asks for itself
(`Value.isSome_toJson_iff_acyclic`).
-/

namespace Sluice.Value

open Relation

/-- The values whose documents make up that of a value, in the order in which they are asked for. In
a dict nothing is asked for from a key on that is no text. -/
def parts (store : Store) : Value → List Value
  | sequence items => items
  | mapping entries => entries.map (·.2)
  | dict entries => (entries.takeWhile fun entry => entry.1.kind == .text).map (·.2)
  | link handle => (store.linkTarget? handle).toList
  | _ => []

/-- Whether the document of one value asks for that of another: all parts before it have one. -/
def Asks (store : Store) (outer inner : Value) : Prop :=
  ∃ before after, outer.parts store = before ++ inner :: after ∧
    ∀ part ∈ before, ∃ document, (part.toJson store).run = some (.ok document)

/-- The answer to a conversion: a document or an error, if there is any. -/
abbrev Answer := Option (Except ValueError Json)

/-- Whether asking values in a row, up to the first without a document, comes to an end. -/
def AskingEnds (answer : Value → Answer) (values : List Value) : Prop :=
  ∀ before inner after, values = before ++ inner :: after →
    (∀ part ∈ before, ∃ document, answer part = some (.ok document)) →
    (answer inner).isSome = true

section AskingEnds

variable {answer full : Value → Answer} {value : Value} {rest : List Value}

/-- Asking no value comes to an end. -/
theorem askingEnds_nil : AskingEnds answer [] := by
  intro before inner after h
  simp at h

/-- Asking values in a row comes to an end if asking the first does and, where that has a document,
asking the rest does. -/
theorem askingEnds_cons_iff : AskingEnds answer (value :: rest) ↔
    (answer value).isSome = true ∧ ∀ document, answer value = some (.ok document) →
      AskingEnds answer rest := by
  constructor
  · intro h
    refine ⟨h [] value rest rfl (by simp), fun document hvalue => ?_⟩
    intro before inner after hrest hbefore
    exact h (value :: before) inner after (by rw [hrest, List.cons_append])
      (List.forall_mem_cons.mpr ⟨⟨document, hvalue⟩, hbefore⟩)
  · rintro ⟨hvalue, hrest⟩ (_ | ⟨part, before⟩) inner after heq hbefore
    · obtain ⟨rfl, -⟩ := List.cons.inj heq
      exact hvalue
    · obtain ⟨rfl, rfl⟩ := List.cons.inj heq
      obtain ⟨⟨document, hdocument⟩, hbefore⟩ := List.forall_mem_cons.mp hbefore
      exact hrest document hdocument before inner after rfl hbefore

/-- Where values have documents at last, those that end come as far. -/
theorem AskingEnds.isSome {before after : List Value}
    (h : AskingEnds answer (before ++ value :: after))
    (hle : ∀ value result, answer value = some result → full value = some result)
    (hbefore : ∀ part ∈ before, ∃ document, full part = some (.ok document)) :
    (answer value).isSome = true := by
  induction before with
  | nil => exact h [] value after rfl (by simp)
  | cons part before ih =>
    obtain ⟨⟨document, hdocument⟩, hbefore⟩ := List.forall_mem_cons.mp hbefore
    obtain ⟨hpart, hrest⟩ := askingEnds_cons_iff.mp h
    obtain ⟨result, hresult⟩ := Option.isSome_iff_exists.mp hpart
    obtain rfl : result = .ok document :=
      Option.some.inj ((hle part result hresult).symm.trans hdocument)
    exact ih (hrest document hresult) hbefore

end AskingEnds

section Bind

variable {α β : Type} {x : Conversion α} {f : α → Conversion β}

/-- A conversion in two parts comes to an end if the first does and, where that has an answer, the
second does. -/
theorem isSome_bind_iff : (x >>= f).run.isSome = true ↔
    x.run.isSome = true ∧ ∀ a, x.run = some (.ok a) → (f a).run.isSome = true := by
  rw [Conversion.run_bind]
  rcases x.run with _ | ⟨error | a⟩
  · simp
  · simp
  · simp

/-- Wrapping what a conversion gives does not change whether it comes to an end. -/
theorem isSome_bind_pure_iff {g : α → β} :
    (x >>= fun a => pure (g a)).run.isSome = true ↔ x.run.isSome = true := by
  rw [isSome_bind_iff]
  exact and_iff_left fun _ _ => rfl

end Bind

section With

variable {ofLink : Handle .link → Conversion Json}

/-- Converting items comes to an end if asking them in a row does. -/
theorem isSome_toJsonItems_iff {items : List Value} :
    (toJsonItems ofLink items).run.isSome = true ↔
      AskingEnds (fun value => (toJsonWith ofLink value).run) items := by
  induction items with
  | nil => exact iff_of_true rfl askingEnds_nil
  | cons item items ih =>
    rw [toJsonItems, isSome_bind_iff, askingEnds_cons_iff]
    simp only [isSome_bind_pure_iff, ih]

/-- Converting the entries of a mapping comes to an end if asking their values in a row does. -/
theorem isSome_toJsonEntries_iff {entries : List (String × Value)} :
    (toJsonEntries ofLink entries).run.isSome = true ↔
      AskingEnds (fun value => (toJsonWith ofLink value).run) (entries.map (·.2)) := by
  induction entries with
  | nil => exact iff_of_true rfl askingEnds_nil
  | cons entry entries ih =>
    rw [toJsonEntries, isSome_bind_iff, List.map_cons, askingEnds_cons_iff]
    simp only [isSome_bind_pure_iff, ih]

/-- Converting the entries of a dict comes to an end if asking the values before the first key that
is no text does. -/
theorem isSome_toJsonDict_iff {entries : List (Value × Value)} :
    (toJsonDict ofLink entries).run.isSome = true ↔
      AskingEnds (fun value => (toJsonWith ofLink value).run)
        ((entries.takeWhile fun entry => entry.1.kind == .text).map (·.2)) := by
  induction entries with
  | nil => exact iff_of_true rfl askingEnds_nil
  | cons entry entries ih =>
    obtain ⟨key, value⟩ := entry
    cases key with
    | text key =>
      have htake : (((text key, value) :: entries).takeWhile fun entry =>
          entry.1.kind == .text) =
            (text key, value) :: entries.takeWhile fun entry => entry.1.kind == .text := rfl
      rw [toJsonDict, isSome_bind_iff, htake, List.map_cons, askingEnds_cons_iff]
      simp only [isSome_bind_pure_iff, ih]
    | _ => exact iff_of_true rfl askingEnds_nil

/-- A value that is no link has an answer if asking for its parts ends. -/
theorem isSome_toJsonWith_iff {value : Value} (h : ∀ link, value ≠ .link link) (store : Store) :
    (toJsonWith ofLink value).run.isSome = true ↔
      AskingEnds (fun part => (toJsonWith ofLink part).run) (value.parts store) := by
  cases value with
  | sequence items =>
    rw [toJsonWith, isSome_bind_pure_iff, isSome_toJsonItems_iff]
    rfl
  | mapping entries =>
    rw [toJsonWith, isSome_bind_pure_iff, isSome_toJsonEntries_iff]
    rfl
  | dict entries =>
    rw [toJsonWith, isSome_bind_pure_iff, isSome_toJsonDict_iff]
    rfl
  | link link => exact absurd rfl (h link)
  | float x =>
    rw [toJsonWith, floatToJson]
    split <;> exact iff_of_true rfl askingEnds_nil
  | _ => exact iff_of_true rfl askingEnds_nil

end With

variable {store : Store} {value outer inner : Value} {depth : Nat}

/-- What a value is made of is smaller than the value, unless the value is a link. -/
theorem sizeOf_lt_of_mem_parts (h : inner ∈ outer.parts store)
    (hlink : ∀ link, outer ≠ .link link) : sizeOf inner < sizeOf outer := by
  cases outer with
  | sequence items => exact sizeOf_lt_of_mem_sequence h
  | mapping entries =>
    obtain ⟨entry, hentry, rfl⟩ := List.mem_map.mp h
    exact sizeOf_lt_of_mem_mapping hentry
  | dict entries =>
    obtain ⟨entry, hentry, rfl⟩ := List.mem_map.mp h
    exact (sizeOf_lt_of_mem_dict ((List.takeWhile_prefix _).subset hentry)).2
  | link link => exact absurd rfl (hlink link)
  | _ => exact absurd h (List.not_mem_nil)

/-- What a value asks for is one of its parts. -/
theorem Asks.mem_parts (h : Asks store outer inner) : inner ∈ outer.parts store := by
  obtain ⟨before, after, hparts, -⟩ := h
  rw [hparts]
  exact List.mem_append_right _ List.mem_cons_self

/-- A link asks for its target and nothing else. -/
theorem asks_link_iff {link : Handle .link} :
    Asks store (.link link) inner ↔ store.linkTarget? link = some inner := by
  constructor
  · intro h
    simpa [parts] using h.mem_parts
  · intro h
    exact ⟨[], [], by simp [parts, h], by simp⟩

/-- An answer at some depth of links is the answer at every greater depth. -/
theorem toJsonWithin_le_add (depth more : Nat) (value : Value) :
    Conversion.Le (toJsonWithin store depth value) (toJsonWithin store (depth + more) value) := by
  induction more with
  | zero => exact .refl _
  | succ more ih =>
    intro answer hanswer
    have hnext : Conversion.Le (toJsonWith (linkToJson store (depth + more)) value)
        (toJsonWith (linkToJson store (depth + more + 1)) value) :=
      toJsonWith_le (linkToJson_le_succ _) value
    rw [← toJsonWithin_eq, ← toJsonWithin_eq] at hnext
    exact hnext answer (ih answer hanswer)

/-- An answer at some depth is the answer. -/
theorem toJsonWithin_le_toJson (depth : Nat) (value : Value) :
    Conversion.Le (toJsonWithin store depth value) (value.toJson store) := by
  have hle : Conversion.Le (toJsonWithin store depth value)
      (toJsonWithin store (depth + (store.links.size + 1)) value) := toJsonWithin_le_add _ _ _
  rwa [toJsonWithin_eq_toJson (Nat.le_add_left _ _)] at hle

/-- A conversion that comes to an end at some depth does so one level deeper. -/
theorem isSome_toJsonWithin_succ (h : (toJsonWithin store depth value).run.isSome = true) :
    (toJsonWithin store (depth + 1) value).run.isSome = true := by
  obtain ⟨answer, hanswer⟩ := Option.isSome_iff_exists.mp h
  exact Option.isSome_iff_exists.mpr ⟨answer, toJsonWithin_le_add depth 1 value answer hanswer⟩

/-- Behind a link there is room for one link less. -/
theorem isSome_toJsonWithin_of_asks_link {link : Handle .link}
    (h : (toJsonWithin store (depth + 1) (.link link)).run.isSome = true)
    (hasks : Asks store (.link link) inner) :
    (toJsonWithin store depth inner).run.isSome = true := by
  have htarget := asks_link_iff.mp hasks
  have hrun : toJsonWithin store (depth + 1) (.link link) = toJsonWithin store depth inner := by
    rw [toJsonWithin, toJsonWith, htarget]
  rwa [← hrun]

/-- Where a conversion comes to an end, so does that of what it asks for. -/
theorem isSome_toJsonWithin_of_asks (h : (toJsonWithin store depth outer).run.isSome = true)
    (hasks : Asks store outer inner) : (toJsonWithin store depth inner).run.isSome = true := by
  by_cases hlink : ∀ link, outer ≠ .link link
  · obtain ⟨before, after, hparts, hbefore⟩ := hasks
    rw [toJsonWithin_eq] at h
    have hends := (isSome_toJsonWith_iff hlink store).mp h
    rw [hparts, ← toJsonWithin_eq] at hends
    exact hends.isSome (toJsonWithin_le_toJson depth) hbefore
  · obtain ⟨link, hlink⟩ := not_forall_not.mp hlink
    subst hlink
    cases depth with
    | zero => cases h
    | succ depth =>
      exact isSome_toJsonWithin_succ (isSome_toJsonWithin_of_asks_link h hasks)

/-- Where a conversion comes to an end, so does that of all that it comes to ask for. -/
theorem isSome_toJsonWithin_of_reaches (h : (toJsonWithin store depth outer).run.isSome = true)
    (hreaches : ReflTransGen (Asks store) outer inner) :
    (toJsonWithin store depth inner).run.isSome = true := by
  induction hreaches with
  | refl => exact h
  | tail _ hasks ih => exact isSome_toJsonWithin_of_asks ih hasks

/-- A link that comes to ask for itself has no answer, inside however many links. -/
theorem toJsonWithin_eq_none_of_cycle {link : Handle .link}
    (hcycle : TransGen (Asks store) (.link link) (.link link)) (depth : Nat) :
    (toJsonWithin store depth (.link link)).run = none := by
  induction depth with
  | zero => rfl
  | succ depth ih =>
    refine Option.not_isSome_iff_eq_none.mp fun h => ?_
    obtain ⟨inner, hasks, hback⟩ := TransGen.head'_iff.mp hcycle
    have hinner := isSome_toJsonWithin_of_asks_link h hasks
    have hself := isSome_toJsonWithin_of_reaches hinner hback
    rw [ih] at hself
    cases hself

/-- A value has an answer if all that it asks for have one. -/
theorem isSome_toJson_of_asks
    (h : ∀ inner, Asks store value inner → (inner.toJson store).run.isSome = true) :
    (value.toJson store).run.isSome = true := by
  by_cases hlink : ∀ link, value ≠ .link link
  · rw [toJson_eq_toJsonWith, isSome_toJsonWith_iff hlink store]
    intro before inner after hparts hbefore
    simp only [← toJson_eq_toJsonWith] at hbefore ⊢
    exact h inner ⟨before, after, hparts, hbefore⟩
  · obtain ⟨link, hlink⟩ := not_forall_not.mp hlink
    subst hlink
    rw [toJson_link]
    cases htarget : store.linkTarget? link with
    | none => rfl
    | some target => exact h target (asks_link_iff.mpr htarget)

/-- A value has an answer if all links have one that it comes to ask for. -/
theorem isSome_toJson_of_links (value : Value)
    (h : ∀ link, ReflTransGen (Asks store) value (.link link) →
      ((Value.link link).toJson store).run.isSome = true) :
    (value.toJson store).run.isSome = true := by
  by_cases hlink : ∀ link, value ≠ .link link
  · refine isSome_toJson_of_asks fun inner hasks => ?_
    have hlt := sizeOf_lt_of_mem_parts hasks.mem_parts hlink
    exact isSome_toJson_of_links inner fun link hreaches => h link (.head hasks hreaches)
  · obtain ⟨link, hlink⟩ := not_forall_not.mp hlink
    subst hlink
    exact h link .refl
termination_by sizeOf value

/-- A handle that no link belongs to stands for null. -/
theorem isSome_toJson_link_of_size_le {link : Handle .link} (h : store.links.size ≤ link.index) :
    ((Value.link link).toJson store).run.isSome = true := by
  have htarget : store.linkTarget? link = some .null := by
    rw [Store.linkTarget?, Table.get_of_size_le h]
    rfl
  rw [toJson_link, htarget]
  rfl

/-- The links of the store that a value comes to ask for. -/
def Met (store : Store) (value : Value) : Type :=
  { link : Handle .link //
    link.index < store.links.size ∧ ReflTransGen (Asks store) value (.link link) }

/-- There are only as many links to ask for as the store has. -/
instance : Finite (Met store value) :=
  Finite.of_injective (fun met => (⟨met.1.index, met.2.1⟩ : Fin store.links.size)) <| by
    rintro ⟨⟨index⟩, _⟩ ⟨⟨other⟩, _⟩ heq
    have hindex : index = other := by simpa using heq
    exact Subtype.ext (congrArg Handle.mk hindex)

/-- Where no link asks for itself, each of the finitely many links comes after those it asks
for. -/
theorem wellFounded_met
    (h : ∀ link, ReflTransGen (Asks store) value (.link link) →
      ¬ TransGen (Asks store) (.link link) (.link link)) :
    WellFounded fun first second : Met store value =>
      TransGen (Asks store) (.link second.1) (.link first.1) := by
  have htrans : IsTrans (Met store value) fun first second =>
      TransGen (Asks store) (.link second.1) (.link first.1) :=
    ⟨fun _ _ _ hfirst hsecond => hsecond.trans hfirst⟩
  have hirrefl : Std.Irrefl fun first second : Met store value =>
      TransGen (Asks store) (.link second.1) (.link first.1) :=
    ⟨fun met => h met.1 met.2.2⟩
  exact Finite.wellFounded_of_trans_of_irrefl _

/-- Where no link asks for itself, each link that is asked for has an answer, by induction on what
it asks for in turn. -/
theorem isSome_toJson_of_met
    (h : ∀ link, ReflTransGen (Asks store) value (.link link) →
      ¬ TransGen (Asks store) (.link link) (.link link)) (met : Met store value) :
    ((Value.link met.1).toJson store).run.isSome = true := by
  induction met using (wellFounded_met h).induction with
  | _ met ih =>
    refine isSome_toJson_of_asks fun inner hasks => ?_
    refine isSome_toJson_of_links inner fun next hnext => ?_
    have hbehind : TransGen (Asks store) (.link met.1) (.link next) := .head' hasks hnext
    rcases Nat.lt_or_ge next.index store.links.size with hlt | hge
    · exact ih ⟨next, hlt, met.2.2.trans hbehind.to_reflTransGen⟩ hbehind
    · exact isSome_toJson_link_of_size_le hge

/-- **A value has an answer exactly if it comes to no link that asks for itself.** The answer is a
document or an error, and only with an answer there is a way to show the value. -/
theorem isSome_toJson_iff_acyclic (store : Store) (value : Value) :
    ((value.toJson store).run.isSome = true ↔
      ¬ ∃ link, ReflTransGen (Asks store) value (.link link) ∧
        TransGen (Asks store) (.link link) (.link link)) ∧
    (value.display store).isSome = (value.toJson store).run.isSome := by
  refine ⟨⟨fun h => ?_, fun h => ?_⟩, by rw [display, Option.isSome_map]⟩
  · rintro ⟨link, hreaches, hcycle⟩
    have hlink := isSome_toJsonWithin_of_reaches h hreaches
    rw [toJsonWithin_eq_none_of_cycle hcycle] at hlink
    cases hlink
  · have hacyclic (link : Handle .link) (hreaches : ReflTransGen (Asks store) value (.link link)) :
        ¬ TransGen (Asks store) (.link link) (.link link) :=
      fun hcycle => h ⟨link, hreaches, hcycle⟩
    refine isSome_toJson_of_links value fun link hreaches => ?_
    rcases Nat.lt_or_ge link.index store.links.size with hlt | hge
    · exact isSome_toJson_of_met hacyclic ⟨link, hlt, hreaches⟩
    · exact isSome_toJson_link_of_size_le hge

/-- An item without a document that stands before the link ends the conversion. -/
example :
    let store : Store :=
      { links := ⟨#[{ path := "/l", target := some (.sequence [.iterator ⟨0⟩, .link ⟨0⟩]) }]⟩ }
    ((Value.link ⟨0⟩).toJson store).run =
      some (.error (.notRepresentable (.kind .iterator))) :=
  rfl

/-- A link to a sequence that holds it has no document and no error, inside however many links. -/
theorem toJson_eq_none_of_link_inside_sequence :
    let store : Store := { links := ⟨#[{ path := "/l", target := some (.sequence [.link ⟨0⟩]) }]⟩ }
    (∀ depth, (toJsonWithin store depth (.link ⟨0⟩)).run = none) ∧
      ((Value.link ⟨0⟩).toJson store).run = none ∧ (Value.link ⟨0⟩).display store = none := by
  intro store
  have htarget : Asks store (.link ⟨0⟩) (.sequence [.link ⟨0⟩]) := asks_link_iff.mpr rfl
  have hitem : Asks store (.sequence [.link ⟨0⟩]) (.link ⟨0⟩) := ⟨[], [], rfl, by simp⟩
  have hnone := toJsonWithin_eq_none_of_cycle (.head htarget (.single hitem))
  refine ⟨hnone, hnone _, ?_⟩
  rw [display, toJson, hnone]
  rfl

end Sluice.Value
