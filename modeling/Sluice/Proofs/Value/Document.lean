import Sluice.Proofs.Eval.Folding
import Sluice.Proofs.Value.LinkDepth

/-!
# The documents of folded values

A document has the same JSON whatever links there are, and so has whatever stands for it
(`Folded.exists_toJson`).
-/

namespace Sluice

namespace Value

variable {ofLink ofImage : Handle .link → Conversion Json}

/-- Items that convert alike one by one convert alike in a row. -/
theorem toJsonItems_congr {items images : List Value}
    (h : List.Forall₂ (fun item image => toJsonWith ofLink item = toJsonWith ofImage image) items
      images) : toJsonItems ofLink items = toJsonItems ofImage images := by
  induction h with
  | nil => rfl
  | cons hitem _ ih => rw [toJsonItems, toJsonItems, hitem, ih]

/-- Entries of mappings whose values convert alike convert alike. -/
theorem toJsonEntries_congr {entries images : List (String × Value)}
    (h : List.Forall₂ (OnEntries fun value image =>
      toJsonWith ofLink value = toJsonWith ofImage image) entries images) :
    toJsonEntries ofLink entries = toJsonEntries ofImage images := by
  induction h with
  | nil => rfl
  | cons hentry _ ih =>
    cases hentry with
    | intro hvalue => rw [toJsonEntries, toJsonEntries, hvalue, ih]

/-- Entries of dicts whose values convert alike convert alike. -/
theorem toJsonDict_congr {entries images : List (Value × Value)}
    (h : List.Forall₂ (OnEntries fun value image =>
      toJsonWith ofLink value = toJsonWith ofImage image) entries images) :
    toJsonDict ofLink entries = toJsonDict ofImage images := by
  induction h with
  | nil => rfl
  | cons hentry _ ih =>
    cases hentry with
    | @intro key _ _ hvalue =>
      cases key with
      | text key => rw [toJsonDict, toJsonDict, hvalue, ih]
      | _ => rfl

/-- A conversion in two parts comes to an end if both do. -/
theorem isSome_bind {α β : Type} {x : Conversion α} {f : α → Conversion β}
    (h : x.run.isSome = true) (hnext : ∀ a, (f a).run.isSome = true) :
    (x >>= f).run.isSome = true := by
  obtain ⟨answer, hanswer⟩ := Option.isSome_iff_exists.mp h
  rw [Conversion.run_bind, hanswer]
  cases answer with
  | error error => rfl
  | ok a => exact hnext a

mutual

/-- Where every link has an answer, every value has one. -/
theorem isSome_toJsonWith (h : ∀ link, (ofLink link).run.isSome = true) (value : Value) :
    (toJsonWith ofLink value).run.isSome = true := by
  match value with
  | .sequence items => exact isSome_bind (isSome_toJsonItems h items) fun _ => rfl
  | .mapping entries => exact isSome_bind (isSome_toJsonEntries h entries) fun _ => rfl
  | .dict entries => exact isSome_bind (isSome_toJsonDict h entries) fun _ => rfl
  | .link handle => exact h handle
  | .float x =>
    rw [toJsonWith, floatToJson]
    split <;> rfl
  | .null | .bool _ | .int _ | .byte _ | .bytes _ | .text _ | .map _ | .array _ | .iterator _
  | .byteStream _ | .stream _ => rfl
termination_by structural value

/-- Items convert if links do. -/
theorem isSome_toJsonItems (h : ∀ link, (ofLink link).run.isSome = true) (items : List Value) :
    (toJsonItems ofLink items).run.isSome = true := by
  match items with
  | [] => rfl
  | item :: rest =>
    exact isSome_bind (isSome_toJsonWith h item) fun _ =>
      isSome_bind (isSome_toJsonItems h rest) fun _ => rfl
termination_by structural items

/-- Entries of a mapping convert if links do. -/
theorem isSome_toJsonEntries (h : ∀ link, (ofLink link).run.isSome = true)
    (entries : List (String × Value)) : (toJsonEntries ofLink entries).run.isSome = true := by
  match entries with
  | [] => rfl
  | (_, value) :: rest =>
    exact isSome_bind (isSome_toJsonWith h value) fun _ =>
      isSome_bind (isSome_toJsonEntries h rest) fun _ => rfl
termination_by structural entries

/-- Entries of a dict convert if links do. -/
theorem isSome_toJsonDict (h : ∀ link, (ofLink link).run.isSome = true)
    (entries : List (Value × Value)) : (toJsonDict ofLink entries).run.isSome = true := by
  match entries with
  | [] => rfl
  | (key, value) :: rest =>
    cases key with
    | text key =>
      exact isSome_bind (isSome_toJsonWith h value) fun _ =>
        isSome_bind (isSome_toJsonDict h rest) fun _ => rfl
    | _ => rfl
termination_by structural entries

end

end Value

open Value

/-- What a value leads to has the same JSON. -/
theorem Table.toJson_follow? {store : Store} {count : Nat} {value target : Value}
    (h : store.links.follow? count value = some target) :
    value.toJson store = target.toJson store := by
  induction count generalizing value with
  | zero =>
    cases value with
    | link link => cases h
    | _ =>
      cases h
      rfl
  | succ count ih =>
    cases value with
    | link link =>
      obtain ⟨next, hnext, hfollow⟩ := Option.bind_eq_some_iff.mp h
      have htarget : store.linkTarget? link = some next := hnext
      rw [toJson_link, htarget]
      exact ih hfollow
    | _ =>
      cases h
      rfl

/-- What stands for a document has its JSON, and what links have there does not matter. -/
theorem Folded.toJsonWith_eq {store : Store} {document image : Value}
    (h : Folded store.links document image) (hdocument : document.isDocument = true)
    (ofLink : Handle .link → Conversion Json) :
    toJsonWith ofLink document = image.toJson store := by
  obtain ⟨target, hlead, htarget, hne⟩ := h.exists_target
  rw [Table.toJson_follow? hlead, toJson_eq_toJsonWith]
  clear h hlead image
  cases htarget with
  | link => exact absurd rfl (hne _)
  | scalar hscalar =>
    cases document with
    | null | bool _ | int _ | float _ | byte _ | bytes _ | text _ => rfl
    | _ => cases hscalar
  | sequence hitems =>
    have hdocuments := everyLeaf_sequence.mp hdocument
    rw [toJsonWith, toJsonWith]
    rw [toJsonItems_congr (forall₂_of_mem hitems fun item hmem image hitem => ?_)]
    have hlt := sizeOf_lt_of_mem_sequence hmem
    rw [← toJson_eq_toJsonWith]
    exact hitem.toJsonWith_eq (hdocuments item hmem) ofLink
  | mapping hentries =>
    have hdocuments := everyLeaf_mapping.mp hdocument
    rw [toJsonWith, toJsonWith]
    rw [toJsonEntries_congr (forall₂_onEntries_of_mem hentries fun entry hmem image hentry => ?_)]
    have hlt := sizeOf_lt_of_mem_mapping hmem
    rw [← toJson_eq_toJsonWith]
    exact hentry.toJsonWith_eq (hdocuments entry hmem) ofLink
  | dict hentries =>
    have hdocuments := everyLeaf_dict.mp hdocument
    rw [toJsonWith, toJsonWith]
    rw [toJsonDict_congr (forall₂_onEntries_of_mem hentries fun entry hmem image hentry => ?_)]
    have hlt := (sizeOf_lt_of_mem_dict hmem).2
    rw [← toJson_eq_toJsonWith]
    exact hentry.toJsonWith_eq (hdocuments entry hmem).2 ofLink
termination_by sizeOf document
decreasing_by all_goals (subst_vars; assumption)

/-- A document and what stands for it have the same JSON, or fail in the same way to have any. -/
theorem Folded.exists_toJson {store other : Store} {document image : Value}
    (h : Folded other.links document image) (hdocument : document.isDocument = true) :
    ∃ answer, (document.toJson store).run = some answer ∧
      (image.toJson other).run = some answer := by
  have hsome : (toJsonWith (fun _ => pure .null) document).run.isSome = true :=
    isSome_toJsonWith (fun _ => rfl) document
  obtain ⟨answer, hanswer⟩ := Option.isSome_iff_exists.mp hsome
  rw [h.toJsonWith_eq hdocument] at hanswer
  refine ⟨answer, ?_, hanswer⟩
  rw [toJson_eq_toJsonWith, h.toJsonWith_eq hdocument, hanswer]

end Sluice
