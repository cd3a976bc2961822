import Mathlib.Data.Finset.Card
import Mathlib.Data.Finset.Range
import Sluice.Value.Json

/-!
# How deep links are followed for a document

The document of a value is the same at every depth that is greater than the number of links
(`toJsonWithin_eq_toJson`). So a value that has no document at that depth has none at any depth, and
a link always has the document of its target (`toJson_link`).
-/

namespace Sluice.Value

section Le

variable {α β : Type}

/-- Whether a conversion has the answer of another, if that has one. -/
def Conversion.Le (x y : Conversion α) : Prop := ∀ answer, x.run = some answer → y.run = some answer

/-- A conversion has its own answer. -/
theorem Conversion.Le.refl (x : Conversion α) : Conversion.Le x x := fun _ h => h

/-- What a conversion in two parts gives. -/
theorem Conversion.run_bind (x : Conversion α) (f : α → Conversion β) :
    (x >>= f).run = x.run.bind fun answer =>
      match answer with
      | .ok a => (f a).run
      | .error error => some (.error error) := by
  have hbind : (x >>= f).run = x.run.bind fun answer => (ExceptT.bindCont f answer) := rfl
  rw [hbind]
  rcases x.run with _ | ⟨_ | _⟩ <;> rfl

/-- Answers are kept part by part. -/
theorem Conversion.Le.bind {x y : Conversion α} {f g : α → Conversion β} (h : Conversion.Le x y)
    (hnext : ∀ a, Conversion.Le (f a) (g a)) : Conversion.Le (x >>= f) (y >>= g) := by
  intro answer hanswer
  rw [Conversion.run_bind] at hanswer ⊢
  obtain ⟨first, hfirst, hrest⟩ := Option.bind_eq_some_iff.mp hanswer
  rw [h first hfirst]
  cases first with
  | error error => exact hrest
  | ok a => exact hnext a answer hrest

end Le

section Mono

variable {f g : Handle .link → Conversion Json}

mutual

/-- A conversion keeps its answer when links keep theirs. -/
theorem toJsonWith_le (h : ∀ link, Conversion.Le (f link) (g link)) (value : Value) :
    Conversion.Le (toJsonWith f value) (toJsonWith g value) := by
  match value with
  | .sequence items => exact (toJsonItems_le h items).bind fun _ => .refl _
  | .mapping entries => exact (toJsonEntries_le h entries).bind fun _ => .refl _
  | .dict entries => exact (toJsonDict_le h entries).bind fun _ => .refl _
  | .link handle => exact h handle
  | .null | .bool _ | .int _ | .float _ | .byte _ | .bytes _ | .text _ | .map _ | .array _
  | .iterator _ | .byteStream _ | .stream _ => exact .refl _
termination_by structural value

/-- Items keep their answer when links keep theirs. -/
theorem toJsonItems_le (h : ∀ link, Conversion.Le (f link) (g link)) (items : List Value) :
    Conversion.Le (toJsonItems f items) (toJsonItems g items) := by
  match items with
  | [] => exact .refl _
  | item :: rest =>
    exact (toJsonWith_le h item).bind fun _ => (toJsonItems_le h rest).bind fun _ => .refl _
termination_by structural items

/-- Entries of a mapping keep their answer when links keep theirs. -/
theorem toJsonEntries_le (h : ∀ link, Conversion.Le (f link) (g link))
    (entries : List (String × Value)) :
    Conversion.Le (toJsonEntries f entries) (toJsonEntries g entries) := by
  match entries with
  | [] => exact .refl _
  | (_, value) :: rest =>
    exact (toJsonWith_le h value).bind fun _ => (toJsonEntries_le h rest).bind fun _ => .refl _
termination_by structural entries

/-- Entries of a dict keep their answer when links keep theirs. -/
theorem toJsonDict_le (h : ∀ link, Conversion.Le (f link) (g link))
    (entries : List (Value × Value)) :
    Conversion.Le (toJsonDict f entries) (toJsonDict g entries) := by
  match entries with
  | [] => exact .refl _
  | (key, value) :: rest =>
    cases key with
    | text key =>
      exact (toJsonWith_le h value).bind fun _ => (toJsonDict_le h rest).bind fun _ => .refl _
    | _ => exact .refl _
termination_by structural entries

end

end Mono

/-- The document of what a link stands for, inside fewer than `depth` further links. -/
def linkToJson (store : Store) : (depth : Nat) → Handle .link → Conversion Json
  | 0 => fun _ => ExceptT.mk none
  | depth + 1 => fun link =>
    match store.linkTarget? link with
    | some target => toJsonWith (linkToJson store depth) target
    | none => throw (.notRepresentable .unresolvedLink)

variable {store : Store}

/-- One level deeper a link converts as its target does at this level. -/
theorem linkToJson_succ (depth : Nat) (link : Handle .link) :
    linkToJson store (depth + 1) link =
      match store.linkTarget? link with
      | some target => toJsonWith (linkToJson store depth) target
      | none => throw (.notRepresentable .unresolvedLink) := rfl

/-- A value converts at a depth as its links do. -/
theorem toJsonWithin_eq (depth : Nat) :
    toJsonWithin store depth = toJsonWith (linkToJson store depth) := by
  induction depth with
  | zero => rfl
  | succ depth ih =>
    rw [toJsonWithin, ih]
    rfl

/-- A link with an answer keeps it one level deeper. -/
theorem linkToJson_le_succ (depth : Nat) (link : Handle .link) :
    Conversion.Le (linkToJson store depth link) (linkToJson store (depth + 1) link) := by
  induction depth generalizing link with
  | zero =>
    intro answer h
    cases h
  | succ depth ih =>
    rw [linkToJson_succ, linkToJson_succ]
    cases store.linkTarget? link with
    | none => exact .refl _
    | some target => exact toJsonWith_le ih target

/-- The links that have an answer at a depth. -/
def answered (store : Store) (depth : Nat) : Finset Nat :=
  (Finset.range store.links.size).filter fun index =>
    (linkToJson store depth ⟨index⟩).run.isSome = true

/-- One level deeper no link is left without the answer it has. -/
theorem answered_subset_succ (depth : Nat) : answered store depth ⊆ answered store (depth + 1) := by
  intro index hindex
  rw [answered, Finset.mem_filter] at hindex ⊢
  obtain ⟨answer, hanswer⟩ := Option.isSome_iff_exists.mp hindex.2
  exact ⟨hindex.1, Option.isSome_iff_exists.mpr ⟨answer, linkToJson_le_succ depth _ _ hanswer⟩⟩

/-- Where no more links are answered nothing changes. -/
theorem linkToJson_succ_eq {depth : Nat}
    (h : answered store (depth + 2) ⊆ answered store (depth + 1)) :
    linkToJson store (depth + 2) = linkToJson store (depth + 1) := by
  funext link
  by_cases hbound : link.index < store.links.size
  · cases hanswer : (linkToJson store (depth + 2) link).run with
    | none =>
      cases hbefore : (linkToJson store (depth + 1) link).run with
      | none => exact hanswer.trans hbefore.symm
      | some answer =>
        rw [linkToJson_le_succ (depth + 1) link answer hbefore] at hanswer
        cases hanswer
    | some answer =>
      have hmem : link.index ∈ answered store (depth + 2) :=
        Finset.mem_filter.mpr ⟨Finset.mem_range.mpr hbound, by rw [hanswer]; rfl⟩
      obtain ⟨before, hbefore⟩ := Option.isSome_iff_exists.mp (Finset.mem_filter.mp (h hmem)).2
      have hsame := linkToJson_le_succ (depth + 1) link before hbefore
      exact (hsame.trans hbefore.symm :)
  · have htarget : store.linkTarget? link = some .null := by
      rw [Store.linkTarget?, Table.get_of_size_le (Nat.le_of_not_lt hbound)]
      rfl
    simp only [linkToJson, htarget]
    rfl

/-- Somewhere up to the number of links nothing changes any more. -/
theorem exists_linkToJson_succ_eq (store : Store) :
    ∃ depth ≤ store.links.size, linkToJson store (depth + 2) = linkToJson store (depth + 1) := by
  by_contra hnone
  have hcard : ∀ depth ≤ store.links.size + 1, depth ≤ (answered store (depth + 1)).card := by
    intro depth hdepth
    induction depth with
    | zero => exact Nat.zero_le _
    | succ depth ih =>
      have hle := ih (by omega)
      have hlt : (answered store (depth + 1)).card < (answered store (depth + 1 + 1)).card := by
        refine Finset.card_lt_card ⟨answered_subset_succ _, fun hsubset => hnone ?_⟩
        exact ⟨depth, by omega, linkToJson_succ_eq hsubset⟩
      exact Nat.lt_of_le_of_lt hle hlt
  have hle := hcard (store.links.size + 1) (Nat.le_refl _)
  have hsize : (answered store (store.links.size + 1 + 1)).card ≤ store.links.size := by
    refine Nat.le_trans (Finset.card_filter_le _ _) ?_
    rw [Finset.card_range]
  omega

/-- Where one more level changes nothing, no further level does. -/
theorem linkToJson_add_eq {depth : Nat}
    (h : linkToJson store (depth + 2) = linkToJson store (depth + 1)) (more : Nat) :
    linkToJson store (depth + 1 + more) = linkToJson store (depth + 1) := by
  induction more with
  | zero => rfl
  | succ more ih =>
    rw [← h]
    funext link
    rw [← Nat.add_assoc, linkToJson_succ, ih, linkToJson_succ]

/-- Depth beyond the number of links changes nothing. -/
theorem toJsonWithin_eq_toJson {depth : Nat} (h : store.links.size + 1 ≤ depth) (value : Value) :
    toJsonWithin store depth value = value.toJson store := by
  obtain ⟨stable, hle, hstable⟩ := exists_linkToJson_succ_eq store
  have heq (depth : Nat) (hdepth : stable + 1 ≤ depth) :
      linkToJson store depth = linkToJson store (stable + 1) := by
    obtain ⟨more, rfl⟩ := Nat.exists_eq_add_of_le hdepth
    exact linkToJson_add_eq hstable more
  have hdepth := heq depth (by omega)
  have hsize := heq (store.links.size + 1) (by omega)
  rw [toJson, toJsonWithin_eq, toJsonWithin_eq, hdepth, hsize]

/-- A link has the document of its target. -/
theorem toJson_link (link : Handle .link) :
    (Value.link link).toJson store =
      match store.linkTarget? link with
      | some target => target.toJson store
      | none => throw (.notRepresentable .unresolvedLink) :=
  (toJsonWithin_eq_toJson (Nat.le_succ _) (Value.link link)).symm

/-- A value has the document that is made of the documents of its links. -/
theorem toJson_eq_toJsonWith (value : Value) :
    value.toJson store = toJsonWith (fun link => (Value.link link).toJson store) value := by
  have hlink : (fun link => (Value.link link).toJson store) =
      linkToJson store (store.links.size + 1) := by
    funext link
    rw [toJson, toJsonWithin_eq]
    rfl
  rw [hlink, toJson, toJsonWithin_eq]

end Sluice.Value
