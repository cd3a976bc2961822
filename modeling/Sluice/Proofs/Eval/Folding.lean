import Mathlib.Data.List.Forall2
import Sluice.Proofs.Eval.Links

/-!
# Documents with parts behind links

A document holds scalars, sequences, mappings and dicts only. Any of its parts may be put behind
links that lead to it, at most so many in a row as are followed (`Folded`). What is behind the links
is determined by them (`Folded.unique`).
-/

namespace Sluice

/-- What holds of all pairs of two lists, where the first comes from the first list. -/
theorem forall₂_of_mem {α β : Type} {R S : α → β → Prop} {xs : List α} {ys : List β}
    (h : List.Forall₂ R xs ys) (himp : ∀ x ∈ xs, ∀ y, R x y → S x y) : List.Forall₂ S xs ys :=
  ((List.forall₂_and_left _ _).mpr ⟨himp, h⟩).imp fun _ _ hxy => hxy.1 _ hxy.2

/-- An element of one list has a partner in the other. -/
theorem exists_of_mem_forall₂ {α β : Type} {R : α → β → Prop} {xs : List α} {ys : List β}
    (h : List.Forall₂ R xs ys) {x : α} (hx : x ∈ xs) : ∃ y, R x y := by
  induction h with
  | nil => cases hx
  | cons hxy _ ih =>
    rcases List.mem_cons.mp hx with rfl | hmem
    · exact ⟨_, hxy⟩
    · exact ih hmem

/-- What holds of every second component of the pairs of two lists. -/
theorem forall_right_of_forall₂ {α β : Type} {R : α → β → Prop} {P : β → Prop} {xs : List α}
    {ys : List β} (h : List.Forall₂ R xs ys) (himp : ∀ x ∈ xs, ∀ y, R x y → P y) :
    ∀ y ∈ ys, P y := by
  induction h with
  | nil => simp
  | cons hxy _ ih =>
    intro y hy
    rcases List.mem_cons.mp hy with rfl | hmem
    · exact himp _ List.mem_cons_self _ hxy
    · exact ih (fun x hx => himp x (List.mem_cons_of_mem _ hx)) y hmem

/-- Whether two entries have the same key and related values. -/
inductive OnEntries {κ α β : Type} (R : α → β → Prop) : κ × α → κ × β → Prop
  | intro {key : κ} {value : α} {other : β} : R value other → OnEntries R (key, value) (key, other)

mutual

/-- Whether all parts of a value that are neither sequences nor mappings nor dicts pass a test. -/
def Value.everyLeaf (test : Value → Bool) : Value → Bool
  | .sequence items => Value.everyItem test items
  | .mapping entries => Value.everyEntry test entries
  | .dict entries => Value.everyDictEntry test entries
  | leaf => test leaf
termination_by structural value => value

/-- Whether all leaves of the values of a list pass a test. -/
def Value.everyItem (test : Value → Bool) : List Value → Bool
  | [] => true
  | item :: rest => Value.everyLeaf test item && Value.everyItem test rest
termination_by structural items => items

/-- Whether all leaves of the values of a mapping pass a test. -/
def Value.everyEntry (test : Value → Bool) : List (String × Value) → Bool
  | [] => true
  | (_, value) :: rest => Value.everyLeaf test value && Value.everyEntry test rest
termination_by structural entries => entries

/-- Whether all leaves of the keys and values of a dict pass a test. -/
def Value.everyDictEntry (test : Value → Bool) : List (Value × Value) → Bool
  | [] => true
  | (key, value) :: rest =>
    Value.everyLeaf test key && Value.everyLeaf test value && Value.everyDictEntry test rest
termination_by structural entries => entries

end

namespace Value

section EveryLeaf

variable {test : Value → Bool}

/-- The leaves of a sequence pass a test if those of its items do. -/
@[simp] theorem everyLeaf_sequence {items : List Value} :
    (Value.sequence items).everyLeaf test = true ↔ ∀ item ∈ items, item.everyLeaf test = true := by
  rw [everyLeaf]
  induction items with
  | nil => simp [everyItem]
  | cons item rest ih => simp [everyItem, ih]

/-- The leaves of a mapping pass a test if those of its values do. -/
@[simp] theorem everyLeaf_mapping {entries : List (String × Value)} :
    (Value.mapping entries).everyLeaf test = true ↔
      ∀ entry ∈ entries, entry.2.everyLeaf test = true := by
  rw [everyLeaf]
  induction entries with
  | nil => simp [everyEntry]
  | cons entry rest ih => simp [everyEntry, ih]

/-- The leaves of a dict pass a test if those of its keys and values do. -/
@[simp] theorem everyLeaf_dict {entries : List (Value × Value)} :
    (Value.dict entries).everyLeaf test = true ↔
      ∀ entry ∈ entries, entry.1.everyLeaf test = true ∧ entry.2.everyLeaf test = true := by
  rw [everyLeaf]
  induction entries with
  | nil => simp [everyDictEntry]
  | cons entry rest ih => simp [everyDictEntry, ih, and_assoc]

end EveryLeaf

/-- Whether a value holds scalars, sequences, mappings and dicts only. -/
def isDocument (value : Value) : Bool := value.everyLeaf fun leaf => leaf.category == .scalar

/-- Whether a value also may hold links. -/
def isInert (value : Value) : Bool :=
  value.everyLeaf fun leaf => leaf.category == .scalar || leaf.kind == .link

/-- Leaves that pass a test pass a weaker one. -/
theorem everyLeaf_mono {test other : Value → Bool}
    (hle : ∀ leaf, test leaf = true → other leaf = true) {value : Value}
    (h : value.everyLeaf test = true) : value.everyLeaf other = true := by
  match value with
  | .sequence items =>
    rw [everyLeaf_sequence] at h ⊢
    intro item hmem
    have hlt := sizeOf_lt_of_mem_sequence hmem
    exact everyLeaf_mono hle (h item hmem)
  | .mapping entries =>
    rw [everyLeaf_mapping] at h ⊢
    intro entry hmem
    have hlt := sizeOf_lt_of_mem_mapping hmem
    exact everyLeaf_mono hle (h entry hmem)
  | .dict entries =>
    rw [everyLeaf_dict] at h ⊢
    intro entry hmem
    obtain ⟨hkey, hvalue⟩ := sizeOf_lt_of_mem_dict hmem
    exact ⟨everyLeaf_mono hle (h entry hmem).1, everyLeaf_mono hle (h entry hmem).2⟩
  | .null | .bool _ | .int _ | .float _ | .byte _ | .bytes _ | .text _ | .link _ | .map _
  | .array _ | .iterator _ | .byteStream _ | .stream _ => exact hle _ h
termination_by sizeOf value
decreasing_by all_goals assumption

/-- A document is inert. -/
theorem isInert_of_isDocument {value : Value} (h : value.isDocument = true) :
    value.isInert = true := by
  refine everyLeaf_mono (fun leaf hleaf => ?_) h
  simp only [Bool.or_eq_true]
  exact Or.inl hleaf

end Value

/-- Whether an image is a value of which some parts stand behind links that lead to them. -/
inductive Folded (links : Table .link Link) : Value → Value → Prop
  | link {value target : Value} {link : Handle .link} :
      links.leadsTo? (.link link) = some target → Folded links value target →
      Folded links value (.link link)
  | scalar {value : Value} : value.category = .scalar → Folded links value value
  | sequence {items images : List Value} :
      List.Forall₂ (Folded links) items images →
      Folded links (.sequence items) (.sequence images)
  | mapping {entries images : List (String × Value)} :
      List.Forall₂ (OnEntries (Folded links)) entries images →
      Folded links (.mapping entries) (.mapping images)
  | dict {entries images : List (Value × Value)} :
      List.Forall₂ (OnEntries (Folded links)) entries images →
      Folded links (.dict entries) (.dict images)

/-- Equal second lists come from equal first lists, if elements do. -/
theorem eq_of_forall₂ {α β : Type} {R : α → β → Prop} {xs others : List α} {ys : List β}
    (h : List.Forall₂ R xs ys) (hother : List.Forall₂ R others ys)
    (hunique : ∀ x ∈ xs, ∀ other y, R x y → R other y → x = other) : xs = others := by
  induction h generalizing others with
  | nil => cases hother; rfl
  | cons hxy _ ih =>
    cases hother with
    | cons hother hrest =>
      rw [hunique _ List.mem_cons_self _ _ hxy hother,
        ih hrest fun x hx => hunique x (List.mem_cons_of_mem _ hx)]

/-- Entries are determined by their images if their values are. -/
theorem eq_of_forall₂_onEntries {κ α β : Type} {R : α → β → Prop} {entries others : List (κ × α)}
    {images : List (κ × β)} (h : List.Forall₂ (OnEntries R) entries images)
    (hother : List.Forall₂ (OnEntries R) others images)
    (hunique : ∀ entry ∈ entries, ∀ other image, R entry.2 image → R other image →
      entry.2 = other) : entries = others := by
  refine eq_of_forall₂ h hother ?_
  rintro _ hmem _ _ ⟨hvalue⟩ ⟨hother⟩
  exact congrArg _ (hunique _ hmem _ _ hvalue hother)

namespace Folded

variable {links : Table .link Link}

/-- An image leads to a value of the same form. -/
theorem exists_target {value image : Value} (h : Folded links value image) :
    ∃ target, links.leadsTo? image = some target ∧ Folded links value target ∧
      ∀ link, target ≠ .link link := by
  cases h with
  | link hlead htarget => exact ⟨_, hlead, htarget, Table.ne_link_of_follow? hlead⟩
  | scalar hscalar =>
    have hne : ∀ link, value ≠ .link link := by
      rintro link rfl
      cases hscalar
    exact ⟨value, Table.follow?_of_ne_link hne, .scalar hscalar, hne⟩
  | sequence hitems => exact ⟨_, rfl, .sequence hitems, by simp⟩
  | mapping hentries => exact ⟨_, rfl, .mapping hentries, by simp⟩
  | dict hentries => exact ⟨_, rfl, .dict hentries, by simp⟩

/-- An image determines what it stands for. -/
theorem unique {value other image : Value} (h : Folded links value image)
    (hother : Folded links other image) : value = other := by
  obtain ⟨target, hlead, h, hne⟩ := h.exists_target
  obtain ⟨_, hlead', hother, _⟩ := hother.exists_target
  obtain rfl : target = _ := Option.some.inj (hlead.symm.trans hlead')
  cases h with
  | link => exact absurd rfl (hne _)
  | scalar hscalar => cases hother <;> first | rfl | cases hscalar
  | sequence hitems =>
    cases hother with
    | scalar hscalar => cases hscalar
    | sequence hothers =>
      rw [eq_of_forall₂ hitems hothers fun item hmem other image h hother => ?_]
      have hlt := Value.sizeOf_lt_of_mem_sequence hmem
      exact Folded.unique h hother
  | mapping hentries =>
    cases hother with
    | scalar hscalar => cases hscalar
    | mapping hothers =>
      rw [eq_of_forall₂_onEntries hentries hothers fun entry hmem other image h hother => ?_]
      have hlt := Value.sizeOf_lt_of_mem_mapping hmem
      exact Folded.unique h hother
  | dict hentries =>
    cases hother with
    | scalar hscalar => cases hscalar
    | dict hothers =>
      rw [eq_of_forall₂_onEntries hentries hothers fun entry hmem other image h hother => ?_]
      have hlt := (Value.sizeOf_lt_of_mem_dict hmem).2
      exact Folded.unique h hother
termination_by sizeOf value

end Folded

/-- What stands for a document is inert. -/
theorem Folded.isInert {links : Table .link Link} {value image : Value}
    (h : Folded links value image) (hdocument : value.isDocument = true) :
    image.isInert = true := by
  cases h with
  | link => rfl
  | scalar => exact Value.isInert_of_isDocument hdocument
  | sequence hitems =>
    have hdocuments := Value.everyLeaf_sequence.mp hdocument
    refine Value.everyLeaf_sequence.mpr (forall_right_of_forall₂ hitems ?_)
    intro item hmem image h
    have hlt := Value.sizeOf_lt_of_mem_sequence hmem
    exact Folded.isInert h (hdocuments item hmem)
  | mapping hentries =>
    have hdocuments := Value.everyLeaf_mapping.mp hdocument
    refine Value.everyLeaf_mapping.mpr (forall_right_of_forall₂ hentries ?_)
    rintro _ hmem _ ⟨h⟩
    have hlt := Value.sizeOf_lt_of_mem_mapping hmem
    exact Folded.isInert h (hdocuments _ hmem)
  | dict hentries =>
    have hdocuments := Value.everyLeaf_dict.mp hdocument
    refine Value.everyLeaf_dict.mpr (forall_right_of_forall₂ hentries ?_)
    rintro _ hmem _ ⟨h⟩
    have hlt := (Value.sizeOf_lt_of_mem_dict hmem).2
    exact ⟨Value.isInert_of_isDocument (hdocuments _ hmem).1,
      Folded.isInert h (hdocuments _ hmem).2⟩
termination_by sizeOf value
decreasing_by all_goals (subst_vars; assumption)

namespace Table

variable {links : Table .link Link}

open Classical in
/-- The links of the table that lead to documents no larger than a value. -/
noncomputable def within (links : Table .link Link) (value : Value) : Finset Nat :=
  (Finset.range links.size).filter fun index =>
    ∃ content, Folded links content (.link ⟨index⟩) ∧ sizeOf content ≤ sizeOf value

/-- A link is within a value if it leads to a document no larger than the value. -/
theorem mem_within_iff {value : Value} {index : Nat} :
    index ∈ links.within value ↔ index < links.size ∧
      ∃ content, Folded links content (.link ⟨index⟩) ∧ sizeOf content ≤ sizeOf value := by
  simp [within]

/-- No more links are within a value than there are. -/
theorem card_within_le_size (value : Value) : (links.within value).card ≤ links.size := by
  have hsubset : links.within value ⊆ Finset.range links.size := by
    intro index hindex
    exact Finset.mem_range.mpr (mem_within_iff.mp hindex).1
  have hcard := Finset.card_le_card hsubset
  rwa [Finset.card_range] at hcard

/-- What is within a value is within a larger one. -/
theorem within_subset {value part : Value} (hle : sizeOf part ≤ sizeOf value) :
    links.within part ⊆ links.within value := by
  intro index hindex
  rw [mem_within_iff] at hindex ⊢
  obtain ⟨hbound, content, hfolded, hsize⟩ := hindex
  exact ⟨hbound, content, hfolded, Nat.le_trans hsize hle⟩

/-- A link is not among those within a part of what it leads to. -/
theorem card_within_lt {value part : Value} {link : Handle .link} (hbound : link.index < links.size)
    (hfolded : Folded links value (.link link)) (hlt : sizeOf part < sizeOf value) :
    (links.within part).card < (links.within value).card := by
  refine Finset.card_lt_card ⟨within_subset (Nat.le_of_lt hlt), fun hsubset => ?_⟩
  have hself : link.index ∈ links.within value :=
    mem_within_iff.mpr ⟨hbound, value, hfolded, Nat.le_refl _⟩
  obtain ⟨_, content, hcontent, hsize⟩ := mem_within_iff.mp (hsubset hself)
  rw [hfolded.unique hcontent] at hlt
  omega

end Table

/-- Whether an image is what evaluation makes of an image where it makes a value of a document: the
values are documents, sequences and mappings of such values, and streams that evaluation has made,
those from `base` up to `count`. -/
inductive Mirrors (links : Table .link Link) (base count : Nat) : Value → Value → Prop
  | folded {value image : Value} :
      value.isDocument = true → Folded links value image → Mirrors links base count value image
  | stream {stream : Handle .stream} :
      base ≤ stream.index → stream.index < count →
      Mirrors links base count (.stream stream) (.stream stream)
  | sequence {items images : List Value} :
      List.Forall₂ (Mirrors links base count) items images →
      Mirrors links base count (.sequence items) (.sequence images)
  | mapping {entries images : List (String × Value)} :
      List.Forall₂ (OnEntries (Mirrors links base count)) entries images →
      Mirrors links base count (.mapping entries) (.mapping images)

/-- Whether an image has the form of a value and its parts are images of the value's parts. -/
inductive Shape (links : Table .link Link) (base count : Nat) : Value → Value → Prop
  | scalar {value : Value} : value.category = .scalar → Shape links base count value value
  | stream {stream : Handle .stream} :
      base ≤ stream.index → stream.index < count →
      Shape links base count (.stream stream) (.stream stream)
  | sequence {items images : List Value} :
      List.Forall₂ (Mirrors links base count) items images →
      Shape links base count (.sequence items) (.sequence images)
  | mapping {entries images : List (String × Value)} :
      List.Forall₂ (OnEntries (Mirrors links base count)) entries images →
      Shape links base count (.mapping entries) (.mapping images)
  | dict {entries images : List (Value × Value)} :
      (Value.dict entries).isDocument = true →
      List.Forall₂ (OnEntries (Folded links)) entries images →
      Shape links base count (.dict entries) (.dict images)

section Mirrors

variable {links : Table .link Link} {base count : Nat}

/-- A relation between the values of entries may be weakened, using that they are entries of the
list. -/
theorem forall₂_onEntries_of_mem {κ α β : Type} {R S : α → β → Prop} {entries : List (κ × α)}
    {images : List (κ × β)} (h : List.Forall₂ (OnEntries R) entries images)
    (himp : ∀ entry ∈ entries, ∀ image, R entry.2 image → S entry.2 image) :
    List.Forall₂ (OnEntries S) entries images := by
  refine forall₂_of_mem h ?_
  rintro _ hmem _ ⟨hvalue⟩
  exact ⟨himp _ hmem _ hvalue⟩

/-- A folded value has the form of the document. -/
theorem Folded.shape {value target : Value} (h : Folded links value target)
    (hdocument : value.isDocument = true) (hne : ∀ link, target ≠ .link link) :
    Shape links base count value target := by
  cases h with
  | link => exact absurd rfl (hne _)
  | scalar hscalar => exact .scalar hscalar
  | sequence hitems =>
    rw [Value.isDocument, Value.everyLeaf_sequence] at hdocument
    exact .sequence (forall₂_of_mem hitems fun item hmem _ => .folded (hdocument item hmem))
  | mapping hentries =>
    rw [Value.isDocument, Value.everyLeaf_mapping] at hdocument
    exact .mapping (forall₂_onEntries_of_mem hentries fun entry hmem _ =>
      .folded (hdocument entry hmem))
  | dict hentries => exact .dict hdocument hentries

/-- An image leads to a value of the form of what it mirrors. -/
theorem Mirrors.exists_shape {value image : Value} (h : Mirrors links base count value image) :
    ∃ target, links.leadsTo? image = some target ∧ Shape links base count value target := by
  cases h with
  | folded hdocument hfolded =>
    obtain ⟨target, hlead, htarget, hne⟩ := hfolded.exists_target
    exact ⟨target, hlead, htarget.shape hdocument hne⟩
  | stream hbase hcount => exact ⟨_, rfl, .stream hbase hcount⟩
  | sequence hitems => exact ⟨_, rfl, .sequence hitems⟩
  | mapping hentries => exact ⟨_, rfl, .mapping hentries⟩

/-- A value of the same form is an image itself. -/
theorem Shape.mirrors {value target : Value} (h : Shape links base count value target) :
    Mirrors links base count value target := by
  cases h with
  | scalar hscalar =>
    refine .folded ?_ (.scalar hscalar)
    cases value <;> first | rfl | cases hscalar
  | stream hbase hcount => exact .stream hbase hcount
  | sequence hitems => exact .sequence hitems
  | mapping hentries => exact .mapping hentries
  | dict hdocument hentries => exact .folded hdocument (.dict hentries)

/-- Values of the same form are of the same kind. -/
theorem Shape.kind_eq {value target : Value} (h : Shape links base count value target) :
    target.kind = value.kind := by
  cases h <;> rfl

/-- Values of the same form stand for the same number, if for any. -/
theorem Shape.toFloat?_eq {value target : Value} (h : Shape links base count value target) :
    target.toFloat? = value.toFloat? := by
  cases h <;> rfl

/-- A value that is mirrored leads to itself. -/
theorem Mirrors.leadsTo?_eq {value image : Value} (h : Mirrors links base count value image)
    (others : Table .link Link) : others.leadsTo? value = some value := by
  obtain ⟨target, _, hshape⟩ := h.exists_shape
  refine Table.follow?_of_ne_link ?_
  rintro link rfl
  cases hshape with
  | scalar hscalar => cases hscalar

/-- A stream is mirrored by itself, and nothing else is mirrored by a stream. -/
theorem Mirrors.stream_or {value image : Value} (h : Mirrors links base count value image) :
    (∃ stream, value = .stream stream ∧ image = .stream stream ∧ base ≤ stream.index ∧
        stream.index < count) ∨
      (∀ stream, value ≠ .stream stream) ∧ ∀ stream, image ≠ .stream stream := by
  cases h with
  | folded hdocument hfolded =>
    have hinert := hfolded.isInert hdocument
    refine Or.inr ⟨?_, ?_⟩
    · rintro stream rfl
      cases hdocument
    · rintro stream rfl
      cases hinert
  | stream hbase hcount => exact Or.inl ⟨_, rfl, rfl, hbase, hcount⟩
  | sequence hitems => exact Or.inr ⟨by simp, by simp⟩
  | mapping hentries => exact Or.inr ⟨by simp, by simp⟩

/-- The image of a sequence is a sequence, or a link that leads to one. -/
theorem Mirrors.sequence_or {items : List Value} {image : Value}
    (h : Mirrors links base count (.sequence items) image) :
    ∃ images, List.Forall₂ (Mirrors links base count) items images ∧
      (image = .sequence images ∨
        ∃ link, image = .link link ∧ links.leadsTo? (.link link) = some (.sequence images) ∧
          Folded links (.sequence items) (.link link)) := by
  obtain ⟨target, hlead, hshape⟩ := h.exists_shape
  cases hshape with
  | scalar hscalar => cases hscalar
  | @sequence _ images hitems =>
    refine ⟨images, hitems, ?_⟩
    cases h with
    | folded hdocument hfolded =>
      cases hfolded with
      | link hlink htarget => exact Or.inr ⟨_, rfl, hlead, .link hlink htarget⟩
      | scalar hscalar => cases hscalar
      | sequence hparts =>
        cases hlead
        exact Or.inl rfl
    | sequence hparts =>
      cases hlead
      exact Or.inl rfl

/-- Only a sequence is mirrored by a sequence. -/
theorem Mirrors.ne_sequence {value image : Value} (h : Mirrors links base count value image)
    (hne : ∀ items, value ≠ .sequence items) (images : List Value) : image ≠ .sequence images := by
  rintro rfl
  obtain ⟨target, hlead, hshape⟩ := h.exists_shape
  cases hlead
  cases hshape with
  | scalar hscalar => cases hscalar
  | sequence _ => exact hne _ rfl

/-- An image remains one when more streams have been made. -/
theorem Mirrors.mono {value image : Value} {other : Nat} (h : Mirrors links base count value image)
    (hle : count ≤ other) : Mirrors links base other value image := by
  cases h with
  | folded hdocument hfolded => exact .folded hdocument hfolded
  | stream hbase hcount => exact .stream hbase (Nat.lt_of_lt_of_le hcount hle)
  | sequence hitems =>
    refine .sequence (forall₂_of_mem hitems fun item hmem image hitem => ?_)
    have hlt := Value.sizeOf_lt_of_mem_sequence hmem
    exact hitem.mono hle
  | mapping hentries =>
    refine .mapping (forall₂_onEntries_of_mem hentries fun entry hmem image hentry => ?_)
    have hlt := Value.sizeOf_lt_of_mem_mapping hmem
    exact hentry.mono hle
termination_by sizeOf value
decreasing_by all_goals assumption

/-- Without streams there are only documents. -/
theorem Mirrors.isFolded {value image : Value} (h : Mirrors links base 0 value image) :
    value.isDocument = true ∧ Folded links value image := by
  cases h with
  | folded hdocument hfolded => exact ⟨hdocument, hfolded⟩
  | stream _ hcount => exact absurd hcount (Nat.not_lt_zero _)
  | @sequence items images hitems =>
    have hparts : ∀ item ∈ items, ∀ image, Mirrors links base 0 item image →
        item.isDocument = true ∧ Folded links item image := by
      intro item hmem image hitem
      have hlt := Value.sizeOf_lt_of_mem_sequence hmem
      exact hitem.isFolded
    have hfolded : List.Forall₂ (Folded links) items images :=
      forall₂_of_mem hitems fun item hmem image hitem => (hparts item hmem image hitem).2
    refine ⟨Value.everyLeaf_sequence.mpr fun item hmem => ?_, .sequence hfolded⟩
    obtain ⟨image, hitem⟩ := exists_of_mem_forall₂ hitems hmem
    exact (hparts item hmem image hitem).1
  | @mapping entries images hentries =>
    have hparts : ∀ entry ∈ entries, ∀ image, Mirrors links base 0 entry.2 image →
        entry.2.isDocument = true ∧ Folded links entry.2 image := by
      intro entry hmem image hentry
      have hlt := Value.sizeOf_lt_of_mem_mapping hmem
      exact hentry.isFolded
    have hfolded : List.Forall₂ (OnEntries (Folded links)) entries images :=
      forall₂_onEntries_of_mem hentries fun entry hmem image hentry =>
        (hparts entry hmem image hentry).2
    refine ⟨Value.everyLeaf_mapping.mpr fun entry hmem => ?_, .mapping hfolded⟩
    obtain ⟨image, hentry⟩ := exists_of_mem_forall₂ hentries hmem
    cases hentry with
    | intro hvalue => exact (hparts _ hmem _ hvalue).1
termination_by sizeOf value
decreasing_by all_goals assumption

end Mirrors

end Sluice
