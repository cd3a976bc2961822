import Sluice.Proofs.Eval.Folding
import Sluice.Proofs.Store.Release
import Sluice.Proofs.Store.Scope

/-!
# Stores side by side

Two stores in which evaluation has made streams of values and of images of these values
(`Store.Mirror`). Pulling, releasing and flattening do the same on both sides.
-/

namespace Sluice

namespace Store

/-- Whether the streams from `base` on hold images where those of another store hold values. -/
structure Mirror (links : Table .link Link) (base : Nat) (store image : Store) : Prop where
  links_eq : image.links = links
  base_le : base ≤ store.streams.size
  size_eq : image.streams.size = store.streams.size
  length_eq : ∀ stream, (image.remaining stream).length = (store.remaining stream).length
  elements : ∀ stream, base ≤ stream.index →
    List.Forall₂ (Mirrors links base stream.index) (store.remaining stream)
      (image.remaining stream)

/-- Whether two stores have come from a mirror with as many streams as the given store. -/
structure Proceeds (links : Table .link Link) (base : Nat) (store after image : Store) : Prop
    extends Mirror links base after image where
  size_le : store.streams.size ≤ after.streams.size

section Proceeds

variable {links : Table .link Link} {base : Nat} {store image : Store}

/-- Stores that mirror each other have proceeded from themselves. -/
theorem Proceeds.refl (h : Mirror links base store image) :
    Proceeds links base store store image := ⟨h, Nat.le_refl _⟩

/-- Stores have proceeded also from earlier ones. -/
theorem Proceeds.after {before after other : Store} (hle : before.streams.size ≤ store.streams.size)
    (h : Proceeds links base store after other) : Proceeds links base before after other :=
  ⟨h.toMirror, Nat.le_trans hle h.size_le⟩

/-- Stores that mirror each other have as many elements left. -/
theorem Mirror.totalRemaining_eq (h : Mirror links base store image) :
    image.totalRemaining = store.totalRemaining := by
  have hsize := h.size_eq
  simp only [Table.size] at hsize
  rw [Store.totalRemaining_eq, Store.totalRemaining_eq]
  congr 1
  refine List.ext_getElem (by simpa using hsize) fun index hindex hother => ?_
  simp only [List.length_map, Array.length_toList] at hindex hother
  have hlength := h.length_eq ⟨index⟩
  simpa [remaining, Table.get, hindex, hother] using hlength

/-- Pulling gives nothing on both sides, or an element and its image. -/
theorem Mirror.pull (h : Mirror links base store image) {stream : Handle .stream}
    (hbase : base ≤ stream.index) :
    (store.pull stream = (none, store) ∧ image.pull stream = (none, image)) ∨
      ∃ value part after other, store.pull stream = (some value, after) ∧
        image.pull stream = (some part, other) ∧ Mirrors links base stream.index value part ∧
        Mirror links base after other ∧ after.streams.size = store.streams.size ∧
        after.totalRemaining + 1 = store.totalRemaining := by
  have helements := h.elements stream hbase
  rcases hpull : store.pull stream with ⟨_ | value, after⟩ <;>
    rcases hother : image.pull stream with ⟨_ | part, other⟩
  · obtain ⟨_, rfl⟩ := pull_none hpull
    obtain ⟨_, rfl⟩ := pull_none hother
    exact Or.inl ⟨rfl, rfl⟩
  -- The two streams have equally many elements left, so neither gives one alone.
  · rw [(pull_none hpull).1, (pull_some hother).1] at helements
    cases helements
  · rw [(pull_some hpull).1, (pull_none hother).1] at helements
    cases helements
  · obtain ⟨hremaining, hrest, htotal, _⟩ := pull_some hpull
    obtain ⟨hremaining', hrest', _, _⟩ := pull_some hother
    rw [hremaining, hremaining'] at helements
    obtain ⟨hvalue, htail⟩ := List.forall₂_cons.mp helements
    have hsize : after.streams.size = store.streams.size := by
      rw [← size_pull store stream, hpull]
    have hsize' : other.streams.size = image.streams.size := by
      rw [← size_pull image stream, hother]
    have hlinks : other.links = image.links := by rw [← links_pull image stream, hother]
    have hlinks := hlinks.trans h.links_eq
    refine Or.inr ⟨value, part, after, other, rfl, rfl, hvalue, ⟨hlinks, ?_, ?_, ?_, ?_⟩, hsize,
      htotal⟩
    · rw [hsize]
      exact h.base_le
    · rw [hsize, hsize', h.size_eq]
    · intro any
      by_cases heq : any = stream
      · rw [heq]
        exact htail.length_eq.symm
      · rw [hrest any heq, hrest' any heq]
        exact h.length_eq any
    · intro any hany
      by_cases heq : any = stream
      · rw [heq]
        exact htail
      · rw [hrest any heq, hrest' any heq]
        exact h.elements any hany

/-- A new stream of values and one of their images have the same handle. -/
theorem Mirror.fst_newStream (h : Mirror links base store image) (shape : LazyStream.Shape)
    (elements parts : List Value) :
    (image.newStream shape parts).1 = (store.newStream shape elements).1 := by
  have hsize := h.size_eq
  simp only [Table.size] at hsize
  simp [newStream, Table.push, hsize]

/-- Stores that mirror each other proceed by new streams of values that do so. -/
theorem Mirror.proceeds_newStream (h : Mirror links base store image) (shape : LazyStream.Shape)
    {elements parts : List Value}
    (helements : List.Forall₂ (Mirrors links base store.streams.size) elements parts) :
    Proceeds links base store (store.newStream shape elements).2
      (image.newStream shape parts).2 := by
  have hsize := h.size_eq
  refine ⟨⟨h.links_eq, ?_, ?_, fun stream => ?_, fun stream hbase => ?_⟩, ?_⟩
  · rw [size_newStream]
    exact Nat.le_succ_of_le h.base_le
  · rw [size_newStream, size_newStream, hsize]
  · by_cases heq : stream.index = store.streams.size
    · rw [remaining_newStream _ _ _ heq, remaining_newStream _ _ _ (heq.trans hsize.symm)]
      exact helements.length_eq.symm
    · rw [remaining_newStream_of_ne _ _ _ heq, remaining_newStream_of_ne _ _ _ (hsize ▸ heq)]
      exact h.length_eq stream
  · by_cases heq : stream.index = store.streams.size
    · rw [remaining_newStream _ _ _ heq, remaining_newStream _ _ _ (heq.trans hsize.symm), heq]
      exact helements
    · rw [remaining_newStream_of_ne _ _ _ heq, remaining_newStream_of_ne _ _ _ (hsize ▸ heq)]
      exact h.elements stream hbase
  · rw [size_newStream]
    exact Nat.le_succ _

end Proceeds

end Store

open Store

section Inert

variable {f : Handle .stream → Store → Store}

/-- Releasing items does nothing if releasing each of them does nothing. -/
theorem releaseItemsWith_eq_id {items : List Value} (h : ∀ item ∈ items, releaseWith f item = id) :
    releaseItemsWith f items = id := by
  induction items with
  | nil => rfl
  | cons item rest ih =>
    have hrest := ih fun other hmem => h other (List.mem_cons_of_mem _ hmem)
    rw [releaseItemsWith, h item List.mem_cons_self, hrest]
    rfl

/-- Releasing the entries of a mapping does nothing if releasing each value does nothing. -/
theorem releaseMappingWith_eq_id {entries : List (String × Value)}
    (h : ∀ entry ∈ entries, releaseWith f entry.2 = id) : releaseMappingWith f entries = id := by
  induction entries with
  | nil => rfl
  | cons entry rest ih =>
    have hrest := ih fun other hmem => h other (List.mem_cons_of_mem _ hmem)
    rw [releaseMappingWith, h entry List.mem_cons_self, hrest]
    rfl

/-- Releasing the entries of a dict does nothing if releasing each key and value does nothing. -/
theorem releaseDictWith_eq_id {entries : List (Value × Value)}
    (h : ∀ entry ∈ entries, releaseWith f entry.1 = id ∧ releaseWith f entry.2 = id) :
    releaseDictWith f entries = id := by
  induction entries with
  | nil => rfl
  | cons entry rest ih =>
    have hrest := ih fun other hmem => h other (List.mem_cons_of_mem _ hmem)
    obtain ⟨hkey, hvalue⟩ := h entry List.mem_cons_self
    rw [releaseDictWith, hkey, hvalue, hrest]
    rfl

/-- Releasing closes nothing in a value that holds scalars and links only. -/
theorem releaseWith_of_isInert {value : Value} (h : value.isInert = true) :
    releaseWith f value = id := by
  match value with
  | .sequence items =>
    refine releaseItemsWith_eq_id fun item hmem => ?_
    have hlt := Value.sizeOf_lt_of_mem_sequence hmem
    exact releaseWith_of_isInert (Value.everyLeaf_sequence.mp h item hmem)
  | .mapping entries =>
    refine releaseMappingWith_eq_id fun entry hmem => ?_
    have hlt := Value.sizeOf_lt_of_mem_mapping hmem
    exact releaseWith_of_isInert (Value.everyLeaf_mapping.mp h entry hmem)
  | .dict entries =>
    refine releaseDictWith_eq_id fun entry hmem => ?_
    obtain ⟨hkey, hvalue⟩ := Value.sizeOf_lt_of_mem_dict hmem
    have hentry := Value.everyLeaf_dict.mp h entry hmem
    exact ⟨releaseWith_of_isInert hentry.1, releaseWith_of_isInert hentry.2⟩
  | .null | .bool _ | .int _ | .float _ | .byte _ | .bytes _ | .text _ | .link _ | .map _
  | .array _ => rfl
  | .iterator _ | .byteStream _ | .stream _ => cases h
termination_by sizeOf value
decreasing_by all_goals assumption

end Inert

section Release

variable {links : Table .link Link} {base count : Nat} {f g : Handle .stream → Store → Store}

/-- Whether two ways to change the store by a value and by an image lead from a mirror to one. -/
def Together (links : Table .link Link) (base : Nat) (f g : Store → Store) : Prop :=
  ∀ ⦃store image⦄, Mirror links base store image → Proceeds links base store (f store) (g image)

/-- Doing nothing keeps stores together. -/
theorem Together.id : Together links base id id := fun _ _ h => .refl h

/-- Changes one after the other keep stores together if each pair does. -/
theorem Together.comp {f g f' g' : Store → Store} (h : Together links base f g)
    (hnext : Together links base f' g') :
    Together links base (fun store => f' (f store)) fun store => g' (g store) := fun _ _ hmirror =>
  (hnext (h hmirror).toMirror).after (h hmirror).size_le

/-- Releasing items that belong together keeps stores together. -/
theorem together_releaseItemsWith {items parts : List Value}
    (h : List.Forall₂ (fun item part =>
      Together links base (releaseWith f item) (releaseWith g part)) items parts) :
    Together links base (releaseItemsWith f items) (releaseItemsWith g parts) := by
  induction h with
  | nil => exact .id
  | cons hitem _ ih => exact hitem.comp ih

/-- Releasing entries of mappings that belong together keeps stores together. -/
theorem together_releaseMappingWith {entries parts : List (String × Value)}
    (h : List.Forall₂ (OnEntries fun value part =>
      Together links base (releaseWith f value) (releaseWith g part)) entries parts) :
    Together links base (releaseMappingWith f entries) (releaseMappingWith g parts) := by
  induction h with
  | nil => exact .id
  | cons hentry _ ih =>
    cases hentry with
    | intro hvalue => exact hvalue.comp ih

/-- Releasing a value and an image keeps the stores side by side. -/
theorem together_releaseWith
    (hstream : ∀ stream, base ≤ stream.index → Together links base (f stream) (g stream))
    {value part : Value} (h : Mirrors links base count value part) :
    Together links base (releaseWith f value) (releaseWith g part) := by
  cases h with
  | folded hdocument hfolded =>
    rw [releaseWith_of_isInert (Value.isInert_of_isDocument hdocument),
      releaseWith_of_isInert (hfolded.isInert hdocument)]
    exact .id
  | stream hbase => exact hstream _ hbase
  | sequence hitems =>
    refine together_releaseItemsWith (forall₂_of_mem hitems fun item hmem part hitem => ?_)
    have hlt := Value.sizeOf_lt_of_mem_sequence hmem
    exact together_releaseWith hstream hitem
  | mapping hentries =>
    refine together_releaseMappingWith (forall₂_onEntries_of_mem hentries
      fun entry hmem part hentry => ?_)
    have hlt := Value.sizeOf_lt_of_mem_mapping hmem
    exact together_releaseWith hstream hentry
termination_by sizeOf value
decreasing_by all_goals assumption

/-- Draining the same stream keeps stores together. -/
theorem together_drain {stream : Handle .stream} (hbase : base ≤ stream.index)
    {f g : Value → Store → Store}
    (h : ∀ value part, Mirrors links base stream.index value part →
      Together links base (f value) (g part)) (limit : Nat) :
    Together links base (Store.drain stream f limit) (Store.drain stream g limit) := by
  induction limit with
  | zero => exact .id
  | succ limit ih =>
    intro store image hmirror
    rcases hmirror.pull hbase with ⟨hpull, hother⟩ |
      ⟨value, part, after, other, hpull, hother, hvalue, hafter, hsize, _⟩
    · simp only [drain, hpull, hother]
      exact .refl hmirror
    · simp only [drain, hpull, hother]
      exact ((h value part hvalue).comp ih hafter).after (Nat.le_of_eq hsize.symm)

/-- Releasing the same stream keeps stores together, by induction on the depth. -/
theorem together_releaseStream (depth : Nat) {stream : Handle .stream}
    (hbase : base ≤ stream.index) :
    Together links base (releaseStream depth stream) (releaseStream depth stream) := by
  induction depth generalizing stream with
  | zero => exact .id
  | succ depth ih =>
    intro store image hmirror
    simp only [releaseStream]
    rw [hmirror.length_eq stream]
    exact together_drain hbase (fun value part hvalue =>
      together_releaseWith (fun stream hbase => ih hbase) hvalue) _ hmirror

/-- Releasing values that mirror each other keeps stores together. -/
theorem together_release {value part : Value} (h : Mirrors links base count value part) :
    Together links base (release value) (release part) := by
  intro store image hmirror
  simp only [release]
  rw [hmirror.totalRemaining_eq]
  exact together_releaseWith (fun stream hbase => together_releaseStream _ hbase) h hmirror

/-- Releasing several values that mirror each other keeps stores together. -/
theorem together_releaseAll {values parts : List Value}
    (h : List.Forall₂ (Mirrors links base count) values parts) :
    Together links base (releaseAll values) (releaseAll parts) := by
  induction h with
  | nil => exact .id
  | cons hvalue _ ih => exact (together_release hvalue).comp ih

end Release

section Flatten

variable {F : Handle .stream → StateM Store (List Value)}

/-- Items that are flat one by one are flat. -/
theorem flattenItemsWith_eq_pure {items : List Value}
    (h : ∀ item ∈ items, flattenWith F item = pure item) :
    flattenItemsWith F items = pure items := by
  induction items with
  | nil => rfl
  | cons item rest ih =>
    have hrest := ih fun other hmem => h other (List.mem_cons_of_mem _ hmem)
    rw [flattenItemsWith, h item List.mem_cons_self, hrest]
    rfl

/-- Entries of a mapping whose values are flat are flat. -/
theorem flattenMappingWith_eq_pure {entries : List (String × Value)}
    (h : ∀ entry ∈ entries, flattenWith F entry.2 = pure entry.2) :
    flattenMappingWith F entries = pure entries := by
  induction entries with
  | nil => rfl
  | cons entry rest ih =>
    have hrest := ih fun other hmem => h other (List.mem_cons_of_mem _ hmem)
    rw [flattenMappingWith, h entry List.mem_cons_self, hrest]
    rfl

/-- Entries of a dict whose values are flat are flat. -/
theorem flattenDictWith_eq_pure {entries : List (Value × Value)}
    (h : ∀ entry ∈ entries, flattenWith F entry.2 = pure entry.2) :
    flattenDictWith F entries = pure entries := by
  induction entries with
  | nil => rfl
  | cons entry rest ih =>
    have hrest := ih fun other hmem => h other (List.mem_cons_of_mem _ hmem)
    rw [flattenDictWith, h entry List.mem_cons_self, hrest]
    rfl

/-- Flattening leaves a value alone that holds scalars and links only. -/
theorem flattenWith_of_isInert {value : Value} (h : value.isInert = true) :
    flattenWith F value = pure value := by
  match value with
  | .sequence items =>
    rw [flattenWith, flattenItemsWith_eq_pure fun item hmem => ?_]
    · rfl
    · have hlt := Value.sizeOf_lt_of_mem_sequence hmem
      exact flattenWith_of_isInert (Value.everyLeaf_sequence.mp h item hmem)
  | .mapping entries =>
    rw [flattenWith, flattenMappingWith_eq_pure fun entry hmem => ?_]
    · rfl
    · have hlt := Value.sizeOf_lt_of_mem_mapping hmem
      exact flattenWith_of_isInert (Value.everyLeaf_mapping.mp h entry hmem)
  | .dict entries =>
    rw [flattenWith, flattenDictWith_eq_pure fun entry hmem => ?_]
    · rfl
    · have hlt := (Value.sizeOf_lt_of_mem_dict hmem).2
      exact flattenWith_of_isInert (Value.everyLeaf_dict.mp h entry hmem).2
  | .null | .bool _ | .int _ | .float _ | .byte _ | .bytes _ | .text _ | .link _ | .map _
  | .array _ => rfl
  | .iterator _ | .byteStream _ | .stream _ => cases h
termination_by sizeOf value
decreasing_by all_goals assumption

variable {G : Handle .stream → StateM Store (List Value)} {links : Table .link Link}
  {base count : Nat} {α β : Type}

/-- Whether two ways to make something from the store make related things and lead from a mirror to
one. -/
def MadeTogether (links : Table .link Link) (base : Nat) (R : α → α → Prop) (x y : StateM Store α) :
    Prop :=
  ∀ ⦃store image⦄, Mirror links base store image →
    R (x.run store).1 (y.run image).1 ∧
      Proceeds links base store (x.run store).2 (y.run image).2

/-- What is made of nothing is made together. -/
theorem MadeTogether.pure {R : α → α → Prop} {a b : α} (h : R a b) :
    MadeTogether links base R (Pure.pure a) (Pure.pure b) := fun _ _ hmirror => ⟨h, .refl hmirror⟩

/-- What is made in two parts is made together if each part is. -/
theorem MadeTogether.bind {R : α → α → Prop} {S : β → β → Prop} {x y : StateM Store α}
    {f g : α → StateM Store β} (h : MadeTogether links base R x y)
    (hnext : ∀ a b, R a b → MadeTogether links base S (f a) (g b)) :
    MadeTogether links base S (x >>= f) (y >>= g) := by
  intro store image hmirror
  obtain ⟨hR, hproceeds⟩ := h hmirror
  obtain ⟨hS, hafter⟩ := hnext _ _ hR hproceeds.toMirror
  exact ⟨hS, hafter.after hproceeds.size_le⟩

/-- Flattening items that belong together makes items that do so. -/
theorem together_flattenItemsWith {items parts : List Value}
    (h : List.Forall₂ (fun item part => MadeTogether links base (Mirrors links base 0)
      (flattenWith F item) (flattenWith G part)) items parts) :
    MadeTogether links base (List.Forall₂ (Mirrors links base 0)) (flattenItemsWith F items)
      (flattenItemsWith G parts) := by
  induction h with
  | nil => exact .pure .nil
  | cons hitem _ ih =>
    exact hitem.bind fun _ _ hflat => ih.bind fun _ _ hrest => .pure (.cons hflat hrest)

/-- Flattening entries of mappings that belong together makes entries that do so. -/
theorem together_flattenMappingWith {entries parts : List (String × Value)}
    (h : List.Forall₂ (OnEntries fun value part => MadeTogether links base (Mirrors links base 0)
      (flattenWith F value) (flattenWith G part)) entries parts) :
    MadeTogether links base (List.Forall₂ (OnEntries (Mirrors links base 0)))
      (flattenMappingWith F entries) (flattenMappingWith G parts) := by
  induction h with
  | nil => exact .pure .nil
  | cons hentry _ ih =>
    cases hentry with
    | intro hvalue =>
      exact hvalue.bind fun _ _ hflat => ih.bind fun _ _ hrest => .pure (.cons ⟨hflat⟩ hrest)

/-- The flat form of an image is an image of the flat form. -/
theorem together_flattenWith
    (hstream : ∀ stream, base ≤ stream.index →
      MadeTogether links base (List.Forall₂ (Mirrors links base 0)) (F stream) (G stream))
    {value part : Value} (h : Mirrors links base count value part) :
    MadeTogether links base (Mirrors links base 0) (flattenWith F value) (flattenWith G part) := by
  cases h with
  | folded hdocument hfolded =>
    rw [flattenWith_of_isInert (Value.isInert_of_isDocument hdocument),
      flattenWith_of_isInert (hfolded.isInert hdocument)]
    exact .pure (.folded hdocument hfolded)
  | stream hbase => exact (hstream _ hbase).bind fun _ _ hitems => .pure (.sequence hitems)
  | sequence hitems =>
    refine (together_flattenItemsWith (forall₂_of_mem hitems fun item hmem part hitem => ?_)).bind
      fun _ _ hflat => .pure (.sequence hflat)
    have hlt := Value.sizeOf_lt_of_mem_sequence hmem
    exact together_flattenWith hstream hitem
  | mapping hentries =>
    refine (together_flattenMappingWith (forall₂_onEntries_of_mem hentries
      fun entry hmem part hentry => ?_)).bind fun _ _ hflat => .pure (.mapping hflat)
    have hlt := Value.sizeOf_lt_of_mem_mapping hmem
    exact together_flattenWith hstream hentry
termination_by sizeOf value
decreasing_by all_goals assumption

/-- Flattening what is pulled from the same stream makes values that belong together. -/
theorem together_flattenPulled {stream : Handle .stream} (hbase : base ≤ stream.index)
    {f g : Value → StateM Store Value}
    (h : ∀ value part, Mirrors links base stream.index value part →
      MadeTogether links base (Mirrors links base 0) (f value) (g part)) (limit : Nat) :
    MadeTogether links base (List.Forall₂ (Mirrors links base 0)) (flattenPulled f stream limit)
      (flattenPulled g stream limit) := by
  induction limit with
  | zero => exact .pure .nil
  | succ limit ih =>
    intro store image hmirror
    rcases hmirror.pull hbase with ⟨hpull, hother⟩ |
      ⟨value, part, after, other, hpull, hother, hvalue, hafter, hsize, _⟩
    · rw [run_flattenPulled_of_none hpull, run_flattenPulled_of_none hother]
      exact ⟨.nil, .refl hmirror⟩
    · rw [run_flattenPulled_of_some hpull, run_flattenPulled_of_some hother]
      obtain ⟨hflat, hfirst⟩ := h value part hvalue hafter
      obtain ⟨hrest, hsecond⟩ := ih hfirst.toMirror
      exact ⟨.cons hflat hrest, (hsecond.after hfirst.size_le).after (Nat.le_of_eq hsize.symm)⟩

/-- Flattening the same stream makes values that belong together, by induction on the depth. -/
theorem together_flattenStream (depth : Nat) {stream : Handle .stream}
    (hbase : base ≤ stream.index) :
    MadeTogether links base (List.Forall₂ (Mirrors links base 0)) (flattenStream depth stream)
      (flattenStream depth stream) := by
  induction depth generalizing stream with
  | zero => exact .pure .nil
  | succ depth ih =>
    intro store image hmirror
    rw [run_flattenStream_succ, run_flattenStream_succ, hmirror.length_eq stream]
    exact together_flattenPulled hbase (fun value part hvalue =>
      together_flattenWith (fun stream hbase => ih hbase) hvalue) _ hmirror

/-- Flattening a value and an image gives a document and an image of it. -/
theorem together_flatten {value part : Value} (h : Mirrors links base count value part) :
    MadeTogether links base (Mirrors links base 0) (flatten value) (flatten part) := by
  intro store image hmirror
  rw [run_flatten, run_flatten, hmirror.totalRemaining_eq]
  exact together_flattenWith (fun stream hbase => together_flattenStream _ hbase) h hmirror

end Flatten

end Sluice
