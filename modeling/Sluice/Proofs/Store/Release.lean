import Sluice.Proofs.Store.Flattening

/-!
# Releasing and flattening

Releasing a value closes exactly what can be reached from it, even where several parts of it share
a stream (`releases_release`). Flattening closes nothing, and what could be reached from a value
can be reached from its flat form (`flattens_flatten`).
-/

namespace Sluice

namespace Store

/-- What releasing does: it closes the given sources and no others. -/
structure Releases (store after : Store) (released : Source → Prop) : Prop
    extends Drains store after released where
  closed : ∀ source, after.isClosed source = true ↔
    store.isClosed source = true ∨ released source

/-- Doing nothing releases nothing. -/
theorem Releases.refl (store : Store) : Releases store store fun _ => False :=
  ⟨.refl store _, fun source => by simp⟩

/-- What is released in two stretches is released by one or the other. -/
theorem Releases.trans {store middle after : Store} {released next : Source → Prop}
    (h : Releases store middle released) (hnext : Releases middle after next) :
    Releases store after fun source => released source ∨ next source := by
  refine ⟨h.toDrains.trans hnext.toDrains, fun source => ?_⟩
  rw [hnext.closed, h.closed, or_assoc]

/-- The released sources may be described in another way. -/
theorem Releases.congr {store after : Store} {released other : Source → Prop}
    (h : Releases store after released) (heq : ∀ source, released source ↔ other source) :
    Releases store after other := by
  have : released = other := funext fun source => propext (heq source)
  exact this ▸ h

/-- Releasing two values in order releases what both reach at the start. -/
theorem Releases.then {store middle after : Store} {value : Value} {released : Source → Prop}
    (h : Releases store middle released)
    (hnext : Releases middle after fun source => middle.Reachable source value) :
    Releases store after fun source => released source ∨ store.Reachable source value := by
  refine (h.trans hnext).congr fun source => ?_
  constructor
  · exact Or.imp_right h.reachable
  · rintro (hreleased | hreach)
    · exact Or.inl hreleased
    · exact (h.keeps source value hreach).symm

/-- Closing an iterator closes this one and nothing else. -/
theorem isClosed_closeIterator (store : Store) (iterator : Handle .iterator) (source : Source) :
    (store.closeIterator iterator).2.isClosed source = true ↔
      store.isClosed source = true ∨ source = .iterator iterator := by
  unfold closeIterator
  simp only
  split
  case isTrue hclosed =>
    constructor
    · exact Or.inl
    · rintro (h | rfl)
      · exact h
      · exact hclosed
  case isFalse hopen =>
    have hbound : iterator.index < store.iterators.size := by
      by_contra hout
      rw [Table.get_of_size_le (Nat.le_of_not_lt hout)] at hopen
      exact hopen rfl
    cases source with
    | byteStream stream => simp [isClosed, isByteStreamClosed, record]
    | iterator other =>
      simp only [isClosed, isIteratorClosed, Source.iterator.injEq]
      by_cases heq : other = iterator
      · subst heq
        simp [Table.get_set_self hbound, record, Cursor.close]
      · simp [Table.get_set_of_ne _ heq, record, heq]

/-- Closing a byte stream closes this one and nothing else. -/
theorem isClosed_closeByteStream (store : Store) (stream : Handle .byteStream) (source : Source) :
    (store.closeByteStream stream).2.isClosed source = true ↔
      store.isClosed source = true ∨ source = .byteStream stream := by
  unfold closeByteStream
  simp only
  split
  case isTrue hclosed =>
    constructor
    · exact Or.inl
    · rintro (h | rfl)
      · exact h
      · exact hclosed
  case isFalse hopen =>
    have hbound : stream.index < store.byteStreams.size := by
      by_contra hout
      rw [Table.get_of_size_le (Nat.le_of_not_lt hout)] at hopen
      exact hopen rfl
    cases source with
    | iterator iterator => simp [isClosed, isIteratorClosed, record]
    | byteStream other =>
      simp only [isClosed, isByteStreamClosed, Source.byteStream.injEq]
      by_cases heq : other = stream
      · subst heq
        simp [Table.get_set_self hbound, record]
      · simp [Table.get_set_of_ne _ heq, record, heq]

/-- Closing a handle releases the source that it is. -/
theorem releases_closeHandle (value : Value) (store : Store) :
    Releases store (closeHandle value store) fun source => source.value = value := by
  cases value with
  | iterator iterator =>
    refine ⟨(drains_closeIterator store iterator).mono (by simp), fun source => ?_⟩
    rw [closeHandle, isClosed_closeIterator]
    cases source <;> simp [Source.value]
  | byteStream stream =>
    refine ⟨(drains_closeByteStream store stream).mono (by simp), fun source => ?_⟩
    rw [closeHandle, isClosed_closeByteStream]
    cases source <;> simp [Source.value]
  | _ =>
    refine (Releases.refl store).congr fun source => ?_
    cases source <;> simp [Source.value]

/-- A value that reaches at most itself is released by closing it. -/
theorem releases_atom {value : Value} {store after : Store}
    (hafter : after = closeHandle value store)
    (h : ∀ source, store.Reachable source value → source.value = value) :
    Releases store after fun source => store.Reachable source value :=
  hafter ▸ (releases_closeHandle value store).congr fun source => ⟨.self, h source⟩

/-- Whether streams are released, where at most so many elements are left. -/
def ReleasesStreams (limit : Nat) (ofStream : Handle .stream → Store → Store) : Prop :=
  ∀ stream store, totalRemaining store ≤ limit →
    Releases store (ofStream stream store) fun source => store.Reachable source (.stream stream)

section ReleaseWith

variable {limit : Nat} {ofStream : Handle .stream → Store → Store}

mutual

/-- Releasing a value releases what can be reached from it, if releasing a stream does. -/
theorem releases_releaseWith (hstream : ReleasesStreams limit ofStream) (value : Value)
    (store : Store) (htotal : store.totalRemaining ≤ limit) :
    Releases store (releaseWith ofStream value store) fun source =>
      store.Reachable source value := by
  match value with
  | .stream stream => exact hstream stream store htotal
  | .sequence items => exact releases_releaseItemsWith hstream items store htotal
  | .mapping entries => exact releases_releaseMappingWith hstream entries store htotal
  | .dict entries => exact releases_releaseDictWith hstream entries store htotal
  | .null | .bool _ | .int _ | .float _ | .byte _ | .bytes _ | .text _ | .link _ | .map _
  | .array _ | .iterator _ | .byteStream _ =>
    refine releases_atom rfl ?_
    rintro source ⟨hvalue⟩
    exact hvalue
termination_by structural value

/-- Releasing items closes what can be reached from them. -/
theorem releases_releaseItemsWith (hstream : ReleasesStreams limit ofStream) (items : List Value)
    (store : Store) (htotal : store.totalRemaining ≤ limit) :
    Releases store (releaseItemsWith ofStream items store) fun source =>
      store.Reachable source (.sequence items) := by
  match items with
  | [] => exact (Releases.refl store).congr fun source => by simp
  | item :: rest =>
    have hfirst := releases_releaseWith hstream item store htotal
    have hrest := releases_releaseItemsWith hstream rest _ (Nat.le_trans hfirst.fewer htotal)
    exact (hfirst.then hrest).congr fun source => by simp
termination_by structural items

/-- Releasing the entries of a mapping closes what can be reached from them. -/
theorem releases_releaseMappingWith (hstream : ReleasesStreams limit ofStream)
    (entries : List (String × Value)) (store : Store) (htotal : store.totalRemaining ≤ limit) :
    Releases store (releaseMappingWith ofStream entries store) fun source =>
      store.Reachable source (.mapping entries) := by
  match entries with
  | [] => exact (Releases.refl store).congr fun source => by simp
  | (_, value) :: rest =>
    have hfirst := releases_releaseWith hstream value store htotal
    have hrest := releases_releaseMappingWith hstream rest _ (Nat.le_trans hfirst.fewer htotal)
    exact (hfirst.then hrest).congr fun source => by simp
termination_by structural entries

/-- Releasing the entries of a dict closes what can be reached from them. -/
theorem releases_releaseDictWith (hstream : ReleasesStreams limit ofStream)
    (entries : List (Value × Value)) (store : Store) (htotal : store.totalRemaining ≤ limit) :
    Releases store (releaseDictWith ofStream entries store) fun source =>
      store.Reachable source (.dict entries) := by
  match entries with
  | [] => exact (Releases.refl store).congr fun source => by simp
  | (key, value) :: rest =>
    have hkey := releases_releaseWith hstream key store htotal
    have hvalue := releases_releaseWith hstream value _ (Nat.le_trans hkey.fewer htotal)
    have hentry := hkey.then hvalue
    have hrest := releases_releaseDictWith hstream rest _ (Nat.le_trans hentry.fewer htotal)
    exact (hentry.then hrest).congr fun source => by simp
termination_by structural entries

end

end ReleaseWith

/-- An element that is pulled and then released is released. -/
theorem Releases.of_pull {store middle after : Store} {stream : Handle .stream} {value : Value}
    (hpull : store.pull stream = (some value, middle))
    (h : Releases middle after fun source => middle.Reachable source value) :
    Releases store after fun source => middle.Reachable source value := by
  obtain ⟨_, _, _, hclosed⟩ := pull_some hpull
  refine ⟨((Drains.of_pull hpull).trans h.toDrains).mono fun source => or_self_iff.mp,
    fun source => ?_⟩
  rw [h.closed, hclosed]

/-- Draining a stream releases its elements, if each of them is released. -/
theorem releases_drain {limit : Nat} {f : Value → Store → Store} {stream : Handle .stream}
    (hf : ∀ value store, totalRemaining store ≤ limit →
      Releases store (f value store) fun source => store.Reachable source value)
    {count : Nat} {store : Store} (hcount : (store.remaining stream).length ≤ count)
    (htotal : store.totalRemaining ≤ limit + 1) :
    Releases store (store.drain stream f count) fun source =>
      store.Reachable source (.stream stream) := by
  induction count generalizing store with
  | zero =>
    have hnil : store.remaining stream = [] := List.length_eq_zero_iff.mp (Nat.le_zero.mp hcount)
    exact (Releases.refl store).congr fun source => by simp [hnil]
  | succ count ih =>
    unfold drain
    rcases hpull : store.pull stream with ⟨_ | value, middle⟩
    · obtain ⟨hnil, rfl⟩ := pull_none hpull
      exact (Releases.refl middle).congr fun source => by simp [hnil]
    · obtain ⟨hremaining, _, hfewer, _⟩ := pull_some hpull
      have hvalue := hf value middle (by omega)
      have hlength := (hvalue.suffix stream).length_le
      have hle := hvalue.fewer
      rw [hremaining, List.length_cons] at hcount
      have hrest := @ih (f value middle) (by omega) (by omega)
      refine ((Releases.of_pull hpull hvalue).then hrest).congr fun source => ?_
      constructor
      · rintro (hreach | hreach)
        · refine .element ?_ ((Drains.of_pull hpull).reachable hreach)
          exact hremaining ▸ List.mem_cons_self
        · exact hreach
      · exact Or.inr

/-- Releasing a stream closes what can be reached from it, by induction on the depth. -/
theorem releasesStreams_releaseStream (depth : Nat) :
    ReleasesStreams depth (releaseStream depth) := by
  induction depth with
  | zero =>
    intro stream store htotal
    have hnil := remaining_eq_nil (Nat.le_zero.mp htotal) stream
    exact (Releases.refl store).congr fun source => by simp [hnil]
  | succ depth ih =>
    intro stream store htotal
    exact releases_drain (releases_releaseWith ih) (Nat.le_refl _) htotal

/-- Releasing a value closes what can be reached from it, and nothing else. -/
theorem releases_release (value : Value) (store : Store) :
    Releases store (release value store) fun source => store.Reachable source value :=
  releases_releaseWith (releasesStreams_releaseStream _) value store (Nat.le_succ _)

/-- Releasing several values closes what can be reached from any of them. -/
theorem releases_releaseAll (values : List Value) (store : Store) :
    Releases store (releaseAll values store) fun source =>
      ∃ value ∈ values, store.Reachable source value := by
  simp only [← reachable_sequence_iff]
  induction values generalizing store with
  | nil => exact (Releases.refl store).congr fun source => by simp
  | cons value values ih =>
    exact ((releases_release value store).then (ih _)).congr fun source => by simp

/-- What flattening does: it closes nothing, and the flat values reach what the values reached. -/
structure Flattens (store after : Store) (values flats : List Value) : Prop
    extends Drains store after (fun source => after.Reachable source (.sequence flats)) where
  closed : ∀ source, after.isClosed source = store.isClosed source
  reaches : ∀ source,
    after.Reachable source (.sequence flats) ↔ store.Reachable source (.sequence values)

/-- Values may be left as they are. -/
theorem Flattens.refl (store : Store) (values : List Value) : Flattens store store values values :=
  ⟨.refl store _, fun _ => rfl, fun _ => Iff.rfl⟩

/-- The values may be described by others that reach the same. -/
theorem Flattens.congr {store after : Store} {values flats others otherFlats : List Value}
    (h : Flattens store after values flats)
    (hvalues : ∀ source, store.Reachable source (.sequence values) ↔
      store.Reachable source (.sequence others))
    (hflats : ∀ source, after.Reachable source (.sequence flats) ↔
      after.Reachable source (.sequence otherFlats)) :
    Flattens store after others otherFlats :=
  ⟨h.toDrains.mono fun source => (hflats source).mp, h.closed, fun source => by
    rw [← hflats, h.reaches, hvalues]⟩

/-- Flattening in order flattens the values together. -/
theorem Flattens.append {store middle after : Store} {values flats others otherFlats : List Value}
    (h : Flattens store middle values flats) (hnext : Flattens middle after others otherFlats) :
    Flattens store after (values ++ others) (flats ++ otherFlats) := by
  have happend (store : Store) (source : Source) (values others : List Value) :
      store.Reachable source (.sequence (values ++ others)) ↔
        store.Reachable source (.sequence values) ∨ store.Reachable source (.sequence others) := by
    simp [or_and_right, exists_or]
  -- What the first flat values reach may have moved into the others.
  have hmoved (source : Source) (hreach : middle.Reachable source (.sequence flats)) :
      after.Reachable source (.sequence (flats ++ otherFlats)) := by
    rw [happend]
    exact hnext.keeps source _ hreach
  have hlater (source : Source) (hreach : after.Reachable source (.sequence otherFlats)) :
      after.Reachable source (.sequence (flats ++ otherFlats)) := by
    rw [happend]
    exact Or.inr hreach
  refine ⟨(h.toDrains.trans hnext.toDrains).mono fun source htaken => ?_, fun source => ?_,
    fun source => ?_⟩
  · exact htaken.elim (hmoved source) (hlater source)
  · rw [hnext.closed, h.closed]
  · constructor
    · rw [happend, happend]
      rintro (hreach | hreach)
      · exact Or.inl ((h.reaches source).mp (hnext.reachable hreach))
      · exact Or.inr (h.reachable ((hnext.reaches source).mp hreach))
    · rw [happend store]
      rintro (hreach | hreach)
      · exact hmoved source ((h.reaches source).mpr hreach)
      · rcases h.keeps source _ hreach with hmiddle | htaken
        · exact hlater source ((hnext.reaches source).mpr hmiddle)
        · exact hmoved source htaken

/-- A compound is flattened by flattening its parts. -/
theorem Flattens.wrap {store after : Store} {value flat : Value} {values flats : List Value}
    (h : Flattens store after values flats)
    (hvalue : ∀ source, store.Reachable source value ↔ store.Reachable source (.sequence values))
    (hflat : ∀ source, after.Reachable source flat ↔ after.Reachable source (.sequence flats)) :
    Flattens store after [value] [flat] :=
  h.congr (fun source => by simp [← hvalue]) fun source => by simp [← hflat]

/-- A mapping reaches what a sequence of its values reaches. -/
theorem reachable_mapping_iff_sequence {store : Store} {source : Source}
    {entries : List (String × Value)} :
    store.Reachable source (.mapping entries) ↔
      store.Reachable source (.sequence (entries.map (·.2))) := by
  simp only [reachable_mapping_iff, reachable_sequence_iff, List.mem_map]
  constructor
  · rintro ⟨entry, hmem, hreach⟩
    exact ⟨entry.2, ⟨entry, hmem, rfl⟩, hreach⟩
  · rintro ⟨_, ⟨entry, hmem, rfl⟩, hreach⟩
    exact ⟨entry, hmem, hreach⟩

/-- The keys and values of the entries of a dict. -/
def dictParts (entries : List (Value × Value)) : List Value :=
  entries.flatMap fun entry => [entry.1, entry.2]

/-- A dict reaches what a sequence of its keys and values reaches. -/
theorem reachable_dict_iff_sequence {store : Store} {source : Source}
    {entries : List (Value × Value)} :
    store.Reachable source (.dict entries) ↔
      store.Reachable source (.sequence (dictParts entries)) := by
  simp only [reachable_dict_iff, reachable_sequence_iff, dictParts, List.mem_flatMap]
  constructor
  · rintro ⟨entry, hmem, hreach | hreach⟩
    · exact ⟨entry.1, ⟨entry, hmem, by simp⟩, hreach⟩
    · exact ⟨entry.2, ⟨entry, hmem, by simp⟩, hreach⟩
  · rintro ⟨part, ⟨entry, hmem, hpart⟩, hreach⟩
    rcases (by simpa using hpart : part = entry.1 ∨ part = entry.2) with rfl | rfl
    · exact ⟨entry, hmem, Or.inl hreach⟩
    · exact ⟨entry, hmem, Or.inr hreach⟩

/-- An element that is pulled and then flattened is flattened. -/
theorem Flattens.of_pull {store middle after : Store} {stream : Handle .stream} {value flat : Value}
    (hpull : store.pull stream = (some value, middle)) (h : Flattens middle after [value] [flat]) :
    Flattens store after [value] [flat] := by
  obtain ⟨_, _, _, hclosed⟩ := pull_some hpull
  have hpulled := Drains.of_pull hpull
  have hvalue (source : Source) :
      middle.Reachable source (.sequence [value]) ↔ store.Reachable source (.sequence [value]) := by
    simp only [reachable_sequence_iff, List.mem_singleton, exists_eq_left]
    exact ⟨hpulled.reachable, fun hreach => or_self_iff.mp (hpulled.keeps source value hreach)⟩
  refine ⟨(hpulled.trans h.toDrains).mono fun source htaken => ?_, fun source => ?_,
    fun source => (h.reaches source).trans (hvalue source)⟩
  · exact htaken.elim (fun hmiddle => (h.reaches source).mpr (by simpa using hmiddle)) id
  · rw [h.closed, hclosed]

/-- A stream is flattened by flattening its first element and then the stream that is left. -/
theorem Flattens.pulled {store middle next after : Store} {stream : Handle .stream}
    {value flat : Value} {flats : List Value} (hpull : store.pull stream = (some value, middle))
    (hvalue : Flattens middle next [value] [flat])
    (hrest : Flattens next after [.stream stream] flats) :
    Flattens store after [.stream stream] (flat :: flats) := by
  obtain ⟨hremaining, _, _, _⟩ := pull_some hpull
  refine ((hvalue.of_pull hpull).append hrest).congr (fun source => ?_) fun source => Iff.rfl
  simp only [List.cons_append, List.nil_append, reachable_sequence_iff, List.mem_cons,
    exists_eq_or_imp, List.not_mem_nil, or_false, exists_eq_left, reachable_stream_iff,
    hremaining]
  tauto

/-- An entry of a dict is flattened by flattening its value. -/
theorem Flattens.entry {store after : Store} {value flat : Value} (key : Value)
    (h : Flattens store after [value] [flat]) :
    Flattens store after [.dict [(key, value)]] [.dict [(key, flat)]] :=
  ((Flattens.refl store [key]).append h).wrap (fun source => by simp) fun source => by simp

/-- All that flattening does keeps open what is open and moves it to the flat values. -/
theorem flattening_flattens : Flattening Flattens where
  suffix h := h.suffix
  fewer h := h.fewer
  nil store := .refl store []
  atom store _ _ := .refl store _
  append := .append
  sequence h := h.wrap (fun _ => Iff.rfl) fun _ => Iff.rfl
  mapping h := h.wrap (fun _ => reachable_mapping_iff_sequence) fun _ =>
    reachable_mapping_iff_sequence
  entry := .entry
  dict h := h.wrap (fun source => by simp [singleDicts]) fun source => by simp [singleDicts]
  stream h := h.wrap (fun source => by simp) fun _ => Iff.rfl
  exhausted {store} _ hnil :=
    (Flattens.refl store []).congr (fun source => by simp [hnil]) fun _ => Iff.rfl
  pulled := .pulled

/-- What can be reached from the flat form of a value is what could be reached from the value. -/
theorem flattens_flatten (value : Value) (store : Store) :
    Flattens store ((flatten value).run store).2 [value] [((flatten value).run store).1] :=
  flattening_flattens.flatten value store

end Store

end Sluice
