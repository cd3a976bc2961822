import Sluice.Proofs.Eval.Mirroring
import Sluice.Proofs.Value.Kinds

/-!
# Streams under other names

Two stores may hold the same streams under different handles, because other streams were made before
in one of them. A `Pairing` says which streams belong together: those made from some point on in
either store, in order, and streams that had run out before. Values are then the same up to the
names of streams (`Renamed`), and so are what paired streams hold (`Store.Paired`), pulling from
them and flattening them.
-/

namespace Sluice

/-- Which streams of two stores belong together. -/
structure Pairing where
  /-- The first stream that is paired in order. -/
  left : Nat
  /-- The stream of the other store that it is paired with. -/
  right : Nat
  /-- Streams that have run out and are paired with themselves. -/
  idle : Handle .stream → Prop
  idle_lt : ∀ stream, idle stream → stream.index < left ∧ stream.index < right

/-- Whether two streams were made after as many others since the pairing. -/
def Pairing.Made (pairing : Pairing) (stream other : Handle .stream) : Prop :=
  pairing.left ≤ stream.index ∧ other.index + pairing.left = stream.index + pairing.right

/-- Whether two streams belong together. -/
def Pairing.Twin (pairing : Pairing) (stream other : Handle .stream) : Prop :=
  pairing.Made stream other ∨ pairing.idle stream ∧ other = stream

/-- No stream belongs to two others. -/
theorem Pairing.Made.eq_iff {pairing : Pairing} {first second stream other : Handle .stream}
    (h : pairing.Made first second) (hother : pairing.Made stream other) :
    first = stream ↔ second = other := by
  obtain ⟨_, hsecond⟩ := h
  obtain ⟨_, hindex⟩ := hother
  cases first
  cases second
  cases stream
  cases other
  simp only [Handle.mk.injEq] at hsecond hindex ⊢
  omega

/-- Streams that belong together come in the same order. -/
theorem Pairing.Twin.index_lt {pairing : Pairing} {first second stream other : Handle .stream}
    (h : pairing.Twin first second) (hother : pairing.Twin stream other)
    (hlt : first.index < stream.index) : second.index < other.index := by
  rcases h with ⟨hleft, hindex⟩ | ⟨hidle, rfl⟩ <;>
    rcases hother with ⟨hleft', hindex'⟩ | ⟨hidle', rfl⟩
  · omega
  · have hearly := pairing.idle_lt _ hidle'
    omega
  · have hearly := pairing.idle_lt _ hidle
    omega
  · exact hlt

/-- Whether two values are the same up to the names of streams, hold scalars and dicts of given
kinds and only streams before `count`. -/
inductive Renamed (kinds : Value.Kind → Bool) (pairing : Pairing) (count : Nat) :
    Value → Value → Prop
  | scalar {value : Value} :
      value.category = .scalar → kinds value.kind = true → Renamed kinds pairing count value value
  | stream {stream other : Handle .stream} :
      pairing.Twin stream other → stream.index < count →
      Renamed kinds pairing count (.stream stream) (.stream other)
  | sequence {items parts : List Value} :
      List.Forall₂ (Renamed kinds pairing count) items parts →
      Renamed kinds pairing count (.sequence items) (.sequence parts)
  | mapping {entries parts : List (String × Value)} :
      List.Forall₂ (OnEntries (Renamed kinds pairing count)) entries parts →
      Renamed kinds pairing count (.mapping entries) (.mapping parts)
  | dict {entries : List (Value × Value)} :
      (Value.dict entries).OfKinds kinds →
      Renamed kinds pairing count (.dict entries) (.dict entries)

variable {kinds : Value.Kind → Bool} {pairing : Pairing} {count : Nat}

section Renamed

variable {value part : Value}

/-- A document holds no streams, so it is the same under all names. -/
theorem Renamed.ofKinds (h : value.OfKinds kinds) : Renamed kinds pairing count value value := by
  induction h with
  | scalar hscalar hkind => exact .scalar hscalar hkind
  | sequence _ ih => exact .sequence (List.forall₂_same.mpr ih)
  | mapping _ ih =>
    exact .mapping (List.forall₂_same.mpr fun entry hmem => ⟨ih entry hmem⟩)
  | dict hdict hkeys hvalues => exact .dict (.dict hdict hkeys hvalues)

/-- Names do not matter to the kind of a value. -/
theorem Renamed.kind_eq (h : Renamed kinds pairing count value part) : part.kind = value.kind := by
  cases h <;> rfl

/-- Names do not matter to the number that a value stands for. -/
theorem Renamed.toFloat?_eq (h : Renamed kinds pairing count value part) :
    part.toFloat? = value.toFloat? := by
  cases h <;> rfl

/-- Neither of two values that are the same up to names is a link. -/
theorem Renamed.ne_link (h : Renamed kinds pairing count value part) :
    (∀ link, value ≠ .link link) ∧ ∀ link, part ≠ .link link := by
  cases h with
  | scalar hscalar => constructor <;> rintro link rfl <;> cases hscalar
  | _ => simp

/-- Values that are the same up to names are streams that belong together, or neither is a
stream. -/
theorem Renamed.stream_or (h : Renamed kinds pairing count value part) :
    (∃ stream other, value = .stream stream ∧ part = .stream other ∧ pairing.Twin stream other ∧
        stream.index < count) ∨
      (∀ stream, value ≠ .stream stream) ∧ ∀ stream, part ≠ .stream stream := by
  cases h with
  | scalar hscalar => right; constructor <;> rintro stream rfl <;> cases hscalar
  | stream htwin hcount => exact Or.inl ⟨_, _, rfl, rfl, htwin, hcount⟩
  | _ => simp

/-- What is no sequence is none under other names. -/
theorem Renamed.ne_sequence (h : Renamed kinds pairing count value part)
    (hne : ∀ items, value ≠ .sequence items) (parts : List Value) : part ≠ .sequence parts := by
  rintro rfl
  cases h with
  | scalar hscalar => cases hscalar
  | sequence _ => exact hne _ rfl

/-- Later streams do not matter. -/
theorem Renamed.mono {value part : Value} {other : Nat} (h : Renamed kinds pairing count value part)
    (hle : count ≤ other) : Renamed kinds pairing other value part := by
  cases h with
  | scalar hscalar hkind => exact .scalar hscalar hkind
  | stream htwin hcount => exact .stream htwin (Nat.lt_of_lt_of_le hcount hle)
  | sequence hitems =>
    refine .sequence (forall₂_of_mem hitems fun item hmem part hitem => ?_)
    have hlt := Value.sizeOf_lt_of_mem_sequence hmem
    exact hitem.mono hle
  | mapping hentries =>
    refine .mapping (forall₂_onEntries_of_mem hentries fun entry hmem part hentry => ?_)
    have hlt := Value.sizeOf_lt_of_mem_mapping hmem
    exact hentry.mono hle
  | dict hdict => exact .dict hdict
termination_by sizeOf value
decreasing_by all_goals assumption

end Renamed

namespace Store

/-- Whether nothing has happened but that elements were taken out of some streams. -/
structure Sheds (some : Handle .stream → Prop) (store after : Store) : Prop where
  others : after = { store with streams := after.streams }
  size_eq : after.streams.size = store.streams.size
  fewer : after.totalRemaining ≤ store.totalRemaining
  kept : ∀ stream, ¬ some stream → after.remaining stream = store.remaining stream

section Sheds

variable {some : Handle .stream → Prop} {store middle after : Store}

/-- Nothing is taken out between a store and itself. -/
theorem Sheds.refl (store : Store) : Sheds some store store :=
  ⟨rfl, rfl, Nat.le_refl _, fun _ _ => rfl⟩

/-- Elements are taken out step by step. -/
theorem Sheds.trans (h : Sheds some store middle) (hnext : Sheds some middle after) :
    Sheds some store after := by
  refine ⟨?_, hnext.size_eq.trans h.size_eq, Nat.le_trans hnext.fewer h.fewer,
    fun stream hstream => (hnext.kept stream hstream).trans (h.kept stream hstream)⟩
  rw [hnext.others, h.others]

/-- Pulling takes an element out of its stream. -/
theorem sheds_pull {stream : Handle .stream} (hstream : some stream) {value : Value}
    (h : store.pull stream = (.some value, after)) : Sheds some store after := by
  have hafter : after = (store.pull stream).2 := by rw [h]
  obtain ⟨_, hothers, htotal, _⟩ := pull_some h
  refine ⟨?_, ?_, by omega, fun other hother => hothers other ?_⟩
  · rw [hafter]
    unfold pull
    simp only
    split <;> rfl
  · rw [hafter, size_pull]
  · rintro rfl
    exact hother hstream

end Sheds

/-- Whether paired streams before `count` hold the same up to names. The elements of a stream are
older than it is. -/
structure Paired (kinds : Value.Kind → Bool) (pairing : Pairing) (count : Nat)
    (store image : Store) : Prop where
  elements : ∀ {stream other}, pairing.Made stream other → stream.index < count →
    List.Forall₂ (Renamed kinds pairing stream.index) (store.remaining stream)
      (image.remaining other)
  idle : ∀ {stream}, pairing.idle stream →
    store.remaining stream = [] ∧ image.remaining stream = []

/-- Whether elements were taken out of paired streams before `count` in two stores. -/
structure Shed (kinds : Value.Kind → Bool) (pairing : Pairing) (count : Nat)
    (store image after other : Store) : Prop where
  paired : Paired kinds pairing count after other
  left : Sheds (fun stream => pairing.left ≤ stream.index ∧ stream.index < count) store after
  right : Sheds (fun _ => True) image other

section Paired

variable {store image : Store} {stream other : Handle .stream}

/-- Streams that belong together hold the same up to names. -/
theorem Paired.twin (h : Paired kinds pairing count store image)
    (htwin : pairing.Twin stream other) (hcount : stream.index < count) :
    List.Forall₂ (Renamed kinds pairing stream.index) (store.remaining stream)
      (image.remaining other) := by
  rcases htwin with hmade | ⟨hidle, rfl⟩
  · exact h.elements hmade hcount
  · obtain ⟨hnil, hnil'⟩ := h.idle hidle
    rw [hnil, hnil']
    exact .nil

/-- Streams that belong together run out together. -/
theorem Paired.twin_nil_iff (h : Paired kinds pairing count store image)
    (htwin : pairing.Twin stream other) (hcount : stream.index < count) :
    store.remaining stream = [] ↔ image.remaining other = [] := by
  rw [← List.length_eq_zero_iff, ← List.length_eq_zero_iff, (h.twin htwin hcount).length_eq]

/-- Only what paired streams hold matters. -/
theorem Paired.congr {after : Store} (h : Paired kinds pairing count store image)
    (hkept : ∀ stream, pairing.left ≤ stream.index ∧ stream.index < count ∨ pairing.idle stream →
      after.remaining stream = store.remaining stream) :
    Paired kinds pairing count after image := by
  refine ⟨fun hmade hcount => ?_, fun hidle => ?_⟩
  · rw [hkept _ (Or.inl ⟨hmade.1, hcount⟩)]
    exact h.elements hmade hcount
  · rw [hkept _ (Or.inr hidle)]
    exact h.idle hidle

/-- Nothing is taken out between stores and themselves. -/
theorem Shed.refl (h : Paired kinds pairing count store image) :
    Shed kinds pairing count store image store image := ⟨h, .refl store, .refl image⟩

/-- Elements are taken out of paired streams step by step. -/
theorem Shed.trans {middle between after another : Store}
    (h : Shed kinds pairing count store image middle between)
    (hnext : Shed kinds pairing count middle between after another) :
    Shed kinds pairing count store image after another :=
  ⟨hnext.paired, h.left.trans hnext.left, h.right.trans hnext.right⟩

/-- Streams stay paired when elements are taken out of two that were made in order. -/
theorem Paired.of_pull (h : Paired kinds pairing count store image)
    (hmade : pairing.Made stream other) {value part : Value} {after another : Store}
    (hpull : store.pull stream = (some value, after))
    (hother : image.pull other = (some part, another))
    (htail : List.Forall₂ (Renamed kinds pairing stream.index) (after.remaining stream)
      (another.remaining other)) :
    Paired kinds pairing count after another := by
  obtain ⟨_, hrest, _, _⟩ := pull_some hpull
  obtain ⟨_, hrest', _, _⟩ := pull_some hother
  refine ⟨fun {first second} hpair hlt => ?_, fun {idle} hidle => ?_⟩
  · by_cases heq : first = stream
    · obtain rfl := (hpair.eq_iff hmade).mp heq
      rw [heq]
      exact htail
    · have hne : second ≠ other := fun h => heq ((hpair.eq_iff hmade).mpr h)
      rw [hrest first heq, hrest' second hne]
      exact h.elements hpair hlt
  · obtain ⟨hleft, hright⟩ := pairing.idle_lt idle hidle
    obtain ⟨hlow, hindex⟩ := hmade
    have hne : idle ≠ stream := by
      rintro rfl
      omega
    have hne' : idle ≠ other := by
      rintro rfl
      omega
    rw [hrest idle hne, hrest' idle hne']
    exact h.idle hidle

/-- Pulling from paired streams gives nothing on both sides, or the same up to names. -/
theorem Paired.pull (h : Paired kinds pairing count store image)
    (htwin : pairing.Twin stream other) (hcount : stream.index < count) :
    (store.pull stream = (none, store) ∧ image.pull other = (none, image)) ∨
      ∃ value part after another, store.pull stream = (some value, after) ∧
        image.pull other = (some part, another) ∧
        Renamed kinds pairing stream.index value part ∧
        Shed kinds pairing count store image after another ∧
        after.totalRemaining + 1 = store.totalRemaining ∧
        another.totalRemaining + 1 = image.totalRemaining := by
  have helements := h.twin htwin hcount
  rcases hpull : store.pull stream with ⟨_ | value, after⟩ <;>
    rcases hother : image.pull other with ⟨_ | part, another⟩
  · obtain ⟨_, rfl⟩ := pull_none hpull
    obtain ⟨_, rfl⟩ := pull_none hother
    exact Or.inl ⟨rfl, rfl⟩
  · rw [(pull_none hpull).1, (pull_some hother).1] at helements
    cases helements
  · rw [(pull_some hpull).1, (pull_none hother).1] at helements
    cases helements
  · obtain ⟨hremaining, _, htotal, _⟩ := pull_some hpull
    obtain ⟨hremaining', _, htotal', _⟩ := pull_some hother
    have hmade : pairing.Made stream other := by
      refine htwin.resolve_right ?_
      rintro ⟨hidle, rfl⟩
      rw [(h.idle hidle).1] at hremaining
      cases hremaining
    rw [hremaining, hremaining'] at helements
    obtain ⟨hvalue, htail⟩ := List.forall₂_cons.mp helements
    have hpaired := h.of_pull hmade hpull hother htail
    exact Or.inr ⟨value, part, after, another, rfl, rfl, hvalue,
      ⟨hpaired, sheds_pull ⟨hmade.1, hcount⟩ hpull, sheds_pull trivial hother⟩, htotal, htotal'⟩

end Paired

variable {α β : Type}

/-- Whether two ways to make something from the store make the same thing, which passes a test, and
take elements out of paired streams before `count` only. At most so many elements may be left in
either store. -/
def MadeSame (kinds : Value.Kind → Bool) (pairing : Pairing) (count limit limit' : Nat)
    (test : α → Prop) (x y : StateM Store α) : Prop :=
  ∀ ⦃store image⦄, Paired kinds pairing count store image → totalRemaining store ≤ limit →
    totalRemaining image ≤ limit' →
    (y.run image).1 = (x.run store).1 ∧ test (x.run store).1 ∧
      Shed kinds pairing count store image (x.run store).2 (y.run image).2

section MadeSame

variable {limit limit' : Nat} {F G : Handle .stream → StateM Store (List Value)}

/-- What is made of nothing is the same. -/
theorem MadeSame.pure {test : α → Prop} {a : α} (h : test a) :
    MadeSame kinds pairing count limit limit' test (Pure.pure a) (Pure.pure a) :=
  fun _ _ hpaired _ _ => ⟨rfl, h, .refl hpaired⟩

/-- What is made in two parts is the same if each part is. -/
theorem MadeSame.bind {test : α → Prop} {test' : β → Prop} {x y : StateM Store α}
    {f g : α → StateM Store β} (h : MadeSame kinds pairing count limit limit' test x y)
    (hnext : ∀ a, test a → MadeSame kinds pairing count limit limit' test' (f a) (g a)) :
    MadeSame kinds pairing count limit limit' test' (x >>= f) (y >>= g) := by
  intro store image hpaired hlimit hlimit'
  obtain ⟨hsame, htest, hshed⟩ := h hpaired hlimit hlimit'
  obtain ⟨hsame', htest', hlater⟩ := hnext _ htest hshed.paired
    (Nat.le_trans hshed.left.fewer hlimit) (Nat.le_trans hshed.right.fewer hlimit')
  have hrun : (y >>= g).run image = (g (y.run image).1).run (y.run image).2 := rfl
  rw [hrun, hsame]
  exact ⟨hsame', htest', hshed.trans hlater⟩

/-- Flattening items that are the same up to names makes the same. -/
theorem madeSame_flattenItemsWith {items parts : List Value}
    (h : List.Forall₂ (fun item part => MadeSame kinds pairing count limit limit'
      (Value.OfKinds kinds) (flattenWith F item) (flattenWith G part)) items parts) :
    MadeSame kinds pairing count limit limit' (∀ item ∈ ·, item.OfKinds kinds)
      (flattenItemsWith F items) (flattenItemsWith G parts) := by
  induction h with
  | nil => exact .pure (List.forall_mem_nil _)
  | cons hitem _ ih =>
    exact hitem.bind fun flat hflat => ih.bind fun flats hflats =>
      .pure (List.forall_mem_cons.mpr ⟨hflat, hflats⟩)

/-- Flattening entries of mappings that are the same up to names makes the same. -/
theorem madeSame_flattenMappingWith {entries parts : List (String × Value)}
    (h : List.Forall₂ (OnEntries fun value part => MadeSame kinds pairing count limit limit'
      (Value.OfKinds kinds) (flattenWith F value) (flattenWith G part)) entries parts) :
    MadeSame kinds pairing count limit limit' (∀ entry ∈ ·, entry.2.OfKinds kinds)
      (flattenMappingWith F entries) (flattenMappingWith G parts) := by
  induction h with
  | nil => exact .pure (List.forall_mem_nil _)
  | cons hentry _ ih =>
    cases hentry with
    | intro hvalue =>
      exact hvalue.bind fun flat hflat => ih.bind fun flats hflats =>
        .pure (List.forall_mem_cons.mpr ⟨hflat, hflats⟩)

/-- Values that are the same up to the names of streams have the same flat form. -/
theorem madeSame_flattenWith
    (hstream : ∀ stream other, pairing.Twin stream other → stream.index < count →
      MadeSame kinds pairing count limit limit' (∀ item ∈ ·, item.OfKinds kinds) (F stream)
        (G other))
    {value part : Value} (h : Renamed kinds pairing count value part) :
    MadeSame kinds pairing count limit limit' (Value.OfKinds kinds) (flattenWith F value)
      (flattenWith G part) := by
  cases h with
  | scalar hscalar hkind =>
    have hkinds : value.OfKinds kinds := .scalar hscalar hkind
    have hinert := Value.isInert_of_isDocument hkinds.isDocument
    rw [flattenWith_of_isInert hinert, flattenWith_of_isInert hinert]
    exact .pure hkinds
  | stream htwin hcount =>
    exact (hstream _ _ htwin hcount).bind fun items hitems => .pure (.sequence hitems)
  | sequence hitems =>
    refine (madeSame_flattenItemsWith (forall₂_of_mem hitems fun item hmem part hitem => ?_)).bind
      fun items hitems => .pure (.sequence hitems)
    have hlt := Value.sizeOf_lt_of_mem_sequence hmem
    exact madeSame_flattenWith hstream hitem
  | mapping hentries =>
    refine (madeSame_flattenMappingWith (forall₂_onEntries_of_mem hentries
      fun entry hmem part hentry => ?_)).bind fun entries hentries => .pure (.mapping hentries)
    have hlt := Value.sizeOf_lt_of_mem_mapping hmem
    exact madeSame_flattenWith hstream hentry
  | dict hdict =>
    have hinert := Value.isInert_of_isDocument hdict.isDocument
    rw [flattenWith_of_isInert hinert, flattenWith_of_isInert hinert]
    exact .pure hdict
termination_by sizeOf value
decreasing_by all_goals assumption

/-- Pulling and flattening elements, while there may be one element more to begin with. -/
theorem madeSame_flattenPulled {stream other : Handle .stream} (htwin : pairing.Twin stream other)
    (hcount : stream.index < count) {f g : Value → StateM Store Value}
    (h : ∀ value part, Renamed kinds pairing stream.index value part →
      MadeSame kinds pairing count limit limit' (Value.OfKinds kinds) (f value) (g part))
    (pulls : Nat) :
    MadeSame kinds pairing count (limit + 1) (limit' + 1) (∀ item ∈ ·, item.OfKinds kinds)
      (flattenPulled f stream pulls) (flattenPulled g other pulls) := by
  induction pulls with
  | zero => exact .pure (List.forall_mem_nil _)
  | succ pulls ih =>
    intro store image hpaired hlimit hlimit'
    rcases hpaired.pull htwin hcount with ⟨hpull, hother⟩ |
      ⟨value, part, after, another, hpull, hother, hvalue, hpulled, htotal, htotal'⟩
    · rw [run_flattenPulled_of_none hpull, run_flattenPulled_of_none hother]
      exact ⟨rfl, List.forall_mem_nil _, .refl hpaired⟩
    · rw [run_flattenPulled_of_some hpull, run_flattenPulled_of_some hother]
      obtain ⟨hsame, hflat, hfirst⟩ :=
        h value part hvalue hpulled.paired (by omega) (by omega)
      have hfewer := hfirst.left.fewer
      have hfewer' := hfirst.right.fewer
      obtain ⟨hsame', hflats, hsecond⟩ := ih hfirst.paired (by omega) (by omega)
      refine ⟨?_, List.forall_mem_cons.mpr ⟨hflat, hflats⟩,
        (hpulled.trans hfirst).trans hsecond⟩
      rw [hsame, hsame']

/-- A stream that has run out flattens to nothing at any depth. -/
theorem run_flattenStream_of_nil {store : Store} {stream : Handle .stream}
    (h : store.remaining stream = []) (depth : Nat) :
    (flattenStream depth stream).run store = ([], store) := by
  cases depth with
  | zero => rfl
  | succ depth =>
    rw [run_flattenStream_succ, h]
    rfl

/-- Flattening streams that belong together makes the same, by induction on the depth. -/
theorem madeSame_flattenStream (depth depth' : Nat) {stream other : Handle .stream}
    (htwin : pairing.Twin stream other) (hcount : stream.index < count) :
    MadeSame kinds pairing count depth depth' (∀ item ∈ ·, item.OfKinds kinds)
      (flattenStream depth stream) (flattenStream depth' other) := by
  induction depth generalizing depth' stream other with
  | zero =>
    intro store image hpaired hlimit hlimit'
    have hnil := remaining_eq_nil (Nat.le_zero.mp hlimit) stream
    have hnil' := (hpaired.twin_nil_iff htwin hcount).mp hnil
    rw [run_flattenStream_of_nil hnil, run_flattenStream_of_nil hnil']
    exact ⟨rfl, List.forall_mem_nil _, .refl hpaired⟩
  | succ depth ih =>
    intro store image hpaired hlimit hlimit'
    cases depth' with
    | zero =>
      have hnil' := remaining_eq_nil (Nat.le_zero.mp hlimit') other
      have hnil := (hpaired.twin_nil_iff htwin hcount).mpr hnil'
      rw [run_flattenStream_of_nil hnil, run_flattenStream_of_nil hnil']
      exact ⟨rfl, List.forall_mem_nil _, .refl hpaired⟩
    | succ depth' =>
      rw [run_flattenStream_succ, run_flattenStream_succ,
        ← (hpaired.twin htwin hcount).length_eq]
      refine madeSame_flattenPulled htwin hcount (fun value part hvalue => ?_) _ hpaired hlimit
        hlimit'
      exact madeSame_flattenWith (fun stream other htwin hcount => ih depth' htwin hcount)
        (hvalue.mono (Nat.le_of_lt hcount))

/-- Flattening at any depths that are enough gives the same. -/
theorem madeSame_flatten {value part : Value} (h : Renamed kinds pairing count value part)
    (depth depth' : Nat) :
    MadeSame kinds pairing count depth depth' (Value.OfKinds kinds)
      (flattenWith (flattenStream depth) value) (flattenWith (flattenStream depth') part) :=
  madeSame_flattenWith (fun _ _ htwin hcount => madeSame_flattenStream _ _ htwin hcount) h

end MadeSame

end Store

end Sluice
