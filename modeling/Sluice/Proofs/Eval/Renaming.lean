import Sluice.Proofs.Eval.Abreast
import Sluice.Proofs.Eval.Transparency

/-!
# The names of streams do not matter

Every node does the same on two stores that hold the same streams under other names
(`Evaluator.ignoresNames_apply`). The elements of a stream are older than it is, and each element of
a stream is taken once, so on either side the depth of fanning out and of carrying a key is enough.
-/

namespace Sluice

open Sluice.Filter Sluice.Store

variable {kinds : Value.Kind → Bool} {pairing : Pairing}

namespace Evaluator

variable {evaluator : Evaluator}

section Spread

variable {start : Store} {stream other : Handle .stream} {f g : Value → Action Value}
  (I : Store → Store → Prop) (htwin : pairing.Twin stream other)
  (hcount : stream.index < start.streams.size)
  (hf : ∀ middle between next beyond value part, I middle between →
    next.totalRemaining + 1 = middle.totalRemaining →
    beyond.totalRemaining + 1 = between.totalRemaining →
    Level evaluator.context kinds pairing next beyond →
    start.streams.size ≤ next.streams.size → Renamed kinds pairing stream.index value part →
    Abreast evaluator kinds pairing next beyond (f value) (g part) fun a b after image =>
      Same kinds pairing a b after image ∧ I after image)

include htwin hcount hf

/-- Going on with the elements that are left, where the results so far come newest first. -/
theorem outcomes_spreadResult (limit : Nat) {results parts : List Value} {middle between : Store}
    (hI : I middle between)
    (hadvances : Advances evaluator.context kinds pairing start middle between)
    (hresults : List.Forall₂ (Renamed kinds pairing middle.streams.size) results parts) :
    Outcomes evaluator kinds pairing start
      (fun a b after image => Same kinds pairing a b after image ∧ I after image)
      (spreadResult ((Store.mapEachWithin stream (fun value => (f value).run) limit results :
        StateT Store Option _) middle))
      (spreadResult ((Store.mapEachWithin other (fun value => (g value).run) limit parts :
        StateT Store Option _) between)) := by
  induction limit generalizing results parts middle between with
  | zero => exact .ok hadvances ⟨.sequence (List.rel_reverse hresults), hI⟩
  | succ limit ih =>
    rw [Store.run_mapEachWithin_succ, Store.run_mapEachWithin_succ]
    have hlt := Nat.lt_of_lt_of_le hcount hadvances.size_le
    rcases hadvances.paired.pull htwin hlt with ⟨hpull, hother⟩ |
      ⟨value, part, next, beyond, hpull, hother, hvalue, hshed, htotal, htotal'⟩
    · rw [hpull, hother]
      exact .ok hadvances ⟨.sequence (List.rel_reverse hresults), hI⟩
    · have hnext := hadvances.toLevel.shed hshed
      have hresult := hf middle between next beyond value part hI htotal htotal' hnext.toLevel
        (Nat.le_trans hadvances.size_le hnext.size_le) hvalue
      rw [hpull, hother]
      rcases hresult.outcome with ⟨a, b, after, image, hx, hy, hlater, hsame, hafter⟩ |
        ⟨error, after, image, hx, hy, herror, hsteady⟩
      · simp only [Store.mapRest, hx, hy]
        have hgrown := Nat.le_trans hnext.size_le hlater.size_le
        have hresults := hresults.imp fun _ _ h => h.mono hgrown
        exact ih hafter ((hadvances.trans hnext).trans hlater) (.cons hsame hresults)
      · simp only [Store.mapRest, hx, hy]
        exact .error herror (hsteady.releaseAll _)

/-- Applying actions abreast to each element of paired streams keeps them abreast. -/
theorem abreast_spread {image : Store}
    (hlevel : Level evaluator.context kinds pairing start image) (hstart : I start image) :
    Abreast evaluator kinds pairing start image (spread stream f) (spread other g)
      fun a b after image => Same kinds pairing a b after image ∧ I after image := by
  unfold Abreast
  rw [run_spread, run_spread, Store.run_mapEach, Store.run_mapEach,
    (hlevel.paired.twin htwin hcount).length_eq]
  exact outcomes_spreadResult I htwin hcount hf _ hstart hlevel.advances .nil

end Spread

/-- Whether an operation runs abreast on inputs that are the same up to the names of streams. -/
def IgnoresNames (evaluator : Evaluator) (kinds : Value.Kind → Bool) (pairing : Pairing)
    (f : Value → Action Value) : Prop :=
  ∀ ⦃store image value part⦄, Level evaluator.context kinds pairing store image →
    Renamed kinds pairing store.streams.size value part →
    Abreast evaluator kinds pairing store image (f value) (f part) (Same kinds pairing)

/-- The depth of fanning out is enough on both sides. -/
theorem abreast_fanOut {f : Value → Action Value}
    (hf : IgnoresNames evaluator kinds pairing f) {depth reach : Nat} {store image : Store}
    {value part : Value} (hlevel : Level evaluator.context kinds pairing store image)
    (hvalue : Renamed kinds pairing store.streams.size value part)
    (hdepth : ∀ stream, value = .stream stream → stream.index < depth)
    (hreach : ∀ stream, part = .stream stream → stream.index < reach) :
    Abreast evaluator kinds pairing store image (evaluator.fanOut f depth value)
      (evaluator.fanOut f reach part) (Same kinds pairing) := by
  induction depth generalizing reach store image value part with
  | zero =>
    rcases hvalue.stream_or with ⟨stream, _, rfl, _⟩ | ⟨hne, hne'⟩
    · exact absurd (hdepth stream rfl) (Nat.not_lt_zero _)
    · rw [fanOut_of_ne_stream _ hne, fanOut_of_ne_stream _ hne']
      exact abreast_check_bind hlevel (hf hlevel hvalue)
  | succ depth ih =>
    rcases hvalue.stream_or with ⟨stream, other, rfl, rfl, htwin, hcount⟩ | ⟨hne, hne'⟩
    · have hother := hreach other rfl
      obtain ⟨reach, rfl⟩ := Nat.exists_eq_succ_of_ne_zero (Nat.ne_zero_of_lt hother)
      refine abreast_check_bind hlevel ?_
      refine (abreast_spread (fun _ _ => True) htwin hcount ?_ hlevel trivial).mono
        fun _ _ _ _ _ h => h.1
      intro middle between next beyond element image _ _ _ hnext hsize helement
      have hstream := hdepth stream rfl
      have hkept := helement.mono (Nat.le_trans (Nat.le_of_lt hcount) hsize)
      refine (ih hnext hkept ?_ ?_).mono fun _ _ _ _ _ h => ⟨h, trivial⟩
      · rintro inner rfl
        cases helement with
        | scalar hscalar => cases hscalar
        | stream _ holder => omega
      · rintro inner rfl
        cases helement with
        | scalar hscalar => cases hscalar
        | stream hinner holder =>
          have hlt := hinner.index_lt htwin holder
          omega
    · rw [fanOut_of_ne_stream _ hne, fanOut_of_ne_stream _ hne']
      exact abreast_check_bind hlevel (hf hlevel hvalue)

/-- An operation handed down as deep as streams go runs abreast if what is handed down does. -/
theorem ignoresNames_pointwise {f : Value → Action Value}
    (hf : IgnoresNames evaluator kinds pairing f) :
    IgnoresNames evaluator kinds pairing (evaluator.pointwise f) := by
  intro store image value part hlevel hvalue
  unfold Abreast
  rw [run_pointwise, run_pointwise]
  refine abreast_fanOut hf hlevel hvalue ?_ ?_
  · rintro stream rfl
    cases hvalue with
    | scalar hscalar => cases hscalar
    | stream _ hcount => exact Nat.lt_succ_of_lt hcount
  · rintro other rfl
    cases hvalue with
    | scalar hscalar => cases hscalar
    | stream htwin hcount => exact Nat.lt_succ_of_lt (hlevel.index_lt htwin hcount)

/-- Whether the results of asking for a key are the same up to names. Elements are taken out of
streams but none put in. -/
structure AskedSame (kinds : Value.Kind → Bool) (pairing : Pairing) (store image : Store)
    (a b : Value) (after other : Store) : Prop where
  same : Same kinds pairing a b after other
  fewer : after.totalRemaining ≤ store.totalRemaining
  fewer' : other.totalRemaining ≤ image.totalRemaining

/-- Whether asking a value for a key at a depth runs abreast with asking any value that is the same
up to names, wherever both may carry the key deep enough. -/
def AskAbreast (evaluator : Evaluator) (kinds : Value.Kind → Bool) (pairing : Pairing)
    (name : String) (depth : Nat) (value : Value) : Prop :=
  ∀ ⦃reach part store image⦄, Level evaluator.context kinds pairing store image →
    Renamed kinds pairing store.streams.size value part → store.totalRemaining + 1 ≤ depth →
    image.totalRemaining + 1 ≤ reach →
    Abreast evaluator kinds pairing store image (evaluator.selectKeyWithin name depth value)
      (evaluator.selectKeyWithin name reach part) (AskedSame kinds pairing store image)

/-- Collecting runs abreast if what gives the items does. -/
theorem abreast_collect {f g : Value → Action Value} {total total' : Nat} {store image : Store}
    {items parts values others : List Value}
    (hlevel : Level evaluator.context kinds pairing store image)
    (hitems : List.Forall₂ (Renamed kinds pairing store.streams.size) items parts)
    (hvalues : List.Forall₂ (Renamed kinds pairing store.streams.size) values others)
    (htotal : store.totalRemaining ≤ total) (htotal' : image.totalRemaining ≤ total')
    (hf : ∀ item ∈ items, ∀ part store image, Level evaluator.context kinds pairing store image →
      Renamed kinds pairing store.streams.size item part → store.totalRemaining ≤ total →
      image.totalRemaining ≤ total' →
      Abreast evaluator kinds pairing store image (f item) (g part)
        (AskedSame kinds pairing store image)) :
    Abreast evaluator kinds pairing store image (selectKeyWithin.collect f items values)
      (selectKeyWithin.collect g parts others) fun results outcomes =>
        AskedSame kinds pairing store image (.sequence results) (.sequence outcomes) := by
  induction items generalizing parts values others store image with
  | nil =>
    cases hitems
    exact .pure hlevel ⟨.sequence (List.rel_reverse hvalues), Nat.le_refl _, Nat.le_refl _⟩
  | cons item rest ih =>
    obtain ⟨part, _, hitem, hrest, rfl⟩ := List.forall₂_cons_left_iff.mp hitems
    have hasked := hf item List.mem_cons_self part store image hlevel hitem htotal htotal'
    refine .bind (hasked.orRelease _ _) fun a b middle between hadvances h => ?_
    have hgrown {xs ys : List Value}
        (hxs : List.Forall₂ (Renamed kinds pairing store.streams.size) xs ys) :
        List.Forall₂ (Renamed kinds pairing middle.streams.size) xs ys :=
      hxs.imp fun _ _ h => h.mono hadvances.size_le
    have hcollect := ih hadvances.toLevel (hgrown hrest) (.cons h.same (hgrown hvalues))
      (Nat.le_trans h.fewer htotal) (Nat.le_trans h.fewer' htotal')
      fun other hmem => hf other (List.mem_cons_of_mem _ hmem)
    refine hcollect.mono fun _ _ _ _ _ hafter => ?_
    exact ⟨hafter.same, Nat.le_trans hafter.fewer h.fewer, Nat.le_trans hafter.fewer' h.fewer'⟩

section Asking

variable (name : String) {depth reach : Nat} {store image : Store}
  (hlevel : Level evaluator.context kinds pairing store image)

include hlevel

/-- Asking the items of a sequence for a key runs abreast if asking each item does. -/
theorem abreast_askSequence {items parts : List Value}
    (hitem : ∀ item ∈ items, AskAbreast evaluator kinds pairing name depth item)
    (hitems : List.Forall₂ (Renamed kinds pairing store.streams.size) items parts)
    (hdepth : store.totalRemaining + 1 ≤ depth) (hreach : image.totalRemaining + 1 ≤ reach) :
    Abreast evaluator kinds pairing store image
      (evaluator.selectKeyWithin name depth (.sequence items))
      (evaluator.selectKeyWithin name reach (.sequence parts))
      (AskedSame kinds pairing store image) := by
  rw [selectKeyWithin_sequence, selectKeyWithin_sequence]
  refine abreast_check_bind hlevel ?_
  refine .bind (abreast_collect hlevel hitems .nil (Nat.le_refl _) (Nat.le_refl _) ?_)
    fun _ _ _ _ hadvances h => .pure hadvances.toLevel h
  intro item hmem part later another hlevel hpart htotal htotal'
  exact hitem item hmem hlevel hpart (by omega) (by omega)

/-- An element that has been pulled is left with enough depth on both sides. -/
theorem abreast_askStream {stream other : Handle .stream}
    (hdeeper : ∀ deeper, depth = deeper + 1 → ∀ value,
      AskAbreast evaluator kinds pairing name deeper value)
    (htwin : pairing.Twin stream other) (hcount : stream.index < store.streams.size)
    (hdepth : store.totalRemaining + 1 ≤ depth) (hreach : image.totalRemaining + 1 ≤ reach) :
    Abreast evaluator kinds pairing store image
      (evaluator.selectKeyWithin name depth (.stream stream))
      (evaluator.selectKeyWithin name reach (.stream other))
      (AskedSame kinds pairing store image) := by
  obtain ⟨deeper, rfl⟩ : ∃ n, depth = n + 1 := ⟨depth - 1, by omega⟩
  obtain ⟨reach, rfl⟩ : ∃ n, reach = n + 1 := ⟨reach - 1, by omega⟩
  rw [selectKeyWithin_stream, selectKeyWithin_stream]
  refine abreast_check_bind hlevel ?_
  refine (abreast_spread (fun after other => after.totalRemaining ≤ store.totalRemaining ∧
    other.totalRemaining ≤ image.totalRemaining) htwin hcount ?_ hlevel
    ⟨Nat.le_refl _, Nat.le_refl _⟩).mono fun _ _ _ _ _ h => ⟨h.1, h.2.1, h.2.2⟩
  rintro middle between next beyond element part ⟨htotal, htotal'⟩ hpulled hpulled' hnext hsize
    hpart
  have hkept := hpart.mono (Nat.le_trans (Nat.le_of_lt hcount) hsize)
  have hask := hdeeper deeper rfl element hnext hkept (by omega) (by omega : _ ≤ reach)
  refine hask.mono fun _ _ _ _ _ h => ⟨h.same, ?_, ?_⟩
  · have hfewer := h.fewer
    omega
  · have hfewer := h.fewer'
    omega

/-- Asking what is neither a sequence nor a stream for a key runs abreast. -/
theorem abreast_askOther (hkinds : Value.ClosedKinds kinds) {value part : Value}
    (hvalue : Renamed kinds pairing store.streams.size value part)
    (hsequence : ∀ items, value ≠ .sequence items)
    (hstream : (∀ stream, value ≠ .stream stream) ∧ ∀ stream, part ≠ .stream stream) :
    Abreast evaluator kinds pairing store image (evaluator.selectKeyWithin name depth value)
      (evaluator.selectKeyWithin name reach part) (AskedSame kinds pairing store image) := by
  rw [selectKeyWithin_of_ne name depth hsequence hstream.1,
    selectKeyWithin_of_ne name reach (hvalue.ne_sequence hsequence) hstream.2]
  refine abreast_check_bind hlevel (abreast_resolve_bind hvalue ?_)
  rw [askTarget_of_ne name _ hsequence, askTarget_of_ne name _ (hvalue.ne_sequence hsequence)]
  refine (abreast_selectEntry hkinds hlevel hvalue name).mono ?_
  rintro _ _ _ _ _ ⟨hsame, rfl, rfl⟩
  exact ⟨hsame, Nat.le_refl _, Nat.le_refl _⟩

end Asking

/-- Asking a value for a key runs abreast with asking one that is the same up to names. -/
theorem abreast_selectKeyWithin (hkinds : Value.ClosedKinds kinds) (name : String)
    (depth : Nat) (value : Value) : AskAbreast evaluator kinds pairing name depth value := by
  induction depth, value using ask_induction with
  | sequence depth items ih =>
    intro reach part store image hlevel hvalue hdepth hreach
    cases hvalue with
    | scalar hscalar => cases hscalar
    | sequence hitems => exact abreast_askSequence name hlevel ih hitems hdepth hreach
  | stream depth stream ih =>
    intro reach part store image hlevel hvalue hdepth hreach
    cases hvalue with
    | scalar hscalar => cases hscalar
    | stream htwin hcount => exact abreast_askStream name hlevel ih htwin hcount hdepth hreach
  | other depth value hsequence hstream ih =>
    intro reach part store image hlevel hvalue hdepth hreach
    rcases hvalue.stream_or with ⟨stream, _, rfl, _⟩ | hne
    · exact absurd rfl (hstream stream)
    · exact abreast_askOther name hlevel hkinds hvalue hsequence hne

/-- Selecting a key runs abreast on inputs that are the same up to the names of streams. -/
theorem ignoresNames_selectKey (hkinds : Value.ClosedKinds kinds) (name : String) :
    IgnoresNames evaluator kinds pairing (evaluator.selectKey name) := by
  intro store image value part hlevel hvalue
  have hdepth (store : Store) : store.totalRemaining + 1 ≤
      (store.links.size + 1) * (store.totalRemaining + 1) + evaluator.budget :=
    Nat.le_add_right_of_le (Nat.le_mul_of_pos_left _ (Nat.succ_pos _))
  have hask (depth : Nat) : AskAbreast evaluator kinds pairing name depth value :=
    abreast_selectKeyWithin hkinds name depth value
  unfold Abreast
  rw [run_selectKey, run_selectKey]
  exact (hask _ hlevel hvalue (hdepth store) (hdepth image)).mono fun _ _ _ _ _ h => h.same

mutual

/-- Every node runs abreast on inputs that are the same up to the names of streams. -/
theorem ignoresNames_apply (hkinds : Value.ClosedKinds kinds) (node : Node) :
    IgnoresNames evaluator kinds pairing (evaluator.apply node) := by
  match node with
  | .identity =>
    intro store image value part hlevel hvalue
    exact abreast_check_bind hlevel (.pure hlevel hvalue)
  | .chain steps =>
    intro store image value part hlevel hvalue
    exact abreast_check_bind hlevel (ignoresNames_thread hkinds steps hlevel hvalue)
  | .pipeline stages =>
    intro store image value part hlevel hvalue
    exact abreast_check_bind hlevel (ignoresNames_thread hkinds stages hlevel hvalue)
  | .iterate =>
    intro store image value part hlevel hvalue
    exact abreast_check_bind hlevel (abreast_iterateAll hlevel hvalue)
  | .text s =>
    exact ignoresNames_pointwise fun _ _ _ _ hlevel _ =>
      .pure hlevel (.scalar rfl hkinds.text)
  | .number x =>
    exact ignoresNames_pointwise fun _ _ _ _ hlevel _ =>
      .pure hlevel (.scalar rfl hkinds.float)
  | .length =>
    exact ignoresNames_pointwise fun _ _ _ _ hlevel hvalue =>
      abreast_length hkinds hlevel hvalue
  | .key name => exact ignoresNames_selectKey hkinds name
  | .index position =>
    exact ignoresNames_pointwise fun _ _ _ _ hlevel hvalue =>
      abreast_selectIndex hkinds hlevel hvalue position
  | .range bounds =>
    exact ignoresNames_pointwise fun _ _ _ _ hlevel hvalue =>
      abreast_selectRange hkinds hlevel hvalue bounds
  | .binary left operator right =>
    refine ignoresNames_pointwise fun store image value part hlevel hvalue => ?_
    have hleft := ignoresNames_apply hkinds left hlevel hvalue
    refine .bind hleft fun a a' middle between hfirst ha => ?_
    have hvalue := hvalue.mono hfirst.size_le
    have hright := ignoresNames_apply hkinds right hfirst.toLevel hvalue
    refine .bind (hright.orRelease _ _) fun b b' after other hsecond hb => ?_
    have ha := ha.mono hsecond.size_le
    exact (abreast_arithmetic hkinds hsecond.toLevel ha operator hb).orRelease _ _
  | .array items =>
    refine ignoresNames_pointwise fun store image value part hlevel hvalue => ?_
    refine .bind (abreast_applyAll hkinds items hlevel hvalue .nil) fun _ _ _ _ hadvances h => ?_
    exact .pure hadvances.toLevel (.sequence h)
  | .object entries =>
    refine ignoresNames_pointwise fun store image value part hlevel hvalue => ?_
    refine .bind (abreast_applyEntries hkinds entries hlevel hvalue .nil)
      fun _ _ _ _ hadvances h => ?_
    exact .pure hadvances.toLevel (.mapping (forall₂_ofList h))
termination_by structural node

/-- Stages run abreast, one after the other. -/
theorem ignoresNames_thread (hkinds : Value.ClosedKinds kinds) (nodes : List Node) :
    IgnoresNames evaluator kinds pairing (evaluator.thread nodes) := by
  match nodes with
  | [] => exact fun _ _ _ _ hlevel hvalue => .pure hlevel hvalue
  | node :: rest =>
    intro store image value part hlevel hvalue
    refine .bind (ignoresNames_apply hkinds node hlevel hvalue) fun _ _ _ _ hadvances h => ?_
    exact ignoresNames_thread hkinds rest hadvances.toLevel h
termination_by structural nodes

/-- The parts of an array run abreast. -/
theorem abreast_applyAll (hkinds : Value.ClosedKinds kinds) (nodes : List Node)
    {store image : Store} {value part : Value} {values parts : List Value}
    (hlevel : Level evaluator.context kinds pairing store image)
    (hvalue : Renamed kinds pairing store.streams.size value part)
    (hvalues : List.Forall₂ (Renamed kinds pairing store.streams.size) values parts) :
    Abreast evaluator kinds pairing store image (evaluator.applyAll nodes value values)
      (evaluator.applyAll nodes part parts) fun results outcomes after _ =>
        List.Forall₂ (Renamed kinds pairing after.streams.size) results outcomes := by
  match nodes with
  | [] => exact .pure hlevel (List.rel_reverse hvalues)
  | node :: rest =>
    have hnode := ignoresNames_apply hkinds node hlevel hvalue
    refine .bind (hnode.orRelease _ _) fun _ _ _ _ hadvances h => ?_
    have hvalues := hvalues.imp fun _ _ h => h.mono hadvances.size_le
    exact abreast_applyAll hkinds rest hadvances.toLevel (hvalue.mono hadvances.size_le)
      (.cons h hvalues)
termination_by structural nodes

/-- The parts of an object run abreast. -/
theorem abreast_applyEntries (hkinds : Value.ClosedKinds kinds) (nodes : List (String × Node))
    {store image : Store} {value part : Value} {values parts : List (String × Value)}
    (hlevel : Level evaluator.context kinds pairing store image)
    (hvalue : Renamed kinds pairing store.streams.size value part)
    (hvalues : List.Forall₂ (OnEntries (Renamed kinds pairing store.streams.size)) values parts) :
    Abreast evaluator kinds pairing store image (evaluator.applyEntries nodes value values)
      (evaluator.applyEntries nodes part parts) fun results outcomes after _ =>
        List.Forall₂ (OnEntries (Renamed kinds pairing after.streams.size)) results outcomes := by
  match nodes with
  | [] => exact .pure hlevel (List.rel_reverse hvalues)
  | (key, node) :: rest =>
    have hnode := ignoresNames_apply hkinds node hlevel hvalue
    refine .bind (hnode.orRelease _ _) fun _ _ _ _ hadvances h => ?_
    have hvalues := forall₂_onEntries_of_mem hvalues fun _ _ _ h => h.mono hadvances.size_le
    exact abreast_applyEntries hkinds rest hadvances.toLevel (hvalue.mono hadvances.size_le)
      (.cons ⟨h⟩ hvalues)
termination_by structural nodes

end

end Evaluator

end Sluice
