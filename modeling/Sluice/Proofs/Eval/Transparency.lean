import Sluice.Proofs.Eval.Lockstep
import Sluice.Proofs.Eval.Termination
import Sluice.Proofs.Value.Document

/-!
# Links do not show

A filter makes of a document with parts behind links what it makes of the document itself: both runs
end in the same way, and what they hand out has the same JSON (`run_of_folded`).

On both sides a key goes the same way, but it is carried deeper where links lead to sequences. The
links that are met inside one another lead to smaller and smaller documents
(`Table.card_within_lt`), which bounds how much deeper.
-/

namespace Sluice

open Sluice.Filter Sluice.Store

variable {links : Table .link Link} {base : Nat}

/-- Whether an operation runs in lockstep on mirrored inputs. -/
def Transparent (links : Table .link Link) (base : Nat) (f : Value → Action Value) : Prop :=
  ∀ ⦃store image value part⦄, Mirror links base store image →
    Mirrors links base store.streams.size value part →
    Lockstep links base store image (f value) (f part) (Mirrored links base)

namespace Evaluator

variable {evaluator : Evaluator}

section Spread

variable {store image : Store} {stream : Handle .stream} {f g : Value → Action Value}
  (I : Store → Prop) (hbase : base ≤ stream.index)
  (hf : ∀ middle next between value part, I middle →
    next.totalRemaining + 1 = middle.totalRemaining → Mirror links base next between →
    store.streams.size ≤ next.streams.size → Mirrors links base stream.index value part →
    Lockstep links base next between (f value) (g part) fun a b after =>
      Mirrored links base a b after ∧ I after)

include hbase hf

/-- Going on with the elements that are left keeps the stores side by side, and an invariant that
the actions keep. The results come newest first. -/
theorem exists_spreadResult (limit : Nat) {results parts : List Value} {middle between : Store}
    (hI : I middle) (hproceeds : Proceeds links base store middle between)
    (hresults : List.Forall₂ (Mirrors links base middle.streams.size) results parts) :
    ∃ result outcome after other,
      spreadResult ((Store.mapEachWithin stream (fun value => (f value).run) limit results :
        StateT Store Option _) middle) = some (result, after) ∧
      spreadResult ((Store.mapEachWithin stream (fun value => (g value).run) limit parts :
        StateT Store Option _) between) = some (outcome, other) ∧
      Proceeds links base store after other ∧
      Alike (fun a b => Mirrored links base a b after ∧ I after) result outcome := by
  induction limit generalizing results parts middle between with
  | zero =>
    exact ⟨_, _, _, _, rfl, rfl, hproceeds, .ok ⟨.sequence (List.rel_reverse hresults), hI⟩⟩
  | succ limit ih =>
    rw [Store.run_mapEachWithin_succ, Store.run_mapEachWithin_succ]
    rcases hproceeds.toMirror.pull hbase with ⟨hpull, hother⟩ |
      ⟨value, part, next, another, hpull, hother, hvalue, hnext, hsize, htotal⟩
    · rw [hpull, hother]
      exact ⟨_, _, _, _, rfl, rfl, hproceeds, .ok ⟨.sequence (List.rel_reverse hresults), hI⟩⟩
    · have hle : store.streams.size ≤ next.streams.size := by
        rw [hsize]
        exact hproceeds.size_le
      obtain ⟨_, _, after, other, hx, hy, hlater, halike⟩ :=
        hf middle next another value part hI htotal hnext hle hvalue
      have hgrown : middle.streams.size ≤ after.streams.size := hsize ▸ hlater.size_le
      have hresults := hresults.imp fun _ _ h => h.mono hgrown
      rw [hpull, hother]
      simp only [Store.mapRest, hx, hy]
      cases halike with
      | error error =>
        have hreleased := together_releaseAll (List.rel_reverse hresults) hlater.toMirror
        exact ⟨_, _, _, _, rfl, rfl, (hreleased.after hlater.size_le).after hle, .error error⟩
      | ok hresult => exact ih hresult.2 (hlater.after hle) (.cons hresult.1 hresults)

/-- Applying actions that run in lockstep to each element of a stream runs in lockstep. -/
theorem lockstep_spread (hmirror : Mirror links base store image) (hstart : I store) :
    Lockstep links base store image (spread stream f) (spread stream g) fun a b after =>
      Mirrored links base a b after ∧ I after := by
  unfold Lockstep
  rw [run_spread, run_spread, Store.run_mapEach, Store.run_mapEach, hmirror.length_eq stream]
  exact exists_spreadResult I hbase hf _ hstart (.refl hmirror) .nil

end Spread

/-- What is no stream is not handed down into. -/
theorem fanOut_of_ne_stream {f : Value → Action Value} (depth : Nat) {input : Value}
    (h : ∀ stream, input ≠ .stream stream) :
    evaluator.fanOut f depth input = evaluator.check >>= fun _ => f input := by
  cases depth <;> cases input <;> first | rfl | exact absurd rfl (h _)

/-- An input that is no stream is handed to the operation once the context has been asked. -/
theorem run_pointwise_of_ne_stream {f : Value → Action Value} {input : Value}
    (h : ∀ stream, input ≠ .stream stream) (store : Store) :
    (evaluator.pointwise f input).run store =
      (evaluator.check >>= fun _ => f input).run store := by
  rw [run_pointwise, fanOut_of_ne_stream _ h]

/-- The depth of fanning out is enough on both sides: the elements of a stream are older than it
is. -/
theorem lockstep_fanOut (hcontext : evaluator.context = .background) {f : Value → Action Value}
    (hf : Transparent links base f) {depth : Nat} {store image : Store} {value part : Value}
    (hmirror : Mirror links base store image)
    (hvalue : Mirrors links base store.streams.size value part)
    (hdepth : ∀ stream, value = .stream stream → stream.index < depth) :
    Lockstep links base store image (evaluator.fanOut f depth value)
      (evaluator.fanOut f depth part) (Mirrored links base) := by
  induction depth generalizing store image value part with
  | zero =>
    rcases hvalue.stream_or with ⟨stream, rfl, _⟩ | ⟨hne, hne'⟩
    · exact absurd (hdepth stream rfl) (Nat.not_lt_zero _)
    · rw [fanOut_of_ne_stream _ hne, fanOut_of_ne_stream _ hne']
      exact lockstep_check_bind hcontext (hf hmirror hvalue)
  | succ depth ih =>
    rcases hvalue.stream_or with ⟨stream, rfl, rfl, hbase, hcount⟩ | ⟨hne, hne'⟩
    · refine lockstep_check_bind hcontext ?_
      refine (lockstep_spread (fun _ => True) hbase ?_ hmirror trivial).mono fun _ _ _ _ h _ => h.1
      intro middle next between element image _ _ hnext hsize helement
      have hstream := hdepth stream rfl
      have hkept := helement.mono (Nat.le_trans (Nat.le_of_lt hcount) hsize)
      refine (ih hnext hkept ?_).mono fun _ _ _ _ h _ => ⟨h, trivial⟩
      rintro other rfl
      rcases helement.stream_or with ⟨_, heq, _, _, holder⟩ | ⟨hne, _⟩
      · cases heq
        omega
      · exact absurd rfl (hne other)
    · rw [fanOut_of_ne_stream _ hne, fanOut_of_ne_stream _ hne']
      exact lockstep_check_bind hcontext (hf hmirror hvalue)

/-- An operation handed down as deep as streams go is transparent if what is handed down is. -/
theorem transparent_pointwise (hcontext : evaluator.context = .background)
    {f : Value → Action Value} (hf : Transparent links base f) :
    Transparent links base (evaluator.pointwise f) := by
  intro store image value part hmirror hvalue
  have hdepth : Lockstep links base store image streamDepth streamDepth fun depth other after =>
      other = depth ∧ after = store ∧ depth = store.streams.size + 1 :=
    .perform (.refl hmirror) ⟨by rw [hmirror.size_eq], rfl, rfl⟩
  refine .bind hdepth fun depth _ after other h hproceeds => ?_
  obtain ⟨rfl, hafter, rfl⟩ := h
  refine lockstep_fanOut hcontext hf hproceeds.toMirror (hvalue.mono hproceeds.size_le) ?_
  rintro stream rfl
  rcases hvalue.stream_or with ⟨_, heq, _, _, hcount⟩ | ⟨hne, _⟩
  · cases heq
    omega
  · exact absurd rfl (hne stream)

/-- Whether the result of asking for a key is mirrored. Elements are taken out of streams but none
put in. -/
structure AskedAlike (links : Table .link Link) (base : Nat) (store : Store) (a b : Value)
    (after : Store) : Prop where
  mirrors : Mirrors links base after.streams.size a b
  fewer : after.totalRemaining ≤ store.totalRemaining

/-- Collecting runs in lockstep if what gives the items does. -/
theorem lockstep_collect {store image : Store} {f g : Value → Action Value}
    {items parts values others : List Value} (total : Nat) (hmirror : Mirror links base store image)
    (hitems : List.Forall₂ (Mirrors links base store.streams.size) items parts)
    (hvalues : List.Forall₂ (Mirrors links base store.streams.size) values others)
    (htotal : store.totalRemaining ≤ total)
    (hf : ∀ item ∈ items, ∀ part store image, Mirror links base store image →
      Mirrors links base store.streams.size item part → store.totalRemaining ≤ total →
      Lockstep links base store image (f item) (g part) (AskedAlike links base store)) :
    Lockstep links base store image (selectKeyWithin.collect f items values)
      (selectKeyWithin.collect g parts others) fun results outcomes after =>
        AskedAlike links base store (.sequence results) (.sequence outcomes) after := by
  induction items generalizing parts values others store image with
  | nil =>
    cases hitems
    exact .pure hmirror ⟨.sequence (List.rel_reverse hvalues), Nat.le_refl _⟩
  | cons item rest ih =>
    obtain ⟨part, _, hitem, hrest, rfl⟩ := List.forall₂_cons_left_iff.mp hitems
    have hasked := hf item List.mem_cons_self part store image hmirror hitem htotal
    have hreleased := hasked.orRelease (List.rel_reverse hvalues)
    refine .bind hreleased fun a b middle between h hproceeds => ?_
    have hgrown {xs ys : List Value}
        (hxs : List.Forall₂ (Mirrors links base store.streams.size) xs ys) :
        List.Forall₂ (Mirrors links base middle.streams.size) xs ys :=
      hxs.imp fun _ _ h => h.mono hproceeds.size_le
    have hcollect := ih hproceeds.toMirror (hgrown hrest) (.cons h.mirrors (hgrown hvalues))
      (Nat.le_trans h.fewer htotal) fun other hmem => hf other (List.mem_cons_of_mem _ hmem)
    refine hcollect.mono fun _ _ _ _ hafter _ => ?_
    exact ⟨hafter.mirrors, Nat.le_trans hafter.fewer h.fewer⟩

/-- Whether asking a value for a key at a depth runs in lockstep with asking its image, wherever
both may carry the key deep enough. -/
def AskLockstep (evaluator : Evaluator) (links : Table .link Link) (base : Nat) (name : String)
    (depth : Nat) (value : Value) : Prop :=
  ∀ ⦃reach part store image⦄, Mirror links base store image →
    Mirrors links base store.streams.size value part → store.totalRemaining + 1 ≤ depth →
    store.totalRemaining * (links.size + 1) + (links.within value).card + 1 ≤ reach →
    Lockstep links base store image (evaluator.selectKeyWithin name depth value)
      (evaluator.selectKeyWithin name reach part) (AskedAlike links base store)

section Asking

variable (hcontext : evaluator.context = .background) (name : String) {depth reach : Nat}
  {store image : Store} (hmirror : Mirror links base store image)
  (hdepth : store.totalRemaining + 1 ≤ depth)

include hcontext hmirror hdepth

omit hcontext in
/-- Asking the items of a sequence runs in lockstep with asking their images, as deep as those
need. -/
theorem lockstep_askItems {items parts : List Value} (more : Nat)
    (hitem : ∀ item ∈ items, AskLockstep evaluator links base name depth item)
    (hitems : List.Forall₂ (Mirrors links base store.streams.size) items parts)
    (hmore : ∀ item ∈ items, ∀ total ≤ store.totalRemaining,
      total * (links.size + 1) + (links.within item).card + 1 ≤ more) :
    Lockstep links base store image
      (selectKeyWithin.collect (evaluator.selectKeyWithin name depth) items [] >>= fun values =>
        pure (.sequence values))
      (selectKeyWithin.collect (evaluator.selectKeyWithin name more) parts [] >>= fun values =>
        pure (.sequence values)) (AskedAlike links base store) := by
  refine .bind (lockstep_collect store.totalRemaining hmirror hitems .nil (Nat.le_refl _) ?_)
    fun _ _ _ _ h hproceeds => .pure hproceeds.toMirror h
  intro item hmem part later another hmirror hpart htotal
  exact hitem item hmem hmirror hpart (by omega) (hmore item hmem _ htotal)

/-- The image of a sequence asks the images of its items, and may have to go through a link for
that. -/
theorem lockstep_askSequence {items : List Value} {part : Value}
    (hitem : ∀ item ∈ items, AskLockstep evaluator links base name depth item)
    (hvalue : Mirrors links base store.streams.size (.sequence items) part)
    (hreach : store.totalRemaining * (links.size + 1) +
      (links.within (.sequence items)).card + 1 ≤ reach) :
    Lockstep links base store image (evaluator.selectKeyWithin name depth (.sequence items))
      (evaluator.selectKeyWithin name reach part) (AskedAlike links base store) := by
  obtain ⟨parts, hitems, himage⟩ := hvalue.sequence_or
  rw [selectKeyWithin_sequence]
  rcases himage with rfl | ⟨link, rfl, hlead, hfolded⟩
  · rw [selectKeyWithin_sequence]
    refine lockstep_check_bind hcontext ?_
    refine lockstep_askItems name hmirror hdepth reach hitem hitems ?_
    intro item hmem total htotal
    have hle := Nat.le_of_lt (Value.sizeOf_lt_of_mem_sequence hmem)
    have hsubset : links.within item ⊆ links.within (.sequence items) := Table.within_subset hle
    have hcard := Finset.card_le_card hsubset
    have hproduct := Nat.mul_le_mul_right (links.size + 1) htotal
    omega
  · obtain ⟨reach, rfl⟩ : ∃ n, reach = n + 1 := ⟨reach - 1, by omega⟩
    rw [selectKeyWithin_of_ne name _ (by simp) (by simp)]
    refine lockstep_check_bind hcontext ?_
    have hrun : (evaluator.resolve (.link link)).run image = some (.ok (.sequence parts), image) :=
      run_resolve_of_some (hmirror.links_eq ▸ hlead)
    -- The link is not met again behind itself.
    have hask := lockstep_askItems name hmirror hdepth reach hitem hitems
      fun item hmem total htotal => by
        have hbound := Table.index_lt_of_leadsTo?_sequence hlead
        have hcard := Table.card_within_lt hbound hfolded (Value.sizeOf_lt_of_mem_sequence hmem)
        have hproduct := Nat.mul_le_mul_right (links.size + 1) htotal
        omega
    unfold Lockstep
    rw [Computation.run_bind _ (evaluator.askTarget name _), hrun]
    exact hask

/-- An element that has been pulled is left with enough depth, whatever links it is behind. -/
theorem lockstep_askStream {stream : Handle .stream}
    (hdeeper : ∀ deeper, depth = deeper + 1 → ∀ value,
      AskLockstep evaluator links base name deeper value)
    (hbase : base ≤ stream.index) (hcount : stream.index < store.streams.size)
    (hreach : store.totalRemaining * (links.size + 1) + 1 ≤ reach) :
    Lockstep links base store image (evaluator.selectKeyWithin name depth (.stream stream))
      (evaluator.selectKeyWithin name reach (.stream stream)) (AskedAlike links base store) := by
  obtain ⟨deeper, rfl⟩ : ∃ n, depth = n + 1 := ⟨depth - 1, by omega⟩
  obtain ⟨reach, rfl⟩ : ∃ n, reach = n + 1 := ⟨reach - 1, by omega⟩
  rw [selectKeyWithin_stream, selectKeyWithin_stream]
  refine lockstep_check_bind hcontext ?_
  refine (lockstep_spread (fun after => after.totalRemaining ≤ store.totalRemaining) hbase ?_
    hmirror (Nat.le_refl _)).mono fun _ _ _ _ h _ => ⟨h.1, h.2⟩
  intro middle next between element part htotal hpulled hnext hsize hpart
  have hkept := hpart.mono (Nat.le_trans (Nat.le_of_lt hcount) hsize)
  have hcard : (links.within element).card ≤ links.size := Table.card_within_le_size element
  have hproduct : (next.totalRemaining + 1) * (links.size + 1) ≤
      store.totalRemaining * (links.size + 1) := Nat.mul_le_mul_right _ (by omega)
  rw [Nat.succ_mul] at hproduct
  have hask := hdeeper deeper rfl element hnext hkept (by omega) (by omega : _ ≤ reach)
  refine hask.mono fun _ _ _ _ h _ => ⟨h.mirrors, ?_⟩
  have hfewer := h.fewer
  omega

omit hdepth in
/-- Asking what is neither a sequence nor a stream for a key runs in lockstep. -/
theorem lockstep_askOther {value part : Value}
    (hvalue : Mirrors links base store.streams.size value part)
    (hsequence : ∀ items, value ≠ .sequence items) (hstream : ∀ stream, value ≠ .stream stream)
    (hstream' : ∀ stream, part ≠ .stream stream) :
    Lockstep links base store image (evaluator.selectKeyWithin name depth value)
      (evaluator.selectKeyWithin name reach part) (AskedAlike links base store) := by
  rw [selectKeyWithin_of_ne name depth hsequence hstream,
    selectKeyWithin_of_ne name reach (hvalue.ne_sequence hsequence) hstream']
  refine lockstep_check_bind hcontext ?_
  refine .bind (lockstep_resolve hmirror hvalue) fun found target after another h hproceeds => ?_
  obtain ⟨hshape, heq, hafter⟩ := h
  rw [heq] at hshape ⊢
  rw [askTarget_of_ne name _ hsequence,
    askTarget_of_ne name _ (hshape.mirrors.ne_sequence hsequence)]
  refine (lockstep_selectEntry hproceeds.toMirror name hshape).mono fun _ _ _ _ h _ => ?_
  exact ⟨h.1, by rw [h.2, hafter]⟩

end Asking

/-- Asking a value for a key runs in lockstep with asking its image, if both may carry the key deep
enough. -/
theorem lockstep_selectKeyWithin (hcontext : evaluator.context = .background) (name : String)
    (depth : Nat) (value : Value) : AskLockstep evaluator links base name depth value := by
  induction depth, value using ask_induction with
  | sequence depth items ih =>
    intro reach part store image hmirror hvalue hdepth hreach
    exact lockstep_askSequence hcontext name hmirror hdepth ih hvalue hreach
  | stream depth stream ih =>
    intro reach part store image hmirror hvalue hdepth hreach
    rcases hvalue.stream_or with ⟨_, heq, rfl, hbase, hcount⟩ | ⟨hne, _⟩
    · cases heq
      exact lockstep_askStream hcontext name hmirror hdepth ih hbase hcount (by omega)
    · exact absurd rfl (hne stream)
  | other depth value hsequence hstream ih =>
    intro reach part store image hmirror hvalue hdepth hreach
    rcases hvalue.stream_or with ⟨stream, rfl, _⟩ | ⟨_, hne⟩
    · exact absurd rfl (hstream stream)
    · exact lockstep_askOther hcontext name hmirror hvalue hsequence hstream hne

/-- Selecting a key is transparent. -/
theorem transparent_selectKey (hcontext : evaluator.context = .background) (name : String) :
    Transparent links base (evaluator.selectKey name) := by
  intro store image value part hmirror hvalue
  have hdepth : Lockstep links base store image evaluator.keyDepth evaluator.keyDepth
      fun depth reach after => after = store ∧ store.totalRemaining + 1 ≤ depth ∧
        store.totalRemaining * (links.size + 1) + links.size + 1 ≤ reach := by
    refine .perform (.refl hmirror) ⟨rfl, ?_, ?_⟩
    · have hpos : 0 < store.links.size + 1 := Nat.succ_pos _
      have hproduct := Nat.le_mul_of_pos_left (store.totalRemaining + 1) hpos
      simp only
      omega
    · simp only [hmirror.links_eq, hmirror.totalRemaining_eq]
      rw [Nat.mul_comm (links.size + 1), Nat.succ_mul]
      omega
  refine .bind hdepth fun depth reach after other h hproceeds => ?_
  obtain ⟨heq, hdepth, hreach⟩ := h
  have hcard : (links.within value).card ≤ links.size := Table.card_within_le_size value
  rw [← heq] at hdepth hreach
  have hask : AskLockstep evaluator links base name depth value :=
    lockstep_selectKeyWithin hcontext name depth value
  have hkept := hvalue.mono hproceeds.size_le
  refine (hask hproceeds.toMirror hkept hdepth (by omega : _ ≤ reach)).mono fun _ _ _ _ h _ => ?_
  exact h.mirrors

section Keyed

variable {R : Value → Value → Prop}

/-- Inserting values that belong together keeps entries together. -/
theorem forall₂_insert {key : String} {value part : Value} {entries parts : List (String × Value)}
    (hvalue : R value part) (h : List.Forall₂ (OnEntries R) entries parts) :
    List.Forall₂ (OnEntries R) (Keyed.insert key value entries)
      (Keyed.insert key part parts) := by
  induction h with
  | nil => exact .cons ⟨hvalue⟩ .nil
  | cons hentry hrest ih =>
    cases hentry with
    | @intro k _ _ hother =>
      unfold Keyed.insert
      by_cases hlt : key < k
      · rw [if_pos hlt, if_pos hlt]
        exact .cons ⟨hvalue⟩ (.cons ⟨hother⟩ hrest)
      · rw [if_neg hlt, if_neg hlt]
        by_cases heq : key = k
        · rw [if_pos heq, if_pos heq]
          exact .cons ⟨hvalue⟩ hrest
        · rw [if_neg heq, if_neg heq]
          exact .cons ⟨hother⟩ ih

/-- Two lists of entries with the same keys and related values make such mappings. -/
theorem forall₂_ofList {entries parts : List (String × Value)}
    (h : List.Forall₂ (OnEntries R) entries parts) :
    List.Forall₂ (OnEntries R) (Keyed.ofList entries) (Keyed.ofList parts) := by
  have hfold {result others : List (String × Value)}
      (hresult : List.Forall₂ (OnEntries R) result others) :
      List.Forall₂ (OnEntries R)
        (entries.foldl (fun result entry => Keyed.insert entry.1 entry.2 result) result)
        (parts.foldl (fun result entry => Keyed.insert entry.1 entry.2 result) others) := by
    induction h generalizing result others with
    | nil => exact hresult
    | cons hentry _ ih =>
      cases hentry with
      | intro hvalue => exact ih (forall₂_insert hvalue hresult)
  exact hfold .nil

end Keyed

mutual

/-- Every node runs in lockstep on mirrored inputs. -/
theorem transparent_apply (hcontext : evaluator.context = .background) (node : Node) :
    Transparent links base (evaluator.apply node) := by
  match node with
  | .identity =>
    intro store image value part hmirror hvalue
    exact lockstep_check_bind hcontext (.pure hmirror hvalue)
  | .chain steps =>
    intro store image value part hmirror hvalue
    exact lockstep_check_bind hcontext (transparent_thread hcontext steps hmirror hvalue)
  | .pipeline stages =>
    intro store image value part hmirror hvalue
    exact lockstep_check_bind hcontext (transparent_thread hcontext stages hmirror hvalue)
  | .iterate =>
    intro store image value part hmirror hvalue
    exact lockstep_check_bind hcontext (lockstep_iterateAll hmirror hvalue)
  | .text s =>
    exact transparent_pointwise hcontext fun _ _ _ _ hmirror _ => .pure hmirror (.ofScalar rfl)
  | .number x =>
    exact transparent_pointwise hcontext fun _ _ _ _ hmirror _ => .pure hmirror (.ofScalar rfl)
  | .length =>
    exact transparent_pointwise hcontext fun _ _ _ _ hmirror hvalue =>
      lockstep_length hmirror hvalue
  | .key name => exact transparent_selectKey hcontext name
  | .index position =>
    exact transparent_pointwise hcontext fun _ _ _ _ hmirror hvalue =>
      lockstep_selectIndex hmirror hvalue position
  | .range bounds =>
    exact transparent_pointwise hcontext fun _ _ _ _ hmirror hvalue =>
      lockstep_selectRange hmirror hvalue bounds
  | .binary left operator right =>
    refine transparent_pointwise hcontext fun store image value part hmirror hvalue => ?_
    have hleft := transparent_apply hcontext left hmirror hvalue
    refine .bind hleft fun a a' middle between ha hfirst => ?_
    have hvalue := hvalue.mono hfirst.size_le
    have hright := transparent_apply hcontext right hfirst.toMirror hvalue
    refine .bind (hright.orRelease (.cons ha .nil)) fun b b' after other hb hsecond => ?_
    have ha := ha.mono hsecond.size_le
    exact (lockstep_arithmetic hsecond.toMirror ha operator hb).orRelease (.cons ha (.cons hb .nil))
  | .array items =>
    refine transparent_pointwise hcontext fun store image value part hmirror hvalue => ?_
    have hitems := lockstep_applyAll hcontext items hmirror hvalue .nil
    refine .bind hitems fun _ _ _ _ h hproceeds => ?_
    exact .pure hproceeds.toMirror (.sequence h)
  | .object entries =>
    refine transparent_pointwise hcontext fun store image value part hmirror hvalue => ?_
    have hentries := lockstep_applyEntries hcontext entries hmirror hvalue .nil
    refine .bind hentries fun _ _ _ _ h hproceeds => ?_
    exact .pure hproceeds.toMirror (.mapping (forall₂_ofList h))
termination_by structural node

/-- Stages are transparent, one after the other. -/
theorem transparent_thread (hcontext : evaluator.context = .background) (nodes : List Node) :
    Transparent links base (evaluator.thread nodes) := by
  match nodes with
  | [] => exact fun _ _ _ _ hmirror hvalue => .pure hmirror hvalue
  | node :: rest =>
    intro store image value part hmirror hvalue
    refine .bind (transparent_apply hcontext node hmirror hvalue) fun _ _ _ _ h hproceeds => ?_
    exact transparent_thread hcontext rest hproceeds.toMirror h
termination_by structural nodes

/-- The parts of an array run in lockstep. -/
theorem lockstep_applyAll (hcontext : evaluator.context = .background) (nodes : List Node)
    {store image : Store} {value part : Value} {values parts : List Value}
    (hmirror : Mirror links base store image)
    (hvalue : Mirrors links base store.streams.size value part)
    (hvalues : List.Forall₂ (Mirrors links base store.streams.size) values parts) :
    Lockstep links base store image (evaluator.applyAll nodes value values)
      (evaluator.applyAll nodes part parts) fun results outcomes after =>
        List.Forall₂ (Mirrors links base after.streams.size) results outcomes := by
  match nodes with
  | [] => exact .pure hmirror (List.rel_reverse hvalues)
  | node :: rest =>
    have hnode := transparent_apply hcontext node hmirror hvalue
    refine .bind (hnode.orRelease (List.rel_reverse hvalues)) fun _ _ _ _ h hproceeds => ?_
    have hvalues := hvalues.imp fun _ _ h => h.mono hproceeds.size_le
    exact lockstep_applyAll hcontext rest hproceeds.toMirror (hvalue.mono hproceeds.size_le)
      (.cons h hvalues)
termination_by structural nodes

/-- The parts of an object run in lockstep. -/
theorem lockstep_applyEntries (hcontext : evaluator.context = .background)
    (nodes : List (String × Node)) {store image : Store} {value part : Value}
    {values parts : List (String × Value)} (hmirror : Mirror links base store image)
    (hvalue : Mirrors links base store.streams.size value part)
    (hvalues : List.Forall₂ (OnEntries (Mirrors links base store.streams.size)) values parts) :
    Lockstep links base store image (evaluator.applyEntries nodes value values)
      (evaluator.applyEntries nodes part parts) fun results outcomes after =>
        List.Forall₂ (OnEntries (Mirrors links base after.streams.size)) results outcomes := by
  match nodes with
  | [] => exact .pure hmirror (List.rel_reverse hvalues)
  | (key, node) :: rest =>
    have hkept : List.Forall₂ (Mirrors links base store.streams.size) (values.reverse.map (·.2))
        (parts.reverse.map (·.2)) := by
      rw [List.forall₂_map_left_iff, List.forall₂_map_right_iff]
      refine (List.rel_reverse hvalues).imp ?_
      rintro _ _ ⟨h⟩
      exact h
    have hnode := transparent_apply hcontext node hmirror hvalue
    refine .bind (hnode.orRelease hkept) fun _ _ _ _ h hproceeds => ?_
    have hvalues := forall₂_onEntries_of_mem hvalues fun _ _ _ h => h.mono hproceeds.size_le
    exact lockstep_applyEntries hcontext rest hproceeds.toMirror (hvalue.mono hproceeds.size_le)
      (.cons ⟨h⟩ hvalues)
termination_by structural nodes

end

end Evaluator

/-- Whether two values, each in its store, have the same JSON or fail in the same way to have
any. -/
def SameJson (store : Store) (value : Value) (other : Store) (image : Value) : Prop :=
  ∃ answer, (value.toJson store).run = some answer ∧ (image.toJson other).run = some answer

/-- Whether two runs end in the same way and hand out values with the same JSON. -/
inductive SameOutcome : Except Failure Value × Store → Except Failure Value × Store → Prop
  | result {store other : Store} {value image : Value} :
      SameJson store value other image → SameOutcome (.ok value, store) (.ok image, other)
  | early {store other : Store} (error : EvalError) :
      SameOutcome (.error ⟨error, none⟩, store) (.error ⟨error, none⟩, other)
  | late {store other : Store} {value image : Value} (error : EvalError) :
      SameJson store value other image →
      SameOutcome (.error ⟨error, some value⟩, store) (.error ⟨error, some image⟩, other)

namespace Evaluator

variable {evaluator : Evaluator}

/-- What a value and its image are flattened to is a document and what stands for it. -/
theorem exists_flatten {store image : Store} {value part : Value}
    (hmirror : Mirror links base store image)
    (hvalue : Mirrors links base store.streams.size value part) :
    ∃ flat shown after other, flatten value store = (flat, after) ∧
      flatten part image = (shown, other) ∧ Proceeds links base store after other ∧
      flat.isDocument = true ∧ Folded links flat shown := by
  obtain ⟨hflat, hproceeds⟩ := together_flatten hvalue hmirror
  exact ⟨_, _, _, _, rfl, rfl, hproceeds, hflat.isFolded⟩

/-- Stages have the same outcome on values that mirror each other. -/
theorem exists_sameOutcome_continueRun (hcontext : evaluator.context = .background)
    (program : Program) {store image : Store} {value part : Value}
    (hmirror : Mirror links base store image)
    (hvalue : Mirrors links base store.streams.size value part) :
    ∃ outcome other, evaluator.continueRun program value store = some outcome ∧
      evaluator.continueRun program part image = some other ∧ SameOutcome outcome other := by
  induction program generalizing store image value part with
  | nil =>
    obtain ⟨flat, shown, after, other, hflat, hshown, hproceeds, hdocument, hfolded⟩ :=
      exists_flatten hmirror hvalue
    rw [← hproceeds.links_eq] at hfolded
    simp only [continueRun, hflat, hshown]
    exact ⟨_, _, rfl, rfl, .result (hfolded.exists_toJson hdocument)⟩
  | cons node rest ih =>
    have htransparent : Transparent links base (evaluator.apply node) :=
      transparent_apply hcontext node
    obtain ⟨_, _, middle, between, hx, hy, hproceeds, halike⟩ := htransparent hmirror hvalue
    simp only [continueRun, hx, hy]
    cases halike with
    | ok h => exact ih hproceeds.toMirror h
    | error error =>
      obtain ⟨flat, shown, after, other, hflat, hshown, hlater, hdocument, hfolded⟩ :=
        exists_flatten hproceeds.toMirror (hvalue.mono hproceeds.size_le)
      have hmirrored : Mirrors links base 0 flat shown := .folded hdocument hfolded
      have hreleased := together_release hmirrored hlater.toMirror
      rw [← hreleased.links_eq] at hfolded
      simp only [hflat, hshown]
      exact ⟨_, _, rfl, rfl, .late error (hfolded.exists_toJson hdocument)⟩

/-- A store mirrors itself where streams are to be made. -/
theorem mirror_self (store : Store) : Mirror store.links store.streams.size store store := by
  refine ⟨rfl, Nat.le_refl _, rfl, fun _ => rfl, fun stream hstream => ?_⟩
  rw [remaining_of_size_le hstream]
  exact .nil

/-- Putting parts of a document behind links changes nothing: every filter ends in the same way on
both, with the same error if it fails, and what it hands out has the same JSON. -/
theorem run_of_folded (hcontext : evaluator.context = .background) (program : Program)
    {store : Store} {document image : Value} (hdocument : document.isDocument = true)
    (hfolded : Folded store.links document image) :
    ∃ outcome other, evaluator.run program document store = some outcome ∧
      evaluator.run program image store = some other ∧ SameOutcome outcome other := by
  have hmirror := mirror_self store
  have hvalue : Mirrors store.links store.streams.size store.streams.size document image :=
    .folded hdocument hfolded
  cases program with
  | nil => exact exists_sameOutcome_continueRun hcontext [] hmirror hvalue
  | cons node rest =>
    obtain ⟨_, _, middle, between, hx, hy, hproceeds, halike⟩ :=
      transparent_apply hcontext node hmirror hvalue
    simp only [run, hx, hy]
    cases halike with
    | ok h => exact exists_sameOutcome_continueRun hcontext rest hproceeds.toMirror h
    | error error => exact ⟨_, _, rfl, rfl, .early error⟩

/-- A sequence behind a link may hold a mapping behind another link. -/
theorem run_of_nested_links :
    let store : Store := { links := ⟨#[
      { path := "/l", target := some (.sequence [.link ⟨1⟩, .null]) },
      { path := "/m", target := some (.mapping [("a", .int 1)]) }]⟩ }
    ∃ outcome other,
      Evaluator.run { context := .background } [.key "a"]
        (.sequence [.mapping [("a", .int 1)], .null]) store = some outcome ∧
      Evaluator.run { context := .background } [.key "a"] (.link ⟨0⟩) store = some other ∧
      SameOutcome outcome other := by
  intro store
  have hmapping : Folded store.links (.mapping [("a", .int 1)]) (.link ⟨1⟩) :=
    .link rfl (.mapping (.cons ⟨.scalar rfl⟩ .nil))
  have hsequence : Folded store.links (.sequence [.mapping [("a", .int 1)], .null]) (.link ⟨0⟩) :=
    .link rfl (.sequence (.cons hmapping (.cons (.scalar rfl) .nil)))
  exact run_of_folded rfl [.key "a"] rfl hsequence

end Evaluator

end Sluice
