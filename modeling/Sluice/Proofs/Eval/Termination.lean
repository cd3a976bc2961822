import Mathlib.Tactic.Ring
import Sluice.Proofs.Eval.Ending
import Sluice.Proofs.Eval.Keys
import Sluice.Proofs.Store.Reachability

/-!
# Evaluation comes to an end

If no link carries a key into itself, every run on resolved links has an outcome
(`Evaluator.isSome_run`). The elements of a stream are older than it is, which bounds fanning out;
and between two elements that are taken out of streams a key meets every link at most once, which
bounds how deep it is carried (`Evaluator.depthOf`).
-/

namespace Sluice

open Sluice.Filter Sluice.Store

section Ending

variable {evaluator : Evaluator} {links : Table .link Link}

namespace Evaluator

/-- Applying an action to each element of a stream ends, if what is kept from element to element
lets the action end. The results come newest first. -/
theorem ends_spread {stream : Handle .stream} {f : Value → Action Value} {store : Store}
    {I : List Value → Store → Prop} (hstart : I [] store)
    (hf : ∀ results middle value next, I results middle →
      middle.pull stream = (some value, next) →
      Ends (f value) next fun result after => I (result :: results) after) :
    Ends (spread stream f) store fun value after =>
      ∃ results, value = .sequence results.reverse ∧ I results after := by
  have hmap (limit : Nat) (results : List Value) (middle : Store) (hI : I results middle) :
      ∃ outcome after, (Store.mapEachWithin stream (fun value => (f value).run) limit results :
          StateT Store Option _) middle = some (outcome, after) ∧
        ∀ values, outcome = .ok values → ∃ results, values = results.reverse ∧ I results after := by
    induction limit generalizing results middle with
    | zero => exact ⟨_, _, rfl, by rintro _ ⟨⟩; exact ⟨results, rfl, hI⟩⟩
    | succ limit ih =>
      rw [Store.run_mapEachWithin_succ]
      rcases hpull : middle.pull stream with ⟨_ | value, next⟩
      · obtain ⟨_, rfl⟩ := pull_none hpull
        exact ⟨_, _, rfl, by rintro _ ⟨⟩; exact ⟨results, rfl, hI⟩⟩
      · obtain ⟨result, after, hrun, hresult⟩ := hf results middle value next hI hpull
        simp only [Store.mapRest, hrun]
        cases result with
        | error error => exact ⟨_, _, rfl, by rintro _ ⟨⟩⟩
        | ok result => exact ih (result :: results) after (hresult result rfl)
  obtain ⟨outcome, after, hrun, hvalues⟩ :=
    hmap (store.remaining stream).length [] store hstart
  unfold Ends
  rw [run_spread, Store.run_mapEach, hrun]
  cases outcome with
  | error failure => exact ⟨_, _, rfl, by rintro _ ⟨⟩⟩
  | ok values =>
    obtain ⟨results, rfl, hI⟩ := hvalues values rfl
    exact ⟨_, _, rfl, by rintro _ ⟨⟩; exact ⟨results, rfl, hI⟩⟩

/-- What is made of the elements of a stream refers only to streams that exist, if what is made of
each element does. -/
theorem ends_spread_made {stream : Handle .stream} {f : Value → Action Value} {store : Store}
    (J : Store → Prop) (hscope : store.Scoped) (hstart : J store)
    (hf : ∀ middle value next, J middle → middle.pull stream = (some value, next) →
      Grows store next → value.streamBound ≤ stream.index →
      Ends (f value) next fun result after => Made next result after ∧ J after) :
    Ends (spread stream f) store fun value after => Made store value after ∧ J after := by
  refine (ends_spread (I := fun results after => Grows store after ∧ J after ∧
    ∀ result ∈ results, result.streamBound ≤ after.streams.size)
    ⟨.refl hscope, hstart, by simp⟩ ?_).mono ?_
  · rintro results middle value next ⟨hgrows, hJ, hresults⟩ hpull
    have hnext : next = (middle.pull stream).2 := by rw [hpull]
    have hpulled := hnext ▸ hgrows.scope.grows_pull stream
    have hvalue : value.streamBound ≤ stream.index := by
      refine hgrows.scope.older stream value ?_
      rw [(pull_some hpull).1]
      exact List.mem_cons_self
    have hstart := hgrows.trans hpulled
    refine (hf middle value next hJ hpull hstart hvalue).mono fun result after h => ?_
    obtain ⟨hmade, hJ⟩ := h
    refine ⟨hstart.trans hmade.toGrows, hJ, fun other hother => ?_⟩
    rcases List.mem_cons.mp hother with rfl | hmem
    · exact hmade.value_le
    · exact hmade.toGrows.value_le (hpulled.value_le (hresults other hmem))
  · rintro value after ⟨results, rfl, hgrows, hJ, hresults⟩
    exact ⟨⟨hgrows, by simpa using hresults⟩, hJ⟩

/-- Whether an operation ends on every input. -/
def EndsOn (links : Table .link Link) (f : Value → Action Value) : Prop :=
  ∀ ⦃store input⦄, store.links = links → store.Scoped →
    input.streamBound ≤ store.streams.size → Ends (f input) store (Made store)

/-- The depth of fanning out is enough: the elements of a stream are older than it is. -/
theorem ends_fanOut {f : Value → Action Value} (hf : EndsOn links f) {depth : Nat} {input : Value}
    {store : Store} (hlinks : store.links = links) (hscope : store.Scoped)
    (hinput : input.streamBound ≤ store.streams.size)
    (hdepth : ∀ stream, input = .stream stream → stream.index < depth) :
    Ends (evaluator.fanOut f depth input) store (Made store) := by
  induction depth generalizing input store with
  | zero =>
    refine .bind ends_check fun _ same heq => ?_
    rw [heq]
    cases input with
    | stream stream => exact absurd (hdepth stream rfl) (Nat.not_lt_zero _)
    | _ => exact hf hlinks hscope hinput
  | succ depth ih =>
    refine .bind ends_check fun _ same heq => ?_
    rw [heq]
    cases input with
    | stream stream =>
      have hstream := Nat.lt_succ_iff.mp (hdepth stream rfl)
      refine (ends_spread_made (fun _ => True) hscope trivial ?_).mono fun _ _ h => h.1
      intro middle value next _ _ hstart hvalue
      have hsize := hstart.size_le
      rw [Value.streamBound_stream_le] at hinput
      refine (ih (hstart.links_eq.trans hlinks) hstart.scope (by omega) ?_).mono
        fun _ _ hmade => ⟨hmade, trivial⟩
      rintro other rfl
      rw [Value.streamBound_stream_le] at hvalue
      omega
    | _ => exact hf hlinks hscope hinput

/-- An operation handed down as deep as streams go ends if it ends on every input. -/
theorem endsOn_pointwise {f : Value → Action Value} (hf : EndsOn links f) :
    EndsOn links (evaluator.pointwise f) := by
  intro store input hlinks hscope hinput
  refine .bind (.perform (P := fun depth after => depth = store.streams.size + 1 ∧ after = store)
    ⟨rfl, rfl⟩) fun depth middle hdepth => ?_
  obtain ⟨rfl, heq⟩ := hdepth
  rw [heq]
  refine ends_fanOut hf hlinks hscope hinput ?_
  rintro stream rfl
  rw [Value.streamBound_stream_le] at hinput
  omega

/-- What asking a value for a key does: it takes elements out of streams but puts none in, and it
has succeeded. -/
structure Asked (store : Store) (value result : Value) (after : Store) : Prop
    extends Made store result after where
  fewer : after.totalRemaining ≤ store.totalRemaining
  takes : store.links.Takes value

/-- Asking the items of a sequence for a key ends, if asking each item ends that the sequence
carries the key to. -/
theorem ends_collect {f : Value → Action Value} {rest values : List Value} {store : Store}
    {total : Nat} (outer : Value) (done : List Value) (hlinks : store.links = links)
    (hscope : store.Scoped)
    (hlead : links.leadsTo? outer = some (.sequence (done ++ rest)))
    (hdone : ∀ item ∈ done, links.Takes item)
    (hrest : ∀ item ∈ rest, item.streamBound ≤ store.streams.size)
    (hvalues : ∀ value ∈ values, value.streamBound ≤ store.streams.size)
    (htotal : store.totalRemaining ≤ total)
    (hf : ∀ item ∈ rest, ∀ store, store.links = links → store.Scoped →
      item.streamBound ≤ store.streams.size → store.totalRemaining ≤ total →
      links.Carries outer item → Ends (f item) store (Asked store item)) :
    Ends (selectKeyWithin.collect f rest values) store fun results after =>
      Made store (.sequence results) after ∧ after.totalRemaining ≤ store.totalRemaining ∧
        ∀ item ∈ rest, links.Takes item := by
  induction rest generalizing done values store with
  | nil => exact .pure ⟨⟨.refl hscope, by simpa using hvalues⟩, Nat.le_refl _, by simp⟩
  | cons item rest ih =>
    have hitem := hf item List.mem_cons_self store hlinks hscope (hrest item List.mem_cons_self)
      htotal ⟨done, rest, hlead, hdone⟩
    refine .bind (hitem.orRelease _) fun value middle hasked => ?_
    have hgrows := hasked.toGrows
    have htakes : links.Takes item := hlinks ▸ hasked.takes
    refine (ih (done ++ [item]) (hgrows.links_eq.trans hlinks) hgrows.scope (by simpa)
      ?_ ?_ ?_ (Nat.le_trans hasked.fewer htotal) ?_).mono ?_
    · intro other hother
      rcases List.mem_append.mp hother with hmem | hmem
      · exact hdone other hmem
      · rw [List.mem_singleton.mp hmem]
        exact htakes
    · exact fun other hmem => hgrows.value_le (hrest other (List.mem_cons_of_mem _ hmem))
    · intro other hother
      rcases List.mem_cons.mp hother with rfl | hmem
      · exact hasked.value_le
      · exact hgrows.value_le (hvalues other hmem)
    · exact fun other hmem => hf other (List.mem_cons_of_mem _ hmem)
    · rintro results after ⟨hmade, hfewer, htakes'⟩
      refine ⟨.after hgrows hmade, Nat.le_trans hfewer hasked.fewer, fun other hother => ?_⟩
      rcases List.mem_cons.mp hother with rfl | hmem
      · exact htakes
      · exact htakes' other hmem

/-- How deep a key has to be carried at most: elements that are left count more than any number of
links. -/
noncomputable def depthOf (store : Store) (value : Value) : Nat :=
  store.totalRemaining * (store.links.size + 1) + store.links.rank value + 1

/-- No value can do without any depth. -/
theorem exists_eq_add_one_of_depthOf_le {store : Store} {value : Value} {depth : Nat}
    (h : depthOf store value ≤ depth) : ∃ deeper, depth = deeper + 1 :=
  Nat.exists_eq_add_one_of_ne_zero (by unfold depthOf at h; omega)

/-- What a key is carried on to needs no more depth, unless elements are put back into streams. -/
theorem depthOf_le_of_carries {store after : Store} {outer inner : Value}
    (hlinks : after.links = store.links) (hfewer : after.totalRemaining ≤ store.totalRemaining)
    (h : store.links.Carries outer inner) : depthOf after inner ≤ depthOf store outer := by
  have hrank := Table.rank_le_of_carries h
  have hproduct := Nat.mul_le_mul_right (store.links.size + 1) hfewer
  unfold depthOf
  rw [hlinks]
  omega

/-- A link that does not carry a key into itself needs less depth for what it carries the key
to. -/
theorem depthOf_lt_of_carries {store after : Store} {link : Handle .link} {inner : Value}
    (hacyclic : ¬ Relation.TransGen store.links.Carries (.link link) (.link link))
    (hlinks : after.links = store.links) (hfewer : after.totalRemaining ≤ store.totalRemaining)
    (h : store.links.Carries (.link link) inner) :
    depthOf after inner < depthOf store (.link link) := by
  have hrank := Table.rank_lt_of_carries h hacyclic
  have hproduct := Nat.mul_le_mul_right (store.links.size + 1) hfewer
  unfold depthOf
  rw [hlinks]
  omega

/-- An element that has been pulled needs less depth than the stream. -/
theorem depthOf_lt_of_pulled {store after : Store} (stream : Handle .stream) (value : Value)
    (hlinks : after.links = store.links)
    (hfewer : after.totalRemaining + 1 ≤ store.totalRemaining) :
    depthOf after value < depthOf store (.stream stream) := by
  have hrank : store.links.rank value ≤ store.links.size := Table.rank_le_size value
  have hproduct := Nat.mul_le_mul_right (store.links.size + 1) hfewer
  rw [Nat.succ_mul] at hproduct
  unfold depthOf
  rw [hlinks]
  omega

/-- The depth of carrying a key is enough for any value. -/
theorem depthOf_le_keyDepth (store : Store) (value : Value) :
    depthOf store value ≤ (store.links.size + 1) * (store.totalRemaining + 1) := by
  have hrank : store.links.rank value ≤ store.links.size := Table.rank_le_size value
  rw [Nat.mul_comm, Nat.succ_mul]
  unfold depthOf
  omega

/-- An entry is found only in a value that can be asked for a key. -/
theorem ends_selectEntry_of_takesKey (evaluator : Evaluator) (name : String) {target : Value}
    {store : Store} (hlink : ∀ link, target ≠ .link link)
    (hsequence : ∀ items, target ≠ .sequence items)
    (hscope : store.Scoped) (htarget : target.streamBound ≤ store.streams.size) :
    Ends (evaluator.selectEntry name target) store fun value after =>
      (Made store value after ∧ after.streams = store.streams) ∧ target.takesKey = true := by
  have h : Ends (evaluator.selectEntry name target) store _ := ends_selectEntry hscope htarget name
  cases target with
  | link link => exact absurd rfl (hlink link)
  | sequence items => exact absurd rfl (hsequence items)
  | iterator _ | array _ | byteStream _ => exact ends_reject _ _
  | _ => exact h.mono fun _ _ hmade => ⟨hmade, rfl⟩

/-- Whether asking a value for a key at a depth ends wherever the depth is enough. -/
def AskEnds (evaluator : Evaluator) (links : Table .link Link) (name : String) (depth : Nat)
    (value : Value) : Prop :=
  ∀ ⦃store⦄, store.links = links → store.Scoped → value.streamBound ≤ store.streams.size →
    depthOf store value ≤ depth →
    Ends (evaluator.selectKeyWithin name depth value) store (Asked store value)

section Asking

variable {name : String} {depth : Nat} {store : Store} (hlinks : store.links = links)
  (hscope : store.Scoped)

include hlinks hscope

/-- Asking the items of a sequence ends: they need no more depth than the sequence. -/
theorem ends_askSequence {items : List Value}
    (hitems : ∀ item ∈ items, AskEnds evaluator links name depth item)
    (hvalue : (Value.sequence items).streamBound ≤ store.streams.size)
    (hdepth : depthOf store (.sequence items) ≤ depth) :
    Ends (evaluator.selectKeyWithin name depth (.sequence items)) store
      (Asked store (.sequence items)) := by
  rw [selectKeyWithin_sequence]
  refine .bind ends_check fun _ same heq => ?_
  rw [heq]
  refine .bind (ends_collect (.sequence items) [] hlinks hscope rfl (by simp)
    (Value.streamBound_sequence_le.mp hvalue) (by simp) (Nat.le_refl _) ?_) ?_
  · intro item hmem later hlater hscope hitem htotal hcarries
    have hcarries : store.links.Carries (.sequence items) item := hlinks ▸ hcarries
    have hle := depthOf_le_of_carries (hlater.trans hlinks.symm) htotal hcarries
    exact hitems item hmem hlater hscope hitem (Nat.le_trans hle hdepth)
  · rintro results after ⟨hmade, hfewer, htakes⟩
    exact .pure ⟨hmade, hfewer, hlinks ▸ .items rfl htakes⟩

/-- Asking the elements of a stream ends: each that is taken out leaves fewer of them. -/
theorem ends_askStream {stream : Handle .stream}
    (hdeeper : ∀ deeper, depth = deeper + 1 → ∀ value, AskEnds evaluator links name deeper value)
    (hvalue : (Value.stream stream).streamBound ≤ store.streams.size)
    (hdepth : depthOf store (.stream stream) ≤ depth) :
    Ends (evaluator.selectKeyWithin name depth (.stream stream)) store
      (Asked store (.stream stream)) := by
  obtain ⟨deeper, rfl⟩ := exists_eq_add_one_of_depthOf_le hdepth
  rw [selectKeyWithin_stream]
  refine .bind ends_check fun _ same heq => ?_
  rw [heq]
  refine (ends_spread_made (fun after => after.totalRemaining ≤ store.totalRemaining) hscope
    (Nat.le_refl _) ?_).mono fun _ _ h => ⟨h.1, h.2, .entry rfl rfl⟩
  intro middle element next hfewer hpull hstart helement
  obtain ⟨_, _, htotal, _⟩ := pull_some hpull
  have hless : next.totalRemaining + 1 ≤ store.totalRemaining := by omega
  have hlt := depthOf_lt_of_pulled stream element hstart.links_eq hless
  have hsize := hstart.size_le
  rw [Value.streamBound_stream_le] at hvalue
  have hask := hdeeper deeper rfl element (hstart.links_eq.trans hlinks) hstart.scope (by omega)
    (by omega)
  refine hask.mono fun result after hasked => ⟨hasked.toMade, ?_⟩
  have hkept := hasked.fewer
  omega

/-- Asking any other value ends: if it is a link to a sequence, the items need less depth. -/
theorem ends_askOther (hgrounded : links.Grounded) {value : Value}
    (hsequence : ∀ items, value ≠ .sequence items) (hstream : ∀ stream, value ≠ .stream stream)
    (hdeeper : ∀ deeper, depth = deeper + 1 → ∀ value, AskEnds evaluator links name deeper value)
    (hvalue : value.streamBound ≤ store.streams.size) (hdepth : depthOf store value ≤ depth) :
    Ends (evaluator.selectKeyWithin name depth value) store (Asked store value) := by
  obtain ⟨deeper, rfl⟩ := exists_eq_add_one_of_depthOf_le hdepth
  rw [selectKeyWithin_of_ne name _ hsequence hstream]
  refine .bind ends_check fun _ same heq => ?_
  rw [heq]
  have hresolved : store.links.Resolved := hlinks ▸ hgrounded.resolved
  refine .bind (ends_resolve hresolved value) fun target same htarget => ?_
  obtain ⟨heq, htarget⟩ := htarget
  have hle := streamBound_follow? hscope hvalue htarget
  rw [heq]
  by_cases hitems : ∃ items, target = .sequence items
  · obtain ⟨items, rfl⟩ := hitems
    have hlead : links.leadsTo? value = some (.sequence items) := hlinks ▸ htarget
    obtain ⟨link, rfl⟩ := Table.exists_link_of_leadsTo?_sequence hsequence hlead
    refine .bind (ends_collect (.link link) [] hlinks hscope hlead (by simp)
      (Value.streamBound_sequence_le.mp hle) (by simp) (Nat.le_refl _) ?_) ?_
    · intro item hmem later hlater hscope hitem htotal hcarries
      have hlt := depthOf_lt_of_carries (hlinks ▸ hgrounded.acyclic link)
        (hlater.trans hlinks.symm) htotal (hlinks ▸ hcarries)
      exact hdeeper deeper rfl item hlater hscope hitem (by omega)
    · rintro results after ⟨hmade, hfewer, htakes⟩
      exact .pure ⟨hmade, hfewer, .items htarget (hlinks ▸ htakes)⟩
  · have hne : ∀ items, target ≠ .sequence items := fun items h => hitems ⟨items, h⟩
    rw [askTarget_of_ne name _ hne]
    refine (ends_selectEntry_of_takesKey evaluator name (Table.ne_link_of_follow? htarget) hne
      hscope hle).mono ?_
    rintro result after ⟨⟨hmade, hstreams⟩, htakes⟩
    exact ⟨hmade, by rw [totalRemaining, totalRemaining, hstreams], .entry htarget htakes⟩

end Asking

/-- Asking a value for a key ends within the depth that the value needs, if no link carries a key
into itself. -/
theorem ends_selectKeyWithin (hgrounded : links.Grounded) (name : String) (depth : Nat)
    (value : Value) : AskEnds evaluator links name depth value := by
  induction depth, value using ask_induction with
  | sequence depth items ih =>
    exact fun store hlinks hscope => ends_askSequence hlinks hscope ih
  | stream depth stream ih =>
    exact fun store hlinks hscope => ends_askStream hlinks hscope ih
  | other depth value hsequence hstream ih =>
    exact fun store hlinks hscope => ends_askOther hlinks hscope hgrounded hsequence hstream ih

/-- Selecting a key ends where no link carries a key into itself. -/
theorem endsOn_selectKey (hgrounded : links.Grounded) (name : String) :
    EndsOn links (evaluator.selectKey name) := by
  intro store input hlinks hscope hinput
  refine .bind (.perform (P := fun depth after => after = store ∧
    (store.links.size + 1) * (store.totalRemaining + 1) ≤ depth) ⟨rfl, Nat.le_add_right _ _⟩)
    fun depth middle hdepth => ?_
  obtain ⟨rfl, hdepth⟩ := hdepth
  have hle := Nat.le_trans (depthOf_le_keyDepth _ input) hdepth
  exact (ends_selectKeyWithin hgrounded name depth input hlinks hscope hinput hle).mono
    fun _ _ hasked => hasked.toMade

/-- Calculating ends. -/
theorem ends_arithmetic (hresolved : links.Resolved) {store : Store} (hlinks : store.links = links)
    (hscope : store.Scoped) (left : Value) (operator : Operator) (right : Value) :
    Ends (evaluator.arithmetic left operator right) store (Made store) := by
  have hresolved : store.links.Resolved := hlinks ▸ hresolved
  refine .bind (ends_resolve hresolved left) fun a same hleft => ?_
  rw [hleft.1]
  refine .bind ((ends_resolve hresolved right).orRelease _) fun b same hright => ?_
  rw [hright.1]
  split
  · exact .pure ⟨.refl hscope, Nat.zero_le _⟩
  · exact .bind (.perform (P := fun _ _ => True) trivial) fun _ _ _ => .throw

mutual

/-- Every node ends on every input. -/
theorem endsOn_apply (hgrounded : links.Grounded) (node : Node) :
    EndsOn links (evaluator.apply node) := by
  match node with
  | .identity =>
    intro store input hlinks hscope hinput
    refine .bind ends_check fun _ same heq => ?_
    rw [heq]
    exact .pure ⟨.refl hscope, hinput⟩
  | .chain steps =>
    intro store input hlinks hscope hinput
    refine .bind ends_check fun _ same heq => ?_
    rw [heq]
    exact endsOn_thread hgrounded steps hlinks hscope hinput
  | .pipeline stages =>
    intro store input hlinks hscope hinput
    refine .bind ends_check fun _ same heq => ?_
    rw [heq]
    exact endsOn_thread hgrounded stages hlinks hscope hinput
  | .iterate =>
    intro store input hlinks hscope hinput
    refine .bind ends_check fun _ same heq => ?_
    rw [heq]
    exact ends_iterateAll (hlinks ▸ hgrounded.resolved) hscope hinput
  | .text s =>
    exact endsOn_pointwise fun store input _ hscope _ => .pure ⟨.refl hscope, Nat.zero_le _⟩
  | .number x =>
    exact endsOn_pointwise fun store input _ hscope _ => .pure ⟨.refl hscope, Nat.zero_le _⟩
  | .length =>
    exact endsOn_pointwise fun store input hlinks hscope _ =>
      ends_length (hlinks ▸ hgrounded.resolved) hscope
  | .key name => exact endsOn_selectKey hgrounded name
  | .index position =>
    exact endsOn_pointwise fun store input hlinks hscope hinput =>
      ends_selectIndex (hlinks ▸ hgrounded.resolved) hscope hinput position
  | .range bounds =>
    exact endsOn_pointwise fun store input hlinks hscope hinput =>
      ends_selectRange (hlinks ▸ hgrounded.resolved) hscope hinput bounds
  | .binary left operator right =>
    refine endsOn_pointwise fun store input hlinks hscope hinput => ?_
    refine .bind (endsOn_apply hgrounded left hlinks hscope hinput) fun a middle ha => ?_
    have hmiddle := ha.links_eq.trans hlinks
    have hright := endsOn_apply hgrounded right hmiddle ha.scope (ha.toGrows.value_le hinput)
    refine .bind (hright.orRelease _) fun b after hb => ?_
    have hafter := hb.links_eq.trans hmiddle
    have hresult : Ends (evaluator.arithmetic a operator b) after (Made after) :=
      ends_arithmetic hgrounded.resolved hafter hb.scope a operator b
    exact (hresult.orRelease _).mono fun _ _ => .after (ha.toGrows.trans hb.toGrows)
  | .array items =>
    refine endsOn_pointwise fun store input hlinks hscope hinput => ?_
    refine .bind (ends_applyAll hgrounded items hlinks hscope hinput (by simp)) ?_
    exact fun _ _ hmade => .pure hmade
  | .object entries =>
    refine endsOn_pointwise fun store input hlinks hscope hinput => ?_
    refine .bind (ends_applyEntries hgrounded entries hlinks hscope hinput (by simp)) ?_
    refine fun results _ hmade => .pure ⟨hmade.toGrows, ?_⟩
    have hresults := Value.streamBound_mapping_le.mp hmade.value_le
    rw [Value.streamBound_mapping_le]
    exact fun entry hentry => hresults entry (Keyed.mem_ofList hentry)
termination_by structural node

/-- Stages one after the other end. -/
theorem endsOn_thread (hgrounded : links.Grounded) (nodes : List Node) :
    EndsOn links (evaluator.thread nodes) := by
  match nodes with
  | [] => exact fun store input _ hscope hinput => .pure ⟨.refl hscope, hinput⟩
  | node :: rest =>
    intro store input hlinks hscope hinput
    refine .bind (endsOn_apply hgrounded node hlinks hscope hinput) fun value middle hvalue => ?_
    have hmiddle := hvalue.links_eq.trans hlinks
    exact (endsOn_thread hgrounded rest hmiddle hvalue.scope hvalue.value_le).mono
      fun _ _ => .after hvalue.toGrows
termination_by structural nodes

/-- The parts of an array end, and what they make refers to streams that exist. -/
theorem ends_applyAll (hgrounded : links.Grounded) (nodes : List Node) {store : Store}
    {input : Value} {values : List Value}
    (hlinks : store.links = links) (hscope : store.Scoped)
    (hinput : input.streamBound ≤ store.streams.size)
    (hvalues : ∀ value ∈ values, value.streamBound ≤ store.streams.size) :
    Ends (evaluator.applyAll nodes input values) store
      fun results => Made store (.sequence results) := by
  match nodes with
  | [] => exact .pure ⟨.refl hscope, by simpa using hvalues⟩
  | node :: rest =>
    have hnode := endsOn_apply hgrounded node hlinks hscope hinput
    refine .bind (hnode.orRelease _) fun value middle hvalue => ?_
    refine (ends_applyAll hgrounded rest (hvalue.links_eq.trans hlinks) hvalue.scope
      (hvalue.toGrows.value_le hinput) fun other hother => ?_).mono fun _ _ => .after hvalue.toGrows
    rcases List.mem_cons.mp hother with rfl | hmem
    · exact hvalue.value_le
    · exact hvalue.toGrows.value_le (hvalues other hmem)
termination_by structural nodes

/-- The parts of an object end, and what they make refers to streams that exist. -/
theorem ends_applyEntries (hgrounded : links.Grounded) (nodes : List (String × Node))
    {store : Store} {input : Value} {values : List (String × Value)}
    (hlinks : store.links = links) (hscope : store.Scoped)
    (hinput : input.streamBound ≤ store.streams.size)
    (hvalues : ∀ value ∈ values, value.2.streamBound ≤ store.streams.size) :
    Ends (evaluator.applyEntries nodes input values) store
      fun results => Made store (.mapping results) := by
  match nodes with
  | [] => exact .pure ⟨.refl hscope, by simpa using hvalues⟩
  | (key, node) :: rest =>
    have hnode := endsOn_apply hgrounded node hlinks hscope hinput
    refine .bind (hnode.orRelease _) fun value middle hvalue => ?_
    refine (ends_applyEntries hgrounded rest (hvalue.links_eq.trans hlinks) hvalue.scope
      (hvalue.toGrows.value_le hinput) fun other hother => ?_).mono fun _ _ => .after hvalue.toGrows
    rcases List.mem_cons.mp hother with rfl | hmem
    · exact hvalue.value_le
    · exact hvalue.toGrows.value_le (hvalues other hmem)
termination_by structural nodes

end

/-- A run that goes on with any value comes to an end. -/
theorem isSome_continueRun (hgrounded : links.Grounded) (program : Program) {value : Value}
    {store : Store} (hlinks : store.links = links) (hscope : store.Scoped)
    (hvalue : value.streamBound ≤ store.streams.size) :
    (evaluator.continueRun program value store).isSome = true := by
  induction program generalizing value store with
  | nil => rfl
  | cons node rest ih =>
    obtain ⟨result, after, hrun, hmade⟩ : Ends (evaluator.apply node _) store (Made store) :=
      endsOn_apply hgrounded node hlinks hscope hvalue
    simp only [continueRun, hrun]
    cases result with
    | error error => rfl
    | ok next =>
      have hmade := hmade next rfl
      exact ih (hmade.links_eq.trans hlinks) hmade.scope hmade.value_le

/-- Every run has an outcome. -/
theorem isSome_run (hgrounded : links.Grounded) (program : Program) {input : Value} {store : Store}
    (hlinks : store.links = links) (hscope : store.Scoped)
    (hinput : input.streamBound ≤ store.streams.size) :
    (evaluator.run program input store).isSome = true := by
  cases program with
  | nil => rfl
  | cons node rest =>
    obtain ⟨result, after, hrun, hmade⟩ : Ends (evaluator.apply node _) store (Made store) :=
      endsOn_apply hgrounded node hlinks hscope hinput
    simp only [run, hrun]
    cases result with
    | error error => rfl
    | ok value =>
      have hmade := hmade value rfl
      exact isSome_continueRun hgrounded rest (hmade.links_eq.trans hlinks)
        hmade.scope hmade.value_le

end Evaluator

end Ending

end Sluice
