import Sluice.Proofs.Store.Histories
import Sluice.Proofs.Store.Sparing

/-!
# Reading byte streams

Whatever is called on the handles of a byte stream, what is returned are the bytes of its source, in
order, without a gap and none of them twice (`reads_in_order`). Each read before the first close
gets the next bytes, as many as it asks for or all that are left, and takes no more than these from
the source. After the first close reads get nothing and the source is left alone.
-/

namespace Sluice

namespace ByteStream

/-- What the holders of a byte stream can call. -/
inductive Call
  | readUpTo (limit : Nat)
  | readToEnd
  | close
  deriving DecidableEq

/-- The bytes of an answer, or the text of a failure. -/
abbrev Answer := Except String (List UInt8)

namespace Call

/-- Whether a call is the closing one. -/
def isClose : Call → Bool
  | close => true
  | readUpTo _ | readToEnd => false

/-- What reaches the source of an open stream by a call. -/
def event (stream : Handle .byteStream) : Call → Event
  | close => .closedByteStream stream
  | readUpTo _ | readToEnd => .read stream

end Call

/-- The bytes that an answer hands over. -/
def Answer.bytes : Answer → List UInt8
  | .ok bytes => bytes
  | .error _ => []

/-- The bytes that were returned, in order. -/
def returned (events : List (Call × Answer)) : List UInt8 :=
  events.flatMap fun event => event.2.bytes

/-- Whether a byte stream has been closed. -/
def hasClosed (events : List (Call × Answer)) : Bool := (events.map Prod.fst).any Call.isClose

/-- The answer of a call after others. A read before the first close gets what comes next in the
data of the source. -/
def Call.answer (source : ByteSource) (past : List (Call × Answer)) (call : Call) : Answer :=
  if hasClosed past then .ok []
  else
    let rest := source.data.drop (returned past).length
    match call with
    | readUpTo limit => .ok (rest.take limit)
    | readToEnd => .ok rest
    | close => source.closeFault.elim (.ok []) .error

/-- One more call returns the bytes of its answer. -/
theorem returned_concat (past : List (Call × Answer)) (call : Call) (answer : Answer) :
    returned (past ++ [(call, answer)]) = returned past ++ answer.bytes := by
  simp [returned]

end ByteStream

namespace Store

open ByteStream

/-- A call on a byte stream. A close returns no bytes. -/
def callByteStream (stream : Handle .byteStream) : Call → Store → Answer × Store
  | .readUpTo limit, store => readUpTo stream limit store
  | .readToEnd, store => readToEnd stream store
  | .close, store =>
    let (result, store) := store.closeByteStream stream
    (result.map fun _ => [], store)

section Calls

variable {stream : Handle .byteStream} {store : Store}
  {read : ByteSource → Except String (List UInt8) × ByteSource}

/-- A closed byte stream gives no bytes, and its source is not asked. -/
theorem readWith_of_closed (h : store.isByteStreamClosed stream = true) :
    readWith read stream store = (.ok [], store) := if_pos h

/-- Reading from an open byte stream is recorded and reads from its source. -/
theorem readWith_of_open (h : store.isByteStreamClosed stream = false) :
    readWith read stream store =
      ((read (store.byteStreams.get stream).source).1,
        { store.record (.read stream) with
          byteStreams := store.byteStreams.set stream { store.byteStreams.get stream with
            source := (read (store.byteStreams.get stream).source).2 } }) := by
  rw [isByteStreamClosed] at h
  exact if_neg (by simp [h])

/-- Closing a closed byte stream does nothing. -/
theorem closeByteStream_of_closed (h : store.isByteStreamClosed stream = true) :
    store.closeByteStream stream = (.ok (), store) := if_pos h

/-- Closing an open byte stream is recorded and calls the close of its source. -/
theorem closeByteStream_of_open (h : store.isByteStreamClosed stream = false) :
    store.closeByteStream stream =
      ((store.byteStreams.get stream).source.closeFault.elim (.ok ()) .error,
        { store.record (.closedByteStream stream) with
          byteStreams := store.byteStreams.set stream { store.byteStreams.get stream with
            closed := true
            closes := (store.byteStreams.get stream).closes + 1 } }) := by
  rw [isByteStreamClosed] at h
  rw [closeByteStream, if_neg (by simp [h])]
  cases (store.byteStreams.get stream).source.closeFault <;> rfl

/-- Every call on a closed byte stream gives no bytes and changes nothing. -/
theorem callByteStream_of_closed (h : store.isByteStreamClosed stream = true) (call : Call) :
    callByteStream stream call store = (.ok [], store) := by
  cases call with
  | readUpTo limit => rw [callByteStream, readUpTo, readWith_of_closed h]
  | readToEnd => rw [callByteStream, readToEnd, readWith_of_closed h]
  | close =>
    rw [callByteStream, closeByteStream_of_closed h]
    rfl

/-- A call reaches an open stream, and leaves in its place what it makes of it. -/
theorem exists_callByteStream_of_open (h : store.isByteStreamClosed stream = false) (call : Call) :
    ∃ cell : ByteStream,
      (callByteStream stream call store).2.byteStreams = store.byteStreams.set stream cell ∧
      (callByteStream stream call store).2.journal = [call.event stream] ++ store.journal ∧
      cell.closed = call.isClose ∧
      cell.closes = (store.byteStreams.get stream).closes + if call.isClose then 1 else 0 := by
  cases call with
  | readUpTo limit =>
    rw [callByteStream, readUpTo, readWith_of_open h]
    exact ⟨_, rfl, rfl, h, rfl⟩
  | readToEnd =>
    rw [callByteStream, readToEnd, readWith_of_open h]
    exact ⟨_, rfl, rfl, h, rfl⟩
  | close =>
    rw [callByteStream, closeByteStream_of_open h]
    exact ⟨_, rfl, rfl, rfl, rfl⟩

/-- The handle of a byte stream guards its source. -/
theorem guarded_byteStream (stream : Handle .byteStream) :
    Guarded (.byteStream stream) Call.isClose (fun call => some (call.event stream))
      (callByteStream stream) := by
  have hset {store : Store} (hopen : store.isClosed (.byteStream stream) = false)
      (cell : ByteStream) : (store.byteStreams.set stream cell).get stream = cell :=
    Table.get_set_self (has_of_isClosed_eq_false hopen) cell
  refine ⟨fun call store hclosed => ?_, fun call store hopen => ?_, fun call store hopen => ?_,
    fun call store hopen => ?_⟩
  · rw [callByteStream_of_closed hclosed]
    exact ⟨rfl, rfl, rfl⟩
  all_goals
    obtain ⟨cell, hcell, hjournal, hclosed, hcloses⟩ := exists_callByteStream_of_open hopen call
  · have hevent : (call.event stream).source? = some (.byteStream stream) := by cases call <;> rfl
    rw [reached_of_journal_eq hjournal]
    simp [hevent]
  · rw [isClosed, isByteStreamClosed, hcell, hset hopen, hclosed]
  · rw [closes, hcell, hset hopen, hcloses]
    rfl

end Calls

/-- Whether the source of a byte stream has handed out exactly what was returned, and goes on as it
did at the start. -/
structure HandedOut (source : ByteSource) (stream : Handle .byteStream)
    (past : List (Call × Answer)) (store : Store) : Prop where
  data_eq : returned past ++ (store.byteStreams.get stream).source.data = source.data
  handedOut_eq : (store.byteStreams.get stream).source.handedOut =
    source.handedOut + (returned past).length
  flows : (store.byteStreams.get stream).source.Flows
  closeFault_eq : (store.byteStreams.get stream).source.closeFault = source.closeFault

section HandedOut

variable {source : ByteSource} {stream : Handle .byteStream} {past : List (Call × Answer)}
  {store after : Store} {call : Call}

/-- The source goes on behind what was returned. -/
theorem HandedOut.drop_eq (h : HandedOut source stream past store) :
    source.data.drop (returned past).length = (store.byteStreams.get stream).source.data := by
  rw [← h.data_eq, List.drop_left]

/-- Where nothing is returned, the source stays as it is. -/
theorem HandedOut.keep (h : HandedOut source stream past store) {answer : Answer}
    (hbytes : answer.bytes = [])
    (hsource : (after.byteStreams.get stream).source = (store.byteStreams.get stream).source) :
    HandedOut source stream (past ++ [(call, answer)]) after := by
  obtain ⟨hdata, hcount, hflows, hfault⟩ := h
  have hreturned : returned (past ++ [(call, answer)]) = returned past := by
    rw [returned_concat, hbytes, List.append_nil]
  exact ⟨by rw [hreturned, hsource, hdata], by rw [hreturned, hsource, hcount],
    by rwa [hsource], by rw [hsource, hfault]⟩

/-- Reading on returns what is next in the source. -/
theorem HandedOut.read (h : HandedOut source stream past store) {bytes : List UInt8} {count : Nat}
    (hbytes : bytes = (store.byteStreams.get stream).source.data.take count)
    (hsource : (after.byteStreams.get stream).source =
      (store.byteStreams.get stream).source.advance count) :
    HandedOut source stream (past ++ [(call, .ok bytes)]) after := by
  obtain ⟨hdata, hcount, hflows, hfault⟩ := h
  refine ⟨?_, ?_, ?_, ?_⟩
  · rw [returned_concat, hsource, List.append_assoc, hbytes]
    exact (congrArg (returned past ++ ·) (List.take_append_drop count _)).trans hdata
  · rw [returned_concat, hsource, List.length_append, hbytes]
    simp only [ByteSource.advance, Answer.bytes, List.length_take]
    omega
  · rw [hsource]
    exact hflows.advance count
  · rw [hsource]
    exact hfault

/-- A call after others gets its answer, and what it returns is handed out. -/
theorem HandedOut.called (h : HandedOut source stream past store)
    (hclosed : store.isByteStreamClosed stream = hasClosed past) (call : Call) :
    (callByteStream stream call store).1 = call.answer source past ∧
      HandedOut source stream (past ++ [(call, (callByteStream stream call store).1)])
        (callByteStream stream call store).2 := by
  rw [Call.answer]
  cases hpast : hasClosed past with
  | true =>
    rw [callByteStream_of_closed (hclosed.trans hpast)]
    exact ⟨rfl, h.keep rfl rfl⟩
  | false =>
    have hopen := hclosed.trans hpast
    have hhas : store.Has (.byteStream stream) := has_of_isClosed_eq_false hopen
    have hset (cell : ByteStream) : (store.byteStreams.set stream cell).get stream = cell :=
      Table.get_set_self hhas cell
    rw [if_neg (by simp), h.drop_eq]
    cases call with
    | readUpTo limit =>
      rw [callByteStream, readUpTo, readWith_of_open hopen,
        ByteSource.readUpTo_of_flows h.flows limit]
      exact ⟨rfl, h.read rfl (by rw [hset])⟩
    | readToEnd =>
      have hall := List.take_of_length_le
        (Nat.le_succ (store.byteStreams.get stream).source.data.length)
      rw [callByteStream, readToEnd, readWith_of_open hopen, ByteSource.readToEnd_of_flows h.flows]
      exact ⟨rfl, h.read hall.symm (by rw [hset])⟩
    | close =>
      rw [callByteStream, closeByteStream_of_open hopen, ← h.closeFault_eq]
      cases hfault : (store.byteStreams.get stream).source.closeFault with
      | none => exact ⟨rfl, h.keep rfl (by rw [hset])⟩
      | some fault => exact ⟨rfl, h.keep rfl (by rw [hset])⟩

/-- After a history that starts with an open stream, its source has handed out what was returned. -/
theorem handedOut_of_history {opened : Store} (hflows : source.Flows)
    (hcell : opened.byteStreams.get stream = { source := source })
    (h : History (Untouched (.byteStream stream)) (callByteStream stream) opened past store) :
    Guarded.After (.byteStream stream) Call.isClose (fun call => some (call.event stream)) opened
        (past.map Prod.fst) store ∧
      HandedOut source stream past store := by
  have hopen : opened.isClosed (.byteStream stream) = false := by
    rw [isClosed, isByteStreamClosed, hcell]
  have hguarded {past : List (Call × Answer)} {store : Store}
      (hpast :
        History (Untouched (.byteStream stream)) (callByteStream stream) opened past store) :=
    (guarded_byteStream stream).after_history hopen (hpast.mono fun _ _ => Untouched.unreached)
  refine ⟨hguarded h, ?_⟩
  induction h with
  | start => exact ⟨by rw [hcell]; rfl, by rw [hcell]; rfl, by rwa [hcell], by rw [hcell]⟩
  | @between _ store after _ hafter ih =>
    have hsame : after.byteStreams.get stream = store.byteStreams.get stream := hafter.sameCell
    obtain ⟨hdata, hcount, hflows, hfault⟩ := ih
    exact ⟨by rw [hsame, hdata], by rw [hsame, hcount], by rwa [hsame], by rw [hsame, hfault]⟩
  | called call hpast ih => exact (ih.called (hguarded hpast).isClosed_eq call).2

/-- The next call after such a history gets its answer. -/
theorem fst_callByteStream_of_history {opened : Store} (hflows : source.Flows)
    (hcell : opened.byteStreams.get stream = { source := source })
    (h : History (Untouched (.byteStream stream)) (callByteStream stream) opened past store)
    (call : Call) : (callByteStream stream call store).1 = call.answer source past := by
  obtain ⟨⟨hclosed, _, _⟩, hhanded⟩ := handedOut_of_history hflows hcell h
  exact (hhanded.called hclosed call).1

end HandedOut

/-- After any calls on a new byte stream, what was returned and what its source has left make up the
data, and the source has handed out as many bytes as were returned. Every read before the first
close got the next bytes, as many as it asked for or all that were left, and every read after it got
none. The source was reached by the calls up to the first close only, and its close was called once
if there was one. -/
theorem reads_in_order {source : ByteSource} (hflows : source.Flows) {start opened final : Store}
    {stream : Handle .byteStream} (hnew : start.newByteStream source = (stream, opened))
    {events : List (Call × Answer)}
    (h : History (Untouched (.byteStream stream)) (callByteStream stream) opened events final) :
    let left := (final.byteStreams.get stream).source
    returned events ++ left.data = source.data ∧
    left.handedOut = source.handedOut + (returned events).length ∧
    final.closes (.byteStream stream) = (if hasClosed events then 1 else 0) ∧
    final.reached (.byteStream stream) = start.reached (.byteStream stream) ++
      (untilClosed Call.isClose (events.map Prod.fst)).map (Call.event stream) ∧
    ∀ past call answer later, events = past ++ (call, answer) :: later →
      answer = call.answer source past := by
  intro left
  have hcell : opened.byteStreams.get stream = { source := source } := by
    cases hnew
    exact Table.get_push_self _ _
  have hreached : opened.reached (.byteStream stream) = start.reached (.byteStream stream) := by
    cases hnew
    rfl
  obtain ⟨⟨_, hcloses, hevents⟩, hdata, hcount, _, _⟩ := handedOut_of_history hflows hcell h
  refine ⟨hdata, hcount, ?_, ?_, ?_⟩
  · rw [hcloses, closes, hcell, Nat.zero_add]
    rfl
  · rw [hevents, hreached, List.filterMap_eq_map']
  · intro past call answer later hsplit
    obtain ⟨store, hpast, hanswer⟩ := h.exists_before hsplit
    rw [← hanswer]
    exact fst_callByteStream_of_history hflows hcell hpast call

/-- A source that gives two bytes at a time and fails to close: three bytes are asked for, then the
others, and after the close there is nothing left to read. -/
theorem reads_in_order_of_bursts :
    let source : ByteSource :=
      { data := [1, 2, 3, 4, 5], burst := fun _ => some 2, closeFault := some "gone" }
    ∃ opened final : Store, source.Flows ∧ Store.newByteStream source {} = (⟨0⟩, opened) ∧
      History (Untouched (.byteStream ⟨0⟩)) (callByteStream ⟨0⟩) opened
        [(.readUpTo 3, .ok [1, 2, 3]), (.readToEnd, .ok [4, 5]), (.close, .error "gone"),
          (.readUpTo 4, .ok [])] final ∧
      (final.byteStreams.get ⟨0⟩).source.handedOut = 5 ∧
      final.closes (.byteStream ⟨0⟩) = 1 ∧
      final.reached (.byteStream ⟨0⟩) = [.read ⟨0⟩, .read ⟨0⟩, .closedByteStream ⟨0⟩] := by
  intro source
  have hflows : source.Flows := ⟨rfl, fun _ => by simp [source]⟩
  let opened := (Store.newByteStream source {}).2
  have hnew : Store.newByteStream source {} = (⟨0⟩, opened) := rfl
  have hcalled {past : List (Call × Answer)} {store : Store}
      (h : History (Untouched (.byteStream ⟨0⟩)) (callByteStream ⟨0⟩) opened past store)
      (call : Call) : History (Untouched (.byteStream ⟨0⟩)) (callByteStream ⟨0⟩) opened
        (past ++ [(call, call.answer source past)]) (callByteStream ⟨0⟩ call store).2 :=
    h.called_of_eq (fst_callByteStream_of_history hflows rfl h call)
  have hread := hcalled (hcalled .start (.readUpTo 3)) .readToEnd
  have hhistory := hcalled (hcalled hread .close) (.readUpTo 4)
  obtain ⟨_, hcount, hcloses, hreached, _⟩ := reads_in_order hflows hnew hhistory
  exact ⟨opened, _, hflows, hnew, hhistory, hcount, hcloses, hreached⟩

end Store

end Sluice
