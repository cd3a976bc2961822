/-!
# Sources of bytes

A source hands out its bytes once, in order. One read may give fewer bytes than there is room for;
that it gives none, though there is room, marks the end. Reading up to a limit goes on until the
limit or the end is reached. From a source without faults it therefore gives exactly the next bytes
up to the limit, however they are split into single reads (`readUpTo_of_flows`).
-/

namespace Sluice

/-- Bytes that are still to be handed out, and how the source behaves. -/
structure ByteSource where
  data : List UInt8
  handedOut : Nat := 0
  /-- The most that one read gives, by the number of bytes handed out before. -/
  burst : Nat → Option Nat := fun _ => none
  /-- After so many bytes in all, or at the end of the data, reads fail with this text. -/
  readFault : Option (Nat × String) := none
  closeFault : Option String := none

namespace ByteSource

/-- How many bytes one read gives at most. -/
def reach (source : ByteSource) (room : Nat) : Nat :=
  let limit := match source.burst source.handedOut with
    | none => room
    | some burst => min room burst
  match source.readFault with
  | none => limit
  | some (total, _) => min limit (total - source.handedOut)

/-- The source after so many of its bytes have been handed out, or all of them. -/
def advance (source : ByteSource) (count : Nat) : ByteSource :=
  { source with
    data := source.data.drop count
    handedOut := source.handedOut + min count source.data.length }

/-- One read into a buffer with `room` for so many bytes. -/
def read (source : ByteSource) (room : Nat) : Except String (List UInt8) × ByteSource :=
  if room = 0 then (.ok [], source)
  else
    let chunk := source.data.take (source.reach room)
    let given := (.ok chunk, source.advance chunk.length)
    match source.readFault with
    | none => given
    | some (_, text) => if chunk.isEmpty then (.error text, source) else given

/-- Reads until `room` bytes have come, the end is reached or a read fails. Every read before that
gives at least one byte, so `room` reads are enough. -/
def fill : (reads room : Nat) → ByteSource → Except String (List UInt8) × ByteSource
  | 0, _, source => (.ok [], source)
  | reads + 1, room, source =>
    match source.read room with
    | (.error text, source) => (.error text, source)
    | (.ok chunk, source) =>
      if chunk.isEmpty then (.ok [], source)
      else
        let (rest, source) := fill reads (room - chunk.length) source
        (rest.map (chunk ++ ·), source)

/-- Reads at most `limit` bytes, fewer only at the end. -/
def readUpTo (source : ByteSource) (limit : Nat) : Except String (List UInt8) × ByteSource :=
  fill limit limit source

/-- Reads all bytes that are left. There is room for one more than that, so reading stops only at
the end. -/
def readToEnd (source : ByteSource) : Except String (List UInt8) × ByteSource :=
  source.readUpTo (source.data.length + 1)

/-- A source flows if its reads do not fail, and give a byte where there is one and room for it. -/
def Flows (source : ByteSource) : Prop :=
  source.readFault = none ∧ ∀ handedOut, source.burst handedOut ≠ some 0

/-- Handing out no bytes leaves a source as it is. -/
@[simp] theorem advance_zero (source : ByteSource) : source.advance 0 = source := by
  simp [advance]

/-- What is handed out in two parts may as well be handed out at once. -/
theorem advance_advance (source : ByteSource) (first second : Nat) :
    (source.advance first).advance second = source.advance (first + second) := by
  simp only [advance, List.drop_drop, List.length_drop, ByteSource.mk.injEq, and_true, true_and]
  omega

/-- A source that flows goes on to do so. -/
theorem Flows.advance {source : ByteSource} (h : source.Flows) (count : Nat) :
    (source.advance count).Flows := h

/-- A source that flows gives at least one byte where there is room. -/
theorem Flows.reach_pos {source : ByteSource} (h : source.Flows) {room : Nat} (hroom : 0 < room) :
    0 < source.reach room := by
  obtain ⟨hfault, hburst⟩ := h
  have hne := hburst source.handedOut
  unfold reach
  rw [hfault]
  cases hb : source.burst source.handedOut with
  | none => exact hroom
  | some burst =>
    have hpos : burst ≠ 0 := by
      intro hzero
      exact hne (by rw [hb, hzero])
    simp only
    omega

/-- A read gives no more bytes than there is room for. -/
theorem reach_le (source : ByteSource) (room : Nat) : source.reach room ≤ room := by
  unfold reach
  cases source.burst source.handedOut <;> cases source.readFault <;> simp only <;> omega

/-- One read from a source that flows gives bytes from the front, at least one if there is one. -/
theorem Flows.exists_read_eq {source : ByteSource} (h : source.Flows) {room : Nat}
    (hroom : 0 < room) :
    ∃ count, count ≤ room ∧ count ≤ source.data.length ∧
      (source.data ≠ [] → 0 < count) ∧
      source.read room = (.ok (source.data.take count), source.advance count) := by
  have hpos := h.reach_pos hroom
  have hle := source.reach_le room
  have hlength : (source.data.take (source.reach room)).length =
      min (source.reach room) source.data.length := List.length_take
  refine ⟨min (source.reach room) source.data.length, by omega, by omega, ?_, ?_⟩
  · intro hne
    have hdata : 0 < source.data.length := List.length_pos_iff.mpr hne
    omega
  · have hne : room ≠ 0 := by omega
    have htake : source.data.take (min (source.reach room) source.data.length) =
        source.data.take (source.reach room) := by
      rw [← List.take_take, List.take_length]
    simp only [read, hne, if_false, h.1, hlength, htake]

/-- Filling a buffer from a source that flows takes the next bytes, as many as there is room for. -/
theorem fill_of_flows {source : ByteSource} (h : source.Flows) {reads room : Nat}
    (hreads : room ≤ reads) :
    fill reads room source = (.ok (source.data.take room), source.advance room) := by
  induction reads generalizing room source with
  | zero =>
    obtain rfl : room = 0 := by omega
    simp [fill]
  | succ reads ih =>
    rcases Nat.eq_zero_or_pos room with rfl | hroom
    · simp [fill, read]
    · obtain ⟨count, hroomle, hdatale, hpos, hread⟩ := h.exists_read_eq hroom
      simp only [fill, hread]
      rcases Nat.eq_zero_or_pos count with rfl | hcount
      · have hdata : source.data = [] := by
          by_cases hnil : source.data = []
          · exact hnil
          · exact absurd (hpos hnil) (by omega)
        simp [advance, hdata]
      · have hlength : (source.data.take count).length = count := by
          rw [List.length_take]
          omega
        have hchunk : (source.data.take count).isEmpty = false := by
          rw [List.isEmpty_eq_false_iff, ← List.length_pos_iff, hlength]
          exact hcount
        have hsplit : count + (room - count) = room := by omega
        rw [hchunk, hlength, ih (h.advance count) (by omega), advance_advance, hsplit]
        simp only [Bool.false_eq_true, if_false, Except.map, advance, ← List.take_add, hsplit]

/-- Reading up to a limit from a source that flows takes the next bytes up to the limit. -/
theorem readUpTo_of_flows {source : ByteSource} (h : source.Flows) (limit : Nat) :
    source.readUpTo limit = (.ok (source.data.take limit), source.advance limit) :=
  fill_of_flows h (Nat.le_refl limit)

/-- Reading to the end of a source that flows takes all bytes that are left. -/
theorem readToEnd_of_flows {source : ByteSource} (h : source.Flows) :
    source.readToEnd = (.ok source.data, source.advance (source.data.length + 1)) := by
  rw [readToEnd, readUpTo_of_flows h, List.take_of_length_le (by omega)]

end ByteSource

/-- A source that is dropped when it is closed; after that it gives no bytes. -/
structure Reader where
  source : Option ByteSource

namespace Reader

/-- A reader of bytes in memory. -/
def ofBytes (data : List UInt8) : Reader := ⟨some { data := data }⟩

/-- One read into a buffer with `room` for so many bytes. -/
def read (reader : Reader) (room : Nat) : Except String (List UInt8) × Reader :=
  match reader.source with
  | none => (.ok [], reader)
  | some source =>
    let (result, source) := source.read room
    (result, ⟨some source⟩)

/-- Drops the source. -/
def close (_ : Reader) : Reader := ⟨none⟩

end Reader

end Sluice
