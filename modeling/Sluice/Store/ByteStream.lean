import Sluice.Store.Basic

/-!
# Byte streams

A byte stream is shared by all holders of its handle. Reading consumes; once the stream is closed
reading gives no bytes and does not reach the source, and only the first close does.
-/

namespace Sluice.Store

/-- A new byte stream over a source. -/
def newByteStream (source : ByteSource) (store : Store) : Handle .byteStream × Store :=
  let (handle, byteStreams) := store.byteStreams.push { source := source }
  (handle, { store with byteStreams := byteStreams })

/-- Whether a byte stream has been closed. -/
def isByteStreamClosed (store : Store) (stream : Handle .byteStream) : Bool :=
  (store.byteStreams.get stream).closed

/-- Applies a read to the source of an open stream. -/
def readWith (read : ByteSource → Except String (List UInt8) × ByteSource)
    (stream : Handle .byteStream) (store : Store) : Except String (List UInt8) × Store :=
  let cell := store.byteStreams.get stream
  if cell.closed then (.ok [], store)
  else
    let (result, source) := read cell.source
    let store := store.record (.read stream)
    (result, { store with
      byteStreams := store.byteStreams.set stream { cell with source := source } })

/-- Reads at most `limit` bytes, fewer only at the end. -/
def readUpTo (stream : Handle .byteStream) (limit : Nat) :
    Store → Except String (List UInt8) × Store :=
  readWith (fun source => source.readUpTo limit) stream

/-- Reads all bytes that are left. -/
def readToEnd (stream : Handle .byteStream) : Store → Except String (List UInt8) × Store :=
  readWith ByteSource.readToEnd stream

/-- Closes a byte stream. Bytes not read are lost. -/
def closeByteStream (stream : Handle .byteStream) (store : Store) :
    Except String Unit × Store :=
  let cell := store.byteStreams.get stream
  if cell.closed then (.ok (), store)
  else
    let result := match cell.source.closeFault with
      | none => .ok ()
      | some fault => .error fault
    let store := store.record (.closedByteStream stream)
    (result, { store with
      byteStreams :=
        store.byteStreams.set stream { cell with closed := true, closes := cell.closes + 1 } })

/-- A byte stream as it is shown for inspection. -/
def describeByteStream (store : Store) (stream : Handle .byteStream) : String :=
  "ByteStreamHandle \x7b closed: " ++ toString (store.isByteStreamClosed stream) ++ ", .. \x7d"

end Sluice.Store
