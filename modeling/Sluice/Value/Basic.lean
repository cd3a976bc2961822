/-!
# Values

Everything a filter can see is a `Value`: a scalar, a compound of values, or a handle to something
that lives in the store, such as a link that has yet to be fetched or an iterator that can be run
through once. Two handles are the same exactly when they name the same cell.
-/

namespace Sluice

/-- The kinds of things that live in the store and are reached through handles. -/
inductive Resource
  | link
  | map
  | array
  | iterator
  | byteStream
  | stream
  deriving DecidableEq

/-- A reference to the cell of one stored thing. -/
structure Handle (resource : Resource) where
  index : Nat
  deriving DecidableEq, Inhabited

/-- Every datum a filter can see. -/
inductive Value where
  | null
  | bool (b : Bool)
  | int (n : Int64)
  | float (x : Float)
  | byte (b : UInt8)
  | bytes (content : List UInt8)
  | text (s : String)
  /-- Values in order. -/
  | sequence (items : List Value)
  /-- Values under text keys, in the form that `Keyed` describes. -/
  | mapping (entries : List (String × Value))
  /-- Values under keys of any kind, in the order given. -/
  | dict (entries : List (Value × Value))
  /-- A reference that is fetched when it is first needed. -/
  | link (handle : Handle .link)
  /-- An associative collection reached by lookups. -/
  | map (handle : Handle .map)
  /-- An ordered collection reached by iteration. -/
  | array (handle : Handle .array)
  | iterator (handle : Handle .iterator)
  | byteStream (handle : Handle .byteStream)
  /-- The lazy sequence that fans a filter out over its elements. -/
  | stream (handle : Handle .stream)
  deriving Inhabited

namespace Value

/-- The three broad classes of values. -/
inductive Category
  | scalar
  | compound
  | complex
  deriving DecidableEq

/-- What a value is, without its content. -/
inductive Kind
  | null
  | boolean
  | integer
  | float
  | byte
  | bytes
  | text
  | sequence
  | mapping
  | dict
  | link
  | map
  | array
  | iterator
  | byteStream
  | stream
  deriving DecidableEq

/-- The short lower-case name used in messages. -/
def Kind.name : Kind → String
  | null => "null"
  | boolean => "boolean"
  | integer => "integer"
  | float => "float"
  | byte => "byte"
  | bytes => "bytes"
  | text => "text"
  | sequence => "sequence"
  | mapping => "mapping"
  | dict => "dict"
  | link => "link"
  | map => "map"
  | array => "array"
  | iterator => "iterator"
  | byteStream => "bytestream"
  | stream => "stream"

/-- The class that a kind of value belongs to. -/
def Kind.category : Kind → Category
  | null | boolean | integer | float | byte | bytes | text => .scalar
  | sequence | mapping | dict => .compound
  | link | map | array | iterator | byteStream | stream => .complex

/-- The kind of a value. -/
def kind : Value → Kind
  | null => .null
  | bool _ => .boolean
  | int _ => .integer
  | float _ => .float
  | byte _ => .byte
  | bytes _ => .bytes
  | text _ => .text
  | sequence _ => .sequence
  | mapping _ => .mapping
  | dict _ => .dict
  | link _ => .link
  | map _ => .map
  | array _ => .array
  | iterator _ => .iterator
  | byteStream _ => .byteStream
  | stream _ => .stream

/-- The name of a value's kind, as error messages have it. -/
def typeName (value : Value) : String := value.kind.name

/-- The category of a value's kind. -/
def category (value : Value) : Category := value.kind.category

/-- Whether a value is null. -/
def isNull : Value → Bool
  | null => true
  | _ => false

/-- The number that an integer, float or byte stands for, rounded to the nearest float. -/
def toFloat? : Value → Option Float
  | int n => some (Float.ofInt n.toInt)
  | float x => some x
  | byte b => some (Float.ofNat b.toNat)
  | _ => none

/-- A count as an integer value. -/
def ofCount (n : Nat) : Value := int (Int64.ofNat n)

mutual

/-- Equality of content. Different kinds never mix, handles compare by identity, and floats as
numbers, so that a NaN differs from itself. -/
def equal : Value → Value → Bool
  | null, null => true
  | bool a, bool b => a == b
  | int a, int b => a == b
  | float a, float b => a == b
  | byte a, byte b => a == b
  | bytes a, bytes b => a == b
  | text a, text b => a == b
  | sequence a, sequence b => equalItems a b
  | mapping a, mapping b => equalMapping a b
  | dict a, dict b => equalDict a b
  | link a, link b => a == b
  | map a, map b => a == b
  | array a, array b => a == b
  | iterator a, iterator b => a == b
  | byteStream a, byteStream b => a == b
  | stream a, stream b => a == b
  | _, _ => false
termination_by structural a => a

/-- Equality of sequences, item by item. -/
def equalItems : List Value → List Value → Bool
  | [], [] => true
  | a :: as, b :: bs => equal a b && equalItems as bs
  | _, _ => false
termination_by structural a => a

/-- Equality of mappings, entry by entry. -/
def equalMapping : List (String × Value) → List (String × Value) → Bool
  | [], [] => true
  | (k, a) :: as, (l, b) :: bs => k == l && equal a b && equalMapping as bs
  | _, _ => false
termination_by structural a => a

/-- Equality of dicts, in which the order of the entries counts. -/
def equalDict : List (Value × Value) → List (Value × Value) → Bool
  | [], [] => true
  | (k, a) :: as, (l, b) :: bs => equal k l && equal a b && equalDict as bs
  | _, _ => false
termination_by structural a => a

end

/-- Values are compared by `Value.equal`. -/
instance : BEq Value := ⟨equal⟩

end Value

end Sluice
