import Sluice.Filter.Parser

/-!
# The cache of parsed filters

A cache keeps the programs of the sources it has been asked for. When it is full it is emptied
before the next program goes in, and sources that are no filters are not kept. Every program that
is parsed gets a new stamp, so that two answers are the same program exactly when their stamps
agree.
-/

namespace Sluice.Filter

/-- A parsed program with the number of the parse it came from. -/
structure Stamped where
  stamp : Nat
  program : Program

/-- The programs of the sources asked for since the cache was last emptied. -/
structure Cache where
  capacity : Nat
  entries : List (String × Stamped) := []
  nextStamp : Nat := 0

namespace Cache

/-- An empty cache. It has room for at least one program. -/
def empty (capacity : Nat) : Cache := { capacity := max capacity 1 }

/-- The number of programs that are kept. -/
def size (cache : Cache) : Nat := cache.entries.length

/-- Whether no program is kept. -/
def isEmpty (cache : Cache) : Bool := cache.entries.isEmpty

/-- Drops all programs. Later ones do not get their stamps again. -/
def clear (cache : Cache) : Cache := { cache with entries := [] }

/-- The program of a source, parsed if the cache does not hold it. -/
def get (cache : Cache) (source : String) : Except SyntaxError Stamped × Cache :=
  match cache.entries.lookup source with
  | some stamped => (.ok stamped, cache)
  | none =>
    match parse source with
    | .error error => (.error error, cache)
    | .ok program =>
      let stamped := ⟨cache.nextStamp, program⟩
      let kept := if cache.capacity ≤ cache.size then [] else cache.entries
      (.ok stamped,
        { cache with entries := (source, stamped) :: kept, nextStamp := cache.nextStamp + 1 })

end Cache

end Sluice.Filter
