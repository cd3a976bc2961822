import Sluice.Value.Basic

/-!
# Tables of cells

A table holds the cells of one kind of stored thing, numbered in the order in which they were
added. Cells are never removed. A handle that no cell belongs to reads as the default cell, which
for every kind of thing is one that has nothing left to give, and writing through it changes
nothing.
-/

namespace Sluice

/-- The cells of one kind of stored thing. -/
structure Table (resource : Resource) (α : Type) where
  cells : Array α := #[]

namespace Table

variable {resource : Resource} {α : Type}

/-- How many cells there are. -/
def size (table : Table resource α) : Nat := table.cells.size

/-- The cell of a handle. -/
def get [Inhabited α] (table : Table resource α) (handle : Handle resource) : α :=
  table.cells[handle.index]?.getD default

/-- Replaces the cell of a handle. -/
def set (table : Table resource α) (handle : Handle resource) (cell : α) : Table resource α :=
  ⟨table.cells.setIfInBounds handle.index cell⟩

/-- Adds a cell. -/
def push (table : Table resource α) (cell : α) : Handle resource × Table resource α :=
  (⟨table.cells.size⟩, ⟨table.cells.push cell⟩)

/-- Replacing a cell adds none. -/
@[simp] theorem size_set (table : Table resource α) (handle : Handle resource) (cell : α) :
    (table.set handle cell).size = table.size := by
  simp [set, size]

/-- Pushing a cell adds one. -/
@[simp] theorem size_push (table : Table resource α) (cell : α) :
    (table.push cell).2.size = table.size + 1 := by
  simp [push, size]

/-- A handle from elsewhere reads the default cell. -/
theorem get_of_size_le [Inhabited α] {table : Table resource α} {handle : Handle resource}
    (h : table.size ≤ handle.index) : table.get handle = default := by
  simp only [size] at h
  simp [get, h]

/-- A cell that is replaced reads as what it was replaced by. -/
theorem get_set_self [Inhabited α] {table : Table resource α} {handle : Handle resource}
    (h : handle.index < table.size) (cell : α) : (table.set handle cell).get handle = cell := by
  simp only [size] at h
  simp [get, set, h]

/-- Replacing a cell leaves the others as they are. -/
theorem get_set_of_ne [Inhabited α] (table : Table resource α) {handle other : Handle resource}
    (h : other ≠ handle) (cell : α) : (table.set handle cell).get other = table.get other := by
  have hindex : handle.index ≠ other.index := by
    intro heq
    apply h
    cases other
    cases handle
    simp_all
  simp [get, set, hindex]

/-- A new cell reads as what was pushed. -/
theorem get_push_self [Inhabited α] (table : Table resource α) (cell : α) :
    (table.push cell).2.get (table.push cell).1 = cell := by
  simp [get, push]

/-- Pushing leaves the cells that there are. -/
theorem get_push_of_lt [Inhabited α] {table : Table resource α} {handle : Handle resource}
    (h : handle.index < table.size) (cell : α) :
    (table.push cell).2.get handle = table.get handle := by
  simp only [size] at h
  simp [get, push, Array.getElem?_push, Nat.ne_of_lt h]

/-- Adding a cell changes no other cell, not even those that there are not. -/
theorem get_push_of_ne [Inhabited α] {table : Table resource α} {handle : Handle resource}
    {cell : α} (h : handle ≠ (table.push cell).1) :
    (table.push cell).2.get handle = table.get handle := by
  rcases handle with ⟨index⟩
  have hindex : index ≠ table.cells.size := by simpa [push] using h
  simp [get, push, Array.getElem?_push, hindex]

end Table

end Sluice
