import Sluice.Store.Basic

/-!
# Links

A link starts out unresolved and is resolved at most once. It never fetches by itself: whoever
needs its value asks for it and keeps the answer with `Store.resolve`. Resolving changes nothing
but the target of an unresolved link (`linkTarget?_resolve`, `linkTarget?_resolve_of_ne`).
-/

namespace Sluice.Store

/-- A new link to a path. -/
def newLink (path : String) (store : Store) : Handle .link × Store :=
  let (handle, links) := store.links.push { path := path }
  (handle, { store with links := links })

/-- The path of a link. -/
def linkPath (store : Store) (link : Handle .link) : String := (store.links.get link).path

/-- The value of a link, if it is resolved. -/
def linkTarget? (store : Store) (link : Handle .link) : Option Value :=
  (store.links.get link).target

/-- Whether a link has a value. -/
def isResolved (store : Store) (link : Handle .link) : Bool := (store.linkTarget? link).isSome

/-- Keeps a value as the target of a link. A link that has one keeps it. -/
def resolve (link : Handle .link) (value : Value) (store : Store) :
    Except ValueError Unit × Store :=
  let cell := store.links.get link
  match cell.target with
  | some _ => (.error (.alreadyResolved cell.path), store)
  | none =>
    (.ok (), { store with links := store.links.set link { cell with target := some value } })

/-- After it is resolved a link has its first target. -/
theorem linkTarget?_resolve (store : Store) (link : Handle .link) (value : Value) :
    (store.resolve link value).2.linkTarget? link =
      some ((store.linkTarget? link).getD value) := by
  simp only [resolve, linkTarget?]
  cases htarget : (store.links.get link).target with
  | some target => simp [htarget]
  | none =>
    have hbound : link.index < store.links.size := by
      refine Decidable.byContradiction fun hout => ?_
      rw [Table.get_of_size_le (Nat.le_of_not_lt hout)] at htarget
      exact absurd htarget (by simp [default])
    simp [Table.get_set_self hbound]

/-- Resolving one link leaves the value of another as it is. -/
theorem linkTarget?_resolve_of_ne (store : Store) {link other : Handle .link} (h : other ≠ link)
    (value : Value) :
    (store.resolve link value).2.linkTarget? other = store.linkTarget? other := by
  simp only [resolve, linkTarget?]
  cases (store.links.get link).target with
  | some target => rfl
  | none => simp [Table.get_set_of_ne _ h]

/-- A link as it is shown for inspection. -/
def describeLink (store : Store) (link : Handle .link) : String :=
  "Link \x7b path: " ++ Text.quote (store.linkPath link) ++
    ", resolved: " ++ toString (store.isResolved link) ++ " \x7d"

end Sluice.Store
