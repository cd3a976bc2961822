import Mathlib.Data.Finset.Card
import Mathlib.Data.Finset.Range
import Mathlib.Logic.Relation
import Sluice.Proofs.Eval.Actions

/-!
# Keys carried through links

A key that is asked of a sequence is asked of its items in turn, up to the first that refuses it. A
link stands for the value that it leads to, so a link can carry a key into other links, and even
into itself (`Table.Carries`, `Table.Endless`).
-/

namespace Sluice

namespace Value

/-- An item is smaller than its sequence. -/
theorem sizeOf_lt_of_mem_sequence {items : List Value} {item : Value} (h : item ∈ items) :
    sizeOf item < sizeOf (Value.sequence items) := by
  have hlt := List.sizeOf_lt_of_mem h
  simp only [Value.sequence.sizeOf_spec]
  omega

/-- A value is smaller than the mapping it is in. -/
theorem sizeOf_lt_of_mem_mapping {entries : List (String × Value)} {entry : String × Value}
    (h : entry ∈ entries) : sizeOf entry.2 < sizeOf (Value.mapping entries) := by
  have hlt := List.sizeOf_lt_of_mem h
  rcases entry with ⟨key, value⟩
  simp only [Value.mapping.sizeOf_spec, Prod.mk.sizeOf_spec] at hlt ⊢
  omega

/-- A key and a value are smaller than the dict they are in. -/
theorem sizeOf_lt_of_mem_dict {entries : List (Value × Value)} {entry : Value × Value}
    (h : entry ∈ entries) :
    sizeOf entry.1 < sizeOf (Value.dict entries) ∧
      sizeOf entry.2 < sizeOf (Value.dict entries) := by
  have hlt := List.sizeOf_lt_of_mem h
  rcases entry with ⟨key, value⟩
  simp only [Value.dict.sizeOf_spec, Prod.mk.sizeOf_spec] at hlt ⊢
  omega

end Value

namespace Table

/-- The value at the end of at most so many links. -/
def follow? (links : Table .link Link) : (count : Nat) → Value → Option Value
  | 0, .link _ => none
  | count + 1, .link link => (links.get link).target.bind (follow? links count)
  | _, value => some value

/-- The value that a value stands for. -/
def leadsTo? (links : Table .link Link) (value : Value) : Option Value :=
  links.follow? maxLinkDepth value

/-- Whether every link has a target. -/
def Resolved (links : Table .link Link) : Prop := ∀ link, (links.get link).target.isSome = true

variable {links : Table .link Link}

/-- A sequence leads to itself. -/
@[simp] theorem leadsTo?_sequence (items : List Value) :
    links.leadsTo? (.sequence items) = some (.sequence items) := rfl

/-- What is no link leads to itself. -/
theorem follow?_of_ne_link {count : Nat} {value : Value} (h : ∀ link, value ≠ .link link) :
    links.follow? count value = some value := by
  cases value with
  | link link => exact absurd rfl (h link)
  | _ => cases count <;> rfl

/-- Links do not lead to a link. -/
theorem ne_link_of_follow? {count : Nat} {value target : Value}
    (h : links.follow? count value = some target) : ∀ link, target ≠ .link link := by
  induction count generalizing value with
  | zero =>
    cases value with
    | link link => cases h
    | _ =>
      cases h
      intro link hlink
      cases hlink
  | succ count ih =>
    cases value with
    | link link =>
      obtain ⟨next, _, hnext⟩ := Option.bind_eq_some_iff.mp h
      exact ih hnext
    | _ =>
      cases h
      intro link hlink
      cases hlink

/-- Only a sequence or a link leads to a sequence. -/
theorem exists_link_of_leadsTo?_sequence {value : Value} {items : List Value}
    (hne : ∀ others, value ≠ .sequence others) (h : links.leadsTo? value = some (.sequence items)) :
    ∃ link, value = .link link := by
  cases value with
  | link link => exact ⟨link, rfl⟩
  | sequence others => exact absurd rfl (hne others)
  | _ => cases h

/-- A link that leads to a sequence is one of the table. -/
theorem index_lt_of_leadsTo?_sequence {link : Handle .link} {items : List Value}
    (h : links.leadsTo? (.link link) = some (.sequence items)) : link.index < links.size := by
  by_contra hout
  have htarget : (links.get link).target = some .null := by
    rw [get_of_size_le (Nat.le_of_not_lt hout)]
    rfl
  obtain ⟨next, hnext, hfollow⟩ := Option.bind_eq_some_iff.mp h
  rw [htarget] at hnext
  cases hnext
  cases hfollow

end Table

namespace Evaluator

variable {evaluator : Evaluator} {store : Store}

/-- A context that never stops evaluation lets it go on. -/
theorem run_check (hcontext : evaluator.context = .background) (store : Store) :
    evaluator.check.run store = some (.ok (), store) := by
  rw [check, Action.run_attempt, hcontext, Context.check_background]
  rfl

/-- A link that has a target is dereferenced to it, and nothing changes. -/
theorem run_resolveLink_of_some {link : Handle .link} {target : Value}
    (h : store.linkTarget? link = some target) :
    (evaluator.resolveLink link).run store = some (.ok target, store) := by
  unfold resolveLink
  rw [Computation.run_bind, Action.run_perform, h]
  rfl

/-- Following resolved links gives what they lead to, and nothing changes. -/
theorem run_follow_of_some {count : Nat} {value target : Value}
    (h : store.links.follow? count value = some target) :
    (evaluator.follow count value).run store = some (.ok target, store) := by
  induction count generalizing value with
  | zero =>
    cases value with
    | link link => cases h
    | _ =>
      cases h
      rfl
  | succ count ih =>
    cases value with
    | link link =>
      obtain ⟨next, hnext, hfollow⟩ := Option.bind_eq_some_iff.mp h
      rw [follow, Computation.run_bind, run_resolveLink_of_some hnext]
      exact ih hfollow
    | _ =>
      cases h
      rfl

/-- A chain of resolved links that is too long is reported. -/
theorem run_follow_of_none (hresolved : store.links.Resolved) {count : Nat} {value : Value}
    (h : store.links.follow? count value = none) :
    ∃ path, (evaluator.follow count value).run store = some (.error (.linkCycle path), store) := by
  induction count generalizing value with
  | zero =>
    cases value with
    | link link => exact ⟨store.linkPath link, rfl⟩
    | _ => cases h
  | succ count ih =>
    cases value with
    | link link =>
      obtain ⟨next, hnext⟩ := Option.isSome_iff_exists.mp (hresolved link)
      have hfollow : store.links.follow? count next = none := by
        simpa [Table.follow?, hnext] using h
      rw [follow, Computation.run_bind, run_resolveLink_of_some hnext]
      exact ih hfollow
    | _ => cases h

/-- Resolving gives what resolved links lead to, and nothing changes. -/
theorem run_resolve_of_some {value target : Value}
    (h : store.links.leadsTo? value = some target) :
    (evaluator.resolve value).run store = some (.ok target, store) := run_follow_of_some h

/-- Where resolved links lead nowhere, resolving fails as it meets too many, and nothing changes. -/
theorem run_resolve_of_none (hresolved : store.links.Resolved) {value : Value}
    (h : store.links.leadsTo? value = none) :
    ∃ path, (evaluator.resolve value).run store = some (.error (.linkCycle path), store) :=
  run_follow_of_none hresolved h

end Evaluator

/-- Whether a value that is neither a sequence nor a link can be asked for a key. -/
def Value.takesKey : Value → Bool
  | .sequence _ | .link _ | .iterator _ | .array _ | .byteStream _ => false
  | _ => true

namespace Table

/-- Whether asking for a key comes to an end without a failure. Streams count as run out, and
scalars give null. -/
inductive Takes (links : Table .link Link) : Value → Prop
  | entry {value target : Value} :
      links.leadsTo? value = some target → target.takesKey = true → Takes links value
  | items {value : Value} {items : List Value} :
      links.leadsTo? value = some (.sequence items) → (∀ item ∈ items, Takes links item) →
      Takes links value

/-- Whether asking one value for a key asks another, that is an item of what it stands for and comes
after items that take the key. -/
def Carries (links : Table .link Link) (outer inner : Value) : Prop :=
  ∃ before after, links.leadsTo? outer = some (.sequence (before ++ inner :: after)) ∧
    ∀ item ∈ before, links.Takes item

/-- Whether every link is resolved and none carries a key into itself. -/
structure Grounded (links : Table .link Link) : Prop where
  resolved : links.Resolved
  acyclic : ∀ link, ¬ Relation.TransGen links.Carries (.link link) (.link link)

/-- Whether a value carries a key to a link that carries it into itself. -/
def Endless (links : Table .link Link) (value : Value) : Prop :=
  ∃ link, Relation.ReflTransGen links.Carries value (.link link) ∧
    Relation.TransGen links.Carries (.link link) (.link link)

variable {links : Table .link Link}

/-- A sequence takes a key if its items do. -/
theorem Takes.items_of_sequence {items : List Value} (h : links.Takes (.sequence items)) :
    ∀ item ∈ items, links.Takes item := by
  cases h with
  | entry hlead htakes =>
    cases hlead
    cases htakes
  | items hlead hitems =>
    cases hlead
    exact hitems

/-- What carries a key on without end carries it to something that does so as well. -/
theorem Endless.exists_carries {value : Value} (h : links.Endless value) :
    ∃ inner, links.Carries value inner ∧ links.Endless inner := by
  obtain ⟨link, hreach, hcycle⟩ := h
  rcases Relation.ReflTransGen.cases_head hreach with rfl | ⟨inner, hcarries, hrest⟩
  · obtain ⟨inner, hcarries, hrest⟩ := Relation.TransGen.head'_iff.mp hcycle
    exact ⟨inner, hcarries, link, hrest, hcycle⟩
  · exact ⟨inner, hcarries, link, hrest, hcycle⟩

open Classical in
/-- The links of the table that a value carries a key to. -/
noncomputable def ahead (links : Table .link Link) (value : Value) : Finset Nat :=
  (Finset.range links.size).filter fun index =>
    Relation.ReflTransGen links.Carries value (.link ⟨index⟩)

/-- A link is ahead of a value if the value carries a key there, in any number of steps. -/
theorem mem_ahead_iff {value : Value} {index : Nat} :
    index ∈ links.ahead value ↔
      index < links.size ∧ Relation.ReflTransGen links.Carries value (.link ⟨index⟩) := by
  simp [ahead]

/-- How many links of the table a value carries a key to. -/
noncomputable def rank (links : Table .link Link) (value : Value) : Nat := (links.ahead value).card

/-- No more links are ahead than there are. -/
theorem rank_le_size (value : Value) : links.rank value ≤ links.size := by
  have hsubset : links.ahead value ⊆ Finset.range links.size := by
    intro index hindex
    exact Finset.mem_range.mpr (mem_ahead_iff.mp hindex).1
  have hcard := Finset.card_le_card hsubset
  rwa [Finset.card_range] at hcard

/-- What is ahead of a value is ahead of those that carry a key to it. -/
theorem ahead_subset_of_carries {outer inner : Value} (h : links.Carries outer inner) :
    links.ahead inner ⊆ links.ahead outer := by
  intro index hindex
  rw [mem_ahead_iff] at hindex ⊢
  exact ⟨hindex.1, .head h hindex.2⟩

/-- A key is carried on to values that have no more links ahead. -/
theorem rank_le_of_carries {outer inner : Value} (h : links.Carries outer inner) :
    links.rank inner ≤ links.rank outer := Finset.card_le_card (ahead_subset_of_carries h)

/-- What a link carries a key to has fewer links ahead, if the link does not carry a key into
itself. -/
theorem rank_lt_of_carries {link : Handle .link} {inner : Value}
    (h : links.Carries (.link link) inner)
    (hacyclic : ¬ Relation.TransGen links.Carries (.link link) (.link link)) :
    links.rank inner < links.rank (.link link) := by
  have hbound : link.index < links.size := by
    obtain ⟨before, after, hlead, _⟩ := h
    exact index_lt_of_leadsTo?_sequence hlead
  have hself : link.index ∈ links.ahead (.link link) := mem_ahead_iff.mpr ⟨hbound, .refl⟩
  refine Finset.card_lt_card ⟨ahead_subset_of_carries h, fun hsubset => ?_⟩
  exact hacyclic (.head' h (mem_ahead_iff.mp (hsubset hself)).2)

end Table

end Sluice
