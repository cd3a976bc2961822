import Sluice.Proofs.Filter.Recognition

/-!
# How deep the nodes of a reader are

A tree grows deeper in two ways: a construct is nested in another, or an operator takes what stands
on its left as an operand. Both are measured at once, with a weight for operator nodes and a weight
for all others (`Node.depth`).

What a reader may hold is bounded by the room for the constructs that may still be opened, and by
its credit, the weight of the operators it has read. An operator that waits for its right-hand side
holds back its own weight of the credit until the operand is there (`Parser.charge`).
-/

namespace Sluice.Filter

mutual

/-- The weight of the heaviest path down from a node, where an operator node weighs `operator` and
every other node `other`. -/
def Node.depth (operator other : Nat) : Node → Nat
  | .binary left _ right => operator + max (left.depth operator other) (right.depth operator other)
  | .chain nodes | .array nodes | .pipeline nodes => other + depthAll operator other nodes
  | .object entries => other + depthEntries operator other entries
  | .text _ | .number _ | .length | .identity | .key _ | .index _ | .iterate | .range _ => other

/-- The weight of the heaviest path down from several nodes. -/
def depthAll (operator other : Nat) : List Node → Nat
  | [] => 0
  | node :: nodes => max (node.depth operator other) (depthAll operator other nodes)

/-- The weight of the heaviest path down from the values of several entries. -/
def depthEntries (operator other : Nat) : List (String × Node) → Nat
  | [] => 0
  | (_, node) :: entries => max (node.depth operator other) (depthEntries operator other entries)

end

/-- How many nodes there are on the longest path down from a node. -/
def Node.height (node : Node) : Nat := node.depth 1 1

/-- How many operator nodes there are at most on a path down from a node. -/
def Node.operators (node : Node) : Nat := node.depth 1 0

/-- How many nodes other than operator nodes there are at most on a path down from a node. -/
def Node.nesting (node : Node) : Nat := node.depth 0 1

section Depth

variable {operator other charge bound : Nat}

/-- Nodes weigh no more than a bound if each of them does. -/
theorem depthAll_add_le {nodes : List Node} (hcharge : charge ≤ bound)
    (h : ∀ node ∈ nodes, node.depth operator other + charge ≤ bound) :
    depthAll operator other nodes + charge ≤ bound := by
  induction nodes with
  | nil => simpa [depthAll] using hcharge
  | cons node nodes ih =>
    obtain ⟨hfirst, hrest⟩ := List.forall_mem_cons.mp h
    have hmore := ih hrest
    simp only [depthAll]
    omega

/-- Entries weigh no more than a bound if the value of each does. -/
theorem depthEntries_add_le {entries : List (String × Node)} (hcharge : charge ≤ bound)
    (h : ∀ entry ∈ entries, entry.2.depth operator other + charge ≤ bound) :
    depthEntries operator other entries + charge ≤ bound := by
  induction entries with
  | nil => simpa [depthEntries] using hcharge
  | cons entry entries ih =>
    obtain ⟨hfirst, hrest⟩ := List.forall_mem_cons.mp h
    have hmore := ih hrest
    simp only [depthEntries]
    omega

mutual

/-- A path in two weights is no lighter than in the first of them, and no heavier than the heaviest
paths in each. -/
theorem depth_add (a b c d : Nat) (node : Node) :
    node.depth a c ≤ node.depth (a + b) (c + d) ∧
      node.depth (a + b) (c + d) ≤ node.depth a c + node.depth b d := by
  cases node with
  | binary left _ right =>
    have hleft := depth_add a b c d left
    have hright := depth_add a b c d right
    simp only [Node.depth]
    omega
  | chain nodes | array nodes | pipeline nodes =>
    have hnodes := depthAll_add a b c d nodes
    simp only [Node.depth]
    omega
  | object entries =>
    have hentries := depthEntries_add a b c d entries
    simp only [Node.depth]
    omega
  | _ => simp only [Node.depth, Nat.le_refl, Nat.le_add_right, and_self]

/-- The weight of nodes lies between that without the added weights and the sum of both. -/
theorem depthAll_add (a b c d : Nat) (nodes : List Node) :
    depthAll a c nodes ≤ depthAll (a + b) (c + d) nodes ∧
      depthAll (a + b) (c + d) nodes ≤ depthAll a c nodes + depthAll b d nodes := by
  cases nodes with
  | nil => simp [depthAll]
  | cons node nodes =>
    have hnode := depth_add a b c d node
    have hnodes := depthAll_add a b c d nodes
    simp only [depthAll]
    omega

/-- The weight of entries lies between that without the added weights and the sum of both. -/
theorem depthEntries_add (a b c d : Nat) (entries : List (String × Node)) :
    depthEntries a c entries ≤ depthEntries (a + b) (c + d) entries ∧
      depthEntries (a + b) (c + d) entries ≤
        depthEntries a c entries + depthEntries b d entries := by
  cases entries with
  | nil => simp [depthEntries]
  | cons entry entries =>
    have hnode := depth_add a b c d entry.2
    have hentries := depthEntries_add a b c d entries
    simp only [depthEntries]
    omega

end

/-- Selectors that are low enough below a chain make a chain that is low enough. -/
theorem depth_ofSteps_add_le {steps : List Node} (hother : other + charge ≤ bound)
    (h : ∀ step ∈ steps, step.depth operator other + other + charge ≤ bound) :
    (Node.ofSteps steps).depth operator other + charge ≤ bound := by
  unfold Node.ofSteps
  split
  case h_1 step =>
    have hstep := h step List.mem_cons_self
    omega
  case h_2 =>
    have hsteps : depthAll operator other steps + (other + charge) ≤ bound :=
      depthAll_add_le hother fun step hstep => by have := h step hstep; omega
    simp only [Node.depth]
    omega

/-- Stages weigh at most one node more than the heaviest of them. -/
theorem depth_ofStages_add_le {stages : List Node} (hcharge : charge ≤ bound)
    (h : ∀ stage ∈ stages, stage.depth operator other + charge ≤ bound) :
    (Node.ofStages stages).depth operator other + charge ≤ bound + other := by
  unfold Node.ofStages
  split
  case h_1 stage =>
    have hstage := h stage List.mem_cons_self
    omega
  case h_2 =>
    have hstages := depthAll_add_le hcharge h
    simp only [Node.depth]
    omega

/-- A stage weighs at most one node more than the heaviest of its items. -/
theorem depth_stageOf_add_le {items : List Node} {last : Node}
    (hitems : ∀ item ∈ items, item.depth operator other + charge ≤ bound)
    (hlast : last.depth operator other + charge ≤ bound) :
    (Parser.stageOf items last).depth operator other + charge ≤ bound + other := by
  unfold Parser.stageOf
  split
  · omega
  · have hall := depthAll_add_le (by omega : charge ≤ bound)
      (List.forall_mem_append.mpr ⟨hitems, List.forall_mem_singleton.mpr hlast⟩)
    simp only [Node.depth]
    omega

end Depth

namespace Parser

/-- What a path may weigh in an expression inside the given number of constructs, operators left
out: two nodes for each construct that may still be opened, and two at the end. -/
def room (other nested : Nat) : Nat := other * (2 * (maxNesting - nested) + 2)

/-- The weight of the operators that wait for their right-hand side. -/
def Pending.charge (operator : Nat) (pending : Pending) : Nat :=
  (if pending.sum.isSome then operator else 0) + if pending.product.isSome then operator else 0

/-- The weight of the operators that wait outside the innermost construct. -/
def charge (operator : Nat) : List Suspended → Nat
  | [] => 0
  | outer :: suspended => outer.pending.charge operator + charge operator suspended

section Low

variable (operator other : Nat)

/-- Whether the operands that wait leave enough for the operators they wait with. -/
structure Pending.Low (charge bound : Nat) (pending : Pending) : Prop where
  sum : ∀ left symbol, pending.sum = some (left, symbol) →
    left.depth operator other + operator + charge ≤ bound
  product : ∀ left symbol, pending.product = some (left, symbol) →
    left.depth operator other + pending.charge operator + charge ≤ bound

/-- Whether what a construct holds so far is low enough. -/
def Enclosure.Low (charge bound : Nat) : Enclosure → Prop
  | source stages items | parens stages items =>
    (∀ stage ∈ stages, stage.depth operator other + charge ≤ bound + other) ∧
      ∀ item ∈ items, item.depth operator other + charge ≤ bound
  | array items => ∀ item ∈ items, item.depth operator other + charge ≤ bound
  | object entries _ => ∀ entry ∈ entries, entry.2.depth operator other + charge ≤ bound

/-- Whether the steps of a chain are low enough below the chain. -/
def LowSteps (charge bound : Nat) (steps : List Node) : Prop :=
  ∀ step ∈ steps, step.depth operator other + other + charge ≤ bound

/-- Whether the unfinished term is low enough. -/
def Mode.Low (charge bound : Nat) : Mode → Prop
  | .dot steps | .segment steps => LowSteps operator other charge bound steps
  | .operand node => node.depth operator other + charge ≤ bound
  | _ => True

/-- Whether all that is around a construct is low enough. Only what stands in brackets is a step of
a chain. -/
def LowAround (credit : Nat) : List Suspended → Enclosure → Prop
  | [], _ => True
  | outer :: suspended, enclosure =>
    (∀ steps, outer.steps = some steps → enclosure.Alike (.array []) ∧
      LowSteps operator other (outer.pending.charge operator + charge operator suspended)
        (room other suspended.length + credit) steps) ∧
    outer.enclosure.Low operator other (charge operator suspended)
      (room other suspended.length + credit) ∧
    outer.pending.Low operator other (charge operator suspended)
      (room other suspended.length + credit) ∧
    LowAround credit suspended outer.enclosure

/-- Whether all that a reader holds is low enough after operators of a given weight. -/
structure Low (credit : Nat) (parser : Parser) : Prop where
  around : LowAround operator other credit parser.suspended parser.enclosure
  enclosure : parser.enclosure.Low operator other (charge operator parser.suspended)
    (room other parser.suspended.length + credit)
  pending : parser.pending.Low operator other (charge operator parser.suspended)
    (room other parser.suspended.length + credit)
  mode : parser.mode.Low operator other
    (parser.pending.charge operator + charge operator parser.suspended)
    (room other parser.suspended.length + credit)
  covered : parser.pending.charge operator + charge operator parser.suspended ≤ credit

end Low

section Steps

variable {operator other credit : Nat}

/-- There always is room for two more nodes. -/
theorem two_mul_le_room (other nested : Nat) : 2 * other ≤ room other nested := by
  unfold room
  rw [Nat.mul_comm]
  exact Nat.mul_le_mul_left other (by omega)

/-- A construct more takes the room of two nodes. -/
theorem room_succ {nested : Nat} (h : nested < maxNesting) (other : Nat) :
    room other nested = room other (nested + 1) + 2 * other := by
  have hleft : 2 * (maxNesting - nested) + 2 = 2 * (maxNesting - (nested + 1)) + 2 + 2 := by omega
  unfold room
  rw [hleft, Nat.mul_add, Nat.mul_comm other 2]

/-- An operator that starts to wait adds its own weight at most. -/
theorem Pending.charge_push_le (pending : Pending) (term : Node) (symbol : Operator) :
    (pending.push term symbol).charge operator ≤ pending.charge operator + operator := by
  unfold Pending.push
  split
  · simp only [Pending.charge, Option.isSome_some, if_true]
    omega
  · simp [Pending.charge]

/-- A term that is joined to the operand that waits stays below a bound if both leave room for the
operator. -/
theorem depth_join_add_le {waiting : Option (Node × Operator)} {right : Node} {charge bound : Nat}
    (hleft : ∀ left symbol, waiting = some (left, symbol) →
      left.depth operator other + operator + charge ≤ bound)
    (hright : right.depth operator other + (if waiting.isSome then operator else 0) + charge ≤
      bound) :
    (join waiting right).depth operator other + charge ≤ bound := by
  cases waiting with
  | none => simpa [join] using hright
  | some waiting =>
    obtain ⟨left, symbol⟩ := waiting
    have hwaiting := hleft left symbol rfl
    simp only [Option.isSome_some, if_true] at hright
    simp only [join, Node.depth]
    omega

section Pending

variable {pending : Pending} {term : Node} {charge bound : Nat}

/-- A term is low enough when it is joined to the product that waits. -/
theorem Pending.Low.product_add_le (h : pending.Low operator other charge bound)
    (hterm : term.depth operator other + pending.charge operator + charge ≤ bound) :
    (join pending.product term).depth operator other +
      ((if pending.sum.isSome then operator else 0) + charge) ≤ bound := by
  refine depth_join_add_le (fun left symbol hproduct => ?_) ?_
  · have hleft := h.product left symbol hproduct
    simp only [Pending.charge, hproduct, Option.isSome_some, if_true] at hleft
    omega
  · simp only [Pending.charge] at hterm
    omega

/-- A term is low enough when it is joined to all that waits. -/
theorem Pending.Low.finish_add_le (h : pending.Low operator other charge bound)
    (hterm : term.depth operator other + pending.charge operator + charge ≤ bound) :
    (pending.finish term).depth operator other + charge ≤ bound := by
  refine depth_join_add_le h.sum ?_
  have hproduct := h.product_add_le hterm
  omega

/-- The weight of an operator that is read is enough for its node. -/
theorem Pending.Low.push (h : pending.Low operator other charge bound) (symbol : Operator)
    (hterm : term.depth operator other + pending.charge operator + charge ≤ bound) :
    (pending.push term symbol).Low operator other charge (bound + operator) := by
  have hproduct := h.product_add_le hterm
  have hfinish := h.finish_add_le hterm
  unfold Pending.push
  split
  · refine ⟨fun left _ hsum => ?_, fun left _ heq => ?_⟩
    · have hleft := h.sum left _ hsum
      omega
    · cases heq
      simp only [Pending.charge, Option.isSome_some, if_true]
      omega
  · refine ⟨fun left _ heq => ?_, fun left _ heq => by cases heq⟩
    cases heq
    omega

end Pending

end Steps

end Parser

end Sluice.Filter
