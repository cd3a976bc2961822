import Sluice.Proofs.Filter.Depth
import Sluice.Proofs.Filter.Newlines

/-!
# How high the trees of filters are

The reader limits how deep constructs nest, and not how many operators an expression has. So
without its operator nodes no path in a tree is longer than a bound that depends on `maxNesting`
only, and with them it is longer by no more than the number of operators (`height_le`). An
expression of many operators has a tree as high as it is long (`not_exists_height_bound`).
-/

namespace Sluice.Filter

open Grammar

namespace Parser

section Steps

variable {operator other credit : Nat}

/-- What a construct holds stays low enough under a larger bound. -/
theorem Enclosure.Low.mono {enclosure : Enclosure} {charge bound larger : Nat}
    (h : enclosure.Low operator other charge bound) (hle : bound ≤ larger) :
    enclosure.Low operator other charge larger := by
  cases enclosure with
  | source | parens =>
    exact ⟨fun stage hstage => by have := h.1 stage hstage; omega,
      fun item hitem => (h.2 item hitem).trans hle⟩
  | array | object => exact fun node hnode => (h node hnode).trans hle

/-- Operands that wait stay low enough under a larger bound. -/
theorem Pending.Low.mono {pending : Pending} {charge bound larger : Nat}
    (h : pending.Low operator other charge bound) (hle : bound ≤ larger) :
    pending.Low operator other charge larger :=
  ⟨fun left symbol heq => (h.sum left symbol heq).trans hle,
    fun left symbol heq => (h.product left symbol heq).trans hle⟩

/-- What is around a construct stays low enough with more credit. -/
theorem LowAround.mono {suspended : List Suspended} {enclosure : Enclosure} {larger : Nat}
    (h : LowAround operator other credit suspended enclosure) (hle : credit ≤ larger) :
    LowAround operator other larger suspended enclosure := by
  induction suspended generalizing enclosure with
  | nil => trivial
  | cons outer suspended ih =>
    obtain ⟨hsteps, henclosure, hpending, haround⟩ := h
    have hbound : room other suspended.length + credit ≤ room other suspended.length + larger := by
      omega
    exact ⟨fun steps heq => ⟨(hsteps steps heq).1,
        fun step hstep => ((hsteps steps heq).2 step hstep).trans hbound⟩,
      henclosure.mono hbound, hpending.mono hbound, ih haround⟩

/-- A reader at the start holds nothing. -/
theorem initial_low : initial.Low operator other 0 :=
  ⟨trivial, ⟨by simp [initial], by simp [initial]⟩, ⟨by simp [initial], by simp [initial]⟩, trivial,
    by simp [initial, charge, Pending.charge]⟩

/-- What a construct has become fits where it stands. -/
theorem resume_low {outer : Suspended} {suspended : List Suspended} {enclosure : Enclosure}
    {inner : Node} (haround : LowAround operator other credit (outer :: suspended) enclosure)
    (hcovered : charge operator (outer :: suspended) ≤ credit)
    (hlength : suspended.length < maxNesting)
    (hinner : inner.depth operator other + charge operator (outer :: suspended) ≤
      room other (suspended.length + 1) + 2 * other + credit)
    (hstep : enclosure.Alike (.array []) →
      inner.depth operator other + charge operator (outer :: suspended) ≤
        room other (suspended.length + 1) + other + credit) :
    Low operator other credit
      ⟨suspended, outer.enclosure, outer.pending, outer.resume inner⟩ := by
  obtain ⟨hsteps, henclosure, hpending, haround⟩ := haround
  have hroom := room_succ hlength other
  simp only [charge] at hcovered hinner hstep
  refine ⟨haround, henclosure, hpending, ?_, hcovered⟩
  unfold Suspended.resume
  cases houter : outer.steps with
  | none =>
    simp only [Mode.Low]
    omega
  | some steps =>
    obtain ⟨harray, hlow⟩ := hsteps steps houter
    have hlast : inner.depth operator other + other +
        (outer.pending.charge operator + charge operator suspended) ≤
          room other suspended.length + credit := by
      have hinner := hstep harray
      omega
    exact List.forall_mem_append.mpr ⟨hlow, List.forall_mem_singleton.mpr hlast⟩

variable {parser next : Parser} {token : Token}

/-- Closing a construct keeps a reader low. -/
theorem ascend_low {inner : Node} (h : parser.Low operator other credit) (hw : parser.WellFormed)
    (hopen : parser.suspended ≠ [])
    (hinner : inner.depth operator other + charge operator parser.suspended ≤
      room other parser.suspended.length + 2 * other + credit)
    (hstep : parser.enclosure.Alike (.array []) →
      inner.depth operator other + charge operator parser.suspended ≤
        room other parser.suspended.length + other + credit) :
    (parser.ascend inner).Low operator other credit := by
  obtain ⟨suspended, enclosure, pending, mode⟩ := parser
  rcases suspended with _ | ⟨outer, suspended⟩
  · contradiction
  · have hcovered := h.covered
    exact resume_low h.around (by simp only at hcovered; omega) hw.bounded hinner hstep

/-- A node without nodes below it fits wherever a construct closes. -/
theorem ascend_leaf_low {inner : Node} (h : parser.Low operator other credit)
    (hw : parser.WellFormed) (hopen : parser.suspended ≠ [])
    (hinner : inner.depth operator other = other) :
    (parser.ascend inner).Low operator other credit := by
  have hcovered := h.covered
  have hroom := two_mul_le_room other parser.suspended.length
  exact ascend_low h hw hopen (by omega) fun _ => by omega

/-- What is around a construct does not depend on what the construct holds. -/
theorem LowAround.congr {suspended : List Suspended} {enclosure next : Enclosure}
    (h : LowAround operator other credit suspended enclosure) (halike : enclosure.Alike next) :
    LowAround operator other credit suspended next := by
  cases suspended with
  | nil => trivial
  | cons outer suspended =>
    refine ⟨fun steps heq => ⟨?_, (h.1 steps heq).2⟩, h.2⟩
    have harray := (h.1 steps heq).1
    cases enclosure <;> cases next <;> trivial

/-- Going on in the same construct keeps a reader low: no operator of it waits. -/
theorem proceed_low {enclosure : Enclosure} {mode : Mode} (h : parser.Low operator other credit)
    (halike : parser.enclosure.Alike enclosure)
    (henclosure : enclosure.Low operator other (charge operator parser.suspended)
      (room other parser.suspended.length + credit))
    (hmode : mode.Low operator other (charge operator parser.suspended)
      (room other parser.suspended.length + credit)) :
    (parser.proceed enclosure mode).Low operator other credit := by
  have hcovered := h.covered
  have hnone : Pending.charge operator {} = 0 := rfl
  refine ⟨h.around.congr halike, henclosure, ⟨by simp [proceed], by simp [proceed]⟩, ?_, ?_⟩
  · simpa [proceed, hnone] using hmode
  · simp only [proceed, hnone]
    omega

/-- A reader stays low in a mode that is low. -/
theorem Low.withMode {mode : Mode} (h : parser.Low operator other credit)
    (hmode : mode.Low operator other
      (parser.pending.charge operator + charge operator parser.suspended)
      (room other parser.suspended.length + credit)) :
    Low operator other credit { parser with mode := mode } :=
  ⟨h.around, h.enclosure, h.pending, hmode, h.covered⟩

/-- A node without nodes below it is a low operand. -/
theorem Low.leaf (h : parser.Low operator other credit) :
    other + (parser.pending.charge operator + charge operator parser.suspended) ≤
      room other parser.suspended.length + credit := by
  have hcovered := h.covered
  have hroom := two_mul_le_room other parser.suspended.length
  omega

/-- Opening a construct keeps a reader low, as there was room for one more. -/
theorem descend_low {steps : Option (List Node)} {enclosure : Enclosure} {mode : Mode}
    (h : parser.Low operator other credit)
    (hsteps : ∀ taken, steps = some taken → enclosure.Alike (.array []) ∧
      LowSteps operator other (parser.pending.charge operator + charge operator parser.suspended)
        (room other parser.suspended.length + credit) taken)
    (henclosure : ∀ charge bound, enclosure.Low operator other charge bound)
    (hmode : ∀ charge bound, mode.Low operator other charge bound)
    (hok : parser.descend steps enclosure mode token = .ok next) :
    next.Low operator other credit := by
  unfold descend at hok
  split at hok
  · cases hok
  · cases hok
    have hcovered := h.covered
    have hnone : Pending.charge operator {} = 0 := rfl
    refine ⟨⟨hsteps, h.enclosure, h.pending, h.around⟩, henclosure _ _, ⟨by simp, by simp⟩,
      hmode _ _, ?_⟩
    simp only [hnone, charge]
    omega

/-- The stage that ends with an expression is low enough, as those before it are. -/
theorem forall_mem_stages_le {stages items : List Node} {expression : Node} {charge bound : Nat}
    (h : (∀ stage ∈ stages, stage.depth operator other + charge ≤ bound + other) ∧
      ∀ item ∈ items, item.depth operator other + charge ≤ bound)
    (hexpression : expression.depth operator other + charge ≤ bound) :
    ∀ stage ∈ stages ++ [stageOf items expression],
      stage.depth operator other + charge ≤ bound + other :=
  List.forall_mem_append.mpr
    ⟨h.1, List.forall_mem_singleton.mpr (depth_stageOf_add_le h.2 hexpression)⟩

/-- An empty array holds nothing. -/
theorem array_nil_low (charge bound : Nat) :
    Enclosure.Low operator other charge bound (.array []) := by
  simp [Enclosure.Low]

/-- An open bracket is no term yet. -/
theorem bracket_low (charge bound : Nat) : Mode.bracket.Low operator other charge bound := trivial

/-- A complete expression stays in its construct, or the construct becomes a node. -/
theorem afterExpression_low {expression : Node} (h : parser.Low operator other credit)
    (hw : parser.WellFormed)
    (hexpression : expression.depth operator other + charge operator parser.suspended ≤
      room other parser.suspended.length + credit)
    (hok : parser.afterExpression expression token = .ok next) :
    next.Low operator other credit := by
  have henclosure := h.enclosure
  have hnested := hw.nested
  unfold afterExpression at hok
  cases heq : parser.enclosure with
  | source stages items =>
    rw [heq] at henclosure hok
    have hitems : ∀ item ∈ items ++ [expression], item.depth operator other +
        charge operator parser.suspended ≤ room other parser.suspended.length + credit :=
      List.forall_mem_append.mpr ⟨henclosure.2, List.forall_mem_singleton.mpr hexpression⟩
    have hstages := forall_mem_stages_le henclosure hexpression
    simp only at hok
    split at hok
    · cases hok
      exact proceed_low h (by rw [heq]; trivial) ⟨henclosure.1, hitems⟩ trivial
    · cases hok
      exact proceed_low h (by rw [heq]; trivial) ⟨hstages, by simp⟩ trivial
    · cases hok
  | parens stages items =>
    rw [heq] at henclosure hok hnested
    have hitems : ∀ item ∈ items ++ [expression], item.depth operator other +
        charge operator parser.suspended ≤ room other parser.suspended.length + credit :=
      List.forall_mem_append.mpr ⟨henclosure.2, List.forall_mem_singleton.mpr hexpression⟩
    have hstages := forall_mem_stages_le henclosure hexpression
    simp only at hok
    split at hok
    · cases hok
      exact proceed_low h (by rw [heq]; trivial) ⟨henclosure.1, hitems⟩ trivial
    · cases hok
      exact proceed_low h (by rw [heq]; trivial) ⟨hstages, by simp⟩ trivial
    · cases hok
      have hpipeline := depth_ofStages_add_le (by omega) hstages
      refine ascend_low h hw (hnested.ne_nil (by simp)) (by omega) fun harray => ?_
      rw [heq] at harray
      exact harray.elim
    · cases hok
  | array items =>
    rw [heq] at henclosure hok hnested
    have hitems : ∀ item ∈ items ++ [expression], item.depth operator other +
        charge operator parser.suspended ≤ room other parser.suspended.length + credit :=
      List.forall_mem_append.mpr ⟨henclosure, List.forall_mem_singleton.mpr hexpression⟩
    simp only at hok
    split at hok
    · cases hok
      exact proceed_low h (by rw [heq]; trivial) hitems trivial
    · cases hok
      have harray := depthAll_add_le (by omega) hitems
      refine ascend_low h hw (hnested.ne_nil (by simp)) ?_ fun _ => ?_ <;>
        simp only [Node.depth] <;> omega
    · cases hok
  | object entries key =>
    rw [heq] at henclosure hok hnested
    have hentry : ∀ entry ∈ entries ++ [(key, expression)],
        entry.2.depth operator other + charge operator parser.suspended ≤
          room other parser.suspended.length + credit :=
      List.forall_mem_append.mpr ⟨henclosure, List.forall_mem_singleton.mpr hexpression⟩
    simp only at hok
    split at hok
    · cases hok
      exact proceed_low h (by rw [heq]; trivial) hentry trivial
    · cases hok
      have hentries := depthEntries_add_le (by omega) hentry
      refine ascend_low h hw (hnested.ne_nil (by simp)) ?_ fun _ => ?_ <;>
        simp only [Node.depth] <;> omega
    · cases hok

/-- What an operator adds to the credit. -/
def cost (operator : Nat) (token : Token) : Nat :=
  if (operator? token.kind).isSome then operator else 0

/-- A reader stays low with more credit. -/
theorem Low.mono {larger : Nat} (h : parser.Low operator other credit) (hle : credit ≤ larger) :
    parser.Low operator other larger := by
  have hbound : room other parser.suspended.length + credit ≤
      room other parser.suspended.length + larger := by omega
  refine ⟨h.around.mono hle, h.enclosure.mono hbound, h.pending.mono hbound, ?_,
    h.covered.trans hle⟩
  have hmode := h.mode
  cases hcase : parser.mode with
  | dot | segment =>
    rw [hcase] at hmode
    exact fun step hstep => (hmode step hstep).trans hbound
  | operand =>
    rw [hcase] at hmode
    exact Nat.le_trans hmode hbound
  | _ => trivial

/-- What was low before a token is low after it. -/
theorem Low.paying (h : parser.Low operator other credit) :
    parser.Low operator other (credit + cost operator token) :=
  h.mono (Nat.le_add_right _ _)

/-- A reader stays low behind a term, and an operator there brings the credit that it takes. -/
theorem afterTerm_low {term : Node} (h : parser.Low operator other credit)
    (hw : parser.WellFormed)
    (hterm : term.depth operator other +
      (parser.pending.charge operator + charge operator parser.suspended) ≤
        room other parser.suspended.length + credit)
    (hok : parser.afterTerm term token = .ok next) :
    next.Low operator other (credit + cost operator token) := by
  have hterm' : term.depth operator other + parser.pending.charge operator +
      charge operator parser.suspended ≤ room other parser.suspended.length + credit := by omega
  unfold afterTerm at hok
  unfold cost
  cases hsymbol : operator? token.kind with
  | none =>
    rw [hsymbol] at hok
    simpa using afterExpression_low h hw (h.pending.finish_add_le hterm') hok
  | some symbol =>
    rw [hsymbol] at hok
    cases hok
    have hmore := h.mono (Nat.le_add_right credit operator)
    have hcharge : (parser.pending.push term symbol).charge operator ≤
        parser.pending.charge operator + operator := Pending.charge_push_le _ _ _
    have hcovered := h.covered
    refine ⟨hmore.around, hmore.enclosure, ?_, trivial, ?_⟩
    · simpa [Nat.add_assoc] using h.pending.push symbol hterm'
    · simp only [Option.isSome_some, if_true]
      omega

/-- A reader stays low behind the segment of a chain. -/
theorem afterSegment_low {steps : List Node} (h : parser.Low operator other credit)
    (hw : parser.WellFormed)
    (hsteps : LowSteps operator other
      (parser.pending.charge operator + charge operator parser.suspended)
      (room other parser.suspended.length + credit) steps)
    (hok : parser.afterSegment steps token = .ok next) :
    next.Low operator other (credit + cost operator token) := by
  have hdot : Mode.Low operator other
      (parser.pending.charge operator + charge operator parser.suspended)
      (room other parser.suspended.length + credit) (.dot steps) := hsteps
  unfold afterSegment at hok
  split at hok
  case h_1 =>
    cases hok
    exact (h.withMode hdot).paying
  case h_2 =>
    have hopened := descend_low h (by rintro _ ⟨⟩; exact ⟨trivial, hsteps⟩)
      array_nil_low bracket_low hok
    exact hopened.paying
  case h_3 => exact afterTerm_low h hw (depth_ofSteps_add_le h.leaf hsteps) hok

/-- A node without nodes below it is a low operand. -/
theorem Low.withLeaf {node : Node} (h : parser.Low operator other credit)
    (hnode : node.depth operator other = other) :
    Low operator other credit { parser with mode := .operand node } := by
  refine h.withMode ?_
  simp only [Mode.Low, hnode]
  exact h.leaf

/-- A result that was changed comes from one that was not. -/
theorem ok_of_map_ok {α β : Type} {result : Except SyntaxError α} {f : α → β} {y : β}
    (h : result.map f = .ok y) : ∃ x, result = .ok x ∧ f x = y := by
  cases result with
  | error e => cases h
  | ok x => exact ⟨x, rfl, Except.ok.inj h⟩

/-- A result of two parts comes from a result of the first. -/
theorem ok_of_bind_ok {α β : Type} {result : Except SyntaxError α} {f : α → Except SyntaxError β}
    {y : β} (h : result.bind f = .ok y) : ∃ x, result = .ok x ∧ f x = .ok y := by
  cases result with
  | error e => cases h
  | ok x => exact ⟨x, rfl, h⟩

/-- A number weighs as one node. -/
theorem depth_of_literal {number : Token} {node : Node} (h : literal number = .ok node) :
    node.depth operator other = other := by
  unfold literal at h
  split at h
  · cases h
    rfl
  · cases h

/-- The first token of a term opens a construct, or is a term without nodes below it. -/
theorem startTerm_low (h : parser.Low operator other credit)
    (hok : parser.startTerm token = .ok next) : next.Low operator other credit := by
  unfold startTerm at hok
  split at hok
  case h_1 =>
    cases hok
    exact h.withMode (by simp [Mode.Low, LowSteps])
  case h_2 =>
    obtain ⟨node, hliteral, rfl⟩ := ok_of_map_ok hok
    exact h.withLeaf (depth_of_literal hliteral)
  case h_3 =>
    cases hok
    exact h.withLeaf rfl
  case h_4 =>
    cases hok
    refine h.withLeaf ?_
    split <;> rfl
  case h_5 => exact descend_low h (by simp) array_nil_low bracket_low hok
  case h_6 =>
    have hmode (charge bound : Nat) : Mode.objectStart.Low operator other charge bound := trivial
    exact descend_low h (by simp) (fun _ _ => by simp [Enclosure.Low]) hmode hok
  case h_7 =>
    have hmode (charge bound : Nat) : Mode.term.Low operator other charge bound := trivial
    exact descend_low h (by simp) (fun _ _ => by simp [Enclosure.Low]) hmode hok
  case h_8 => cases hok

/-- Closing an array keeps a reader low, as its items were low one construct further in. -/
theorem ascend_items_low (h : parser.Low operator other credit) (hw : parser.WellFormed)
    (hopen : parser.suspended ≠ []) :
    (parser.ascend (.array parser.enclosure.items)).Low operator other credit := by
  have hcovered := h.covered
  have hitems : ∀ item ∈ parser.enclosure.items,
      item.depth operator other + charge operator parser.suspended ≤
        room other parser.suspended.length + credit := by
    have henclosure := h.enclosure
    cases heq : parser.enclosure with
    | array items =>
      rw [heq] at henclosure
      exact henclosure
    | _ => simp [Enclosure.items]
  have hall := depthAll_add_le (by omega) hitems
  refine ascend_low h hw hopen ?_ fun _ => ?_ <;> simp only [Node.depth] <;> omega

/-- The entries of an object stay low enough when a key follows. -/
theorem entries_low (h : parser.Low operator other credit) (key : String) :
    (Enclosure.object parser.enclosure.entries key).Low operator other
      (charge operator parser.suspended) (room other parser.suspended.length + credit) := by
  have henclosure := h.enclosure
  cases heq : parser.enclosure with
  | object entries key =>
    rw [heq] at henclosure
    exact henclosure
  | _ => simp [Enclosure.Low, Enclosure.entries]

/-- What follows a dot is a step of the chain, or the dot is one. -/
theorem dot_low {steps : List Node} (h : parser.Low operator other credit) (hw : parser.WellFormed)
    (hmode : parser.mode = .dot steps) (hok : parser.step token = .ok next) :
    next.Low operator other (credit + cost operator token) := by
  have hsteps := h.mode
  rw [hmode] at hsteps
  have hadd {step : Node} (hstep : step.depth operator other = other) :
      LowSteps operator other
        (parser.pending.charge operator + charge operator parser.suspended)
        (room other parser.suspended.length + credit) (steps ++ [step]) := by
    have hcovered := h.covered
    have hroom := two_mul_le_room other parser.suspended.length
    exact List.forall_mem_append.mpr ⟨hsteps, List.forall_mem_singleton.mpr (by omega)⟩
  simp only [step, hmode] at hok
  split at hok
  · cases hok
    exact Low.paying (h.withMode (hadd rfl))
  · cases hok
    exact Low.paying (h.withMode (hadd rfl))
  · have hopened := descend_low h (by rintro _ ⟨⟩; exact ⟨trivial, hsteps⟩) array_nil_low
      bracket_low hok
    exact hopened.paying
  · exact afterSegment_low h hw (hadd rfl) hok

/-- A number in a bracket is a position, or the first item of an array. -/
theorem bracketNumber_low {first : Token} (h : parser.Low operator other credit)
    (hw : parser.WellFormed) (hmode : parser.mode = .bracketNumber first)
    (hok : parser.step token = .ok next) :
    next.Low operator other (credit + cost operator token) := by
  have hfits := hw.fits
  rw [hmode] at hfits
  have hopen := ((nested_congr hfits.1).mp hw.nested).ne_nil (by simp)
  simp only [step, hmode] at hok
  split at hok
  · obtain ⟨n, -, rfl⟩ := ok_of_map_ok hok
    exact Low.paying (ascend_leaf_low h hw hopen rfl)
  · obtain ⟨n, -, rfl⟩ := ok_of_map_ok hok
    exact Low.paying (h.withMode trivial)
  · obtain ⟨node, hliteral, hok⟩ := ok_of_bind_ok hok
    have hnode : node.depth operator other = other := depth_of_literal hliteral
    exact afterTerm_low h hw (by rw [hnode]; exact h.leaf) hok

/-- **One token keeps a reader low**, at the cost of the token. -/
theorem step_low (h : parser.Low operator other credit) (hw : parser.WellFormed)
    (hok : parser.step token = .ok next) :
    next.Low operator other (credit + cost operator token) := by
  have hfits := hw.fits
  have hopen {enclosure : Enclosure} (halike : parser.enclosure.Alike enclosure)
      (hinside : ∀ stages items, enclosure ≠ .source stages items) : parser.suspended ≠ [] :=
    ((nested_congr halike).mp hw.nested).ne_nil hinside
  have hmode := h.mode
  cases hcase : parser.mode with
  | dot steps => exact dot_low h hw hcase hok
  | bracketNumber first => exact bracketNumber_low h hw hcase hok
  | segment steps =>
    rw [hcase] at hmode
    exact afterSegment_low h hw hmode (by simpa [step, hcase] using hok)
  | operand term =>
    rw [hcase] at hmode
    exact afterTerm_low h hw hmode (by simpa [step, hcase] using hok)
  | term => exact Low.paying (startTerm_low h (by simpa [step, hcase] using hok))
  | item =>
    rw [hcase] at hfits
    simp only [step, hcase] at hok
    split at hok
    · cases hok
      exact Low.paying (ascend_items_low h hw (hopen hfits (by simp)))
    · exact Low.paying (startTerm_low h hok)
  | bracket =>
    rw [hcase] at hfits
    simp only [step, hcase] at hok
    split at hok
    · cases hok
      exact Low.paying (ascend_leaf_low h hw (hopen hfits (by simp)) rfl)
    · cases hok
      exact Low.paying (h.withMode trivial)
    · cases hok
      exact Low.paying (h.withMode trivial)
    · exact Low.paying (startTerm_low h hok)
  | rangeStop start =>
    rw [hcase] at hfits
    simp only [step, hcase] at hok
    split at hok
    · obtain ⟨n, -, rfl⟩ := ok_of_map_ok hok
      exact Low.paying (h.withMode trivial)
    · cases hok
      exact Low.paying (ascend_leaf_low h hw (hopen hfits (by simp)) rfl)
    · cases hok
  | rangeEnd bounds =>
    rw [hcase] at hfits
    simp only [step, hcase] at hok
    split at hok
    · cases hok
      exact Low.paying (ascend_leaf_low h hw (hopen hfits (by simp)) rfl)
    · cases hok
  | objectStart =>
    rw [hcase] at hfits
    simp only [step, hcase] at hok
    split at hok
    · cases hok
      exact Low.paying (ascend_leaf_low h hw (hopen hfits (by simp)) rfl)
    · cases hok
      exact Low.paying (h.withMode trivial)
    · cases hok
      exact Low.paying (h.withMode trivial)
    · cases hok
  | objectKey =>
    simp only [step, hcase] at hok
    split at hok
    · cases hok
      exact Low.paying (h.withMode trivial)
    · cases hok
      exact Low.paying (h.withMode trivial)
    · cases hok
  | objectColon key =>
    rw [hcase] at hfits
    simp only [step, hcase] at hok
    split at hok
    · cases hok
      exact Low.paying (proceed_low h (hfits.trans trivial) (entries_low h key) trivial)
    · cases hok

/-- The last term is a low operand. -/
theorem lastTerm_low {last : Token} {term : Option Node} (h : parser.Low operator other credit)
    (hok : lastTerm parser.mode last = .ok term) :
    ∀ node ∈ term, node.depth operator other +
      (parser.pending.charge operator + charge operator parser.suspended) ≤
        room other parser.suspended.length + credit := by
  have hmode := h.mode
  unfold lastTerm at hok
  split at hok <;> rename_i hcase
  case h_4 first =>
    obtain ⟨node, hliteral, rfl⟩ := ok_of_map_ok hok
    rintro _ ⟨⟩
    rw [depth_of_literal hliteral]
    exact h.leaf
  case h_10 steps =>
    rw [hcase] at hmode
    cases hok
    rintro _ ⟨⟩
    have hidentity : Node.identity.depth operator other + other +
        (parser.pending.charge operator + charge operator parser.suspended) ≤
          room other parser.suspended.length + credit := by
      have hcovered := h.covered
      have hroom := two_mul_le_room other parser.suspended.length
      simp only [Node.depth]
      omega
    exact depth_ofSteps_add_le h.leaf
      (List.forall_mem_append.mpr ⟨hmode, List.forall_mem_singleton.mpr hidentity⟩)
  case h_11 steps =>
    rw [hcase] at hmode
    cases hok
    rintro _ ⟨⟩
    exact depth_ofSteps_add_le h.leaf hmode
  case h_12 node =>
    rw [hcase] at hmode
    cases hok
    rintro _ ⟨⟩
    exact hmode
  all_goals cases hok
  all_goals rintro _ ⟨⟩

/-- The expression that ends with the last term is low enough. -/
theorem last_expression_low {last : Token} {term : Option Node}
    (h : parser.Low operator other credit) (hok : lastTerm parser.mode last = .ok term) :
    ∀ node ∈ (term.map parser.pending.finish).toList,
      node.depth operator other + charge operator parser.suspended ≤
        room other parser.suspended.length + credit := by
  cases term with
  | none => simp
  | some term =>
    have hterm := lastTerm_low h hok term rfl
    rw [← Nat.add_assoc] at hterm
    exact List.forall_mem_singleton.mpr (h.pending.finish_add_le hterm)

/-- The end of input makes low stages of what a low reader holds. -/
theorem finish_low {last : Token} {program : Program} {suspended : List Suspended}
    {enclosure : Enclosure} {pending : Pending} {mode : Mode}
    (h : Low operator other credit ⟨suspended, enclosure, pending, mode⟩)
    (hnested : Nested suspended enclosure) (hlength : suspended.length ≤ maxNesting)
    (hok : finish suspended enclosure pending mode last = .ok program) :
    ∀ stage ∈ program, stage.depth operator other ≤ room other 0 + credit + other := by
  induction suspended generalizing enclosure pending mode with
  | nil =>
    unfold finish at hok
    obtain ⟨term, hterm, hok⟩ := ok_of_bind_ok hok
    have hexpressions := last_expression_low h hterm
    have henclosure := h.enclosure
    cases enclosure with
    | source stages items =>
      cases hok
      refine List.forall_mem_append.mpr ⟨henclosure.1, List.forall_mem_map.mpr ?_⟩
      exact fun node hnode => depth_stageOf_add_le henclosure.2 (hexpressions node hnode)
    | array items =>
      cases hok
      simp
    | parens | object => cases hok
  | cons outer suspended ih =>
    unfold finish at hok
    obtain ⟨term, hterm, hok⟩ := ok_of_bind_ok hok
    have hexpressions := last_expression_low h hterm
    have henclosure := h.enclosure
    cases enclosure with
    | source stages items => exact hnested.elim
    | array items =>
      have hcovered : charge operator (outer :: suspended) ≤ credit :=
        Nat.le_trans (Nat.le_add_left _ _) h.covered
      have hitems : depthAll operator other (items ++ (term.map pending.finish).toList) +
          charge operator (outer :: suspended) ≤ room other (suspended.length + 1) + credit :=
        depthAll_add_le (by omega) (List.forall_mem_append.mpr ⟨henclosure, hexpressions⟩)
      have harray : (Node.array (items ++ (term.map pending.finish).toList)).depth operator other +
          charge operator (outer :: suspended) ≤
            room other (suspended.length + 1) + other + credit := by
        simp only [Node.depth]
        omega
      have hresumed := resume_low h.around hcovered hlength (by omega) fun _ => harray
      exact ih hresumed hnested (Nat.le_of_succ_le hlength) hok
    | parens | object => cases hok

/-- Whether a token stands for an operator. -/
def isOperator (token : Token) : Bool := (operator? token.kind).isSome

/-- The credit for tokens is the weight of an operator times their number. -/
theorem cost_add_eq (operator : Nat) (token : Token) (tokens : List Token) :
    cost operator token + operator * tokens.countP isOperator =
      operator * (token :: tokens).countP isOperator := by
  rw [List.countP_cons, Nat.mul_add, Nat.add_comm]
  unfold cost isOperator
  split <;> simp

/-- A run that is read to its end makes stages that are low for the operators among the tokens. -/
theorem run_low {words : List Token} {last : Token} {program : Program}
    (h : parser.Low operator other credit) (hw : parser.WellFormed)
    (hlast : last.kind = .endOfInput)
    (hwords : ∀ word ∈ words, word.kind ≠ .endOfInput ∧
      (word.kind = .number → IsNumberText word.text))
    (hok : parser.run (words ++ [last]) = .ok program) :
    ∀ stage ∈ program, stage.depth operator other ≤
      room other 0 + other + credit + operator * words.countP isOperator := by
  induction words generalizing parser credit with
  | nil =>
    intro stage hstage
    have hfinish := finish_low h hw.nested hw.bounded (by simpa [run, hlast] using hok) stage hstage
    omega
  | cons word words ih =>
    obtain ⟨⟨hkind, hnumber⟩, hrest⟩ := List.forall_mem_cons.mp hwords
    have hrun : (parser.step word).bind (·.run (words ++ [last])) = .ok program := by
      simpa [run, hkind] using hok
    obtain ⟨next, hstep, hrun⟩ := ok_of_bind_ok hrun
    have hleads : Leads (parser.step word) words (parser.Viable (word :: words)) :=
      step_leads hw hnumber
    rw [hstep] at hleads
    intro stage hstage
    have hmore := ih (step_low h hw hstep) hleads.1 hrest hrun stage hstage
    have hcost := cost_add_eq operator word words
    omega

end Steps

end Parser

/-- Two nodes for each construct that may be open, three more, and each operator of the source. -/
theorem depth_le_of_parse (operator other : Nat) {source : String} {tokens : List Token}
    {program : Program} {stage : Node} (htokens : tokenize source = .ok tokens)
    (h : parse source = .ok program) (hstage : stage ∈ program) :
    stage.depth operator other ≤ other * (2 * maxNesting + 3) +
      operator * tokens.countP Parser.isOperator := by
  obtain ⟨words, last, rfl, hlast, hwords⟩ := tokenize_shape htokens
  simp only [parse, htokens, Except.bind] at h
  cases words with
  | nil =>
    obtain rfl : [] = program := by simpa [parseTokens, hlast] using h
    simp at hstage
  | cons word words =>
    have hword := (hwords word List.mem_cons_self).1
    have hrun : Parser.initial.run (word :: words ++ [last]) = .ok program := by
      simpa [parseTokens, hword] using h
    have hlow : stage.depth operator other ≤ Parser.room other 0 + other + 0 +
        operator * (word :: words).countP Parser.isOperator :=
      Parser.run_low Parser.initial_low Parser.initial_wellFormed hlast hwords hrun stage hstage
    have hroom : Parser.room other 0 + other = other * (2 * maxNesting + 3) := rfl
    have hcount : (word :: words).countP Parser.isOperator ≤
        (word :: words ++ [last]).countP Parser.isOperator := by
      rw [List.countP_append]
      exact Nat.le_add_right _ _
    have hcost := Nat.mul_le_mul_left operator hcount
    omega

/-- **How high trees are.** In a stage of a filter, no path has more than `2 * maxNesting + 3` nodes
that are no operators, and none has more operators than the source. The height is the number of
operators on a path up to that bound, which does not depend on the source. -/
theorem height_le {source : String} {tokens : List Token} {program : Program} {stage : Node}
    (htokens : tokenize source = .ok tokens) (h : parse source = .ok program)
    (hstage : stage ∈ program) :
    stage.nesting ≤ 2 * maxNesting + 3 ∧
      stage.operators ≤ tokens.countP Parser.isOperator ∧
      stage.operators ≤ stage.height ∧ stage.height ≤ stage.operators + (2 * maxNesting + 3) := by
  have hnesting := depth_le_of_parse 0 1 htokens h hstage
  have hoperators := depth_le_of_parse 1 0 htokens h hstage
  have hheight := depth_add 1 0 0 1 stage
  unfold Node.nesting Node.operators Node.height
  simp only [Nat.add_zero, Nat.zero_add] at hheight
  omega

/-- A sum of two inputs. -/
theorem height_le_of_sum :
    parse ".+." = .ok [.binary .identity .add .identity] ∧
    (Node.binary .identity .add .identity).height ≤
      (Node.binary .identity .add .identity).operators + (2 * maxNesting + 3) := by
  have hparse : parse ".+." = .ok [.binary .identity .add .identity] := rfl
  have htokens : tokenize ".+." = .ok [⟨.dot, ⟨1, 1, 0⟩, ""⟩, ⟨.plus, ⟨1, 2, 1⟩, ""⟩,
      ⟨.dot, ⟨1, 3, 2⟩, ""⟩, ⟨.endOfInput, ⟨1, 4, 3⟩, ""⟩] := rfl
  exact ⟨hparse, (height_le htokens hparse List.mem_cons_self).2.2.2⟩

/-- The text of a sum of `n + 1` inputs. -/
def sumText : Nat → List Char
  | 0 => ['.']
  | n + 1 => '.' :: '+' :: sumText n

/-- What the tokens of a sum of `n + 1` inputs are and say. -/
def sumContents : Nat → List (TokenKind × String)
  | 0 => [(.dot, ""), (.endOfInput, "")]
  | n + 1 => (.dot, "") :: (.plus, "") :: sumContents n

/-- The tokens of a sum are those that its text is made of. -/
theorem contentsOf_sumText (n : Nat) : contentsOf (sumText n) = sumContents n := by
  induction n with
  | zero => rfl
  | succ n ih =>
    have hplus : contentsOf ('+' :: sumText n) = (.plus, "") :: contentsOf (sumText n) :=
      contentsOf_token rfl
    have hdot : contentsOf ('.' :: '+' :: sumText n) =
        (.dot, "") :: contentsOf ('+' :: sumText n) := contentsOf_token rfl
    rw [sumText, hdot, hplus, ih, sumContents]

/-- Each further operator takes all that stands before it as its left operand. -/
theorem run_sumContents {n : Nat} {tokens : List Token}
    (h : tokens.map Token.content = sumContents n) (sum : Option (Node × Operator)) :
    ∃ stage, Parser.run ⟨[], .source [] [], ⟨sum, none⟩, .term⟩ tokens = .ok [stage] ∧
      (Parser.join sum .identity).height + n ≤ stage.height := by
  induction n generalizing tokens sum with
  | zero =>
    obtain ⟨dot, rest, rfl, hdot, hrest⟩ := List.map_eq_cons_iff.mp h
    obtain ⟨last, rest, rfl, hlast, hrest⟩ := List.map_eq_cons_iff.mp hrest
    obtain rfl := List.map_eq_nil_iff.mp hrest
    have hdotKind : dot.kind = .dot := congrArg Prod.fst hdot
    have hlastKind : last.kind = .endOfInput := congrArg Prod.fst hlast
    refine ⟨Parser.join sum .identity, ?_, Nat.le_refl _⟩
    simp [Parser.run, hdotKind, hlastKind, Parser.step, Parser.startTerm, Except.bind,
      Parser.finish, Parser.lastTerm, Node.ofSteps, Parser.Pending.finish, Parser.join,
      Parser.stageOf]
  | succ n ih =>
    obtain ⟨dot, rest, rfl, hdot, hrest⟩ := List.map_eq_cons_iff.mp h
    obtain ⟨plus, rest, rfl, hplus, hrest⟩ := List.map_eq_cons_iff.mp hrest
    have hdotKind : dot.kind = .dot := congrArg Prod.fst hdot
    have hplusKind : plus.kind = .plus := congrArg Prod.fst hplus
    obtain ⟨stage, hrun, hheight⟩ := ih hrest (some (Parser.join sum .identity, .add))
    refine ⟨stage, ?_, ?_⟩
    · simpa [Parser.run, hdotKind, hplusKind, Parser.step, Parser.startTerm, Except.bind,
        Parser.afterSegment, Parser.afterTerm, Parser.operator?, Node.ofSteps,
        Parser.Pending.push, Operator.isMultiplicative, Parser.Pending.finish, Parser.join]
        using hrun
    · simp only [Parser.join, Node.height, Node.depth] at hheight ⊢
      omega

/-- No token of a sum is illegal. -/
theorem legal_of_mem_sumContents (n : Nat) :
    ∀ content ∈ sumContents n, content.1 ≠ .illegal := by
  induction n with
  | zero => decide
  | succ n ih => simpa [sumContents] using ih

/-- A sum of many terms is read, and its tree is as high as the sum is long. -/
theorem exists_parse_sumText (n : Nat) :
    ∃ stage, parse (String.ofList (sumText n)) = .ok [stage] ∧ n < stage.height := by
  let tokens := (Scanner.ofText (String.ofList (sumText n))).tokens
  have hcontents : tokens.map Token.content = sumContents n := by
    rw [← contentsOf_sumText, contentsOf]
    simp only [tokens, Scanner.ofText, String.toList_ofList]
  have hlegal : tokens.find? (·.kind == .illegal) = none := by
    refine List.find?_eq_none.mpr fun token htoken => ?_
    have hcontent : token.content ∈ sumContents n := hcontents ▸ List.mem_map_of_mem htoken
    simpa [Token.content] using legal_of_mem_sumContents n _ hcontent
  obtain ⟨stage, hrun, hheight⟩ := run_sumContents hcontents none
  obtain ⟨first, rest, hfirst⟩ : ∃ first rest, tokens = first :: rest ∧ first.kind = .dot := by
    cases n <;> obtain ⟨first, rest, htokens, hfirst, -⟩ := List.map_eq_cons_iff.mp hcontents <;>
      exact ⟨first, rest, htokens, congrArg Prod.fst hfirst⟩
  refine ⟨stage, ?_, ?_⟩
  · have hread : parseTokens tokens = .ok [stage] := by
      rw [hfirst.1] at hrun ⊢
      simpa [parseTokens, hfirst.2, Parser.initial] using hrun
    simpa [parse, tokenize, tokens, hlegal, Except.bind] using hread
  · simp only [Parser.join, Node.height, Node.depth] at hheight ⊢
    omega

/-- **The height of trees has no bound.** -/
theorem not_exists_height_bound :
    ¬ ∃ bound, ∀ source program stage, parse source = .ok program → stage ∈ program →
      stage.height ≤ bound := by
  rintro ⟨bound, hbound⟩
  obtain ⟨stage, hparse, hheight⟩ := exists_parse_sumText bound
  have hle := hbound _ _ stage hparse List.mem_cons_self
  omega

end Sluice.Filter
