import Sluice.Proofs.Filter.Terms

/-!
# How operators group

A reader keeps at most two operands that wait for their right-hand side, one of a sum and inside it
one of a product (`Pending`). What it makes of terms joined by operators is told here without them:
the terms are split at `+` and `-` into runs joined by `*` and `/`, each run is folded to the left,
and then the runs are (`grouped`). The reader comes to that tree from every place where an
expression starts (`makes_grouped`), whatever it holds open there.
-/

namespace Sluice.Filter

open Grammar

/-- Operands joined by operators: the first one, and each operator with the operand to the right of
it. -/
structure Joined (α : Type) where
  first : α
  rest : List (Operator × α)

namespace Joined

/-- Applies a function to every operand. -/
def map {α β : Type} (f : α → β) (joined : Joined α) : Joined β :=
  ⟨f joined.first, joined.rest.map fun (operator, operand) => (operator, f operand)⟩

/-- The tree that applies the operators one after another, from the left. -/
def fold (joined : Joined Node) : Node :=
  joined.rest.foldl (fun left (operator, right) => .binary left operator right) joined.first

/-- Runs written one after another. -/
def flatten {α : Type} (runs : Joined (Joined α)) : Joined α :=
  ⟨runs.first.first, runs.first.rest ++
    runs.rest.flatMap fun (operator, run) => (operator, run.first) :: run.rest⟩

/-- Whether runs are joined by additions and subtractions, and nothing in them is. -/
structure Maximal {α : Type} (runs : Joined (Joined α)) : Prop where
  first : ∀ item ∈ runs.first.rest, item.1.isMultiplicative = true
  inside : ∀ run ∈ runs.rest, ∀ item ∈ run.2.rest, item.1.isMultiplicative = true
  between : ∀ run ∈ runs.rest, run.1.isMultiplicative = false

end Joined

/-- The runs that operands fall into at additions and subtractions. -/
def runsOf {α : Type} (first : α) : List (Operator × α) → Joined (Joined α)
  | [] => ⟨⟨first, []⟩, []⟩
  | (operator, next) :: rest =>
    let runs := runsOf next rest
    if operator.isMultiplicative then
      ⟨⟨first, (operator, runs.first.first) :: runs.first.rest⟩, runs.rest⟩
    else ⟨⟨first, []⟩, (operator, runs.first) :: runs.rest⟩

/-- The tree of terms joined by operators: each run folded, and then the runs. -/
def grouped (first : Node) (rest : List (Operator × Node)) : Node :=
  ((runsOf first rest).map Joined.fold).fold

section Runs

variable {α : Type} {first : α} {rest : List (Operator × α)}

/-- The first operand stays the first one. -/
theorem first_runsOf (first : α) (rest : List (Operator × α)) :
    (runsOf first rest).first.first = first := by
  rcases rest with _ | ⟨⟨operator, next⟩, rest⟩
  · rfl
  · simp only [runsOf]
    split <;> rfl

/-- The runs hold the operands and operators in their order. -/
theorem flatten_runsOf (first : α) (rest : List (Operator × α)) :
    (runsOf first rest).flatten = ⟨first, rest⟩ := by
  induction rest generalizing first with
  | nil => rfl
  | cons item rest ih =>
    obtain ⟨operator, next⟩ := item
    have hrest := congrArg Joined.rest (ih next)
    simp only [Joined.flatten] at hrest
    simp only [runsOf]
    split <;> simp [Joined.flatten, first_runsOf, hrest]

/-- The runs are joined by additions and subtractions, and the operands in them are not. -/
theorem maximal_runsOf (first : α) (rest : List (Operator × α)) :
    (runsOf first rest).Maximal := by
  induction rest generalizing first with
  | nil => exact ⟨by simp [runsOf], by simp [runsOf], by simp [runsOf]⟩
  | cons item rest ih =>
    obtain ⟨operator, next⟩ := item
    obtain ⟨hfirst, hinside, hbetween⟩ := ih next
    simp only [runsOf]
    split
    next hoperator => exact ⟨List.forall_mem_cons.mpr ⟨hoperator, hfirst⟩, hinside, hbetween⟩
    next hoperator =>
      exact ⟨by simp, List.forall_mem_cons.mpr ⟨hfirst, hinside⟩,
        List.forall_mem_cons.mpr ⟨by simpa using hoperator, hbetween⟩⟩

/-- What the runs are behind the first operand does not depend on it. -/
theorem runsOf_congr (first other : α) (rest : List (Operator × α)) :
    runsOf first rest = ⟨⟨first, (runsOf other rest).first.rest⟩, (runsOf other rest).rest⟩ := by
  rcases rest with _ | ⟨⟨operator, next⟩, rest⟩
  · rfl
  · simp only [runsOf]
    split <;> rfl

/-- Multiplications and divisions go on with the first run. -/
theorem runsOf_append {items : List (Operator × α)}
    (h : ∀ item ∈ items, item.1.isMultiplicative = true) (first : α) (more : List (Operator × α)) :
    runsOf first (items ++ more) =
      ⟨⟨first, items ++ (runsOf first more).first.rest⟩, (runsOf first more).rest⟩ := by
  induction items generalizing first with
  | nil => exact runsOf_congr first first more
  | cons item items ih =>
    obtain ⟨hitem, hitems⟩ := List.forall_mem_cons.mp h
    simp only [List.cons_append, runsOf, hitem, if_true, ih hitems]
    rw [runsOf_congr item.2 first more]

/-- Runs are found again in what they are written as. -/
theorem runsOf_eq {runs : Joined (Joined α)} (h : runs.Maximal) :
    runsOf runs.flatten.first runs.flatten.rest = runs := by
  obtain ⟨⟨first, items⟩, runs⟩ := runs
  obtain ⟨hfirst, hinside, hbetween⟩ := h
  simp only [Joined.flatten, runsOf_append hfirst]
  induction runs generalizing first items with
  | nil => simp [runsOf]
  | cons run runs ih =>
    obtain ⟨operator, next, others⟩ := run
    obtain ⟨hothers, hinside⟩ := List.forall_mem_cons.mp hinside
    obtain ⟨hoperator, hbetween⟩ := List.forall_mem_cons.mp hbetween
    have hlater := ih next others hothers hinside hbetween
    simp only [List.flatMap_cons, List.cons_append, runsOf, hoperator, runsOf_append hothers,
      hlater]
    simp

/-- The runs are the one way to split the operands at additions and subtractions only. -/
theorem eq_runsOf_iff {runs : Joined (Joined α)} :
    runs = runsOf first rest ↔ runs.Maximal ∧ runs.flatten = ⟨first, rest⟩ := by
  constructor
  · rintro rfl
    exact ⟨maximal_runsOf first rest, flatten_runsOf first rest⟩
  · rintro ⟨hmaximal, hflatten⟩
    rw [← runsOf_eq hmaximal, hflatten]

end Runs

namespace Parser

/-- An expression goes on with the first run, on to the product that waits, and then with the other
runs, on to the sum that waits. -/
theorem Pending.finishAll_eq (pending : Pending) (term : Node) (items : List (Operator × Node)) :
    pending.finishAll term items =
      Joined.fold ⟨join pending.sum
          (Joined.fold ⟨join pending.product term, (runsOf term items).first.rest⟩),
        ((runsOf term items).map Joined.fold).rest⟩ := by
  induction items generalizing pending term with
  | nil => rfl
  | cons item items ih =>
    obtain ⟨operator, next⟩ := item
    have hfirst := first_runsOf next items
    rw [finishAll, ih]
    simp only [runsOf, push]
    split
    next hoperator => simp [Joined.fold, Joined.map, join, hfirst]
    next hoperator => simp [Joined.fold, Joined.map, join, Pending.finish, hfirst]

/-- An expression read from its start is grouped by runs. -/
theorem finishAll_empty (term : Node) (items : List (Operator × Node)) :
    ({} : Pending).finishAll term items = grouped term items := by
  rw [Pending.finishAll_eq, grouped, runsOf_congr term term items]
  rfl

end Parser

/-- The tokens of operators with terms to the right of them. -/
def spelled (operations : List (Token × List Token)) : List Token :=
  operations.flatMap fun (operator, term) => operator :: term

/-- Whether tokens are operators and terms to the right of them, before some others. -/
def AreOperations : List (Token × List Token) → List Token → Prop
  | [], _ => True
  | (operator, term) :: later, rest =>
    IsOperator operator.kind ∧
      Term (term ++ (spelled later ++ rest)) (spelled later ++ rest) ∧ AreOperations later rest

/-- The last term of an expression. -/
def finalTerm (first : List Token) (operations : List (Token × List Token)) : List Token :=
  (operations.map Prod.snd).getLastD first

/-- Whether a term that is all of a filter makes a node of it. -/
def IsAlone (term : List Token) (node : Node) : Prop :=
  ∀ last, last.kind = .endOfInput → parseTokens (term ++ [last]) = .ok [node]

/-- Whether a reader that takes an expression, and no more, has made a tree of it: it comes to the
outcome of a reader with that tree and all else as before, whatever comes behind the next token and
also if nothing does. -/
def Parser.Makes (parser : Parser) (expression rest : List Token) (tree : Node) : Prop :=
  ∀ others last, (∀ t ∈ others.head?, t ∈ rest.head?) → last.kind = .endOfInput →
    parser.run (expression ++ (others ++ [last])) =
      Parser.run ⟨parser.suspended, parser.enclosure, {}, .operand tree⟩ (others ++ [last])

namespace Parser

variable {term ms : List Token} {node : Node} {depth : Nat}

/-- A term closes nothing that it has not opened. -/
theorem IsTerm.countP_le (h : IsTerm (term ++ ms) ms node) :
    term.countP (isCloser ·.kind) ≤ term.countP (isOpener ·.kind) := by
  obtain ⟨taken, htaken, hcount, -⟩ := h [] (.source [] []) {}
  obtain rfl := List.append_cancel_right htaken
  simpa using hcount

/-- A term at some place stands for the node that it makes alone. -/
theorem exists_isTerm_isAlone (hreadable : Readable (term ++ ms)) (hterm : Term (term ++ ms) ms)
    (hnext : ∀ t ∈ ms.head?, ¬ Extends term t) (hshallow : Shallow depth term) :
    ∃ node, IsTerm (term ++ ms) ms node ∧ IsAlone term node := by
  obtain ⟨taken, node, htaken, hne, hreads⟩ := hreadable.terms _ _ (List.suffix_refl _) hterm
  obtain rfl := List.append_cancel_right htaken
  have hnode : IsTerm (term ++ ms) ms node := hreads hnext
  refine ⟨node, hnode, fun last hlast => ?_⟩
  obtain ⟨taken, htaken, -, hruns⟩ := hnode [] (.source [] []) {}
  obtain rfl := List.append_cancel_right htaken
  have houter : Shallow 0 term := by
    intro before hbefore
    have := hshallow before hbefore
    omega
  have hrun : initial.run (term ++ [last]) =
      run ⟨[], .source [] [], {}, .operand node⟩ [last] := hruns houter [] last (by simp) hlast
  have hend : run ⟨[], .source [] [], {}, .operand node⟩ [last] = .ok [node] := by
    simp [run, hlast, finish, lastTerm, Except.bind, stageOf, Pending.finish, join]
  obtain ⟨first, term, rfl⟩ := List.exists_cons_of_ne_nil hne
  have hfirst : first.kind ≠ .endOfInput := by
    intro hkind
    simp [term_cons_iff, hkind] at hterm
  simp only [List.cons_append, parseTokens, hfirst, if_false]
  exact hrun.trans hend

/-- Operators and chains are apart. -/
theorem not_extends_of_isOperator {t : Token} (h : IsOperator t.kind) (term : List Token) :
    ¬ Extends term t := by
  rintro ⟨-, hkind | hkind | ⟨hkind | hkind, -⟩⟩ <;> simp [IsOperator, hkind] at h

/-- Each term of an expression stands for the node that it makes alone. -/
theorem exists_items {first rest : List Token} {operations : List (Token × List Token)}
    (hreadable : Readable (first ++ (spelled operations ++ rest)))
    (hfirst : Term (first ++ (spelled operations ++ rest)) (spelled operations ++ rest))
    (hoperations : AreOperations operations rest)
    (hnext : ∀ t ∈ rest.head?, ¬ Extends (finalTerm first operations) t)
    (hshallow : Shallow depth (first ++ spelled operations)) :
    ∃ node items, IsAlone first node ∧
      List.Forall₂ (fun operation item => operator? operation.1.kind = some item.1 ∧
        IsAlone operation.2 item.2) operations items ∧
      IsTerm (first ++ (spelled operations ++ rest)) (spelled operations ++ rest) node ∧
      IsOperations (spelled operations ++ rest) rest items := by
  have hbefore := Shallow.of_front hshallow (List.prefix_append first (spelled operations))
  induction operations generalizing first with
  | nil =>
    obtain ⟨node, hnode, halone⟩ := exists_isTerm_isAlone hreadable hfirst hnext hbefore
    exact ⟨node, [], halone, .nil, hnode, .done _⟩
  | cons operation later ih =>
    obtain ⟨operator, term⟩ := operation
    obtain ⟨hoperator, hterm, hlater⟩ := hoperations
    have hspelled : spelled ((operator, term) :: later) =
        operator :: (term ++ spelled later) := by simp [spelled]
    rw [finalTerm, List.map_cons, List.getLastD_cons] at hnext
    rw [hspelled] at hreadable hfirst hshallow ⊢
    simp only [List.cons_append, List.append_assoc] at hreadable hfirst hshallow ⊢
    obtain ⟨node, hnode, halone⟩ := exists_isTerm_isAlone hreadable hfirst
      (fun t ht => not_extends_of_isOperator (Option.some.inj ht ▸ hoperator) first) hbefore
    have hbehind : Shallow depth (operator :: (term ++ spelled later)) :=
      Shallow.of_append hshallow (Nat.add_le_add_left hnode.countP_le depth)
    obtain ⟨symbol, hsymbol⟩ := exists_operator? hoperator
    obtain ⟨hopener, hcloser, -⟩ := sides_of_isPlain (isPlain_of_operator? hsymbol)
    rw [shallow_plain_iff hopener hcloser] at hbehind
    have hsuffix : term ++ (spelled later ++ rest) <:+
        first ++ operator :: (term ++ (spelled later ++ rest)) :=
      (List.suffix_cons operator _).trans (List.suffix_append first _)
    obtain ⟨next, items, hnext, hitems, hreads, hothers⟩ := ih (hreadable.of_suffix hsuffix) hterm
      hlater hnext hbehind (Shallow.of_front hbehind (List.prefix_append _ _))
    exact ⟨node, (symbol, next) :: items, halone, .cons ⟨hsymbol, hnext⟩ hitems, hnode,
      .more hsymbol hreads hothers⟩

end Parser

/-- **Operators group by precedence and to the left.** Take terms joined by operators wherever an
expression starts, with at most 128 constructs open at any place in them, before a token that is no
operator and does not extend the last term. Then each term makes a node alone, and the reader makes
of the expression, and of no more, the tree of these nodes: split at additions and subtractions,
each run of multiplications and divisions folded to the left, and then the runs. -/
theorem makes_grouped {first rest : List Token} {operations : List (Token × List Token)}
    {suspended : List Parser.Suspended} {enclosure : Parser.Enclosure} {start : Parser.Mode}
    (hstart : start.Starts (first ++ (spelled operations ++ rest)))
    (hnested : Parser.Nested suspended enclosure)
    (hnumbers : ∀ t ∈ first ++ (spelled operations ++ rest),
      t.kind = .number → IsNumberText t.text)
    (hfirst : Term (first ++ (spelled operations ++ rest)) (spelled operations ++ rest))
    (hoperations : AreOperations operations rest)
    (hnext : ∀ t ∈ rest.head?,
      ¬ IsOperator t.kind ∧ ¬ Parser.Extends (finalTerm first operations) t)
    (hshallow : Shallow suspended.length (first ++ spelled operations)) :
    ∃ node items, IsAlone first node ∧
      List.Forall₂ (fun operation item => Parser.operator? operation.1.kind = some item.1 ∧
        IsAlone operation.2 item.2) operations items ∧
      Parser.Makes ⟨suspended, enclosure, {}, start⟩ (first ++ spelled operations) rest
        (grouped node items) := by
  have hreadable := Parser.readable_of_numbers hnumbers
  obtain ⟨node, items, halone, hitems, hterm, hothers⟩ := Parser.exists_items hreadable hfirst
    hoperations (fun t ht => (hnext t ht).2) hshallow
  refine ⟨node, items, halone, hitems, fun others last hlike hlast => ?_⟩
  have hinside : suspended = [] → ∃ stages items, enclosure = .source stages items := by
    rintro rfl
    cases enclosure with
    | source stages items => exact ⟨stages, items, rfl⟩
    | parens | array | object => exact hnested.elim
  have hreads := (hterm suspended enclosure {}).trans
    (hothers.reads hinside (fun t ht => (hnext t ht).1) {} node)
  rw [Parser.finishAll_empty] at hreads
  have hshorter : rest.length < (first ++ (spelled operations ++ rest)).length := by
    have := (hreadable.terms _ _ (List.suffix_refl _) hfirst).length_lt
    simp only [List.length_append] at this ⊢
    omega
  obtain ⟨taken, htaken, -, hruns⟩ := hreads.of_term hfirst hshorter hnumbers hstart
  rw [← List.append_assoc] at htaken
  obtain rfl := List.append_cancel_right htaken
  exact hruns hshallow others last hlike hlast

/-- In `a - b * (c) / .d | ..` the product is what is subtracted. -/
theorem makes_grouped_before_pipe :
    Parser.Makes Parser.initial
      [⟨.word, .start, "a"⟩, ⟨.minus, .start, ""⟩, ⟨.word, .start, "b"⟩, ⟨.star, .start, ""⟩,
        ⟨.leftParen, .start, ""⟩, ⟨.word, .start, "c"⟩, ⟨.rightParen, .start, ""⟩,
        ⟨.slash, .start, ""⟩, ⟨.dot, .start, ""⟩, ⟨.word, .start, "d"⟩]
      [⟨.pipe, .start, ""⟩]
      (.binary (.text "a") .subtract
        (.binary (.binary (.text "b") .multiply (.text "c")) .divide (.key "d"))) := by
  have hname {text : String} (rest : List Token) : Term (⟨.word, .start, text⟩ :: rest) rest :=
    .name (Or.inl rfl)
  have hparens (rest : List Token) : Term (⟨.leftParen, .start, ""⟩ :: ⟨.word, .start, "c"⟩ ::
      ⟨.rightParen, .start, ""⟩ :: rest) rest :=
    .parens rfl ⟨⟨⟨hname _, .done _⟩, .done _⟩, .done _⟩ rfl
  have hchain (rest : List Token) :
      Term (⟨.dot, .start, ""⟩ :: ⟨.word, .start, "d"⟩ :: rest) rest :=
    .chain rfl (.key rfl (Or.inl rfl)) (.done _)
  have hshallow : Shallow 0
      [⟨.word, .start, "a"⟩, ⟨.minus, .start, ""⟩, ⟨.word, .start, "b"⟩, ⟨.star, .start, ""⟩,
        ⟨.leftParen, .start, ""⟩, ⟨.word, .start, "c"⟩, ⟨.rightParen, .start, ""⟩,
        ⟨.slash, .start, ""⟩, ⟨.dot, .start, ""⟩, ⟨.word, .start, "d"⟩] := by
    rw [Parser.shallow_plain_iff rfl rfl, Parser.shallow_plain_iff rfl rfl,
      Parser.shallow_plain_iff rfl rfl, Parser.shallow_plain_iff rfl rfl,
      Parser.shallow_opener_iff rfl, Parser.shallow_plain_iff rfl rfl,
      Parser.shallow_closer_iff rfl (by decide), Parser.shallow_plain_iff rfl rfl,
      Parser.shallow_plain_iff rfl rfl, Parser.shallow_plain_iff rfl rfl]
    intro before hbefore
    simp [List.prefix_nil.mp hbefore]
  obtain ⟨node, items, hnode, hitems, hmakes⟩ := @makes_grouped
    [⟨.word, .start, "a"⟩] [⟨.pipe, .start, ""⟩]
    [(⟨.minus, .start, ""⟩, [⟨.word, .start, "b"⟩]),
      (⟨.star, .start, ""⟩,
        [⟨.leftParen, .start, ""⟩, ⟨.word, .start, "c"⟩, ⟨.rightParen, .start, ""⟩]),
      (⟨.slash, .start, ""⟩, [⟨.dot, .start, ""⟩, ⟨.word, .start, "d"⟩])]
    [] (.source [] []) .term trivial trivial (by simp [spelled]) (hname _)
    ⟨Or.inr (Or.inl rfl), hname _, Or.inr (Or.inr (Or.inl rfl)), hparens _,
      Or.inr (Or.inr (Or.inr rfl)), hchain _, trivial⟩
    (by simp [IsOperator, Parser.Extends, IsName]) hshallow
  have halone {term : List Token} {made : Node} (h : IsAlone term made) {node : Node}
      (hparse : parseTokens (term ++ [⟨.endOfInput, .start, ""⟩]) = .ok [node]) : made = node := by
    simpa using (h ⟨.endOfInput, .start, ""⟩ rfl).symm.trans hparse
  have hitem {operation : Token × List Token} {made item : Operator × Node}
      (h : Parser.operator? operation.1.kind = some made.1 ∧ IsAlone operation.2 made.2)
      (hsymbol : Parser.operator? operation.1.kind = some item.1)
      (hparse : parseTokens (operation.2 ++ [⟨.endOfInput, .start, ""⟩]) = .ok [item.2]) :
      made = item :=
    Prod.ext (Option.some.inj (h.1.symm.trans hsymbol)) (halone h.2 hparse)
  obtain rfl : node = .text "a" := halone hnode rfl
  rcases hitems with _ | ⟨hb, _ | ⟨hc, _ | ⟨hd, ⟨⟩⟩⟩⟩
  obtain rfl : _ = ((.subtract, .text "b") : Operator × Node) := hitem hb rfl rfl
  obtain rfl : _ = ((.multiply, .text "c") : Operator × Node) := hitem hc rfl rfl
  obtain rfl : _ = ((.divide, .key "d") : Operator × Node) := hitem hd rfl rfl
  exact hmakes

/-- A number in many parentheses. -/
def wrapped (depth : Nat) : List Token :=
  List.replicate depth ⟨.leftParen, .start, ""⟩ ++
    ⟨.number, .start, "1"⟩ :: List.replicate depth ⟨.rightParen, .start, ""⟩

/-- A number in parentheses is a term, however many there are. -/
theorem term_wrapped (depth : Nat) (rest : List Token) : Term (wrapped depth ++ rest) rest := by
  induction depth generalizing rest with
  | zero => exact .number rfl (show _ ≤ 1 by decide)
  | succ depth ih =>
    have hwrapped : wrapped (depth + 1) ++ rest = ⟨.leftParen, .start, ""⟩ ::
        (wrapped depth ++ ⟨.rightParen, .start, ""⟩ :: rest) := by
      have hclose : List.replicate (depth + 1) (⟨.rightParen, .start, ""⟩ : Token) =
          List.replicate depth ⟨.rightParen, .start, ""⟩ ++ [⟨.rightParen, .start, ""⟩] :=
        List.replicate_succ'
      rw [wrapped, hclose]
      simp [wrapped, List.replicate_succ]
    rw [hwrapped]
    exact .parens rfl ⟨⟨⟨ih _, .done _⟩, .done _⟩, .done _⟩ rfl

set_option maxRecDepth 10000 in
/-- A number in 129 parentheses is a term that is too deep to be read. A dot before a name is a term
as well, but the reader takes the name with it. -/
theorem exists_not_makes :
    (Term (wrapped 129 ++ []) [] ∧
      ¬ ∃ tree, Parser.Makes Parser.initial (wrapped 129) [] tree) ∧
    (Term [⟨.dot, .start, ""⟩, ⟨.word, .start, "a"⟩] [⟨.word, .start, "a"⟩] ∧
      ¬ ∃ tree, Parser.Makes Parser.initial [⟨.dot, .start, ""⟩] [⟨.word, .start, "a"⟩] tree) := by
  refine ⟨⟨term_wrapped 129 [], ?_⟩, .chain rfl (.dot rfl) (.done _), ?_⟩
  · rintro ⟨tree, hmakes⟩
    have hrun := hmakes [] ⟨.endOfInput, .start, ""⟩ (by simp) rfl
    have hdeep : Parser.initial.run (wrapped 129 ++ ([] ++ [⟨.endOfInput, .start, ""⟩])) =
        .error (.tooDeep 128 .start) := rfl
    rw [hdeep] at hrun
    cases hrun
  · rintro ⟨tree, hmakes⟩
    have hrun := hmakes [⟨.word, .start, "a"⟩] ⟨.endOfInput, .start, ""⟩ (by simp) rfl
    cases hrun

end Sluice.Filter
