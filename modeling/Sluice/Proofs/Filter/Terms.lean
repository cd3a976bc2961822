import Sluice.Proofs.Filter.Readings

/-!
# What the reader makes of a term

Recognition says which tokens the reader gets through. Here is what it holds afterwards. A term
stands for a node, the same one wherever the term stands: a reader at the start of the term goes on
behind it as one that has been given the node (`IsTerm`). Phrases are taken one production at a
time, each from the phrases inside it, and a term from the terms that start further on, so that in
the end all terms are read (`readable_of_numbers`).
-/

namespace Sluice.Filter

open Grammar

namespace Parser

variable {parser next later : Parser} {t : Token} {ts ms rs : List Token}
  {suspended : List Suspended} {frame : Suspended} {enclosure : Enclosure} {pending : Pending}
  {mode : Mode} {kind : TokenKind}

/-- Whether the tokens up to others stand for a node, as a term and wherever they stand. -/
def IsTerm (ts rs : List Token) (node : Node) : Prop :=
  ∀ suspended enclosure pending,
    Reads ⟨suspended, enclosure, pending, .term⟩ ts
      ⟨suspended, enclosure, pending, .operand node⟩ rs

/-- Whether a token right behind a term is taken for a further part of it. Only chains go on: with a
dot or an opening bracket, and right behind a dot with a name. -/
def Extends (term : List Token) (next : Token) : Prop :=
  (∃ dot ∈ term.head?, dot.kind = .dot) ∧
    (next.kind = .dot ∨ next.kind = .leftBracket ∨
      IsName next.kind ∧ ∃ dot ∈ term.getLast?, dot.kind = .dot)

/-- Whether the tokens up to others stand for some node as a term, unless what comes next extends
them. -/
def TermReads (ts rs : List Token) : Prop :=
  ∃ taken node, ts = taken ++ rs ∧ taken ≠ [] ∧
    ((∀ next ∈ rs.head?, ¬ Extends taken next) → IsTerm ts rs node)

/-- Tokens in which every term stands for a node. -/
structure Readable (ts : List Token) : Prop where
  numbers : ∀ t ∈ ts, t.kind = .number → IsNumberText t.text
  terms : ∀ us rs, us <:+ ts → Term us rs → TermReads us rs

/-- Operators with terms to the right of them, which stand for operators and nodes. -/
inductive IsOperations : List Token → List Token → List (Operator × Node) → Prop
  | done (ts : List Token) : IsOperations ts ts []
  | more {t : Token} {ts ms rs : List Token} {operator : Operator} {node : Node}
      {items : List (Operator × Node)} :
      operator? t.kind = some operator → IsTerm ts ms node → IsOperations ms rs items →
      IsOperations (t :: ts) rs ((operator, node) :: items)

/-- The expression that goes on after a term with operators and further terms. -/
def Pending.finishAll (pending : Pending) (term : Node) : List (Operator × Node) → Node
  | [] => pending.finish term
  | (operator, next) :: items => (pending.push term operator).finishAll next items

/-- What is readable stays so from any later token. -/
theorem Readable.of_suffix (h : Readable ts) (hsuffix : ms <:+ ts) : Readable ms :=
  ⟨fun t ht => h.numbers t (hsuffix.subset ht), fun us rs hus => h.terms us rs (hus.trans hsuffix)⟩

/-- A term before what no chain goes on with. -/
theorem TermReads.exists_isTerm (h : TermReads ts rs)
    (hnext : ∀ t ∈ rs.head?, t.kind ≠ .dot ∧ t.kind ≠ .leftBracket ∧ ¬ IsName t.kind) :
    ∃ node, IsTerm ts rs node := by
  obtain ⟨taken, node, -, -, hterm⟩ := h
  refine ⟨node, hterm fun next hmem => ?_⟩
  obtain ⟨hdot, hbracket, hname⟩ := hnext next hmem
  rintro ⟨-, hkind | hkind | ⟨hkind, -⟩⟩
  · exact hdot hkind
  · exact hbracket hkind
  · exact hname hkind

/-- A term takes at least one token. -/
theorem TermReads.length_lt (h : TermReads ts rs) : rs.length < ts.length := by
  obtain ⟨taken, node, rfl, hne, -⟩ := h
  have := List.length_pos_iff.mpr hne
  simp
  omega

/-- Neither an operator nor what ends an expression goes on with a chain. -/
theorem Ends.not_extends (hends : Ends rs) (h : Many Operation ms rs) :
    ∀ t ∈ ms.head?, t.kind ≠ .dot ∧ t.kind ≠ .leftBracket ∧ ¬ IsName t.kind := by
  intro t ht
  cases ms with
  | nil => cases ht
  | cons first ms =>
    obtain rfl : first = t := by simpa using ht
    rcases many_operation_cons_iff.mp h with rfl | ⟨hoperator, -⟩
    · have hkind := hends first rfl
      revert hkind
      cases first.kind <;> simp [isCloser, IsName]
    · revert hoperator
      cases first.kind <;> simp [IsOperator, IsName]

/-- What ends an expression is no operator. -/
theorem Ends.not_isOperator (h : Ends ts) : ∀ t ∈ ts.head?, ¬ IsOperator t.kind := by
  intro t ht
  have hkind := h t ht
  revert hkind
  cases t.kind <;> simp [isCloser, IsOperator]

/-- What is left behind a term is the end of the tokens. -/
theorem IsTerm.suffix {node : Node} (h : IsTerm ts rs node) : rs <:+ ts :=
  (h [] (.source [] []) {}).suffix

/-- What is left behind operators and terms is the end of the tokens. -/
theorem IsOperations.suffix {items : List (Operator × Node)} (h : IsOperations ts rs items) :
    rs <:+ ts := by
  induction h with
  | done ts => exact List.suffix_refl ts
  | more _ hterm _ ih => exact (ih.trans hterm.suffix).trans (List.suffix_cons _ _)

/-- The kinds of operators stand for operators. -/
theorem exists_operator? (h : IsOperator kind) : ∃ operator, operator? kind = some operator := by
  revert h
  cases kind <;> simp [IsOperator, operator?]

/-- An operator neither opens nor closes anything. -/
theorem isPlain_of_operator? {operator : Operator} (h : operator? kind = some operator) :
    isPlain kind = true := by
  revert h
  cases kind <;> simp [operator?, isPlain]

/-- Operators and terms are read one after another. -/
theorem IsOperations.reads {items : List (Operator × Node)} (h : IsOperations ts rs items)
    (hinside : suspended = [] → ∃ stages items, enclosure = .source stages items)
    (hnext : ∀ t ∈ rs.head?, ¬ IsOperator t.kind) (pending : Pending) (term : Node) :
    Reads ⟨suspended, enclosure, pending, .operand term⟩ ts
      ⟨suspended, enclosure, {}, .operand (pending.finishAll term items)⟩ rs := by
  induction h generalizing pending term with
  | done ts => exact reads_finished hinside hnext
  | @more t ts ms rs operator node items hoperator hterm _ ih =>
    have hstep : step ⟨suspended, enclosure, pending, .operand term⟩ t =
        .ok ⟨suspended, enclosure, pending.push term operator, .term⟩ := by
      simp only [step, afterTerm, hoperator]
    have hrest := (hterm suspended enclosure (pending.push term operator)).trans (ih hnext _ node)
    exact (reads_plain rfl (isPlain_of_operator? hoperator) hstep rfl).trans hrest

/-- Operators with further terms stand for operators and nodes. -/
theorem exists_isOperations (hreadable : Readable ts) (h : Many Operation ts rs)
    (hends : Ends rs) : ∃ items, IsOperations ts rs items := by
  induction h with
  | done ts => exact ⟨[], .done ts⟩
  | @more _ ms rs hfirst hrest ih =>
    obtain @⟨t, ts, _, hoperator, hterm⟩ := hfirst
    have hreads : TermReads ts ms := hreadable.terms ts ms (List.suffix_cons t ts) hterm
    obtain ⟨node, hnode⟩ := hreads.exists_isTerm (hends.not_extends hrest)
    obtain ⟨operator, hsome⟩ := exists_operator? hoperator
    have hsuffix : ms <:+ t :: ts := by
      obtain ⟨taken, _, rfl, -⟩ := hreads
      exact (List.suffix_append taken ms).trans (List.suffix_cons t _)
    obtain ⟨items, hitems⟩ := ih (hreadable.of_suffix hsuffix) hends
    exact ⟨_, .more hsome hnode hitems⟩

/-- Whether an expression starts where a reader in a mode is. Right behind an opening bracket, a
number that is closed or that a colon follows is a selector instead. -/
def Mode.Starts (mode : Mode) (ts : List Token) : Prop :=
  match mode with
  | .term | .item => True
  | .bracket => ∀ number ∈ ts.head?, number.kind = .number → ∀ next ∈ ts.tail.head?,
    next.kind ≠ .rightBracket ∧ next.kind ≠ .colon
  | _ => False

/-- A number with at most one point is read as a literal. -/
theorem exists_literal (htext : IsNumberText t.text) (h : IsLiteral t.text) :
    ∃ node, literal t = .ok node := by
  obtain ⟨x, hx⟩ := Option.isSome_iff_exists.mp ((isSome_float?_iff htext).mpr h)
  exact ⟨.number x, by simp [literal, hx]⟩

/-- Behind an opening bracket, what starts with a number that is no selector is read on from the
number. -/
theorem Reads.of_bracketNumber (h : Reads ⟨suspended, enclosure, pending, .term⟩ (t :: ts) later rs)
    (hshorter : rs.length ≤ ts.length) (hkind : t.kind = .number) {leaf : Node}
    (hleaf : literal t = .ok leaf)
    (hnext : ∀ next ∈ ts.head?, next.kind ≠ .rightBracket ∧ next.kind ≠ .colon) :
    Reads ⟨suspended, enclosure, pending, .bracket⟩ (t :: ts) later rs := by
  refine h.of_first hshorter rfl fun others last hothers hlast => ?_
  simp only [run, step, startTerm, hkind, hleaf, if_false, reduceCtorEq, Except.map, Except.bind]
  refine run_congr hlast (fun next hmem _ => ?_) fun last => ?_
  · obtain ⟨hbracket, hcolon⟩ := hnext next (hothers next hmem)
    simp only [step, hleaf, Except.bind]
    rfl
  · unfold finish
    simp [lastTerm, hleaf, Except.map]

/-- Wherever an expression starts, it is read as where just a term may come. -/
theorem Reads.of_term (h : Reads ⟨suspended, enclosure, pending, .term⟩ ts later rs)
    (hterm : Term ts ms) (hshorter : rs.length < ts.length)
    (hnumbers : ∀ t ∈ ts, t.kind = .number → IsNumberText t.text) (hstart : mode.Starts ts) :
    Reads ⟨suspended, enclosure, pending, mode⟩ ts later rs := by
  obtain ⟨t, ts, rfl⟩ := List.exists_cons_of_length_pos (Nat.zero_lt_of_lt hshorter)
  have hshorter := Nat.le_of_lt_succ hshorter
  have hfirst : t.kind ≠ .rightBracket ∧ t.kind ≠ .colon ∧ t.kind ≠ .endOfInput := by
    rw [term_cons_iff] at hterm
    revert hterm
    cases t.kind <;> simp
  obtain ⟨hclose, hcolon, hend⟩ := hfirst
  cases mode with
  | term => exact h
  | item =>
    refine h.of_first hshorter rfl fun others last _ _ => ?_
    simp only [run, hend, step]
    rfl
  | bracket =>
    by_cases hnumber : t.kind = .number
    · have hliteral : IsLiteral t.text := by
        simp only [term_cons_iff, hnumber] at hterm
        exact hterm.1
      obtain ⟨leaf, hleaf⟩ := exists_literal (hnumbers t List.mem_cons_self hnumber) hliteral
      exact h.of_bracketNumber hshorter hnumber hleaf (hstart t rfl hnumber)
    · refine h.of_first hshorter rfl fun others last _ _ => ?_
      simp only [run, hend, step, if_false]
      rfl
  | bracketNumber | rangeStop | rangeEnd | objectStart | objectKey | objectColon | dot | segment
  | operand => exact hstart.elim

/-- Whether the tokens up to others stand for a node, as an expression in some construct. -/
def IsExpression (start : Mode) (ts rs : List Token) (node : Node) : Prop :=
  ∀ frame suspended enclosure,
    Reads ⟨frame :: suspended, enclosure, {}, start⟩ ts
      ⟨frame :: suspended, enclosure, {}, .operand node⟩ rs

/-- An expression stands for a node. -/
theorem exists_isExpression (hreadable : Readable ts) (h : Binary ts rs) (hends : Ends rs)
    (hstart : mode.Starts ts) : ∃ node, IsExpression mode ts rs node := by
  obtain ⟨ms, hterm, hrest⟩ := binary_iff.mp h
  have hreads : TermReads ts ms := hreadable.terms ts ms (List.suffix_refl ts) hterm
  obtain ⟨term, hnode⟩ := hreads.exists_isTerm (hends.not_extends hrest)
  obtain ⟨items, hitems⟩ := exists_isOperations (hreadable.of_suffix hnode.suffix) hrest hends
  have hshorter : rs.length < ts.length :=
    Nat.lt_of_le_of_lt hitems.suffix.length_le hreads.length_lt
  refine ⟨({} : Pending).finishAll term items, fun frame suspended enclosure => ?_⟩
  have hboth : Reads ⟨frame :: suspended, enclosure, {}, .term⟩ ts
      ⟨frame :: suspended, enclosure, {}, .operand (({} : Pending).finishAll term items)⟩ rs :=
    (hnode (frame :: suspended) enclosure {}).trans
      (hitems.reads (fun hnil => absurd hnil (List.cons_ne_nil _ _)) hends.not_isOperator {} term)
  exact hboth.of_term hterm hshorter hreadable.numbers hstart

/-- What is left behind an expression is the end of the tokens. -/
theorem IsExpression.suffix {node : Node} (h : IsExpression mode ts rs node) : rs <:+ ts :=
  (h ⟨.source [] [], {}, none⟩ [] (.source [] [])).suffix

/-- A number in brackets that is no index is not closed, and starts no range. -/
theorem starts_bracket (h : Binary ts rs) (hends : Ends rs) (hindex : ¬ IsIndex ts) :
    Mode.bracket.Starts ts := by
  intro number hnumber hkind next hnext
  obtain ⟨ts, rfl⟩ := List.head?_eq_some_iff.mp hnumber
  obtain ⟨later, rfl⟩ := List.head?_eq_some_iff.mp hnext
  refine ⟨fun hclose => hindex ⟨hkind, hclose⟩, fun hcolon => ?_⟩
  obtain ⟨-, hmany⟩ := (binary_number_iff hkind).mp h
  rcases many_operation_cons_iff.mp hmany with rfl | ⟨hoperator, -⟩
  · simpa [hcolon, isCloser] using hends next rfl
  · simp [IsOperator, hcolon] at hoperator

/-- A token that is no operator comes after a whole expression. -/
theorem step_operand {term : Node} (h : operator? t.kind = none) :
    step ⟨suspended, enclosure, {}, .operand term⟩ t =
      afterExpression ⟨suspended, enclosure, {}, .operand term⟩ term t := by
  simp only [step, afterTerm, h]
  rfl

/-- A separator ends the expression before it. -/
theorem Ends.of_many {phrase : Phrase} (hkind : kind = .comma ∨ kind = .pipe)
    (h : Many (After kind phrase) ts rs) (hends : Ends rs) : Ends ts := by
  rcases h with _ | ⟨⟨ht, -⟩, -⟩
  · exact hends
  · intro t hmem
    obtain rfl := Option.some.inj hmem
    rw [ht]
    exact hkind.imp_right Or.inl

/-- The further phrases of a construct, each behind a separator, if one of them is read from
whatever the construct holds. -/
theorem exists_reads_many {σ : Type} {phrase : Phrase} (fill : σ → Enclosure)
    (hkind : kind = .comma ∨ kind = .pipe)
    (hone : ∀ held last {t ts rs}, t.kind = kind → Readable ts → phrase ts rs → Ends rs →
      ∃ held' last', ∀ frame suspended,
        Reads ⟨frame :: suspended, fill held, {}, .operand last⟩ (t :: ts)
          ⟨frame :: suspended, fill held', {}, .operand last'⟩ rs)
    (hreadable : Readable ts) (h : Many (After kind phrase) ts rs) (hends : Ends rs) (held : σ)
    (last : Node) :
    ∃ held' last', ∀ frame suspended,
      Reads ⟨frame :: suspended, fill held, {}, .operand last⟩ ts
        ⟨frame :: suspended, fill held', {}, .operand last'⟩ rs := by
  induction h generalizing held last with
  | done ts => exact ⟨held, last, fun _ _ => .refl _ _⟩
  | @more _ ms rs hfirst hrest ih =>
    obtain @⟨t, ts, _, ht, hphrase⟩ := hfirst
    obtain ⟨next, node, hnext⟩ := hone held last ht
      (hreadable.of_suffix (List.suffix_cons t ts)) hphrase (hends.of_many hkind hrest)
    have hsuffix : ms <:+ t :: ts := (hnext ⟨.source [] [], {}, none⟩ []).suffix
    obtain ⟨held', last', hlast⟩ := ih (hreadable.of_suffix hsuffix) hends next node
    exact ⟨held', last', fun frame suspended =>
      (hnext frame suspended).trans (hlast frame suspended)⟩

/-- The further expressions of a construct that holds a list of them, and goes on behind a comma in
a mode of its own. -/
theorem exists_reads_commas (fill : List Node → Enclosure) (start : Mode)
    (hstart : ∀ ts, start.Starts ts)
    (hcomma : ∀ {suspended items node t}, t.kind = .comma →
      step ⟨suspended, fill items, {}, .operand node⟩ t =
        .ok ⟨suspended, fill (items ++ [node]), {}, start⟩)
    (hreadable : Readable ts) (h : Many (After .comma Binary) ts rs) (hends : Ends rs)
    (last : Node) :
    ∃ items' last', ∀ frame suspended,
      Reads ⟨frame :: suspended, fill [], {}, .operand last⟩ ts
        ⟨frame :: suspended, fill items', {}, .operand last'⟩ rs := by
  refine exists_reads_many fill (Or.inl rfl) ?_ hreadable h hends [] last
  intro items last t ts rs hkind hreadable hbinary hends
  obtain ⟨node, hnode⟩ := exists_isExpression hreadable hbinary hends (hstart ts)
  refine ⟨items ++ [last], node, fun frame suspended => Reads.trans ?_ (hnode frame suspended _)⟩
  exact reads_plain hkind rfl (hcomma hkind) rfl

/-- An array that the end of the input closes. -/
theorem reads_input (items : List Node) (term : Option Node)
    (hterm : ∀ last, lastTerm mode last = .ok term) :
    Reads ⟨frame :: suspended, .array items, {}, mode⟩ []
      (frame.close suspended (.array (items ++ term.toList))) [] := by
  refine .of_congr (by simp [Suspended.close]) (by simp) fun last => ?_
  conv => lhs; unfold finish
  simp only [hterm, Except.bind, Suspended.close]
  cases term with
  | none | some => rfl

/-- The end of an array ends its last item. -/
theorem Ends.of_itemsEnd (hcomma : OptionalComma ts ms) (hend : ItemsEnd ms rs) : Ends ts := by
  cases hcomma with
  | absent =>
    cases hend with
    | closed hkind => simp [Ends, hkind, isCloser]
    | input => simp [Ends]
  | present hkind => simp [Ends, hkind]

/-- A comma completes an item of an array. -/
theorem step_array_comma {items : List Node} {last : Node} (hkind : t.kind = .comma) :
    step ⟨suspended, .array items, {}, .operand last⟩ t =
      .ok ⟨suspended, .array (items ++ [last]), {}, .item⟩ := by
  rw [step_operand (by simp [hkind, operator?])]
  simp [afterExpression, hkind, proceed]

/-- The end of the items of an array, behind the last of them. -/
theorem exists_reads_end (items : List Node) (last : Node) (hcomma : OptionalComma ts ms)
    (hend : ItemsEnd ms rs) :
    ∃ node, ∀ frame suspended,
      Reads ⟨frame :: suspended, .array items, {}, .operand last⟩ ts (frame.close suspended node)
        rs := by
  refine ⟨.array (items ++ [last]), fun frame suspended => ?_⟩
  cases hcomma with
  | absent =>
    cases hend with
    | closed hkind =>
      refine reads_closer hkind rfl ?_
      rw [step_operand (by simp [hkind, operator?])]
      simp [afterExpression, hkind]
    | input => exact reads_input items (some last) fun _ => rfl
  | @present t _ hkind =>
    have hstep : Reads ⟨frame :: suspended, .array items, {}, .operand last⟩ (t :: ms)
        ⟨frame :: suspended, .array (items ++ [last]), {}, .item⟩ ms :=
      reads_plain hkind rfl (step_array_comma hkind) rfl
    refine hstep.trans ?_
    cases hend with
    | closed hclose => exact reads_closer hclose rfl (by simp [step, hclose, Enclosure.items])
    | input => simpa using reads_input (items ++ [last]) none fun _ => rfl

/-- A number that can stand for a position is read as one. -/
theorem exists_position (h : IsPosition t.text) : ∃ n, position t = .ok n := by
  obtain ⟨n, hn⟩ := Option.isSome_iff_exists.mp (isSome_int64?_iff.mpr h)
  exact ⟨n, by simp [position, hn]⟩

/-- The rest of a range behind its colon. -/
theorem exists_reads_stop {close : Token} (hbound : Bound ts (close :: rs))
    (hclose : close.kind = .rightBracket) (start : Option Int64) :
    ∃ bounds, ∀ frame suspended,
      Reads ⟨frame :: suspended, .array [], {}, .rangeStop start⟩ ts
        (frame.close suspended (.range bounds)) rs := by
  cases hbound with
  | absent =>
    refine ⟨⟨start, none⟩, fun frame suspended => reads_closer hclose rfl ?_⟩
    simp [step, hclose]
  | @present t _ hkind hposition =>
    obtain ⟨n, hn⟩ := exists_position hposition
    refine ⟨⟨start, some n⟩, fun frame suspended => ?_⟩
    have hnumber : Reads ⟨frame :: suspended, .array [], {}, .rangeStop start⟩ (t :: close :: rs)
        ⟨frame :: suspended, .array [], {}, .rangeEnd ⟨start, some n⟩⟩ (close :: rs) :=
      reads_plain hkind rfl (by simp [step, hkind, hn, Except.map]) rfl
    exact hnumber.trans (reads_closer hclose rfl (by simp [step, hclose]))

/-- A range in a bracket is read as its bounds. -/
theorem exists_reads_range {colon close : Token} (hstart : Bound ts (colon :: ms))
    (hcolon : colon.kind = .colon) (hstop : Bound ms (close :: rs))
    (hclose : close.kind = .rightBracket) :
    ∃ bounds, ∀ frame suspended,
      Reads ⟨frame :: suspended, .array [], {}, .bracket⟩ ts
        (frame.close suspended (.range bounds)) rs := by
  cases hstart with
  | absent =>
    obtain ⟨bounds, hbounds⟩ := exists_reads_stop hstop hclose none
    refine ⟨bounds, fun frame suspended => Reads.trans ?_ (hbounds frame suspended)⟩
    exact reads_plain hcolon rfl (by simp [step, hcolon]) rfl
  | @present t _ hkind hposition =>
    obtain ⟨n, hn⟩ := exists_position hposition
    obtain ⟨bounds, hbounds⟩ := exists_reads_stop hstop hclose (some n)
    refine ⟨bounds, fun frame suspended => ?_⟩
    have hnumber : Reads ⟨frame :: suspended, .array [], {}, .bracket⟩ (t :: colon :: ms)
        ⟨frame :: suspended, .array [], {}, .bracketNumber t⟩ (colon :: ms) :=
      reads_plain hkind rfl (by simp [step, hkind]) rfl
    refine hnumber.trans (Reads.trans ?_ (hbounds frame suspended))
    exact reads_plain hcolon rfl (by simp [step, hcolon, hn, Except.map]) rfl

/-- What is in brackets is one node. -/
theorem exists_reads_bracket (hreadable : Readable ts) (h : Bracket ts rs) :
    ∃ node, ∀ frame suspended,
      Reads ⟨frame :: suspended, .array [], {}, .bracket⟩ ts (frame.close suspended node) rs := by
  cases h with
  | iterate hclose =>
    exact ⟨.iterate, fun frame suspended => reads_closer hclose rfl (by simp [step, hclose])⟩
  | @index number close _ hkind hposition hclose =>
    obtain ⟨n, hn⟩ := exists_position hposition
    refine ⟨.index n, fun frame suspended => ?_⟩
    have hnumber : Reads ⟨frame :: suspended, .array [], {}, .bracket⟩ (number :: close :: rs)
        ⟨frame :: suspended, .array [], {}, .bracketNumber number⟩ (close :: rs) :=
      reads_plain hkind rfl (by simp [step, hkind]) rfl
    exact hnumber.trans (reads_closer hclose rfl (by simp [step, hclose, hn, Except.map]))
  | range hstart hcolon hstop hclose =>
    obtain ⟨bounds, hbounds⟩ := exists_reads_range hstart hcolon hstop hclose
    exact ⟨.range bounds, hbounds⟩
  | items hindex hitems =>
    cases hitems with
    | none hend =>
      cases hend with
      | closed hclose =>
        exact ⟨.iterate, fun frame suspended => reads_closer hclose rfl (by simp [step, hclose])⟩
      | input => exact ⟨_, fun frame suspended => reads_input [] none fun _ => rfl⟩
    | some hbinary hcommas hcomma hend =>
      have hends := Ends.of_itemsEnd hcomma hend
      have hmore := hends.of_many (Or.inl rfl) hcommas
      obtain ⟨first, hfirst⟩ :=
        exists_isExpression hreadable hbinary hmore (starts_bracket hbinary hmore hindex)
      obtain ⟨items, last, hlast⟩ := exists_reads_commas .array .item (fun _ => trivial)
        step_array_comma (hreadable.of_suffix hfirst.suffix) hcommas hends first
      obtain ⟨node, hnode⟩ := exists_reads_end items last hcomma hend
      exact ⟨node, fun frame suspended => (hfirst frame suspended _).trans
        ((hlast frame suspended).trans (hnode frame suspended))⟩

/-- A key and the expression under it. -/
theorem exists_reads_pair (hreadable : Readable ts) (h : Pair ts rs) (hends : Ends rs)
    (entries : List (String × Node)) :
    ∃ key value, ∀ frame suspended old start, start = .objectStart ∨ start = .objectKey →
      Reads ⟨frame :: suspended, .object entries old, {}, start⟩ ts
        ⟨frame :: suspended, .object entries key, {}, .operand value⟩ rs := by
  obtain @⟨key, colon, ts, _, hkey, hcolon, hbinary⟩ := h
  have hsuffix : ts <:+ key :: colon :: ts := List.suffix_append [key, colon] ts
  have hstart : Mode.term.Starts ts := trivial
  obtain ⟨value, hvalue⟩ :=
    exists_isExpression (hreadable.of_suffix hsuffix) hbinary hends hstart
  refine ⟨key.text, value, fun frame suspended old start hstart => ?_⟩
  have hname : Reads ⟨frame :: suspended, .object entries old, {}, start⟩ (key :: colon :: ts)
      ⟨frame :: suspended, .object entries old, {}, .objectColon key.text⟩ (colon :: ts) := by
    rcases hkey with hkind | hkind <;> rcases hstart with rfl | rfl <;>
    exact reads_plain hkind rfl (by simp [step, hkind]) rfl
  have hopen : Reads ⟨frame :: suspended, .object entries old, {}, .objectColon key.text⟩
      (colon :: ts) ⟨frame :: suspended, .object entries key.text, {}, .term⟩ ts :=
    reads_plain hcolon rfl (by simp [step, hcolon, proceed, Enclosure.entries]) rfl
  exact hname.trans (hopen.trans (hvalue frame suspended _))

/-- A further key of an object. -/
theorem exists_reads_further_pair (entries : List (String × Node)) (key : String) (value : Node)
    (hkind : t.kind = .comma) (hreadable : Readable ts) (h : Pair ts rs) (hends : Ends rs) :
    ∃ (held : List (String × Node) × String) (value' : Node), ∀ frame suspended,
      Reads ⟨frame :: suspended, .object entries key, {}, .operand value⟩ (t :: ts)
        ⟨frame :: suspended, .object held.1 held.2, {}, .operand value'⟩ rs := by
  obtain ⟨next, under, hunder⟩ :=
    exists_reads_pair hreadable h hends (entries ++ [(key, value)])
  refine ⟨(entries ++ [(key, value)], next), under, fun frame suspended =>
    Reads.trans ?_ (hunder frame suspended "" .objectKey (Or.inr rfl))⟩
  refine reads_plain hkind rfl ?_ rfl
  rw [step_operand (by simp [hkind, operator?])]
  simp [afterExpression, hkind, proceed]

/-- What is in braces is one node. -/
theorem exists_reads_object (hreadable : Readable ts) (h : Object ts rs) :
    ∃ node, ∀ frame suspended,
      Reads ⟨frame :: suspended, .object [] "", {}, .objectStart⟩ ts (frame.close suspended node)
        rs := by
  cases h with
  | empty hclose =>
    exact ⟨.object [], fun frame suspended => reads_closer hclose rfl (by simp [step, hclose])⟩
  | @pairs close _ ms _ hpair hpairs hclose =>
    have hends : Ends (close :: rs) := by simp [Ends, hclose, isCloser]
    have hmore := hends.of_many (Or.inl rfl) hpairs
    obtain ⟨first, under, hfirst⟩ := exists_reads_pair hreadable hpair hmore []
    have hsuffix : ms <:+ ts :=
      (hfirst ⟨.source [] [], {}, none⟩ [] "" .objectKey (Or.inr rfl)).suffix
    obtain ⟨⟨entries, key⟩, value, hlast⟩ := exists_reads_many
      (fun held : List (String × Node) × String => .object held.1 held.2) (Or.inl rfl)
      (fun held value => exists_reads_further_pair held.1 held.2 value)
      (hreadable.of_suffix hsuffix) hpairs hends ([], first) under
    refine ⟨.object (entries ++ [(key, value)]), fun frame suspended => ?_⟩
    refine (hfirst frame suspended "" .objectStart (Or.inl rfl)).trans
      ((hlast frame suspended).trans (reads_closer hclose rfl ?_))
    rw [step_operand (by simp [hclose, operator?])]
    simp [afterExpression, hclose]

/-- The expressions of a stage in parentheses. -/
theorem exists_reads_stage (hreadable : Readable ts) (h : Commas ts rs) (hends : Ends rs)
    (stages : List Node) :
    ∃ items last, ∀ frame suspended,
      Reads ⟨frame :: suspended, .parens stages [], {}, .term⟩ ts
        ⟨frame :: suspended, .parens stages items, {}, .operand last⟩ rs := by
  obtain @⟨_, ms, _, hbinary, hcommas⟩ := h
  have hmore := hends.of_many (Or.inl rfl) hcommas
  have hstart : Mode.term.Starts ts := trivial
  obtain ⟨first, hfirst⟩ := exists_isExpression hreadable hbinary hmore hstart
  have hcomma {suspended : List Suspended} {items : List Node} {node : Node} {t : Token}
      (hkind : t.kind = .comma) : step ⟨suspended, .parens stages items, {}, .operand node⟩ t =
        .ok ⟨suspended, .parens stages (items ++ [node]), {}, .term⟩ := by
    rw [step_operand (by simp [hkind, operator?])]
    simp [afterExpression, hkind, proceed]
  obtain ⟨items, last, hlast⟩ := exists_reads_commas (.parens stages) .term
    (fun _ => trivial) hcomma (hreadable.of_suffix hfirst.suffix) hcommas hends first
  exact ⟨items, last, fun frame suspended =>
    (hfirst frame suspended _).trans (hlast frame suspended)⟩

/-- A further stage in parentheses. -/
theorem exists_reads_further_stage (stages items : List Node) (last : Node)
    (hkind : t.kind = .pipe) (hreadable : Readable ts) (h : Commas ts rs) (hends : Ends rs) :
    ∃ (held : List Node × List Node) (last' : Node), ∀ frame suspended,
      Reads ⟨frame :: suspended, .parens stages items, {}, .operand last⟩ (t :: ts)
        ⟨frame :: suspended, .parens held.1 held.2, {}, .operand last'⟩ rs := by
  obtain ⟨next, under, hunder⟩ :=
    exists_reads_stage hreadable h hends (stages ++ [stageOf items last])
  refine ⟨(stages ++ [stageOf items last], next), under, fun frame suspended =>
    Reads.trans ?_ (hunder frame suspended)⟩
  refine reads_plain hkind rfl ?_ rfl
  rw [step_operand (by simp [hkind, operator?])]
  simp [afterExpression, hkind, proceed]

/-- What is in parentheses is one node. -/
theorem exists_reads_parens {close : Token} (hreadable : Readable ts)
    (h : Pipeline ts (close :: rs)) (hclose : close.kind = .rightParen) :
    ∃ node, ∀ frame suspended,
      Reads ⟨frame :: suspended, .parens [] [], {}, .term⟩ ts (frame.close suspended node) rs := by
  obtain @⟨_, ms, _, hcommas, hpipes⟩ := h
  have hends : Ends (close :: rs) := by simp [Ends, hclose, isCloser]
  have hmore := hends.of_many (Or.inr rfl) hpipes
  obtain ⟨first, under, hfirst⟩ := exists_reads_stage hreadable hcommas hmore []
  have hsuffix : ms <:+ ts := (hfirst ⟨.source [] [], {}, none⟩ []).suffix
  obtain ⟨⟨stages, items⟩, last, hlast⟩ := exists_reads_many
    (fun held : List Node × List Node => .parens held.1 held.2) (Or.inr rfl)
    (fun held last => exists_reads_further_stage held.1 held.2 last)
    (hreadable.of_suffix hsuffix) hpipes hends ([], first) under
  refine ⟨.ofStages (stages ++ [stageOf items last]), fun frame suspended => ?_⟩
  refine (hfirst frame suspended).trans
    ((hlast frame suspended).trans (reads_closer hclose rfl ?_))
  rw [step_operand (by simp [hclose, operator?])]
  simp [afterExpression, hclose]

/-- How a reader stands behind the tokens of a chain: behind a complete segment, or behind a dot
that a name may still follow. -/
def InChain (taken : List Token) (mode : Mode) : Prop :=
  (∃ steps, mode = .segment steps) ∨
    (∃ steps, mode = .dot steps) ∧ ∃ dot ∈ taken.getLast?, dot.kind = .dot

/-- Behind more tokens of a chain a reader is in the chain as well. -/
theorem InChain.append {taken : List Token} (h : InChain taken mode) (hne : taken ≠ [])
    (before : List Token) : InChain (before ++ taken) mode := by
  simpa [InChain, List.getLast?_append, List.getLast?_eq_some_getLast hne] using h

/-- A segment behind complete segments. -/
theorem exists_reads_segment (hreadable : Readable ts) (h : Segment (t :: ts) rs)
    (steps : List Node) :
    ∃ taken next, ts = taken ++ rs ∧ InChain (t :: taken) next ∧
      ∀ suspended enclosure pending,
        Reads ⟨suspended, enclosure, pending, .segment steps⟩ (t :: ts)
          ⟨suspended, enclosure, pending, next⟩ rs := by
  cases h with
  | dot hkind =>
    refine ⟨[], .dot steps, rfl, Or.inr ⟨⟨steps, rfl⟩, t, rfl, hkind⟩, fun _ _ _ => ?_⟩
    exact reads_plain hkind rfl (by simp [step, afterSegment, hkind]) rfl
  | @key _ name _ hkind hname =>
    refine ⟨[name], .segment (steps ++ [.key name.text]), rfl, Or.inl ⟨_, rfl⟩,
      fun suspended enclosure pending => ?_⟩
    have hdot : Reads ⟨suspended, enclosure, pending, .segment steps⟩ (t :: name :: rs)
        ⟨suspended, enclosure, pending, .dot steps⟩ (name :: rs) :=
      reads_plain hkind rfl (by simp [step, afterSegment, hkind]) rfl
    rcases hname with hword | hquoted
    · exact hdot.trans (reads_plain hword rfl (by simp [step, hword]) rfl)
    · exact hdot.trans (reads_plain hquoted rfl (by simp [step, hquoted]) rfl)
  | bracket hkind hbracket =>
    obtain ⟨node, hnode⟩ := exists_reads_bracket hreadable hbracket
    obtain ⟨taken, rfl⟩ := (hnode ⟨.source [] [], {}, none⟩ []).suffix
    refine ⟨taken, .segment (steps ++ [node]), rfl, Or.inl ⟨_, rfl⟩,
      fun suspended enclosure pending => ?_⟩
    have hopen : Reads ⟨suspended, enclosure, pending, .segment steps⟩ (t :: (taken ++ rs))
        ⟨⟨enclosure, pending, some steps⟩ :: suspended, .array [], {}, .bracket⟩ (taken ++ rs) :=
      reads_opener hkind rfl (by simp [step, afterSegment, hkind])
    exact hopen.trans (hnode ⟨enclosure, pending, some steps⟩ suspended)

/-- A segment anywhere in a chain. -/
theorem exists_reads_further {before : List Token} (hreadable : Readable ts)
    (h : Segment (t :: ts) rs) (hmode : InChain before mode) :
    ∃ taken next, ts = taken ++ rs ∧ InChain (t :: taken) next ∧
      ∀ suspended enclosure pending,
        Reads ⟨suspended, enclosure, pending, mode⟩ (t :: ts)
          ⟨suspended, enclosure, pending, next⟩ rs := by
  rcases hmode with ⟨steps, rfl⟩ | ⟨⟨steps, rfl⟩, -⟩
  · exact exists_reads_segment hreadable h steps
  · have hkind : t.kind = .dot ∨ t.kind = .leftBracket := by
      cases h with
      | dot hkind | key hkind => exact Or.inl hkind
      | bracket hkind => exact Or.inr hkind
    -- A dot that another dot follows is a step of its own, and one before a bracket is none.
    obtain ⟨complete, hcomplete⟩ : ∃ complete, ∀ suspended enclosure pending,
        step ⟨suspended, enclosure, pending, .dot steps⟩ t =
          step ⟨suspended, enclosure, pending, .segment complete⟩ t := by
      rcases hkind with hkind | hkind
      · exact ⟨steps ++ [.identity], by simp [step, afterSegment, hkind]⟩
      · exact ⟨steps, by simp [step, afterSegment, hkind, descend]⟩
    obtain ⟨taken, next, rfl, hnext, hreads⟩ := exists_reads_segment hreadable h complete
    refine ⟨taken, next, rfl, hnext, fun suspended enclosure pending => ?_⟩
    have hend : t.kind ≠ .endOfInput := by
      rcases hkind with hkind | hkind <;> simp [hkind]
    refine (hreads suspended enclosure pending).of_first (by simp) rfl fun others last _ _ => ?_
    simp only [run, hend, if_false, hcomplete]

/-- Segments lead from one place in a chain to another. -/
theorem exists_reads_segments {before : List Token} (hreadable : Readable ts)
    (h : Many Segment ts rs) (hmode : InChain before mode) :
    ∃ taken next, ts = taken ++ rs ∧ InChain (before ++ taken) next ∧
      ∀ suspended enclosure pending,
        Reads ⟨suspended, enclosure, pending, mode⟩ ts
          ⟨suspended, enclosure, pending, next⟩ rs := by
  induction h generalizing before mode with
  | done ts => exact ⟨[], mode, rfl, by simpa using hmode, fun _ _ _ => .refl _ _⟩
  | @more ts ms rs hfirst hrest ih =>
    cases ts with
    | nil => cases hfirst
    | cons t ts =>
      have hreadable := hreadable.of_suffix (List.suffix_cons t ts)
      obtain ⟨taken, middle, rfl, hmiddle, hreads⟩ := exists_reads_further hreadable hfirst hmode
      obtain ⟨more, next, rfl, hnext, hmore⟩ := ih
        (hreadable.of_suffix (List.suffix_append taken ms)) (hmiddle.append (by simp) before)
      refine ⟨t :: taken ++ more, next, by simp, by simpa using hnext,
        fun suspended enclosure pending => ?_⟩
      exact (hreads suspended enclosure pending).trans (hmore suspended enclosure pending)

/-- A chain ends before what does not extend it. -/
theorem InChain.exists_reads {taken : List Token} (h : InChain taken mode)
    (hdot : ∃ dot ∈ taken.head?, dot.kind = .dot) :
    ∃ node, (∀ next ∈ rs.head?, ¬ Extends taken next) → ∀ suspended enclosure pending,
      Reads ⟨suspended, enclosure, pending, mode⟩ rs
        ⟨suspended, enclosure, pending, .operand node⟩ rs := by
  rcases h with ⟨steps, rfl⟩ | ⟨⟨steps, rfl⟩, hlast⟩
  · refine ⟨.ofSteps steps, fun hnext _ _ _ => reads_segment fun t ht => ⟨fun hkind => ?_,
      fun hkind => ?_⟩⟩
    · exact hnext t ht ⟨hdot, Or.inl hkind⟩
    · exact hnext t ht ⟨hdot, Or.inr (Or.inl hkind)⟩
  · refine ⟨.ofSteps (steps ++ [.identity]), fun hnext _ _ _ => reads_dot fun t ht =>
      ⟨fun hkind => ?_, fun hkind => ?_, fun hname => ?_⟩⟩
    · exact hnext t ht ⟨hdot, Or.inl hkind⟩
    · exact hnext t ht ⟨hdot, Or.inr (Or.inl hkind)⟩
    · exact hnext t ht ⟨hdot, Or.inr (Or.inr ⟨hname, hlast⟩)⟩

/-- A construct in brackets, braces or parentheses is a term. -/
theorem termReads_of_construct {inner : Enclosure} {start : Mode} {node : Node}
    (hkind : t.kind = kind) (hopener : isOpener kind = true)
    (hstep : ∀ suspended enclosure pending, step ⟨suspended, enclosure, pending, .term⟩ t =
      descend ⟨suspended, enclosure, pending, .term⟩ none inner start t)
    (h : ∀ frame suspended,
      Reads ⟨frame :: suspended, inner, {}, start⟩ ts (frame.close suspended node) rs) :
    TermReads (t :: ts) rs := by
  obtain ⟨taken, rfl⟩ := (h ⟨.source [] [], {}, none⟩ []).suffix
  refine ⟨t :: taken, node, rfl, by simp, fun _ suspended enclosure pending => ?_⟩
  have hopen : Reads ⟨suspended, enclosure, pending, .term⟩ (t :: (taken ++ rs))
      ⟨⟨enclosure, pending, none⟩ :: suspended, inner, {}, start⟩ (taken ++ rs) :=
    reads_opener hkind hopener (hstep suspended enclosure pending)
  exact hopen.trans (h ⟨enclosure, pending, none⟩ suspended)

/-- A chain stands for a node. -/
theorem termReads_of_chain (hreadable : Readable ts) (hkind : t.kind = .dot)
    (hfirst : Segment (t :: ts) ms) (hrest : Many Segment ms rs) : TermReads (t :: ts) rs := by
  obtain ⟨taken, middle, rfl, hmiddle, hreads⟩ := exists_reads_segment hreadable hfirst []
  obtain ⟨more, last, rfl, hlast, hmore⟩ :=
    exists_reads_segments (hreadable.of_suffix (List.suffix_append taken ms)) hrest hmiddle
  obtain ⟨node, hnode⟩ := hlast.exists_reads ⟨t, rfl, hkind⟩
  refine ⟨t :: taken ++ more, node, by simp, by simp, fun hnext suspended enclosure pending => ?_⟩
  have hstart : Reads ⟨suspended, enclosure, pending, .term⟩ (t :: (taken ++ (more ++ rs)))
      ⟨suspended, enclosure, pending, middle⟩ (more ++ rs) := by
    refine (hreads suspended enclosure pending).of_first (by simp) rfl fun others last _ _ => ?_
    simp [run, hkind, step, startTerm, afterSegment]
  exact hstart.trans ((hmore suspended enclosure pending).trans
    (hnode hnext suspended enclosure pending))

/-- A term is read, if those that start further on are. -/
theorem termReads_of_term (hnumber : t.kind = .number → IsNumberText t.text)
    (hreadable : Readable ts) (h : Term (t :: ts) rs) : TermReads (t :: ts) rs := by
  cases h with
  | number hkind hliteral =>
    obtain ⟨node, hnode⟩ := exists_literal (hnumber hkind) hliteral
    refine ⟨[t], node, rfl, by simp, fun _ _ _ _ => ?_⟩
    exact reads_plain hkind rfl (by simp [step, startTerm, hkind, hnode, Except.map]) rfl
  | name hname =>
    rcases hname with hkind | hkind
    · refine ⟨[t], if t.text = "length" then .length else .text t.text, rfl, by simp,
        fun _ _ _ _ => ?_⟩
      exact reads_plain hkind rfl (by simp [step, startTerm, hkind]) rfl
    · refine ⟨[t], .text t.text, rfl, by simp, fun _ _ _ _ => ?_⟩
      exact reads_plain hkind rfl (by simp [step, startTerm, hkind]) rfl
  | chain hkind hfirst hrest => exact termReads_of_chain hreadable hkind hfirst hrest
  | bracket hkind hbracket =>
    obtain ⟨node, hnode⟩ := exists_reads_bracket hreadable hbracket
    exact termReads_of_construct hkind rfl (by simp [step, startTerm, hkind]) hnode
  | object hkind hobject =>
    obtain ⟨node, hnode⟩ := exists_reads_object hreadable hobject
    exact termReads_of_construct hkind rfl (by simp [step, startTerm, hkind]) hnode
  | parens hkind hpipeline hclose =>
    obtain ⟨node, hnode⟩ := exists_reads_parens hreadable hpipeline hclose
    exact termReads_of_construct hkind rfl (by simp [step, startTerm, hkind]) hnode

/-- Every term stands for a node, where the numbers are such as the scanner gives. -/
theorem readable_of_numbers (h : ∀ t ∈ ts, t.kind = .number → IsNumberText t.text) :
    Readable ts := by
  induction ts with
  | nil =>
    refine ⟨h, fun us rs hsuffix hterm => ?_⟩
    rw [List.suffix_nil.mp hsuffix] at hterm
    cases hterm
  | cons t ts ih =>
    obtain ⟨hnumber, hrest⟩ := List.forall_mem_cons.mp h
    have hreadable := ih hrest
    refine ⟨h, fun us rs hsuffix hterm => ?_⟩
    rcases List.suffix_cons_iff.mp hsuffix with rfl | hinside
    · exact termReads_of_term hnumber hreadable hterm
    · exact hreadable.terms us rs hinside hterm

end Parser

end Sluice.Filter
