import Sluice.Proofs.Filter.Phrases
import Sluice.Proofs.Filter.Scanning

/-!
# The reader accepts the sentences of the grammar

A reader between two tokens accepts exactly the continuations that finish what is open: the phrase
its mode stands in, the rest of the innermost construct, and then the rest of each construct around
it (`Parser.Follows`). One token takes a continuation to a continuation of the next reader
(`Parser.step_leads`), and the end of input is accepted exactly where nothing more is needed
(`Parser.finish_ok_iff`). Both together give the language of the reader.
-/

namespace Sluice.Filter

open Grammar

namespace Parser

/-- The rest of a construct after a complete expression in it. -/
def Enclosure.Rest : Enclosure → Phrase
  | source _ _ => fun _ _ => False
  | parens _ _ => fun ts rs => ∃ close, PipelineRest ts (close :: rs) ∧ close.kind = .rightParen
  | array _ => ItemsRest
  | object _ _ => fun ts rs =>
    ∃ close, Many (After .comma Pair) ts (close :: rs) ∧ close.kind = .rightBrace

/-- The rest of an expression after an inner construct in it has closed. -/
def Suspended.Rest (suspended : Suspended) : Phrase :=
  match suspended.steps with
  | none => Many Operation
  | some _ => ChainRest

/-- What may follow a complete expression: the rest of the construct it is in, and of all around
it. -/
def Closes : List Suspended → Enclosure → List Token → Prop
  | [], _, ts => PipelineRest ts []
  | outer :: suspended, enclosure, ts =>
    ∃ rs ms, enclosure.Rest ts rs ∧ outer.Rest rs ms ∧ Closes suspended outer.enclosure ms

/-- What may follow the innermost construct. -/
def Resumes : List Suspended → List Token → Prop
  | [], _ => False
  | outer :: suspended, ts => ∃ ms, outer.Rest ts ms ∧ Closes suspended outer.enclosure ms

/-- What may come next. -/
def Follows (parser : Parser) (ts : List Token) : Prop :=
  match parser.mode with
  | .term => ∃ ms, Binary ts ms ∧ Closes parser.suspended parser.enclosure ms
  | .item => ∃ rs, Items ts rs ∧ Resumes parser.suspended rs
  | .bracket => ∃ rs, Bracket ts rs ∧ Resumes parser.suspended rs
  | .bracketNumber first => ∃ rs, Bracket (first :: ts) rs ∧ Resumes parser.suspended rs
  | .rangeStop _ => ∃ rs, RangeRest ts rs ∧ Resumes parser.suspended rs
  | .rangeEnd _ => ∃ close rs,
    ts = close :: rs ∧ close.kind = .rightBracket ∧ Resumes parser.suspended rs
  | .objectStart => ∃ rs, Object ts rs ∧ Resumes parser.suspended rs
  | .objectKey => ∃ ms close rs, Pair ts ms ∧ Many (After .comma Pair) ms (close :: rs) ∧
    close.kind = .rightBrace ∧ Resumes parser.suspended rs
  | .objectColon _ => ∃ key ms close rs, IsName key.kind ∧ Pair (key :: ts) ms ∧
    Many (After .comma Pair) ms (close :: rs) ∧ close.kind = .rightBrace ∧
    Resumes parser.suspended rs
  | .dot _ => ∃ dot ms ns, dot.kind = .dot ∧ Segment (dot :: ts) ms ∧ ChainRest ms ns ∧
    Closes parser.suspended parser.enclosure ns
  | .segment _ => ∃ ms, ChainRest ts ms ∧ Closes parser.suspended parser.enclosure ms
  | .operand _ => ∃ ms, Many Operation ts ms ∧ Closes parser.suspended parser.enclosure ms

/-- What the reader accepts: what may come next, unless it nests too deep. -/
def Viable (parser : Parser) (ts : List Token) : Prop :=
  parser.Follows ts ∧ Shallow parser.suspended.length ts

/-- Whether the whole source is the outermost construct and no other. -/
def Nested : List Suspended → Enclosure → Prop
  | [], .source _ _ => True
  | [], _ => False
  | _ :: _, .source _ _ => False
  | outer :: suspended, _ => Nested suspended outer.enclosure

/-- Whether two open constructs are of one kind. -/
def Enclosure.Alike : Enclosure → Enclosure → Prop
  | source _ _, source _ _ | parens _ _, parens _ _ | array _, array _ | object _ _, object _ _ =>
    True
  | _, _ => False

/-- A construct is of one kind with itself. -/
theorem Enclosure.alike_refl (enclosure : Enclosure) : enclosure.Alike enclosure := by
  cases enclosure <;> trivial

/-- Being of one kind is transitive. -/
theorem Enclosure.Alike.trans {first second third : Enclosure} (h : first.Alike second)
    (hnext : second.Alike third) : first.Alike third := by
  cases first <;> cases second <;> cases third <;> trivial

/-- Whether a mode is one of the construct the reader is in. -/
def Mode.Fits : Mode → Enclosure → Prop
  | .item, enclosure | .bracket, enclosure | .rangeStop _, enclosure | .rangeEnd _, enclosure =>
    enclosure.Alike (.array [])
  | .bracketNumber first, enclosure =>
    enclosure.Alike (.array []) ∧ first.kind = .number ∧ IsNumberText first.text
  | .objectStart, enclosure | .objectKey, enclosure | .objectColon _, enclosure =>
    enclosure.Alike (.object [] "")
  | .term, _ | .dot _, _ | .segment _, _ | .operand _, _ => True

/-- The readers that reading can lead to. -/
structure WellFormed (parser : Parser) : Prop where
  nested : Nested parser.suspended parser.enclosure
  fits : parser.mode.Fits parser.enclosure
  bounded : parser.suspended.length ≤ maxNesting

/-- The reader before a source is well-formed. -/
theorem initial_wellFormed : initial.WellFormed := ⟨trivial, trivial, Nat.zero_le _⟩

/-- Taking one token succeeds with a well-formed reader that accepts what is left exactly if `P`
holds, and fails only if `P` does not hold. -/
def Leads (result : Except SyntaxError Parser) (ts : List Token) (P : Prop) : Prop :=
  match result with
  | .ok next => next.WellFormed ∧ (next.Viable ts ↔ P)
  | .error _ => ¬ P

/-- A token leads to what is equivalent as well. -/
theorem leads_congr {result : Except SyntaxError Parser} {ts : List Token} {P Q : Prop}
    (h : P ↔ Q) : Leads result ts P ↔ Leads result ts Q := by
  rw [propext h]

/-- The first token opens or closes a construct before all the others. -/
theorem shallow_cons_iff {depth : Nat} {t : Token} {ts : List Token} :
    Shallow depth (t :: ts) ↔
      depth ≤ maxNesting ∧ ∀ before, before <+: ts →
        depth + (before.countP (isOpener ·.kind) + if isOpener t.kind then 1 else 0) ≤
          maxNesting + (before.countP (isCloser ·.kind) + if isCloser t.kind then 1 else 0) := by
  constructor
  · intro h
    refine ⟨by simpa using h [] List.nil_prefix, fun before hbefore => ?_⟩
    simpa [List.countP_cons] using h (t :: before) (by simpa using hbefore)
  · rintro ⟨hdepth, h⟩ before hbefore
    rcases before with _ | ⟨u, before⟩
    · simpa using hdepth
    · obtain ⟨rfl, hrest⟩ := List.cons_prefix_cons.mp hbefore
      simpa [List.countP_cons] using h before hrest

/-- Tokens that do not nest too deep start no deeper than the limit. -/
theorem Shallow.depth_le {depth : Nat} {ts : List Token} (h : Shallow depth ts) :
    depth ≤ maxNesting := by
  simpa using h [] List.nil_prefix

/-- A token that neither opens nor closes does not count. -/
theorem shallow_plain_iff {depth : Nat} {t : Token} {ts : List Token}
    (hopener : isOpener t.kind = false) (hcloser : isCloser t.kind = false) :
    Shallow depth (t :: ts) ↔ Shallow depth ts := by
  rw [shallow_cons_iff]
  simp only [hopener, hcloser, Bool.false_eq_true, ↓reduceIte, Nat.add_zero]
  exact ⟨And.right, fun h => ⟨Shallow.depth_le h, h⟩⟩

/-- Behind an opening token one construct more is open. -/
theorem shallow_opener_iff {depth : Nat} {t : Token} {ts : List Token}
    (hopener : isOpener t.kind = true) : Shallow depth (t :: ts) ↔ Shallow (depth + 1) ts := by
  have hcloser : isCloser t.kind = false := by
    revert hopener
    cases t.kind <;> simp [isOpener, isCloser]
  rw [shallow_cons_iff]
  simp only [hopener, hcloser, Bool.false_eq_true, ↓reduceIte, Nat.add_zero]
  constructor
  · rintro ⟨_, h⟩ before hbefore
    have := h before hbefore
    omega
  · intro h
    refine ⟨Nat.le_of_succ_le (Shallow.depth_le h), fun before hbefore => ?_⟩
    have := h before hbefore
    omega

/-- Behind a closing token one construct less is open. -/
theorem shallow_closer_iff {depth : Nat} {t : Token} {ts : List Token}
    (hcloser : isCloser t.kind = true) (hdepth : depth + 1 ≤ maxNesting) :
    Shallow (depth + 1) (t :: ts) ↔ Shallow depth ts := by
  have hopener : isOpener t.kind = false := by
    revert hcloser
    cases t.kind <;> simp [isOpener, isCloser]
  rw [shallow_cons_iff]
  simp only [hopener, hcloser, Bool.false_eq_true, ↓reduceIte, Nat.add_zero]
  constructor
  · rintro ⟨_, h⟩ before hbefore
    have := h before hbefore
    omega
  · refine fun h => ⟨hdepth, fun before hbefore => ?_⟩
    have := h before hbefore
    omega

/-- Inside a construct, an expression may be followed by the rest of the construct. -/
theorem closes_iff {suspended : List Suspended} {enclosure : Enclosure} {ts : List Token}
    (h : suspended ≠ []) :
    Closes suspended enclosure ts ↔ ∃ rs, enclosure.Rest ts rs ∧ Resumes suspended rs := by
  rcases suspended with _ | ⟨outer, suspended⟩
  · contradiction
  · simp [Closes, Resumes]

/-- A complete expression ends only at a comma, a pipe or a closing token. -/
theorem closes_cons_kind {suspended : List Suspended} {enclosure : Enclosure} {t : Token}
    {ts : List Token} (h : Closes suspended enclosure (t :: ts)) :
    t.kind = .comma ∨ t.kind = .pipe ∨ isCloser t.kind = true := by
  rcases suspended with _ | ⟨outer, suspended⟩
  · rcases pipelineRest_cons_iff.mp h with heq | ⟨hkind, _⟩
    · cases heq
    · exact hkind.imp_right Or.inl
  · obtain ⟨rs, ms, hrest, _, _⟩ := h
    cases enclosure with
    | source stages items => exact hrest.elim
    | parens stages items =>
      obtain ⟨close, hrest, hclose⟩ := hrest
      rcases pipelineRest_cons_iff.mp hrest with heq | ⟨hkind, _⟩
      · cases heq
        exact Or.inr (Or.inr (by simp [hclose, isCloser]))
      · exact hkind.imp_right Or.inl
    | array items =>
      rcases itemsRest_cons_iff.mp hrest with ⟨hkind, _⟩ | ⟨hkind, _⟩
      · exact Or.inl hkind
      · exact Or.inr (Or.inr (by simp [hkind, isCloser]))
    | object entries key =>
      obtain ⟨close, hrest, hclose⟩ := hrest
      rcases many_after_cons_iff.mp hrest with heq | ⟨hkind, _⟩
      · cases heq
        exact Or.inr (Or.inr (by simp [hclose, isCloser]))
      · exact Or.inl hkind

/-- What may follow depends on the kind of a construct and not on what it holds. -/
theorem closes_congr {suspended : List Suspended} {enclosure other : Enclosure}
    {ts : List Token} (h : enclosure.Alike other) :
    Closes suspended enclosure ts ↔ Closes suspended other ts := by
  cases suspended <;> cases enclosure <;> cases other <;> first | exact Iff.rfl | exact h.elim

/-- Which construct is the outermost does not depend on what it holds. -/
theorem nested_congr {suspended : List Suspended} {enclosure other : Enclosure}
    (h : enclosure.Alike other) : Nested suspended enclosure ↔ Nested suspended other := by
  cases suspended <;> cases enclosure <;> cases other <;> first | exact Iff.rfl | exact h.elim

/-- Constructs inside the whole source hold one another. -/
theorem Nested.ne_nil {suspended : List Suspended} {enclosure : Enclosure}
    (h : Nested suspended enclosure) (hsource : ∀ stages items, enclosure ≠ .source stages items) :
    suspended ≠ [] := by
  rintro rfl
  cases enclosure with
  | source stages items => exact hsource stages items rfl
  | parens | array | object => exact h

/-- Behind an expression of a source there is a separator and a further expression. -/
theorem closes_source_iff {suspended : List Suspended} {stages items : List Node} {t : Token}
    {ts : List Token} (h : Nested suspended (.source stages items)) :
    Closes suspended (.source stages items) (t :: ts) ↔
      (t.kind = .comma ∨ t.kind = .pipe) ∧
        ∃ ms, Binary ts ms ∧ Closes suspended (.source stages items) ms := by
  cases suspended with
  | nil => simp [Closes, pipelineRest_cons_iff]
  | cons => exact h.elim

/-- Behind an expression in parentheses there is a separator and a further expression, or the
closing parenthesis. -/
theorem closes_parens_iff {suspended : List Suspended} {stages items : List Node} {t : Token}
    {ts : List Token} (h : suspended ≠ []) :
    Closes suspended (.parens stages items) (t :: ts) ↔
      ((t.kind = .comma ∨ t.kind = .pipe) ∧
          ∃ ms, Binary ts ms ∧ Closes suspended (.parens stages items) ms) ∨
        (t.kind = .rightParen ∧ Resumes suspended ts) := by
  simp only [closes_iff h, Enclosure.Rest, pipelineRest_cons_iff]
  constructor
  · rintro ⟨rs, ⟨close, heq | ⟨hkind, ms, hbinary, hrest⟩, hclose⟩, hresumes⟩
    · cases heq
      exact Or.inr ⟨hclose, hresumes⟩
    · exact Or.inl ⟨hkind, ms, hbinary, rs, ⟨close, hrest, hclose⟩, hresumes⟩
  · rintro (⟨hkind, ms, hbinary, rs, ⟨close, hrest, hclose⟩, hresumes⟩ | ⟨hkind, hresumes⟩)
    · exact ⟨rs, ⟨close, Or.inr ⟨hkind, ms, hbinary, hrest⟩, hclose⟩, hresumes⟩
    · exact ⟨ts, ⟨t, Or.inl rfl, hkind⟩, hresumes⟩

/-- Behind an item there is a comma and further items, or the closing bracket. -/
theorem closes_array_iff {suspended : List Suspended} {items : List Node} {t : Token}
    {ts : List Token} (h : suspended ≠ []) :
    Closes suspended (.array items) (t :: ts) ↔
      (t.kind = .comma ∧ ∃ rs, Items ts rs ∧ Resumes suspended rs) ∨
        (t.kind = .rightBracket ∧ Resumes suspended ts) := by
  simp only [closes_iff h, Enclosure.Rest, itemsRest_cons_iff]
  constructor
  · rintro ⟨rs, ⟨hkind, hitems⟩ | ⟨hkind, rfl⟩, hresumes⟩
    · exact Or.inl ⟨hkind, rs, hitems, hresumes⟩
    · exact Or.inr ⟨hkind, hresumes⟩
  · rintro (⟨hkind, rs, hitems, hresumes⟩ | ⟨hkind, hresumes⟩)
    · exact ⟨rs, Or.inl ⟨hkind, hitems⟩, hresumes⟩
    · exact ⟨ts, Or.inr ⟨hkind, rfl⟩, hresumes⟩

/-- Behind an entry there is a comma and a further entry, or the closing brace. -/
theorem closes_object_iff {suspended : List Suspended} {entries : List (String × Node)}
    {key : String} {t : Token} {ts : List Token} (h : suspended ≠ []) :
    Closes suspended (.object entries key) (t :: ts) ↔
      (t.kind = .comma ∧ ∃ ms close rs, Pair ts ms ∧ Many (After .comma Pair) ms (close :: rs) ∧
          close.kind = .rightBrace ∧ Resumes suspended rs) ∨
        (t.kind = .rightBrace ∧ Resumes suspended ts) := by
  simp only [closes_iff h, Enclosure.Rest, many_after_cons_iff]
  constructor
  · rintro ⟨rs, ⟨close, heq | ⟨hkind, ms, hpair, hrest⟩, hclose⟩, hresumes⟩
    · cases heq
      exact Or.inr ⟨hclose, hresumes⟩
    · exact Or.inl ⟨hkind, ms, close, rs, hpair, hrest, hclose, hresumes⟩
  · rintro (⟨hkind, ms, close, rs, hpair, hrest, hclose, hresumes⟩ | ⟨hkind, hresumes⟩)
    · exact ⟨rs, ⟨close, Or.inr ⟨hkind, ms, hpair, hrest⟩, hclose⟩, hresumes⟩
    · exact ⟨ts, ⟨t, Or.inl rfl, hkind⟩, hresumes⟩

variable {parser : Parser} {t : Token} {ts : List Token}

/-- A closing token leads out of the innermost construct. -/
theorem ascend_leads (h : parser.WellFormed) (hopen : parser.suspended ≠ []) (inner : Node)
    (hcloser : isCloser t.kind = true) :
    Leads (.ok (parser.ascend inner)) ts
      (Resumes parser.suspended ts ∧ Shallow parser.suspended.length (t :: ts)) := by
  obtain ⟨suspended, enclosure, pending, mode⟩ := parser
  obtain ⟨hnested, hfits, hbounded⟩ := h
  rcases suspended with _ | ⟨outer, suspended⟩
  · contradiction
  · have hnested : Nested suspended outer.enclosure := by
      cases enclosure with
      | source => exact hnested.elim
      | parens | array | object => exact hnested
    rw [List.length_cons, shallow_closer_iff hcloser hbounded]
    refine ⟨⟨hnested, ?_, Nat.le_of_succ_le hbounded⟩, and_congr_left' ?_⟩
    · simp only [ascend, Suspended.resume]
      cases outer.steps with
      | none | some => cases outer.enclosure <;> trivial
    · simp only [ascend, Suspended.resume, Resumes, Suspended.Rest]
      cases outer.steps <;> exact Iff.rfl

/-- A token that goes on inside a construct leads to a reader with the same depth. -/
theorem stay_leads {P : Prop} {next : Parser} (h : parser.WellFormed)
    (hsuspended : next.suspended = parser.suspended)
    (halike : parser.enclosure.Alike next.enclosure) (hfits : next.mode.Fits next.enclosure)
    (hopener : isOpener t.kind = false) (hcloser : isCloser t.kind = false)
    (hfollows : next.Follows ts ↔ P) :
    Leads (.ok next) ts (P ∧ Shallow parser.suspended.length (t :: ts)) := by
  refine ⟨⟨hsuspended ▸ (nested_congr halike).mp h.nested, hfits, hsuspended ▸ h.bounded⟩, ?_⟩
  rw [shallow_plain_iff hopener hcloser, Viable, hsuspended]
  exact and_congr_left' hfollows

/-- An opening token leads into a construct, unless as many as may be are open. -/
theorem descend_leads {P : Prop} {steps : Option (List Node)} {enclosure : Enclosure} {mode : Mode}
    (h : parser.WellFormed)
    (hnested : Nested parser.suspended parser.enclosure → Nested (⟨parser.enclosure,
      parser.pending, steps⟩ :: parser.suspended) enclosure)
    (hfits : mode.Fits enclosure) (hopener : isOpener t.kind = true)
    (hfollows : Follows ⟨⟨parser.enclosure, parser.pending, steps⟩ :: parser.suspended, enclosure,
      {}, mode⟩ ts ↔ P) :
    Leads (parser.descend steps enclosure mode t) ts
      (P ∧ Shallow parser.suspended.length (t :: ts)) := by
  rw [shallow_opener_iff hopener]
  unfold descend
  split
  case isTrue hfull =>
    rintro ⟨_, hshallow⟩
    exact absurd (Shallow.depth_le hshallow) (by omega)
  case isFalse hfull =>
    refine ⟨⟨hnested h.nested, hfits, Nat.lt_of_not_le hfull⟩, ?_⟩
    exact and_congr_left' hfollows

/-- The token after a complete expression goes on with the innermost construct, or ends it. -/
theorem afterExpression_leads (h : parser.WellFormed) (expression : Node) :
    Leads (parser.afterExpression expression t) ts
      (Closes parser.suspended parser.enclosure (t :: ts) ∧
        Shallow parser.suspended.length (t :: ts)) := by
  have hnested := h.nested
  unfold afterExpression
  cases henclosure : parser.enclosure with
  | source stages items =>
    rw [henclosure] at hnested
    rw [leads_congr (and_congr_left' (closes_source_iff hnested))]
    simp only
    split
    case h_1 hkind | h_2 hkind =>
      refine stay_leads h rfl (by rw [henclosure]; trivial) trivial (by simp [hkind, isOpener])
        (by simp [hkind, isCloser]) ?_
      simp only [hkind, reduceCtorEq, true_or, or_true, true_and]
      exact exists_congr fun _ => and_congr_right' (closes_congr trivial)
    case h_3 hcomma hpipe =>
      rintro ⟨⟨hkind | hkind, _⟩, _⟩
      · exact hcomma hkind
      · exact hpipe hkind
  | parens stages items =>
    rw [henclosure] at hnested
    have hopen := hnested.ne_nil (by simp)
    rw [leads_congr (and_congr_left' (closes_parens_iff hopen))]
    simp only
    split
    case h_1 hkind | h_2 hkind =>
      refine stay_leads h rfl (by rw [henclosure]; trivial) trivial (by simp [hkind, isOpener])
        (by simp [hkind, isCloser]) ?_
      simp only [hkind, reduceCtorEq, or_true, true_and, false_and, or_false]
      exact exists_congr fun _ => and_congr_right' (closes_congr trivial)
    case h_3 hkind =>
      simpa [hkind] using ascend_leads (t := t) h hopen _ (by simp [hkind, isCloser])
    case h_4 hcomma hpipe hclose =>
      rintro ⟨⟨hkind | hkind, _⟩ | ⟨hkind, _⟩, _⟩
      · exact hcomma hkind
      · exact hpipe hkind
      · exact hclose hkind
  | array items =>
    rw [henclosure] at hnested
    have hopen := hnested.ne_nil (by simp)
    rw [leads_congr (and_congr_left' (closes_array_iff hopen))]
    simp only
    split
    case h_1 hkind =>
      refine stay_leads h rfl (by rw [henclosure]; trivial) trivial (by simp [hkind, isOpener])
        (by simp [hkind, isCloser]) ?_
      simp [hkind, proceed, Follows]
    case h_2 hkind =>
      simpa [hkind] using ascend_leads (t := t) h hopen _ (by simp [hkind, isCloser])
    case h_3 hcomma hclose =>
      rintro ⟨⟨hkind, _⟩ | ⟨hkind, _⟩, _⟩
      · exact hcomma hkind
      · exact hclose hkind
  | object entries key =>
    rw [henclosure] at hnested
    have hopen := hnested.ne_nil (by simp)
    rw [leads_congr (and_congr_left' (closes_object_iff hopen))]
    simp only
    split
    case h_1 hkind =>
      refine stay_leads h rfl (by rw [henclosure]; trivial) trivial (by simp [hkind, isOpener])
        (by simp [hkind, isCloser]) ?_
      simp [hkind, proceed, Follows]
    case h_2 hkind =>
      simpa [hkind] using ascend_leads (t := t) h hopen _ (by simp [hkind, isCloser])
    case h_3 hcomma hclose =>
      rintro ⟨⟨hkind, _⟩ | ⟨hkind, _⟩, _⟩
      · exact hcomma hkind
      · exact hclose hkind

/-- The token after a complete term is an operator, or comes after the whole expression. -/
theorem afterTerm_leads (h : parser.WellFormed) (term : Node) :
    Leads (parser.afterTerm term t) ts
      ((∃ ms, Many Operation (t :: ts) ms ∧ Closes parser.suspended parser.enclosure ms) ∧
        Shallow parser.suspended.length (t :: ts)) := by
  by_cases hoperator : IsOperator t.kind
  · have hplain : isOpener t.kind = false ∧ isCloser t.kind = false := by
      rcases hoperator with hkind | hkind | hkind | hkind <;> simp [hkind, isOpener, isCloser]
    have hcloses : ¬ Closes parser.suspended parser.enclosure (t :: ts) := by
      intro hcloses
      have hkind := closes_cons_kind hcloses
      rcases hoperator with hoperator | hoperator | hoperator | hoperator <;>
        simp [hoperator, isCloser] at hkind
    obtain ⟨operator, hsome⟩ : ∃ operator, operator? t.kind = some operator := by
      rcases hoperator with hkind | hkind | hkind | hkind <;> simp [hkind, operator?]
    simp only [afterTerm, hsome]
    refine stay_leads h rfl (Enclosure.alike_refl _) trivial hplain.1 hplain.2 ?_
    simp only [Follows, many_operation_cons_iff, hoperator, true_and, binary_iff]
    constructor
    · rintro ⟨ms, ⟨ns, hterm, hmany⟩, hrest⟩
      exact ⟨ms, Or.inr ⟨ns, hterm, hmany⟩, hrest⟩
    · rintro ⟨ms, rfl | hms, hrest⟩
      · exact absurd hrest hcloses
      · exact ⟨ms, hms, hrest⟩
  · have hnone : operator? t.kind = none := by
      revert hoperator
      cases t.kind <;> simp [operator?, IsOperator]
    simp only [afterTerm, hnone]
    refine (leads_congr (and_congr_left' ?_)).mp (afterExpression_leads h _)
    simp [many_operation_cons_iff, hoperator]

/-- A token of a segment neither is an operator nor ends an expression. -/
theorem chainRest_segment_iff (hkind : t.kind = .dot ∨ t.kind = .leftBracket) :
    (∃ ms, ChainRest (t :: ts) ms ∧ Closes parser.suspended parser.enclosure ms) ↔
      ∃ ms, Segment (t :: ts) ms ∧
        ∃ ns, ChainRest ms ns ∧ Closes parser.suspended parser.enclosure ns := by
  constructor
  · rintro ⟨ns, hchain, hcloses⟩
    rcases chainRest_cons_iff.mp hchain with hmany | ⟨ms, hfirst, hrest⟩
    · exfalso
      rcases many_operation_cons_iff.mp hmany with rfl | ⟨hoperator, _⟩
      · rcases hkind with hkind | hkind <;> simpa [hkind, isCloser] using closes_cons_kind hcloses
      · rcases hkind with hkind | hkind <;> simp [IsOperator, hkind] at hoperator
    · exact ⟨ms, hfirst, ns, hrest, hcloses⟩
  · rintro ⟨ms, hfirst, ns, hrest, hcloses⟩
    exact ⟨ns, chainRest_cons_iff.mpr (Or.inr ⟨ms, hfirst, hrest⟩), hcloses⟩

/-- A bracket in a chain is the next segment. -/
theorem openBracket_leads (h : parser.WellFormed) (steps : List Node)
    (hkind : t.kind = .leftBracket) :
    Leads (parser.descend (some steps) (.array []) .bracket t) ts
      ((∃ ms, ChainRest (t :: ts) ms ∧ Closes parser.suspended parser.enclosure ms) ∧
        Shallow parser.suspended.length (t :: ts)) := by
  rw [leads_congr (and_congr_left' (chainRest_segment_iff (Or.inr hkind)))]
  refine descend_leads h id trivial (by simp [hkind, isOpener]) ?_
  simp [Follows, Resumes, Suspended.Rest, segment_cons_iff, hkind]

/-- The token after a complete segment starts the next one, or comes after the whole term. -/
theorem afterSegment_leads (h : parser.WellFormed) (steps : List Node) :
    Leads (parser.afterSegment steps t) ts
      ((∃ ms, ChainRest (t :: ts) ms ∧ Closes parser.suspended parser.enclosure ms) ∧
        Shallow parser.suspended.length (t :: ts)) := by
  unfold afterSegment
  split
  case h_1 hkind =>
    rw [leads_congr (and_congr_left' (chainRest_segment_iff (Or.inl hkind)))]
    refine stay_leads h rfl (Enclosure.alike_refl _) trivial (by simp [hkind, isOpener])
      (by simp [hkind, isCloser]) ?_
    constructor
    · rintro ⟨dot, ms, ns, hdot, hfirst, hrest, hcloses⟩
      exact ⟨ms, segment_dot_congr hdot hkind hfirst, ns, hrest, hcloses⟩
    · rintro ⟨ms, hfirst, ns, hrest, hcloses⟩
      exact ⟨t, ms, ns, hkind, hfirst, hrest, hcloses⟩
  case h_2 hkind => exact openBracket_leads h steps hkind
  case h_3 hdot hbracket =>
    refine (leads_congr (and_congr_left' (exists_congr fun ms => and_congr_left' ?_))).mp
      (afterTerm_leads h _)
    simp [chainRest_cons_iff, not_segment_cons hdot hbracket]

/-- The first token of a term. -/
theorem startTerm_leads (h : parser.WellFormed)
    (hnumber : t.kind = .number → IsNumberText t.text) :
    Leads (parser.startTerm t) ts
      ((∃ ms, Binary (t :: ts) ms ∧ Closes parser.suspended parser.enclosure ms) ∧
        Shallow parser.suspended.length (t :: ts)) := by
  have hterm : (∃ ms, Binary (t :: ts) ms ∧ Closes parser.suspended parser.enclosure ms) ↔
      ∃ ns, Term (t :: ts) ns ∧
        ∃ ms, Many Operation ns ms ∧ Closes parser.suspended parser.enclosure ms := by
    simp only [binary_iff]
    constructor
    · rintro ⟨ms, ⟨ns, hterm, hmany⟩, hcloses⟩
      exact ⟨ns, hterm, ms, hmany, hcloses⟩
    · rintro ⟨ns, hterm, ms, hmany, hcloses⟩
      exact ⟨ms, ⟨ns, hterm, hmany⟩, hcloses⟩
  rw [leads_congr (and_congr_left' hterm)]
  simp only [term_cons_iff]
  unfold startTerm
  split
  case h_1 hkind =>
    refine stay_leads h rfl (Enclosure.alike_refl _) trivial (by simp [hkind, isOpener])
      (by simp [hkind, isCloser]) ?_
    simp only [hkind]
    constructor
    · rintro ⟨dot, ms, os, hdot, hfirst, ⟨ns, hrest, hmany⟩, hcloses⟩
      exact ⟨ns, ⟨ms, segment_dot_congr hdot hkind hfirst, hrest⟩, os, hmany, hcloses⟩
    · rintro ⟨ns, ⟨ms, hfirst, hrest⟩, os, hmany, hcloses⟩
      exact ⟨t, ms, os, hkind, hfirst, ⟨ns, hrest, hmany⟩, hcloses⟩
  case h_2 hkind =>
    have hliteral := isSome_float?_iff (hnumber hkind)
    unfold literal
    cases hfloat : Decimal.float? t.text.toList with
    | none =>
      rw [hfloat] at hliteral
      simp only [hkind]
      rintro ⟨⟨ns, ⟨hone, _⟩, _⟩, _⟩
      simpa using hliteral.mpr hone
    | some x =>
      rw [hfloat] at hliteral
      refine stay_leads h rfl (Enclosure.alike_refl _) trivial (by simp [hkind, isOpener])
        (by simp [hkind, isCloser]) ?_
      simp [hkind, Follows, hliteral.mp rfl]
  case h_3 hkind | h_4 hkind =>
    refine stay_leads h rfl (Enclosure.alike_refl _) trivial (by simp [hkind, isOpener])
      (by simp [hkind, isCloser]) ?_
    simp [hkind, Follows]
  case h_5 hkind | h_6 hkind =>
    refine descend_leads h id trivial (by simp [hkind, isOpener]) ?_
    simp [hkind, Follows, Resumes, Suspended.Rest]
  case h_7 hkind =>
    refine descend_leads h id trivial (by simp [hkind, isOpener]) ?_
    simp only [hkind, Follows, Closes, Enclosure.Rest, Suspended.Rest, pipeline_iff]
    constructor
    · rintro ⟨ms, hbinary, rs, ns, ⟨close, hrest, hclose⟩, hmany, hcloses⟩
      exact ⟨rs, ⟨close, ⟨ms, hbinary, hrest⟩, hclose⟩, ns, hmany, hcloses⟩
    · rintro ⟨rs, ⟨close, ⟨ms, hbinary, hrest⟩, hclose⟩, ns, hmany, hcloses⟩
      exact ⟨ms, hbinary, rs, ns, ⟨close, hrest, hclose⟩, hmany, hcloses⟩
  case h_8 =>
    rintro ⟨⟨ns, hterm, _⟩, _⟩
    split at hterm <;> contradiction

/-- A number that no position follows from is refused. -/
theorem position_leads {number : Token} {next : Int64 → Parser} {P : Prop}
    (hnext : ∀ n, IsPosition number.text → Leads (.ok (next n)) ts P)
    (hposition : P → IsPosition number.text) :
    Leads ((position number).map next) ts P := by
  have hiff : (Decimal.int64? number.text.toList).isSome = true ↔ IsPosition number.text :=
    isSome_int64?_iff
  unfold position
  cases hint : Decimal.int64? number.text.toList with
  | none =>
    rw [hint] at hiff
    exact fun hP => by simpa using hiff.mpr (hposition hP)
  | some n =>
    rw [hint] at hiff
    exact hnext n (hiff.mp rfl)

/-- A term in an array is the start of an item. -/
theorem items_leads (h : parser.WellFormed) (harray : parser.enclosure.Alike (.array []))
    (hnumber : t.kind = .number → IsNumberText t.text) (hkind : t.kind ≠ .rightBracket) :
    Leads (parser.startTerm t) ts
      ((∃ rs, Items (t :: ts) rs ∧ Resumes parser.suspended rs) ∧
        Shallow parser.suspended.length (t :: ts)) := by
  have hopen := ((nested_congr harray).mp h.nested).ne_nil (by simp)
  refine (leads_congr (and_congr_left' ?_)).mp (startTerm_leads h hnumber)
  simp only [closes_congr harray, closes_iff hopen, items_cons_of_ne hkind, Enclosure.Rest]
  constructor
  · rintro ⟨ms, hbinary, rs, hrest, hresumes⟩
    exact ⟨rs, ⟨ms, hbinary, hrest⟩, hresumes⟩
  · rintro ⟨rs, ⟨ms, hbinary, hrest⟩, hresumes⟩
    exact ⟨ms, hbinary, rs, hrest, hresumes⟩

section Modes

variable {suspended : List Suspended} {enclosure : Enclosure} {pending : Pending}

/-- A token where an item or the end of an array may come leads to what follows it. -/
theorem item_leads (h : WellFormed ⟨suspended, enclosure, pending, .item⟩)
    (hnumber : t.kind = .number → IsNumberText t.text) :
    Leads (step ⟨suspended, enclosure, pending, .item⟩ t) ts
      (Viable ⟨suspended, enclosure, pending, .item⟩ (t :: ts)) := by
  have hopen := ((nested_congr h.fits).mp h.nested).ne_nil (by simp)
  simp only [step]
  split
  case h_1 hkind =>
    simpa [Viable, Follows, items_closed_iff hkind] using
      ascend_leads (t := t) h hopen _ (by simp [hkind, isCloser])
  case h_2 hkind => exact items_leads h h.fits hnumber hkind

/-- What follows an opening bracket. -/
theorem bracket_leads (h : WellFormed ⟨suspended, enclosure, pending, .bracket⟩)
    (hnumber : t.kind = .number → IsNumberText t.text) :
    Leads (step ⟨suspended, enclosure, pending, .bracket⟩ t) ts
      (Viable ⟨suspended, enclosure, pending, .bracket⟩ (t :: ts)) := by
  have hopen := ((nested_congr h.fits).mp h.nested).ne_nil (by simp)
  simp only [step]
  split
  case h_1 hkind =>
    simpa [Viable, Follows, bracket_closed_iff hkind] using
      ascend_leads (t := t) h hopen _ (by simp [hkind, isCloser])
  case h_2 hkind =>
    exact stay_leads h rfl (Enclosure.alike_refl _) ⟨h.fits, hkind, hnumber hkind⟩
      (by simp [hkind, isOpener]) (by simp [hkind, isCloser]) Iff.rfl
  case h_3 hkind =>
    refine stay_leads h rfl (Enclosure.alike_refl _) h.fits
      (by simp [hkind, isOpener]) (by simp [hkind, isCloser]) ?_
    simp [Follows, bracket_colon_iff hkind]
  case h_4 hclose hnot hcolon =>
    refine (leads_congr (and_congr_left' ?_)).mp (items_leads h h.fits hnumber hclose)
    simp [Follows, bracket_items_iff hclose hcolon hnot]

/-- What follows an opening bracket and a number. -/
theorem bracketNumber_leads {first : Token}
    (h : WellFormed ⟨suspended, enclosure, pending, .bracketNumber first⟩) :
    Leads (step ⟨suspended, enclosure, pending, .bracketNumber first⟩ t) ts
      (Viable ⟨suspended, enclosure, pending, .bracketNumber first⟩ (t :: ts)) := by
  obtain ⟨harray, hfirst, htext⟩ := h.fits
  have hopen := ((nested_congr harray).mp h.nested).ne_nil (by simp)
  simp only [step]
  split
  case h_1 hkind =>
    refine position_leads (fun n hposition => ?_) ?_
    · simpa [Viable, Follows, bracket_index_iff hfirst hkind, hposition] using
        ascend_leads (t := t) h hopen _ (by simp [hkind, isCloser])
    · rintro ⟨⟨rs, hbracket, _⟩, _⟩
      exact ((bracket_index_iff hfirst hkind).mp hbracket).1
  case h_2 hkind =>
    refine position_leads (fun n hposition => ?_) ?_
    · refine stay_leads h rfl (Enclosure.alike_refl _) harray
        (by simp [hkind, isOpener]) (by simp [hkind, isCloser]) ?_
      simp [Follows, bracket_start_iff hfirst hkind, hposition]
    · rintro ⟨⟨rs, hbracket, _⟩, _⟩
      exact ((bracket_start_iff hfirst hkind).mp hbracket).1
  case h_3 hclose hcolon =>
    have hliteral := isSome_float?_iff htext
    unfold literal
    cases hfloat : Decimal.float? first.text.toList with
    | none =>
      rw [hfloat] at hliteral
      rintro ⟨⟨rs, hbracket, _⟩, _⟩
      simpa using hliteral.mpr ((bracket_number_iff hfirst hclose hcolon).mp hbracket).1
    | some x =>
      rw [hfloat] at hliteral
      refine (leads_congr (and_congr_left' ?_)).mp (afterTerm_leads h (.number x))
      simp only [Follows, bracket_number_iff hfirst hclose hcolon, hliteral.mp rfl, true_and,
        closes_congr harray, closes_iff hopen, Enclosure.Rest]
      constructor
      · rintro ⟨ms, hmany, rs, hrest, hresumes⟩
        exact ⟨rs, ⟨ms, hmany, hrest⟩, hresumes⟩
      · rintro ⟨rs, ⟨ms, hmany, hrest⟩, hresumes⟩
        exact ⟨ms, hmany, rs, hrest, hresumes⟩

/-- What follows the colon of a range. -/
theorem rangeStop_leads {start : Option Int64}
    (h : WellFormed ⟨suspended, enclosure, pending, .rangeStop start⟩) :
    Leads (step ⟨suspended, enclosure, pending, .rangeStop start⟩ t) ts
      (Viable ⟨suspended, enclosure, pending, .rangeStop start⟩ (t :: ts)) := by
  have hopen := ((nested_congr h.fits).mp h.nested).ne_nil (by simp)
  simp only [step]
  split
  case h_1 hkind =>
    refine position_leads (fun n hposition => ?_) ?_
    · refine stay_leads h rfl (Enclosure.alike_refl _) h.fits
        (by simp [hkind, isOpener]) (by simp [hkind, isCloser]) ?_
      simp only [Follows, rangeRest_number_iff hkind, hposition, true_and]
      constructor
      · rintro ⟨close, rs, heq, hclose, hresumes⟩
        exact ⟨rs, ⟨close, heq, hclose⟩, hresumes⟩
      · rintro ⟨rs, ⟨close, heq, hclose⟩, hresumes⟩
        exact ⟨close, rs, heq, hclose, hresumes⟩
    · rintro ⟨⟨rs, hrest, _⟩, _⟩
      exact ((rangeRest_number_iff hkind).mp hrest).1
  case h_2 hkind =>
    simpa [Viable, Follows, rangeRest_cons_of_ne, hkind] using
      ascend_leads (t := t) h hopen _ (by simp [hkind, isCloser])
  case h_3 hnumber hclose =>
    rintro ⟨⟨rs, hrest, _⟩, _⟩
    exact hclose ((rangeRest_cons_of_ne hnumber).mp hrest).1

/-- A token where a range has to end leads to what follows it. -/
theorem rangeEnd_leads {bounds : Range}
    (h : WellFormed ⟨suspended, enclosure, pending, .rangeEnd bounds⟩) :
    Leads (step ⟨suspended, enclosure, pending, .rangeEnd bounds⟩ t) ts
      (Viable ⟨suspended, enclosure, pending, .rangeEnd bounds⟩ (t :: ts)) := by
  have hopen := ((nested_congr h.fits).mp h.nested).ne_nil (by simp)
  simp only [step]
  split
  case h_1 hkind =>
    simpa [Viable, Follows, hkind] using
      ascend_leads (t := t) h hopen _ (by simp [hkind, isCloser])
  case h_2 hclose =>
    rintro ⟨⟨close, rs, heq, hkind, _⟩, _⟩
    cases heq
    exact hclose hkind

/-- A key of an object leads to its colon. -/
theorem objectColon_leads {mode : Mode} {key : String}
    (h : WellFormed ⟨suspended, enclosure, pending, mode⟩)
    (hobject : enclosure.Alike (.object [] "")) (hname : IsName t.kind) :
    Leads (.ok ⟨suspended, enclosure, pending, .objectColon key⟩) ts
      ((∃ ms close rs, Pair (t :: ts) ms ∧ Many (After .comma Pair) ms (close :: rs) ∧
        close.kind = .rightBrace ∧ Resumes suspended rs) ∧ Shallow suspended.length (t :: ts)) := by
  refine stay_leads h rfl (Enclosure.alike_refl _) hobject
    (by rcases hname with hkind | hkind <;> simp [hkind, isOpener])
    (by rcases hname with hkind | hkind <;> simp [hkind, isCloser]) ?_
  constructor
  · rintro ⟨name, ms, close, rs, hother, hpair, hrest⟩
    exact ⟨ms, close, rs, pair_iff.mpr ⟨hname, (pair_iff.mp hpair).2⟩, hrest⟩
  · rintro ⟨ms, close, rs, hpair, hrest⟩
    exact ⟨t, ms, close, rs, hname, hpair, hrest⟩

/-- A token where a key has to come leads to what follows it. -/
theorem objectKey_leads (h : WellFormed ⟨suspended, enclosure, pending, .objectKey⟩) :
    Leads (step ⟨suspended, enclosure, pending, .objectKey⟩ t) ts
      (Viable ⟨suspended, enclosure, pending, .objectKey⟩ (t :: ts)) := by
  simp only [step]
  split
  case h_1 hkind => exact objectColon_leads h h.fits (Or.inl hkind)
  case h_2 hkind => exact objectColon_leads h h.fits (Or.inr hkind)
  case h_3 hword hquoted =>
    rintro ⟨⟨ms, close, rs, hpair, _⟩, _⟩
    rcases (pair_iff.mp hpair).1 with hkind | hkind
    · exact hword hkind
    · exact hquoted hkind

/-- An object that is not empty goes on from its brace as it does from its first key. -/
theorem follows_objectStart_iff (hclose : t.kind ≠ .rightBrace) :
    (∃ ms close rs, Pair (t :: ts) ms ∧ Many (After .comma Pair) ms (close :: rs) ∧
        close.kind = .rightBrace ∧ Resumes suspended rs) ↔
      Follows ⟨suspended, enclosure, pending, .objectStart⟩ (t :: ts) := by
  simp only [Follows, object_cons_of_ne hclose]
  constructor
  · rintro ⟨ms, close, rs, hpair, hrest, hkind, hresumes⟩
    exact ⟨rs, ⟨ms, close, hpair, hrest, hkind⟩, hresumes⟩
  · rintro ⟨rs, ⟨ms, close, hpair, hrest, hkind⟩, hresumes⟩
    exact ⟨ms, close, rs, hpair, hrest, hkind, hresumes⟩

/-- What follows an opening brace. -/
theorem objectStart_leads (h : WellFormed ⟨suspended, enclosure, pending, .objectStart⟩) :
    Leads (step ⟨suspended, enclosure, pending, .objectStart⟩ t) ts
      (Viable ⟨suspended, enclosure, pending, .objectStart⟩ (t :: ts)) := by
  have hopen := ((nested_congr h.fits).mp h.nested).ne_nil (by simp)
  simp only [step]
  split
  case h_1 hkind =>
    simpa [Viable, Follows, object_closed_iff hkind] using
      ascend_leads (t := t) h hopen _ (by simp [hkind, isCloser])
  case h_2 hkind =>
    refine (leads_congr (and_congr_left' ?_)).mp (objectColon_leads h h.fits (Or.inl hkind))
    exact follows_objectStart_iff (by simp [hkind])
  case h_3 hkind =>
    refine (leads_congr (and_congr_left' ?_)).mp (objectColon_leads h h.fits (Or.inr hkind))
    exact follows_objectStart_iff (by simp [hkind])
  case h_4 hclose hword hquoted =>
    rintro ⟨hfollows, _⟩
    obtain ⟨ms, close, rs, hpair, _⟩ := (follows_objectStart_iff hclose).mpr hfollows
    rcases (pair_iff.mp hpair).1 with hkind | hkind
    · exact hword hkind
    · exact hquoted hkind

/-- What follows a key of an object. -/
theorem colon_leads {key : String}
    (h : WellFormed ⟨suspended, enclosure, pending, .objectColon key⟩) :
    Leads (step ⟨suspended, enclosure, pending, .objectColon key⟩ t) ts
      (Viable ⟨suspended, enclosure, pending, .objectColon key⟩ (t :: ts)) := by
  have hopen := ((nested_congr h.fits).mp h.nested).ne_nil (by simp)
  simp only [step]
  split
  case h_1 hkind =>
    refine stay_leads h rfl (h.fits.trans trivial) trivial
      (by simp [hkind, isOpener]) (by simp [hkind, isCloser]) ?_
    simp only [Follows, proceed, closes_iff hopen, Enclosure.Rest, pair_iff]
    constructor
    · rintro ⟨ms, hbinary, rs, ⟨close, hrest, hclose⟩, hresumes⟩
      exact ⟨⟨.word, .start, ""⟩, ms, close, rs, Or.inl rfl,
        ⟨Or.inl rfl, t, ts, rfl, hkind, hbinary⟩, hrest, hclose, hresumes⟩
    · rintro ⟨name, ms, close, rs, _, ⟨_, colon, os, heq, _, hbinary⟩, hrest, hclose, hresumes⟩
      cases heq
      exact ⟨ms, hbinary, rs, ⟨close, hrest, hclose⟩, hresumes⟩
  case h_2 hcolon =>
    rintro ⟨⟨name, ms, close, rs, _, hpair, _⟩, _⟩
    obtain ⟨_, colon, os, heq, hkind, _⟩ := pair_iff.mp hpair
    cases heq
    exact hcolon hkind

/-- A name after a dot belongs to the dot. -/
theorem follows_dot_name_iff {steps : List Node} (hname : IsName t.kind) :
    Follows ⟨suspended, enclosure, pending, .dot steps⟩ (t :: ts) ↔
      ∃ ms, ChainRest ts ms ∧ Closes suspended enclosure ms := by
  constructor
  · rintro ⟨dot, ms, ns, hdot, hfirst, hrest, hcloses⟩
    simp only [segment_cons_iff, hdot] at hfirst
    rcases hfirst with rfl | ⟨name, _, heq⟩
    · exfalso
      rcases chainRest_cons_iff.mp hrest with hmany | ⟨os, hsegment, _⟩
      · rcases many_operation_cons_iff.mp hmany with rfl | ⟨hoperator, _⟩
        · rcases hname with hkind | hkind <;>
            simpa [hkind, isCloser] using closes_cons_kind hcloses
        · rcases hname with hkind | hkind <;> simp [IsOperator, hkind] at hoperator
      · refine not_segment_cons ?_ ?_ hsegment <;>
          rcases hname with hkind | hkind <;> simp [hkind]
    · cases heq
      exact ⟨ns, hrest, hcloses⟩
  · rintro ⟨ns, hrest, hcloses⟩
    exact ⟨⟨.dot, .start, ""⟩, ts, ns, rfl, .key rfl hname, hrest, hcloses⟩

/-- A dot that no name follows is a segment of its own. -/
theorem follows_dot_iff {steps : List Node} (hname : ¬ IsName t.kind) :
    Follows ⟨suspended, enclosure, pending, .dot steps⟩ (t :: ts) ↔
      ∃ ms, ChainRest (t :: ts) ms ∧ Closes suspended enclosure ms := by
  constructor
  · rintro ⟨dot, ms, ns, hdot, hfirst, hrest, hcloses⟩
    simp only [segment_cons_iff, hdot] at hfirst
    rcases hfirst with rfl | ⟨name, hkind, heq⟩
    · exact ⟨ns, hrest, hcloses⟩
    · cases heq
      contradiction
  · rintro ⟨ns, hrest, hcloses⟩
    exact ⟨⟨.dot, .start, ""⟩, t :: ts, ns, rfl, .dot rfl, hrest, hcloses⟩

/-- What follows a dot. -/
theorem dot_leads {steps : List Node}
    (h : WellFormed ⟨suspended, enclosure, pending, .dot steps⟩) :
    Leads (step ⟨suspended, enclosure, pending, .dot steps⟩ t) ts
      (Viable ⟨suspended, enclosure, pending, .dot steps⟩ (t :: ts)) := by
  simp only [step]
  split
  case h_1 hkind | h_2 hkind =>
    exact stay_leads h rfl (Enclosure.alike_refl _) trivial (by simp [hkind, isOpener])
      (by simp [hkind, isCloser]) (follows_dot_name_iff (by simp [IsName, hkind])).symm
  case h_3 hkind =>
    refine (leads_congr (and_congr_left' ?_)).mp (openBracket_leads h steps hkind)
    exact (follows_dot_iff (by simp [IsName, hkind])).symm
  case h_4 hword hquoted hbracket =>
    refine (leads_congr (and_congr_left' ?_)).mp (afterSegment_leads h _)
    exact (follows_dot_iff (not_or.mpr ⟨hword, hquoted⟩)).symm

end Modes

/-- One token takes what may come next to what may come after the token. -/
theorem step_leads (h : parser.WellFormed)
    (hnumber : t.kind = .number → IsNumberText t.text) :
    Leads (parser.step t) ts (parser.Viable (t :: ts)) := by
  obtain ⟨suspended, enclosure, pending, mode⟩ := parser
  cases mode with
  | term => exact startTerm_leads h hnumber
  | item => exact item_leads h hnumber
  | bracket => exact bracket_leads h hnumber
  | bracketNumber first => exact bracketNumber_leads h
  | rangeStop start => exact rangeStop_leads h
  | rangeEnd bounds => exact rangeEnd_leads h
  | objectStart => exact objectStart_leads h
  | objectKey => exact objectKey_leads h
  | objectColon key => exact colon_leads h
  | dot steps => exact dot_leads h
  | segment steps => exact afterSegment_leads h steps
  | operand term => exact afterTerm_leads h term

/-- Where a construct may end with the input, only arrays are open around it. -/
theorem closes_nil_iff {suspended : List Suspended} {enclosure : Enclosure}
    (h : Nested suspended enclosure) :
    Closes suspended enclosure [] ↔
      match enclosure with
      | .source _ _ => True
      | .array _ => Resumes suspended []
      | _ => False := by
  cases enclosure with
  | source stages items =>
    cases suspended with
    | nil => simp [Closes, pipelineRest_nil_iff]
    | cons => exact h.elim
  | parens stages items =>
    simp [closes_iff (h.ne_nil (by simp)), Enclosure.Rest, pipelineRest_nil_iff]
  | array items => simp [closes_iff (h.ne_nil (by simp)), Enclosure.Rest, itemsRest_nil_iff]
  | object entries key =>
    simp [closes_iff (h.ne_nil (by simp)), Enclosure.Rest, many_after_nil_iff]

/-- At the end of the input a suspended expression may end. -/
theorem rest_nil_iff {outer : Suspended} {rs : List Token} : outer.Rest [] rs ↔ rs = [] := by
  unfold Suspended.Rest
  cases outer.steps with
  | none => exact many_operation_nil_iff
  | some steps => exact chainRest_nil_iff

/-- A construct that has closed is a last term. -/
theorem lastTerm_resume (outer : Suspended) (inner : Node) (last : Token) :
    ∃ term, lastTerm (outer.resume inner) last = .ok term := by
  unfold Suspended.resume
  cases outer.steps with
  | none | some => exact ⟨_, rfl⟩

/-- After its last term, the end of input closes the arrays that are open. -/
theorem finish_ok_iff_closes {suspended : List Suspended} {enclosure : Enclosure}
    {pending : Pending} {mode : Mode} {last : Token} {term : Option Node}
    (h : Nested suspended enclosure) (hterm : lastTerm mode last = .ok term) :
    (∃ program, finish suspended enclosure pending mode last = .ok program) ↔
      Closes suspended enclosure [] := by
  induction suspended generalizing enclosure pending mode term with
  | nil =>
    unfold finish
    rw [hterm, closes_nil_iff h]
    cases enclosure with
    | source stages items => simp [Except.bind]
    | parens | array | object => exact h.elim
  | cons outer suspended ih =>
    unfold finish
    rw [hterm, closes_nil_iff h]
    cases enclosure with
    | source stages items => exact h.elim
    | parens stages items => simp [Except.bind]
    | object entries key => simp [Except.bind]
    | array items =>
      simp only [Except.bind, Resumes, rest_nil_iff, exists_eq_left]
      obtain ⟨_, hresume⟩ :=
        lastTerm_resume outer (.array (items ++ (term.map pending.finish).toList)) last
      exact ih h hresume

/-- The end of input is a last token exactly where nothing more is needed. -/
theorem finish_ok_iff (h : parser.WellFormed) (last : Token) :
    (∃ program, finish parser.suspended parser.enclosure parser.pending parser.mode last =
      .ok program) ↔ parser.Follows [] := by
  obtain ⟨suspended, enclosure, pending, mode⟩ := parser
  have hnested := h.nested
  have hrefused {e : SyntaxError} (herror : lastTerm mode last = .error e) :
      ¬ ∃ program, finish suspended enclosure pending mode last = .ok program := by
    unfold finish
    simp [herror, Except.bind]
  have harray (hfits : enclosure.Alike (.array [])) :
      Closes suspended enclosure [] ↔ Resumes suspended [] :=
    (closes_congr hfits).trans (closes_nil_iff ((nested_congr hfits).mp hnested))
  cases mode with
  | term => simpa [Follows, not_binary_nil] using hrefused rfl
  | item =>
    simpa [Follows, items_nil_iff, harray h.fits] using
      finish_ok_iff_closes hnested rfl
  | bracket =>
    simpa [Follows, bracket_nil_iff, harray h.fits] using finish_ok_iff_closes hnested rfl
  | bracketNumber first =>
    obtain ⟨hfits, hfirst, htext⟩ := h.fits
    have hliteral := isSome_float?_iff htext
    simp only [Follows, bracket_cut_iff hfirst, and_assoc, exists_and_left, exists_eq_left,
      ← hliteral]
    cases hfloat : Decimal.float? first.text.toList with
    | none =>
      have herror : lastTerm (.bracketNumber first) last =
          .error (.invalidNumber first.text first.position) := by
        simp [lastTerm, literal, hfloat, Except.map]
      simpa using hrefused herror
    | some x =>
      have hterm : lastTerm (.bracketNumber first) last = .ok (some (.number x)) := by
        simp [lastTerm, literal, hfloat, Except.map]
      have hfinish : (∃ program, finish suspended enclosure pending (.bracketNumber first) last =
          .ok program) ↔ Closes suspended enclosure [] := finish_ok_iff_closes hnested hterm
      simpa [harray hfits] using hfinish
  | rangeStop start => simpa [Follows, rangeRest_nil_iff] using hrefused rfl
  | rangeEnd bounds => simpa [Follows] using hrefused rfl
  | objectStart => simpa [Follows, not_object_nil] using hrefused rfl
  | objectKey => simpa [Follows, not_pair_nil] using hrefused rfl
  | objectColon key => simpa [Follows, pair_iff] using hrefused rfl
  | dot steps =>
    -- The dot has been taken already, and what follows it is told with the dot in front.
    rw [finish_ok_iff_closes hnested rfl]
    constructor
    · intro hcloses
      exact ⟨⟨.dot, .start, ""⟩, [], [], rfl, .dot rfl, chainRest_nil_iff.mpr rfl, hcloses⟩
    · rintro ⟨dot, ms, ns, hdot, hfirst, hrest, hcloses⟩
      obtain rfl : ms = [] := by simpa [segment_cons_iff, hdot] using hfirst
      rwa [chainRest_nil_iff.mp hrest] at hcloses
  | segment steps => simpa [Follows, chainRest_nil_iff] using finish_ok_iff_closes hnested rfl
  | operand term => simpa [Follows, many_operation_nil_iff] using finish_ok_iff_closes hnested rfl

/-- A reader gets through the tokens that may come next, and no others. -/
theorem run_ok_iff (h : parser.WellFormed) {words : List Token} {last : Token}
    (hlast : last.kind = .endOfInput)
    (hwords : ∀ word ∈ words, word.kind ≠ .endOfInput ∧
      (word.kind = .number → IsNumberText word.text)) :
    (∃ program, parser.run (words ++ [last]) = .ok program) ↔ parser.Viable words := by
  induction words generalizing parser with
  | nil =>
    have hshallow : Shallow parser.suspended.length [] := by
      rintro before hbefore
      simpa [List.prefix_nil.mp hbefore] using h.bounded
    simpa [run, hlast, Viable, hshallow] using finish_ok_iff h last
  | cons word words ih =>
    obtain ⟨⟨hkind, hnumber⟩, hrest⟩ := List.forall_mem_cons.mp hwords
    have hleads : Leads (parser.step word) words (parser.Viable (word :: words)) :=
      step_leads h hnumber
    cases hstep : parser.step word with
    | error e =>
      rw [hstep] at hleads
      have hnone : ¬ parser.Viable (word :: words) := hleads
      simpa [run, hkind, hstep, Except.bind] using hnone
    | ok next =>
      rw [hstep] at hleads
      obtain ⟨hnext, hviable⟩ := hleads
      rw [← hviable, ← ih hnext hrest]
      simp [run, hkind, hstep, Except.bind]

end Parser

/-- **The language of filters.** A source that splits into tokens is read exactly if its tokens,
without the end of input, make up a sentence of the grammar. -/
theorem parse_ok_iff_sentence {source : String} {tokens : List Token}
    (h : tokenize source = .ok tokens) :
    ∃ words last, tokens = words ++ [last] ∧ last.kind = .endOfInput ∧
      (∀ word ∈ words, word.kind ≠ .endOfInput) ∧
      ((∃ program, parse source = .ok program) ↔ Sentence words) := by
  obtain ⟨words, last, rfl, hlast, hwords⟩ := tokenize_shape h
  refine ⟨words, last, rfl, hlast, fun word hword => (hwords word hword).1, ?_⟩
  simp only [parse, h, Except.bind]
  cases words with
  | nil =>
    have hshallow : Shallow 0 [] := by
      rintro before hbefore
      simp [List.prefix_nil.mp hbefore]
    simp [parseTokens, hlast, Sentence, hshallow]
  | cons word words =>
    have hkind := (hwords word List.mem_cons_self).1
    simpa [parseTokens, hkind, Sentence, Parser.Viable, Parser.initial, Parser.Follows,
      Parser.Closes, pipeline_iff] using Parser.run_ok_iff Parser.initial_wellFormed hlast hwords

/-- An array that is cut short behind a number is accepted. -/
theorem parse_ok_iff_sentence_of_cut_array :
    tokenize "[1" = .ok [⟨.leftBracket, ⟨1, 1, 0⟩, ""⟩, ⟨.number, ⟨1, 2, 1⟩, "1"⟩,
      ⟨.endOfInput, ⟨1, 3, 2⟩, ""⟩] ∧
    ∃ words last, [⟨.leftBracket, ⟨1, 1, 0⟩, ""⟩, ⟨.number, ⟨1, 2, 1⟩, "1"⟩,
        ⟨.endOfInput, ⟨1, 3, 2⟩, ""⟩] = words ++ [last] ∧ last.kind = .endOfInput ∧
      (∀ word ∈ words, word.kind ≠ .endOfInput) ∧
      ((∃ program, parse "[1" = .ok program) ↔ Sentence words) :=
  ⟨rfl, parse_ok_iff_sentence rfl⟩

end Sluice.Filter
