import Sluice.Proofs.Filter.Grammar

/-!
# Phrases and their first token

The first token of a phrase tells which production the phrase is by. What is left of a phrase after
its first token is a phrase again, and the kinds of phrases that occur only so have names of their
own here (`ChainRest`, `PipelineRest`, `ItemsRest`, `RangeRest`).
-/

namespace Sluice.Filter.Grammar

/-- The items of an array after a complete one, up to their end. -/
def ItemsRest : Phrase := fun ts rs =>
  ∃ ms ns, Many (After .comma Binary) ts ms ∧ OptionalComma ms ns ∧ ItemsEnd ns rs

/-- What follows a complete segment of a chain, up to the end of the expression. -/
def ChainRest : Phrase := fun ts rs => ∃ ms, Many Segment ts ms ∧ Many Operation ms rs

/-- What follows a complete expression of a pipeline. -/
def PipelineRest : Phrase := fun ts rs =>
  ∃ ms, Many (After .comma Binary) ts ms ∧ Many (After .pipe Commas) ms rs

/-- Of no tokens there are no phrases if one phrase takes some. -/
theorem many_nil_iff {phrase : Phrase} (hphrase : ∀ rs, ¬ phrase [] rs) {rs : List Token} :
    Many phrase [] rs ↔ rs = [] := by
  constructor
  · rintro (_ | ⟨hfirst, _⟩)
    · rfl
    · exact absurd hfirst (hphrase _)
  · rintro rfl
    exact .done _

/-- Nothing follows a separator that is not there. -/
theorem many_after_nil_iff {kind : TokenKind} {phrase : Phrase} {rs : List Token} :
    Many (After kind phrase) [] rs ↔ rs = [] :=
  many_nil_iff fun _ h => by cases h

/-- Without tokens there are no operators. -/
theorem many_operation_nil_iff {rs : List Token} : Many Operation [] rs ↔ rs = [] :=
  many_nil_iff fun _ h => by cases h

/-- Without tokens there are no segments. -/
theorem many_segment_nil_iff {rs : List Token} : Many Segment [] rs ↔ rs = [] :=
  many_nil_iff fun _ h => by cases h

/-- Without tokens a chain does not go on. -/
theorem chainRest_nil_iff {rs : List Token} : ChainRest [] rs ↔ rs = [] := by
  simp [ChainRest, many_segment_nil_iff, many_operation_nil_iff]

/-- Without tokens a pipeline does not go on. -/
theorem pipelineRest_nil_iff {rs : List Token} : PipelineRest [] rs ↔ rs = [] := by
  simp [PipelineRest, many_after_nil_iff]

/-- Phrases in a row end before a token, or the first of them begins with it. What a phrase that
begins with the token goes on with is given. -/
theorem many_cons_iff {phrase rest : Phrase} {allowed : Prop} {t : Token} {ts rs : List Token}
    (hphrase : ∀ ms, phrase (t :: ts) ms ↔ allowed ∧ rest ts ms) :
    Many phrase (t :: ts) rs ↔
      rs = t :: ts ∨ (allowed ∧ ∃ ms, rest ts ms ∧ Many phrase ms rs) := by
  constructor
  · rintro (_ | ⟨hfirst, hrest⟩)
    · exact Or.inl rfl
    · obtain ⟨hallowed, hbegun⟩ := (hphrase _).mp hfirst
      exact Or.inr ⟨hallowed, _, hbegun, hrest⟩
  · rintro (rfl | ⟨hallowed, ms, hbegun, hrest⟩)
    · exact .done _
    · exact .more ((hphrase ms).mpr ⟨hallowed, hbegun⟩) hrest

/-- Phrases after separators end before a token, or it is a separator with a phrase after it. -/
theorem many_after_cons_iff {kind : TokenKind} {phrase : Phrase} {t : Token} {ts rs : List Token} :
    Many (After kind phrase) (t :: ts) rs ↔
      rs = t :: ts ∨ (t.kind = kind ∧ ∃ ms, phrase ts ms ∧ Many (After kind phrase) ms rs) :=
  many_cons_iff fun _ => ⟨fun ⟨hkind, hbegun⟩ => ⟨hkind, hbegun⟩, fun ⟨hkind, hbegun⟩ =>
    ⟨hkind, hbegun⟩⟩

/-- Operations end before a token, or it is an operator with a term after it. -/
theorem many_operation_cons_iff {t : Token} {ts rs : List Token} :
    Many Operation (t :: ts) rs ↔
      rs = t :: ts ∨ (IsOperator t.kind ∧ ∃ ms, Term ts ms ∧ Many Operation ms rs) :=
  many_cons_iff fun _ => ⟨fun ⟨hkind, hterm⟩ => ⟨hkind, hterm⟩, fun ⟨hkind, hterm⟩ =>
    ⟨hkind, hterm⟩⟩

/-- An expression is a term and operators with further terms. -/
theorem binary_iff {ts rs : List Token} :
    Binary ts rs ↔ ∃ ms, Term ts ms ∧ Many Operation ms rs :=
  ⟨fun ⟨hterm, hrest⟩ => ⟨_, hterm, hrest⟩, fun ⟨_, hterm, hrest⟩ => ⟨hterm, hrest⟩⟩

/-- The next expression of a pipeline comes after a comma or a pipe. -/
theorem pipelineRest_cons_iff {t : Token} {ts rs : List Token} :
    PipelineRest (t :: ts) rs ↔
      rs = t :: ts ∨
        ((t.kind = .comma ∨ t.kind = .pipe) ∧ ∃ ms, Binary ts ms ∧ PipelineRest ms rs) := by
  constructor
  · rintro ⟨ms, hcommas, hpipes⟩
    rcases many_after_cons_iff.mp hcommas with rfl | ⟨hkind, ns, hbinary, hcommas⟩
    · rcases many_after_cons_iff.mp hpipes with rfl | ⟨hkind, ns, ⟨hbinary, hcommas⟩, hpipes⟩
      · exact Or.inl rfl
      · exact Or.inr ⟨Or.inr hkind, _, hbinary, _, hcommas, hpipes⟩
    · exact Or.inr ⟨Or.inl hkind, ns, hbinary, ms, hcommas, hpipes⟩
  · rintro (rfl | ⟨hkind | hkind, ms, hbinary, ns, hcommas, hpipes⟩)
    · exact ⟨_, .done _, .done _⟩
    · exact ⟨ns, .more ⟨hkind, hbinary⟩ hcommas, hpipes⟩
    · exact ⟨_, .done _, .more ⟨hkind, hbinary, hcommas⟩ hpipes⟩

/-- The items of an array are none, or an expression and the rest of them. -/
theorem items_iff {ts rs : List Token} :
    Items ts rs ↔ ItemsEnd ts rs ∨ ∃ ms, Binary ts ms ∧ ItemsRest ms rs := by
  constructor
  · rintro (hend | ⟨hbinary, hcommas, hcomma, hend⟩)
    · exact Or.inl hend
    · exact Or.inr ⟨_, hbinary, _, _, hcommas, hcomma, hend⟩
  · rintro (hend | ⟨ms, hbinary, ns, os, hcommas, hcomma, hend⟩)
    · exact .none hend
    · exact .some hbinary hcommas hcomma hend

/-- A token ends the items of an array exactly if it is a closing bracket. -/
theorem itemsEnd_cons_iff {t : Token} {ts rs : List Token} :
    ItemsEnd (t :: ts) rs ↔ t.kind = .rightBracket ∧ rs = ts := by
  constructor
  · rintro ⟨hkind⟩
    exact ⟨hkind, rfl⟩
  · rintro ⟨hkind, rfl⟩
    exact .closed hkind

/-- After an item comes a comma and what may be further items, or the end of the array. -/
theorem itemsRest_cons_iff {t : Token} {ts rs : List Token} :
    ItemsRest (t :: ts) rs ↔
      (t.kind = .comma ∧ Items ts rs) ∨ (t.kind = .rightBracket ∧ rs = ts) := by
  constructor
  · rintro ⟨ms, ns, hcommas, hcomma, hend⟩
    rcases many_after_cons_iff.mp hcommas with rfl | ⟨hkind, os, hbinary, hcommas⟩
    · rcases hcomma with _ | hkind
      · exact Or.inr (itemsEnd_cons_iff.mp hend)
      · exact Or.inl ⟨hkind, .none hend⟩
    · exact Or.inl ⟨hkind, .some hbinary hcommas hcomma hend⟩
  · rintro (⟨hkind, hend | ⟨hbinary, hcommas, hcomma, hend⟩⟩ | ⟨hkind, rfl⟩)
    · exact ⟨_, _, .done _, .present hkind, hend⟩
    · exact ⟨_, _, .more ⟨hkind, hbinary⟩ hcommas, hcomma, hend⟩
    · exact ⟨_, _, .done _, .absent _, .closed hkind⟩

/-- Items may be cut short by the end of the input. -/
theorem itemsRest_nil_iff {rs : List Token} : ItemsRest [] rs ↔ rs = [] := by
  constructor
  · rintro ⟨ms, ns, hcommas, hcomma, hend⟩
    obtain rfl := many_after_nil_iff.mp hcommas
    cases hcomma
    cases hend
    rfl
  · rintro rfl
    exact ⟨[], [], .done _, .absent _, .input⟩

/-- A term is told apart by its first token. -/
theorem term_cons_iff {t : Token} {ts rs : List Token} :
    Term (t :: ts) rs ↔
      match t.kind with
      | .number => IsLiteral t.text ∧ rs = ts
      | .word | .quoted => rs = ts
      | .dot => ∃ ms, Segment (t :: ts) ms ∧ Many Segment ms rs
      | .leftBracket => Bracket ts rs
      | .leftBrace => Object ts rs
      | .leftParen => ∃ close, Pipeline ts (close :: rs) ∧ close.kind = .rightParen
      | _ => False := by
  constructor
  · rintro (⟨hkind, hliteral⟩ | ⟨hname⟩ | ⟨hkind, hfirst, hrest⟩ | ⟨hkind, h⟩ | ⟨hkind, h⟩ |
      ⟨hkind, h, hclose⟩)
    · rw [hkind]
      exact ⟨hliteral, rfl⟩
    · rcases hname with hkind | hkind <;> rw [hkind]
    · rw [hkind]
      exact ⟨_, hfirst, hrest⟩
    · rw [hkind]
      exact h
    · rw [hkind]
      exact h
    · rw [hkind]
      exact ⟨_, h, hclose⟩
  · intro h
    split at h
    case h_1 hkind =>
      obtain ⟨hliteral, rfl⟩ := h
      exact .number hkind hliteral
    case h_2 hkind =>
      obtain rfl := h
      exact .name (Or.inl hkind)
    case h_3 hkind =>
      obtain rfl := h
      exact .name (Or.inr hkind)
    case h_4 hkind =>
      obtain ⟨ms, hfirst, hrest⟩ := h
      exact .chain hkind hfirst hrest
    case h_5 hkind => exact .bracket hkind h
    case h_6 hkind => exact .object hkind h
    case h_7 hkind =>
      obtain ⟨close, h, hclose⟩ := h
      exact .parens hkind h hclose
    case h_8 => exact h.elim

/-- A segment is a dot, a dot with a name after it, or a bracket. -/
theorem segment_cons_iff {t : Token} {ts rs : List Token} :
    Segment (t :: ts) rs ↔
      match t.kind with
      | .dot => rs = ts ∨ ∃ name, IsName name.kind ∧ ts = name :: rs
      | .leftBracket => Bracket ts rs
      | _ => False := by
  constructor
  · rintro (hkind | ⟨hkind, hname⟩ | ⟨hkind, h⟩) <;> rw [hkind]
    · exact Or.inl rfl
    · exact Or.inr ⟨_, hname, rfl⟩
    · exact h
  · intro h
    split at h
    case h_1 hkind =>
      rcases h with rfl | ⟨name, hname, rfl⟩
      · exact .dot hkind
      · exact .key hkind hname
    case h_2 hkind => exact .bracket hkind h
    case h_3 => exact h.elim

/-- Segments are none, or a first one and others. -/
theorem many_segment_cons_iff {t : Token} {ts rs : List Token} :
    Many Segment (t :: ts) rs ↔
      rs = t :: ts ∨ ∃ ms, Segment (t :: ts) ms ∧ Many Segment ms rs := by
  constructor
  · rintro (_ | ⟨hfirst, hrest⟩)
    · exact Or.inl rfl
    · exact Or.inr ⟨_, hfirst, hrest⟩
  · rintro (rfl | ⟨ms, hfirst, hrest⟩)
    · exact .done _
    · exact .more hfirst hrest

/-- Segments start with dots and brackets only. -/
theorem not_segment_cons {t : Token} {ts rs : List Token} (hdot : t.kind ≠ .dot)
    (hbracket : t.kind ≠ .leftBracket) : ¬ Segment (t :: ts) rs := by
  rw [segment_cons_iff]
  split
  · contradiction
  · contradiction
  · exact id

/-- Behind a segment there is an operator, or another segment. -/
theorem chainRest_cons_iff {t : Token} {ts rs : List Token} :
    ChainRest (t :: ts) rs ↔
      Many Operation (t :: ts) rs ∨ ∃ ms, Segment (t :: ts) ms ∧ ChainRest ms rs := by
  constructor
  · rintro ⟨ms, hsegments, hoperations⟩
    rcases many_segment_cons_iff.mp hsegments with rfl | ⟨ns, hfirst, hrest⟩
    · exact Or.inl hoperations
    · exact Or.inr ⟨ns, hfirst, ms, hrest, hoperations⟩
  · rintro (hoperations | ⟨ms, hfirst, ns, hrest, hoperations⟩)
    · exact ⟨_, .done _, hoperations⟩
    · exact ⟨ns, .more hfirst hrest, hoperations⟩

/-- A pipeline is an expression and the rest of the pipeline. -/
theorem pipeline_iff {ts rs : List Token} :
    Pipeline ts rs ↔ ∃ ms, Binary ts ms ∧ PipelineRest ms rs := by
  constructor
  · rintro ⟨⟨hbinary, hcommas⟩, hpipes⟩
    exact ⟨_, hbinary, _, hcommas, hpipes⟩
  · rintro ⟨ms, hbinary, ns, hcommas, hpipes⟩
    exact ⟨⟨hbinary, hcommas⟩, hpipes⟩

/-- A bound that a token other than a number follows is left out. -/
theorem bound_cons_of_ne {t : Token} {ts rs : List Token} (h : t.kind ≠ .number) :
    Bound (t :: ts) rs ↔ rs = t :: ts := by
  constructor
  · rintro (_ | ⟨hkind, _⟩)
    · rfl
    · contradiction
  · rintro rfl
    exact .absent _

/-- A bound before a token that is no number is not left out. -/
theorem bound_number_iff {t next : Token} {ts rs : List Token} (h : t.kind = .number)
    (hnext : next.kind ≠ .number) :
    Bound (t :: ts) (next :: rs) ↔ IsPosition t.text ∧ ts = next :: rs := by
  constructor
  · rintro (_ | ⟨_, hposition⟩)
    · contradiction
    · exact ⟨hposition, rfl⟩
  · rintro ⟨hposition, rfl⟩
    exact .present h hposition

/-- The rest of a range after its colon. -/
def RangeRest : Phrase := fun ts rs => ∃ close, Bound ts (close :: rs) ∧ close.kind = .rightBracket

/-- A token that closes no bracket starts an item. -/
theorem items_cons_of_ne {t : Token} {ts rs : List Token} (h : t.kind ≠ .rightBracket) :
    Items (t :: ts) rs ↔ ∃ ms, Binary (t :: ts) ms ∧ ItemsRest ms rs := by
  simp [items_iff, itemsEnd_cons_iff, h]

/-- No expression starts with a token that no term starts with. -/
theorem not_binary_cons {t : Token} {ts rs : List Token} (h : ∀ ms, ¬ Term (t :: ts) ms) :
    ¬ Binary (t :: ts) rs := by
  rw [binary_iff]
  rintro ⟨ms, hterm, _⟩
  exact h ms hterm

/-- A closing bracket ends an array that is empty. -/
theorem items_closed_iff {t : Token} {ts rs : List Token} (h : t.kind = .rightBracket) :
    Items (t :: ts) rs ↔ rs = ts := by
  rw [items_iff, itemsEnd_cons_iff, or_iff_left]
  · simp [h]
  · rintro ⟨ms, hbinary, _⟩
    refine absurd hbinary (not_binary_cons fun _ => ?_)
    simp [term_cons_iff, h]

/-- A closing bracket right behind the opening one ends the phrase. -/
theorem bracket_closed_iff {t : Token} {ts rs : List Token} (h : t.kind = .rightBracket) :
    Bracket (t :: ts) rs ↔ rs = ts := by
  constructor
  · rintro (_ | ⟨hnumber, _, _⟩ | ⟨hbound, hcolon, _, _⟩ | ⟨_, hitems⟩)
    · rfl
    · simp [h] at hnumber
    · rw [bound_cons_of_ne (by simp [h])] at hbound
      cases hbound
      simp [h] at hcolon
    · exact (items_closed_iff h).mp hitems
  · rintro rfl
    exact .iterate h

/-- A colon right behind an opening bracket starts the rest of a range. -/
theorem bracket_colon_iff {t : Token} {ts rs : List Token} (h : t.kind = .colon) :
    Bracket (t :: ts) rs ↔ RangeRest ts rs := by
  constructor
  · rintro (hclose | ⟨hnumber, _, _⟩ | ⟨hbound, _, hrest, hclose⟩ | ⟨_, hitems⟩)
    · simp [h] at hclose
    · simp [h] at hnumber
    · rw [bound_cons_of_ne (by simp [h])] at hbound
      cases hbound
      exact ⟨_, hrest, hclose⟩
    · obtain ⟨ms, hbinary, _⟩ := (items_cons_of_ne (by simp [h])).mp hitems
      refine absurd hbinary (not_binary_cons fun _ => ?_)
      simp [term_cons_iff, h]
  · rintro ⟨close, hbound, hclose⟩
    exact .range (.absent _) h hbound hclose

/-- A bracket with no bound and no end after it holds items. -/
theorem bracket_items_iff {t : Token} {ts rs : List Token} (hclose : t.kind ≠ .rightBracket)
    (hcolon : t.kind ≠ .colon) (hnumber : t.kind ≠ .number) :
    Bracket (t :: ts) rs ↔ Items (t :: ts) rs := by
  constructor
  · rintro (h | ⟨h, _, _⟩ | ⟨hbound, h, _, _⟩ | ⟨_, hitems⟩)
    · contradiction
    · contradiction
    · rw [bound_cons_of_ne hnumber] at hbound
      cases hbound
      contradiction
    · exact hitems
  · intro hitems
    refine .items ?_ hitems
    rcases ts with _ | ⟨next, ts⟩
    · exact id
    · exact fun hindex => hnumber hindex.1

/-- A bracket that holds one number and is closed is an index. -/
theorem bracket_index_iff {number t : Token} {ts rs : List Token} (hnumber : number.kind = .number)
    (h : t.kind = .rightBracket) :
    Bracket (number :: t :: ts) rs ↔ IsPosition number.text ∧ rs = ts := by
  constructor
  · rintro (hclose | ⟨_, hposition, _⟩ | ⟨hbound, hcolon, _, _⟩ | ⟨hindex, _⟩)
    · simp [hnumber] at hclose
    · exact ⟨hposition, rfl⟩
    · rw [bound_number_iff hnumber (by simp [hcolon])] at hbound
      obtain ⟨_, heq⟩ := hbound
      cases heq
      simp [h] at hcolon
    · exact absurd ⟨hnumber, h⟩ hindex
  · rintro ⟨hposition, rfl⟩
    exact .index hnumber hposition h

/-- An expression that starts with a number goes on with operations. -/
theorem binary_number_iff {number : Token} {ts rs : List Token} (h : number.kind = .number) :
    Binary (number :: ts) rs ↔ IsLiteral number.text ∧ Many Operation ts rs := by
  simp [binary_iff, term_cons_iff, h, and_assoc]

/-- A number and a colon behind an opening bracket start a range. -/
theorem bracket_start_iff {number t : Token} {ts rs : List Token} (hnumber : number.kind = .number)
    (h : t.kind = .colon) :
    Bracket (number :: t :: ts) rs ↔ IsPosition number.text ∧ RangeRest ts rs := by
  constructor
  · rintro (hclose | ⟨_, _, hclose⟩ | ⟨hbound, hcolon, hrest, hclose⟩ | ⟨_, hitems⟩)
    · simp [hnumber] at hclose
    · simp [h] at hclose
    · rw [bound_number_iff hnumber (by simp [hcolon])] at hbound
      obtain ⟨hposition, heq⟩ := hbound
      cases heq
      exact ⟨hposition, _, hrest, hclose⟩
    · obtain ⟨ms, hbinary, hrest⟩ := (items_cons_of_ne (by simp [hnumber])).mp hitems
      obtain ⟨_, hmany⟩ := (binary_number_iff hnumber).mp hbinary
      rw [many_operation_cons_iff] at hmany
      simp only [IsOperator, h, reduceCtorEq, or_self, false_and, or_false] at hmany
      subst hmany
      simp [itemsRest_cons_iff, h] at hrest
  · rintro ⟨hposition, close, hbound, hclose⟩
    exact .range (.present hnumber hposition) h hbound hclose

/-- A number that neither a colon nor the end of the bracket follows is the start of an item. -/
theorem bracket_number_iff {number t : Token} {ts rs : List Token}
    (hnumber : number.kind = .number) (hclose : t.kind ≠ .rightBracket) (hcolon : t.kind ≠ .colon) :
    Bracket (number :: t :: ts) rs ↔
      IsLiteral number.text ∧ ∃ ms, Many Operation (t :: ts) ms ∧ ItemsRest ms rs := by
  have hitems : Items (number :: t :: ts) rs ↔
      IsLiteral number.text ∧ ∃ ms, Many Operation (t :: ts) ms ∧ ItemsRest ms rs := by
    simp [items_cons_of_ne, hnumber, binary_number_iff hnumber, and_assoc]
  rw [← hitems]
  constructor
  · rintro (h | ⟨_, _, h⟩ | ⟨hbound, h, _, _⟩ | ⟨_, hitems⟩)
    · simp [hnumber] at h
    · contradiction
    · rw [bound_number_iff hnumber (by simp [h])] at hbound
      obtain ⟨_, heq⟩ := hbound
      cases heq
      contradiction
    · exact hitems
  · exact .items fun hindex => hclose hindex.2

/-- A number behind a colon is the second bound of a range, and the range ends with it. -/
theorem rangeRest_number_iff {t : Token} {ts rs : List Token} (h : t.kind = .number) :
    RangeRest (t :: ts) rs ↔
      IsPosition t.text ∧ ∃ close, ts = close :: rs ∧ close.kind = .rightBracket := by
  constructor
  · rintro ⟨close, hbound, hclose⟩
    obtain ⟨hposition, heq⟩ := (bound_number_iff h (by simp [hclose])).mp hbound
    exact ⟨hposition, close, heq, hclose⟩
  · rintro ⟨hposition, close, rfl, hclose⟩
    exact ⟨close, .present h hposition, hclose⟩

/-- Without a number behind its colon a range ends there. -/
theorem rangeRest_cons_of_ne {t : Token} {ts rs : List Token} (h : t.kind ≠ .number) :
    RangeRest (t :: ts) rs ↔ t.kind = .rightBracket ∧ rs = ts := by
  simp only [RangeRest, bound_cons_of_ne h]
  constructor
  · rintro ⟨close, heq, hclose⟩
    cases heq
    exact ⟨hclose, rfl⟩
  · rintro ⟨hclose, rfl⟩
    exact ⟨t, rfl, hclose⟩

/-- What follows an opening brace is its end, or entries. -/
theorem object_iff {ts rs : List Token} :
    Object ts rs ↔ (∃ close, ts = close :: rs ∧ close.kind = .rightBrace) ∨
      ∃ ms close, Pair ts ms ∧ Many (After .comma Pair) ms (close :: rs) ∧
        close.kind = .rightBrace := by
  constructor
  · rintro (hclose | ⟨hpair, hrest, hclose⟩)
    · exact Or.inl ⟨_, rfl, hclose⟩
    · exact Or.inr ⟨_, _, hpair, hrest, hclose⟩
  · rintro (⟨close, rfl, hclose⟩ | ⟨ms, close, hpair, hrest, hclose⟩)
    · exact .empty hclose
    · exact .pairs hpair hrest hclose

/-- A pair is a name, a colon and an expression. -/
theorem pair_iff {t : Token} {ts rs : List Token} :
    Pair (t :: ts) rs ↔
      IsName t.kind ∧ ∃ colon ms, ts = colon :: ms ∧ colon.kind = .colon ∧ Binary ms rs := by
  constructor
  · rintro ⟨hname, hcolon, hbinary⟩
    exact ⟨hname, _, _, rfl, hcolon, hbinary⟩
  · rintro ⟨hname, colon, ms, rfl, hcolon, hbinary⟩
    exact .mk hname hcolon hbinary

/-- A closing brace right behind the opening one ends the object. -/
theorem object_closed_iff {t : Token} {ts rs : List Token} (h : t.kind = .rightBrace) :
    Object (t :: ts) rs ↔ rs = ts := by
  simp [object_iff, pair_iff, IsName, h, eq_comm]

/-- A token that closes no brace starts the first pair of an object. -/
theorem object_cons_of_ne {t : Token} {ts rs : List Token} (h : t.kind ≠ .rightBrace) :
    Object (t :: ts) rs ↔ ∃ ms close, Pair (t :: ts) ms ∧
      Many (After .comma Pair) ms (close :: rs) ∧ close.kind = .rightBrace := by
  rw [object_iff, or_iff_right]
  rintro ⟨close, heq, hclose⟩
  cases heq
  contradiction

/-- An expression takes at least one token. -/
theorem not_binary_nil {rs : List Token} : ¬ Binary [] rs := by
  rintro ⟨hterm, _⟩
  cases hterm

/-- A pair takes at least one token. -/
theorem not_pair_nil {rs : List Token} : ¬ Pair [] rs := by
  rintro ⟨⟩

/-- A range is not cut short by the end of the input. -/
theorem rangeRest_nil_iff {rs : List Token} : RangeRest [] rs ↔ False := by
  refine iff_false_intro ?_
  rintro ⟨close, ⟨⟩, _⟩

/-- An array may be cut short before its first item. -/
theorem items_nil_iff {rs : List Token} : Items [] rs ↔ rs = [] := by
  rw [items_iff, or_iff_left]
  · constructor
    · rintro ⟨⟩
      rfl
    · rintro rfl
      exact .input
  · rintro ⟨ms, hbinary, _⟩
    exact not_binary_nil hbinary

/-- A bracket that the end of the input cuts short holds items. -/
theorem bracket_nil_iff {rs : List Token} : Bracket [] rs ↔ rs = [] := by
  rw [← items_nil_iff]
  constructor
  · rintro (_ | _ | ⟨⟨⟩, _⟩ | ⟨_, hitems⟩)
    exact hitems
  · exact .items id

/-- A number in a bracket that is cut short is an item. -/
theorem bracket_cut_iff {number : Token} {rs : List Token} (h : number.kind = .number) :
    Bracket [number] rs ↔ IsLiteral number.text ∧ rs = [] := by
  have hitems : Items [number] rs ↔ IsLiteral number.text ∧ rs = [] := by
    simp [items_cons_of_ne, h, binary_number_iff h, many_operation_nil_iff, itemsRest_nil_iff]
  rw [← hitems]
  constructor
  · rintro (hclose | _ | ⟨hbound, _, _, _⟩ | ⟨_, hitems⟩)
    · simp [h] at hclose
    · cases hbound
      simp_all
    · exact hitems
  · exact .items id

/-- An object is not cut short by the end of the input. -/
theorem not_object_nil {rs : List Token} : ¬ Object [] rs := by
  simp [object_iff, not_pair_nil]

/-- All dots are alike. -/
theorem segment_dot_congr {t dot : Token} {ts rs : List Token} (ht : t.kind = .dot)
    (hdot : dot.kind = .dot) (h : Segment (t :: ts) rs) : Segment (dot :: ts) rs := by
  rcases h with _ | ⟨_, hname⟩ | ⟨hbracket, _⟩
  · exact .dot hdot
  · exact .key hdot hname
  · rw [ht] at hbracket
    cases hbracket

end Sluice.Filter.Grammar
