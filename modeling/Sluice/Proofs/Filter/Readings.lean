import Sluice.Proofs.Filter.Recognition

/-!
# Readers that go on as other readers

A reader that has taken some tokens is another reader before the tokens that are left, and what
comes of the first one comes of the second (`Reads`). This composes, holds of single tokens, and
identifies readers that differ only in what they have not settled yet: a chain that is not
continued is a complete term, and a complete term that no operator follows is a complete expression.
-/

namespace Sluice.Filter

open Grammar

namespace Parser

/-- Whether a reader takes tokens and goes on with the others as another one.

Unless the tokens it takes nest too deep, both come to the same outcome, whatever comes after the
next token and also if nothing does. The second reader has no more open than the first one has and
the tokens open and do not close. -/
def Reads (parser : Parser) (ts : List Token) (next : Parser) (rs : List Token) : Prop :=
  ∃ taken, ts = taken ++ rs ∧
    next.suspended.length + taken.countP (isCloser ·.kind) ≤
      parser.suspended.length + taken.countP (isOpener ·.kind) ∧
    (Shallow parser.suspended.length taken → ∀ others last, (∀ t ∈ others.head?, t ∈ rs.head?) →
      last.kind = .endOfInput →
        parser.run (taken ++ (others ++ [last])) = next.run (others ++ [last]))

variable {parser next later : Parser} {t : Token} {ts ms rs : List Token}

/-- Tokens nest no deeper in front than they do as a whole. -/
theorem Shallow.of_front {depth : Nat} (h : Shallow depth ts) (hfront : ms <+: ts) :
    Shallow depth ms :=
  fun before hbefore => h before (hbefore.trans hfront)

/-- Behind tokens, what is open there counts. -/
theorem Shallow.of_append {depth behind : Nat} {taken : List Token}
    (h : Shallow depth (taken ++ ts))
    (hcount : behind + taken.countP (isCloser ·.kind) ≤ depth + taken.countP (isOpener ·.kind)) :
    Shallow behind ts := by
  intro before hbefore
  have := h _ ((List.prefix_append_right_inj taken).mpr hbefore)
  simp only [List.countP_append] at this
  omega

/-- Tokens that start like others still do so behind the same tokens. -/
theorem mem_head?_append {others : List Token} (h : ∀ t ∈ others.head?, t ∈ rs.head?)
    (taken : List Token) : ∀ t ∈ (taken ++ others).head?, t ∈ (taken ++ rs).head? := by
  cases taken with
  | nil => exact h
  | cons first taken => exact fun _ ht => ht

/-- Readers that take the next token alike and end alike come to the same outcome. -/
theorem run_congr {last : Token} (hlast : last.kind = .endOfInput)
    (hstep : ∀ t ∈ ts.head?, t.kind ≠ .endOfInput → parser.step t = next.step t)
    (hfinish : ∀ last, finish parser.suspended parser.enclosure parser.pending parser.mode last =
      finish next.suspended next.enclosure next.pending next.mode last) :
    parser.run (ts ++ [last]) = next.run (ts ++ [last]) := by
  cases ts with
  | nil => simpa [run, hlast] using hfinish last
  | cons t ts =>
    by_cases hkind : t.kind = .endOfInput
    · simpa [run, hkind] using hfinish t
    · simp [run, hkind, hstep t rfl hkind]

/-- A reader that goes on as another one before it takes a token. -/
theorem Reads.of_congr (hopen : next.suspended.length ≤ parser.suspended.length)
    (hstep : ∀ t ∈ ts.head?, t.kind ≠ .endOfInput → parser.step t = next.step t)
    (hfinish : ∀ last, finish parser.suspended parser.enclosure parser.pending parser.mode last =
      finish next.suspended next.enclosure next.pending next.mode last) :
    Reads parser ts next ts :=
  ⟨[], rfl, by simpa using hopen, fun _ _ _ hothers hlast =>
    run_congr hlast (fun t ht => hstep t (hothers t ht)) hfinish⟩

/-- A reader that takes nothing stays what it is. -/
theorem Reads.refl (parser : Parser) (ts : List Token) : Reads parser ts parser ts :=
  .of_congr (Nat.le_refl _) (fun _ _ _ => rfl) fun _ => rfl

/-- Readings compose. -/
theorem Reads.trans (h : Reads parser ts next ms) (hnext : Reads next ms later rs) :
    Reads parser ts later rs := by
  obtain ⟨taken, rfl, hopen, hruns⟩ := h
  obtain ⟨more, rfl, hopenMore, hrunsMore⟩ := hnext
  refine ⟨taken ++ more, by simp, ?_, fun hshallow others last hothers hlast => ?_⟩
  · simp only [List.countP_append]
    omega
  · have hbefore := Shallow.of_front hshallow (List.prefix_append taken more)
    have hbehind := Shallow.of_append hshallow hopen
    rw [← hrunsMore hbehind others last hothers hlast]
    simpa using hruns hbefore (more ++ others) last (mem_head?_append hothers more) hlast

/-- A token that a reader takes, if not too much is open behind it. -/
theorem Reads.of_step (hkind : t.kind ≠ .endOfInput)
    (hcount : next.suspended.length + (if isCloser t.kind then 1 else 0) =
      parser.suspended.length + if isOpener t.kind then 1 else 0)
    (hstep : next.suspended.length ≤ maxNesting → parser.step t = .ok next) :
    Reads parser (t :: ts) next ts := by
  refine ⟨[t], rfl, ?_, fun hshallow others last _ _ => ?_⟩
  · simpa [List.countP_cons] using Nat.le_of_eq hcount
  · have hroom := hshallow [t] (List.prefix_refl _)
    have hnext : next.suspended.length ≤ maxNesting := by
      simp only [List.countP_cons, List.countP_nil, Nat.zero_add] at hroom
      omega
    simp [run, hkind, hstep hnext, Except.bind]

/-- Readers that take the first token alike read what starts with it alike. -/
theorem Reads.of_first (h : Reads next (t :: ts) later rs) (hlength : rs.length ≤ ts.length)
    (hopen : parser.suspended.length = next.suspended.length)
    (hfirst : ∀ others last, (∀ u ∈ others.head?, u ∈ ts.head?) → last.kind = .endOfInput →
      parser.run (t :: (others ++ [last])) = next.run (t :: (others ++ [last]))) :
    Reads parser (t :: ts) later rs := by
  obtain ⟨taken, htaken, hcount, hruns⟩ := h
  rcases taken with _ | ⟨first, taken⟩
  · obtain rfl : rs = t :: ts := htaken.symm
    exact absurd hlength (by simp)
  · obtain ⟨rfl, rfl⟩ := List.cons.inj htaken
    refine ⟨t :: taken, rfl, hopen ▸ hcount, fun hshallow others last hothers hlast => ?_⟩
    rw [← hruns (hopen ▸ hshallow) others last hothers hlast]
    simpa using hfirst (taken ++ others) last (mem_head?_append hothers taken) hlast

/-- What is left behind tokens that have been taken are the last of them. -/
theorem Reads.suffix (h : Reads parser ts next rs) : rs <:+ ts := by
  obtain ⟨taken, rfl, -⟩ := h
  exact List.suffix_append _ _

variable {suspended : List Suspended} {frame : Suspended} {enclosure : Enclosure}
  {pending : Pending} {mode : Mode} {kind : TokenKind}

/-- The kinds of tokens that neither open nor close anything. -/
def isPlain : TokenKind → Bool
  | .leftBracket | .leftBrace | .leftParen | .rightBracket | .rightBrace | .rightParen
  | .endOfInput => false
  | _ => true

/-- A plain token opens nothing, closes nothing and is not the end of input. -/
theorem sides_of_isPlain (h : isPlain kind = true) :
    isOpener kind = false ∧ isCloser kind = false ∧ kind ≠ .endOfInput := by
  revert h
  cases kind <;> simp [isPlain, isOpener, isCloser]

/-- The reader after the construct inside a suspended one has closed and become a node. -/
def Suspended.close (frame : Suspended) (suspended : List Suspended) (inner : Node) : Parser :=
  ⟨suspended, frame.enclosure, frame.pending, frame.resume inner⟩

/-- A plain token leads to the next reader. -/
theorem reads_plain (hkind : t.kind = kind) (hplain : isPlain kind = true)
    (hstep : parser.step t = .ok next) (hopen : next.suspended = parser.suspended) :
    Reads parser (t :: ts) next ts := by
  subst hkind
  obtain ⟨hopener, hcloser, hend⟩ := sides_of_isPlain hplain
  exact .of_step hend (by simp [hopener, hcloser, hopen]) fun _ => hstep

/-- An opening token leads to the reader inside the construct it opens. -/
theorem reads_opener {steps : Option (List Node)} {inner : Enclosure} {start : Mode}
    (hkind : t.kind = kind) (hopener : isOpener kind = true)
    (hstep : step ⟨suspended, enclosure, pending, mode⟩ t =
      descend ⟨suspended, enclosure, pending, mode⟩ steps inner start t) :
    Reads ⟨suspended, enclosure, pending, mode⟩ (t :: ts)
      ⟨⟨enclosure, pending, steps⟩ :: suspended, inner, {}, start⟩ ts := by
  subst hkind
  have hsides : isCloser t.kind = false ∧ t.kind ≠ .endOfInput := by
    revert hopener
    cases t.kind <;> simp [isOpener, isCloser]
  obtain ⟨hcloser, hend⟩ := hsides
  refine .of_step hend (by simp [hopener, hcloser]) fun hroom => ?_
  rw [hstep, descend, if_neg (Nat.not_le_of_lt hroom)]

/-- A closing token leads to the reader behind the construct it closes. -/
theorem reads_closer {inner : Node} (hkind : t.kind = kind) (hcloser : isCloser kind = true)
    (hstep : step ⟨frame :: suspended, enclosure, pending, mode⟩ t =
      .ok (ascend ⟨frame :: suspended, enclosure, pending, mode⟩ inner)) :
    Reads ⟨frame :: suspended, enclosure, pending, mode⟩ (t :: ts)
      (frame.close suspended inner) ts := by
  subst hkind
  have hsides : isOpener t.kind = false ∧ t.kind ≠ .endOfInput := by
    revert hcloser
    cases t.kind <;> simp [isOpener, isCloser]
  obtain ⟨hopener, hend⟩ := hsides
  exact .of_step hend (by simp [hopener, hcloser, Suspended.close]) fun _ => hstep

/-- Whether what comes next ends an expression: nothing, a separator or a closing token. -/
def Ends (ts : List Token) : Prop :=
  ∀ t ∈ ts.head?, t.kind = .comma ∨ t.kind = .pipe ∨ isCloser t.kind = true

/-- Modes in which the reader takes what comes next alike. -/
theorem reads_mode {other : Mode}
    (hstep : ∀ t ∈ ts.head?, step ⟨suspended, enclosure, pending, mode⟩ t =
      step ⟨suspended, enclosure, pending, other⟩ t)
    (hlast : ∀ last, lastTerm mode last = lastTerm other last) :
    Reads ⟨suspended, enclosure, pending, mode⟩ ts ⟨suspended, enclosure, pending, other⟩ ts := by
  refine .of_congr (Nat.le_refl _) (fun t ht _ => hstep t ht)
    fun last => ?_
  unfold finish
  rw [hlast]

/-- A segment that no further segment follows ends its chain. -/
theorem reads_segment {steps : List Node}
    (h : ∀ t ∈ ts.head?, t.kind ≠ .dot ∧ t.kind ≠ .leftBracket) :
    Reads ⟨suspended, enclosure, pending, .segment steps⟩ ts
      ⟨suspended, enclosure, pending, .operand (.ofSteps steps)⟩ ts := by
  refine reads_mode (fun t ht => ?_) fun _ => rfl
  obtain ⟨hdot, hbracket⟩ := h t ht
  simp only [step, afterSegment]
  rfl

/-- A dot that neither a name nor a further segment follows ends its chain. -/
theorem reads_dot {steps : List Node}
    (h : ∀ t ∈ ts.head?, t.kind ≠ .dot ∧ t.kind ≠ .leftBracket ∧ ¬ IsName t.kind) :
    Reads ⟨suspended, enclosure, pending, .dot steps⟩ ts
      ⟨suspended, enclosure, pending, .operand (.ofSteps (steps ++ [.identity]))⟩ ts := by
  refine reads_mode (fun t ht => ?_) fun _ => rfl
  obtain ⟨hdot, hbracket, hname⟩ := h t ht
  simp only [step, afterSegment]
  split
  case h_1 hkind => exact absurd (Or.inl hkind) hname
  case h_2 hkind => exact absurd (Or.inr hkind) hname
  case h_3 => contradiction
  case h_4 => rfl

/-- An expression that no operator follows is complete. -/
theorem reads_finished {term : Node}
    (hinside : suspended = [] → ∃ stages items, enclosure = .source stages items)
    (h : ∀ t ∈ ts.head?, ¬ IsOperator t.kind) :
    Reads ⟨suspended, enclosure, pending, .operand term⟩ ts
      ⟨suspended, enclosure, {}, .operand (pending.finish term)⟩ ts := by
  refine .of_congr (Nat.le_refl _) (fun t ht _ => ?_) fun _ => ?_
  · have hnone : operator? t.kind = none := by
      have := h t ht
      revert this
      cases t.kind <;> simp [operator?, IsOperator]
    simp only [step, afterTerm, hnone]
    cases suspended with
    | nil =>
      obtain ⟨stages, items, rfl⟩ := hinside rfl
      rfl
    | cons frame suspended => rfl
  · unfold finish
    rfl

end Parser

end Sluice.Filter
