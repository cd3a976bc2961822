import Sluice.Proofs.Eval.Distributing
import Sluice.Proofs.Eval.Flatness
import Sluice.Proofs.Eval.Selecting
import Sluice.Proofs.Filter.Selectors

/-!
# Texts as keys

A text without quotes is a key when it stands between quotes, in a selector and in an object. Many
a key may stand there bare as well, and is the same key then (`SpellsKey`). So what an object puts
under a key is what the selector finds there (`Filter.any_text_is_a_key`).
-/

namespace Sluice.Filter

/-- Whether a key may stand bare: letters, digits, underscores and hyphens, of which the first is a
letter or an underscore. -/
def IsBareKey (key : String) : Prop :=
  ∃ first rest, key.toList = first :: rest ∧
    (Text.isAlphanumeric first = true ∧ first.isDigit = false ∨ first = '_') ∧
    ∀ c ∈ rest, Text.isAlphanumeric c = true ∨ c = '_' ∨ c = '-'

/-- A key between quotes. -/
def quotedKey (key : String) : String := "\"" ++ key ++ "\""

/-- A quoted key is the key between quotes. -/
theorem toList_quotedKey (key : String) :
    (quotedKey key).toList = '"' :: (key.toList ++ ['"']) := by
  simp [quotedKey, String.toList_append]

/-- Whether a part of a source says a key, between quotes or bare. -/
inductive SpellsKey : (spelling key : String) → Prop
  | quoted {key : String} : '"' ∉ key.toList → SpellsKey (quotedKey key) key
  | bare {key : String} : IsBareKey key → SpellsKey key key

/-- Whether a token of this kind can say a key. -/
def TokenKind.SaysKey (kind : TokenKind) : Prop := kind = .word ∨ kind = .quoted

/-- What says a key is no illegal character. -/
theorem TokenKind.SaysKey.ne_illegal {kind : TokenKind} (h : kind.SaysKey) : kind ≠ .illegal := by
  rcases h with rfl | rfl <;> simp

/-- Where there are no newlines, none are trimmed. -/
theorem Lexeme.trimNewlines_of_forall_ne {cs : List Char} (h : ∀ c ∈ cs, c ≠ '\n') :
    trimNewlines cs = cs := by
  have hkept (ds : List Char) (hds : ∀ c ∈ ds, c ≠ '\n') : ds.dropWhile (· == '\n') = ds := by
    cases ds with
    | nil => rfl
    | cons d ds => exact List.dropWhile_cons_of_neg (by simpa using hds d List.mem_cons_self)
  rw [trimNewlines, hkept cs h, hkept _ (by simpa using h), List.reverse_reverse]

namespace IsBareKey

variable {key : String}

/-- A bare key is made of word characters other than newlines. -/
theorem forall_isWordChar (h : IsBareKey key) :
    ∀ c ∈ key.toList, isWordChar c = true ∧ c ≠ '\n' := by
  have hword {c : Char} (hc : Text.isAlphanumeric c = true ∨ c = '_' ∨ c = '-') :
      isWordChar c = true ∧ c ≠ '\n' := by
    rcases hc with hc | rfl | rfl
    · refine ⟨by simp [isWordChar, hc], ?_⟩
      rintro rfl
      exact absurd hc (by decide)
    · decide
    · decide
  obtain ⟨first, rest, heq, hfirst, hrest⟩ := h
  rw [heq]
  refine List.forall_mem_cons.mpr ⟨?_, fun c hc => hword (hrest c hc)⟩
  rcases hfirst with ⟨hfirst, -⟩ | rfl
  · exact hword (.inl hfirst)
  · exact hword (.inr (.inl rfl))

/-- A bare key starts with what starts no number. -/
theorem exists_first (h : IsBareKey key) : ∃ first rest, key.toList = first :: rest ∧
    first.isDigit = false ∧ first ≠ '-' := by
  obtain ⟨first, rest, heq, hfirst, -⟩ := h
  refine ⟨first, rest, heq, ?_⟩
  rcases hfirst with ⟨hletter, hdigit⟩ | rfl
  · refine ⟨hdigit, ?_⟩
    rintro rfl
    exact absurd hletter (by decide)
  · decide

end IsBareKey

namespace Scanner

variable {c : Char} {after : List Char} {key spelling : String}

/-- A blank is skipped. -/
theorem tokens_blank (h : isBlank c after = true) (before : List Char) :
    (Scanner.mk (c :: after) (.after before)).tokens =
      (Scanner.mk after (.after (before ++ [c]))).tokens := by
  rw [tokens, tokensWithin_congr (next_blank h _), Position.after_concat]
  exact tokensWithin_eq_tokensWithin (Nat.le_succ _) (Nat.le_refl _)

/-- A quoted key is one token, which says the key. -/
theorem tokens_quoted (h : '"' ∉ key.toList) (before after : List Char) :
    (Scanner.mk ('"' :: (key.toList ++ '"' :: after)) (.after before)).tokens =
      ⟨.quoted, .after before, key⟩ ::
        (Scanner.mk after (.after (before ++ '"' :: (key.toList ++ ['"'])))).tokens := by
  have hkey : ∀ c ∈ key.toList, (c != '"') = true := fun c hc => by
    refine bne_iff_ne.mpr ?_
    rintro rfl
    exact h hc
  have hread : Lexeme.read '"' (key.toList ++ '"' :: after) =
      ⟨.quoted, key.toList, '"' :: (key.toList ++ ['"']), after⟩ := by
    have hquoted : Lexeme.read '"' (key.toList ++ '"' :: after) =
        Lexeme.quoted (key.toList ++ '"' :: after) := rfl
    have hstop : ∀ c ∈ ('"' :: after).head?, (c != '"') = false := by simp
    obtain ⟨htake, hdrop⟩ := span_of_forall hkey hstop
    rw [hquoted, Lexeme.quoted, htake, hdrop]
    rfl
  have htokens := tokens_of_read rfl hread before
  rwa [String.ofList_toList] at htokens

/-- A bare key is one token, which says the key. -/
theorem tokens_bare (h : IsBareKey key) (hafter : ∀ c ∈ after.head?, isWordChar c = false)
    (before : List Char) :
    (Scanner.mk (key.toList ++ after) (.after before)).tokens =
      ⟨.word, .after before, key⟩ ::
        (Scanner.mk after (.after (before ++ key.toList))).tokens := by
  have hword : ∀ c ∈ key.toList, isWordChar c = true := fun c hc => (h.forall_isWordChar c hc).1
  have hline : ∀ c ∈ key.toList, c ≠ '\n' := fun c hc => (h.forall_isWordChar c hc).2
  have hlexeme : Lexeme.word (key.toList ++ after) =
      ⟨.word, key.toList, key.toList, after⟩ := by
    obtain ⟨htake, hdrop⟩ := span_of_forall hword hafter
    simp only [Lexeme.word, htake, hdrop, Lexeme.trimNewlines_of_forall_ne hline]
  obtain ⟨first, rest, heq, hdigit, hminus⟩ := h.exists_first
  have hmem : first ∈ key.toList := heq ▸ List.mem_cons_self
  have hfront : key.toList ++ after = first :: (rest ++ after) := by rw [heq, List.cons_append]
  have hread := read_of_isWordChar (hword first hmem) hdigit hminus (rest ++ after)
  rw [← hfront, hlexeme] at hread
  have hblank := isBlank_eq_false_of_isWordChar (hword first hmem) (hline first hmem)
    (rest ++ after)
  have htokens := tokens_of_read hblank hread before
  rwa [← hfront, String.ofList_toList] at htokens

/-- A key is one token, if no character of a bareword follows. -/
theorem exists_tokens_key (h : SpellsKey spelling key)
    (hafter : ∀ c ∈ after.head?, isWordChar c = false) (before : List Char) :
    ∃ kind : TokenKind, kind.SaysKey ∧
      (Scanner.mk (spelling.toList ++ after) (.after before)).tokens =
        ⟨kind, .after before, key⟩ ::
          (Scanner.mk after (.after (before ++ spelling.toList))).tokens := by
  cases h with
  | quoted hquote =>
    refine ⟨.quoted, .inr rfl, ?_⟩
    rw [toList_quotedKey, List.cons_append, List.append_assoc, List.singleton_append]
    exact tokens_quoted hquote before after
  | bare hbare => exact ⟨.word, .inl rfl, tokens_bare hbare hafter before⟩

/-- A dot before a key does not start a number. -/
theorem startsNumber_key (h : SpellsKey spelling key) (after : List Char) :
    Lexeme.startsNumber '.' (spelling.toList ++ after) = false := by
  cases h with
  | quoted => simp [toList_quotedKey, Lexeme.startsNumber]
  | bare hbare =>
    obtain ⟨first, rest, heq, hdigit, -⟩ := hbare.exists_first
    simp [heq, Lexeme.startsNumber, hdigit]

/-- A selector at the end of a source. -/
theorem exists_tokens_selector (h : SpellsKey spelling key) (before : List Char) :
    ∃ kind : TokenKind, kind.SaysKey ∧
      (Scanner.mk ('.' :: spelling.toList) (.after before)).tokens =
        [⟨.dot, .after before, ""⟩, ⟨kind, .after (before ++ ['.']), key⟩,
          ⟨.endOfInput, .after (before ++ ['.'] ++ spelling.toList), ""⟩] := by
  have hdot : punctuation? '.' = some .dot := rfl
  have hstarts := startsNumber_key h []
  have hstop : ∀ c ∈ ([] : List Char).head?, isWordChar c = false := by simp
  obtain ⟨kind, hkind, hkey⟩ := exists_tokens_key h hstop (before ++ ['.'])
  rw [List.append_nil] at hstarts hkey
  exact ⟨kind, hkind, by rw [tokens_punctuation hdot hstarts, hkey]; rfl⟩

/-- The tokens of an object that puts the input under a key. -/
def objectTokens (kind : TokenKind) (spelling key : String) : List Token :=
  let keyed := ['\x7b'] ++ spelling.toList
  let filter := keyed ++ [':'] ++ [' ']
  [⟨.leftBrace, .after [], ""⟩, ⟨kind, .after ['\x7b'], key⟩, ⟨.colon, .after keyed, ""⟩,
    ⟨.dot, .after filter, ""⟩, ⟨.rightBrace, .after (filter ++ ['.']), ""⟩]

/-- An object that holds the identity under a key is read as its five tokens, however the key is
spelled. -/
theorem exists_tokens_object (h : SpellsKey spelling key) (after : List Char) :
    ∃ (kind : TokenKind) (before : List Char), kind.SaysKey ∧
      (Scanner.mk ('\x7b' :: (spelling.toList ++ ':' :: ' ' :: '.' :: '\x7d' :: after))
        .start).tokens =
          objectTokens kind spelling key ++ (Scanner.mk after (.after before)).tokens := by
  have hbrace : punctuation? '\x7b' = some .leftBrace := rfl
  have hcolon : punctuation? ':' = some .colon := rfl
  have hdot : punctuation? '.' = some .dot := rfl
  have hclose : punctuation? '\x7d' = some .rightBrace := rfl
  have hspace : isBlank ' ' ('.' :: '\x7d' :: after) = true := rfl
  have hstart : Position.start = .after [] := rfl
  have hstop : ∀ c ∈ (':' :: ' ' :: '.' :: '\x7d' :: after).head?, isWordChar c = false := by
    rintro _ ⟨⟩
    rfl
  obtain ⟨kind, hkind, hkey⟩ := exists_tokens_key h hstop ['\x7b']
  refine ⟨kind, ['\x7b'] ++ spelling.toList ++ [':'] ++ [' '] ++ ['.'] ++ ['\x7d'], hkind, ?_⟩
  rw [hstart, tokens_punctuation hbrace rfl, List.nil_append, hkey,
    tokens_punctuation hcolon rfl, tokens_blank hspace, tokens_punctuation hdot rfl,
    tokens_punctuation hclose rfl]
  rfl

end Scanner

section Reading

variable {key spelling other : String}

/-- A key behind a dot is a selector for the key, however it is spelled. -/
theorem parse_selector (h : SpellsKey spelling key) : parse ("." ++ spelling) = .ok [.key key] := by
  obtain ⟨kind, hkind, htokens⟩ := Scanner.exists_tokens_selector h []
  have hsource : ("." ++ spelling).toList = '.' :: spelling.toList := by
    simp [String.toList_append]
  rw [parse_eq_parseTokens hsource htokens (by simp [hkind.ne_illegal])]
  rcases hkind with rfl | rfl <;> rfl

/-- A key in an object is the key of its entry, however it is spelled. -/
theorem parse_object (h : SpellsKey spelling key) :
    parse ("\x7b" ++ spelling ++ ": .\x7d") = .ok [.object [(key, .identity)]] := by
  obtain ⟨kind, before, hkind, htokens⟩ := Scanner.exists_tokens_object h []
  have hend : (Scanner.mk [] (.after before)).tokens = [⟨.endOfInput, .after before, ""⟩] := rfl
  rw [hend] at htokens
  have hsource : ("\x7b" ++ spelling ++ ": .\x7d").toList =
      '\x7b' :: (spelling.toList ++ [':', ' ', '.', '\x7d']) := by simp [String.toList_append]
  rw [parse_eq_parseTokens hsource htokens (by simp [Scanner.objectTokens, hkind.ne_illegal])]
  rcases hkind with rfl | rfl <;> rfl

/-- An object, and then a selector. -/
theorem parse_object_selector (h : SpellsKey spelling key) (hother : SpellsKey other key) :
    parse ("\x7b" ++ spelling ++ ": .\x7d | ." ++ other) =
      .ok [.object [(key, .identity)], .key key] := by
  obtain ⟨kind, before, hkind, htokens⟩ :=
    Scanner.exists_tokens_object h (' ' :: '|' :: ' ' :: '.' :: other.toList)
  obtain ⟨next, hnext, hselector⟩ :=
    Scanner.exists_tokens_selector hother (before ++ [' '] ++ ['|'] ++ [' '])
  have hpipe : punctuation? '|' = some .pipe := rfl
  have hspace (cs : List Char) : Scanner.isBlank ' ' cs = true := rfl
  rw [Scanner.tokens_blank (hspace _), Scanner.tokens_punctuation hpipe rfl,
    Scanner.tokens_blank (hspace _), hselector] at htokens
  have hsource : ("\x7b" ++ spelling ++ ": .\x7d | ." ++ other).toList =
      '\x7b' :: (spelling.toList ++
        ':' :: ' ' :: '.' :: '\x7d' :: ' ' :: '|' :: ' ' :: '.' :: other.toList) := by
    simp [String.toList_append]
  rw [parse_eq_parseTokens hsource htokens
    (by simp [Scanner.objectTokens, hkind.ne_illegal, hnext.ne_illegal])]
  rcases hkind with rfl | rfl <;> rcases hnext with rfl | rfl <;> rfl

end Reading

end Sluice.Filter

namespace Sluice

open Sluice.Action

/-- Time that is left changes nothing about whether evaluation may go on. -/
theorem Context.check_withTimeout {context : Context} {store : Store} {timeout : Nat}
    (h : context.check store = .ok ()) (htimeout : 0 < timeout) :
    (context.withTimeout store.now timeout).check store = .ok () := by
  obtain ⟨hcancelled, hexpired⟩ := check_eq_ok_iff.mp h
  refine check_eq_ok_iff.mpr ⟨hcancelled, ?_⟩
  simp only [isExpired, withTimeout, withDeadline] at hexpired ⊢
  cases hdeadline : context.deadline with
  | none => simp; omega
  | some deadline =>
    simp only [hdeadline, Option.any_some, decide_eq_false_iff_not] at hexpired ⊢
    omega

namespace Evaluator

variable {evaluator : Evaluator} {store : Store} {value : Value}

/-- A selector finds what was inserted under its key. -/
theorem run_key_of_isDocument (hallowed : evaluator.context.check store = .ok ())
    (hvalue : value.isDocument = true) (key : String) (entries : List (String × Value)) :
    evaluator.run [.key key] (.mapping (Keyed.insert key value entries)) store =
      some (.ok value, store) := by
  have hkey := run_apply_key hallowed key (Keyed.insert key value entries)
  rw [Keyed.lookup_insert_self, Option.getD_some] at hkey
  simp only [run, hkey, continueRun, flatten_of_isDocument hvalue]

/-- An object makes a mapping of its input under its key. -/
theorem run_apply_object_identity (hallowed : evaluator.context.check store = .ok ())
    (hvalue : value.isDocument = true) (key : String) :
    (evaluator.apply (.object [(key, .identity)]) value).run store =
      some (.ok (.mapping [(key, value)]), store) := by
  have hidentity : (evaluator.apply .identity value).run store = some (.ok value, store) := by
    rw [apply, Computation.run_bind_of_ok (run_check_of_ok hallowed)]
    rfl
  let entries : List (String × Filter.Node) := [(key, .identity)]
  have hvalues : (evaluator.applyAll (entries.map (·.2)) value []).run store =
      some (.ok [value], store) := Computation.run_bind_of_ok (run_orRelease_of_ok hidentity _) _
  exact run_apply_object hallowed (Value.ne_stream_of_isDocument hvalue) hvalues

/-- A run of an object makes a mapping of its input under its key. -/
theorem run_object_of_isDocument (hallowed : evaluator.context.check store = .ok ())
    (hvalue : value.isDocument = true) (key : String) :
    evaluator.run [.object [(key, .identity)]] value store =
      some (.ok (.mapping [(key, value)]), store) := by
  have hobject := run_apply_object_identity hallowed hvalue key
  have hmapping : (Value.mapping [(key, value)]).isDocument = true :=
    Value.isDocument_mapping_iff.mpr (by simpa using hvalue)
  simp only [run, hobject, continueRun, flatten_of_isDocument hmapping]

/-- A selector behind an object gives back what the object was made of. -/
theorem run_object_key_of_isDocument (hallowed : evaluator.context.check store = .ok ())
    (hvalue : value.isDocument = true) (key : String) :
    evaluator.run [.object [(key, .identity)], .key key] value store =
      some (.ok value, store) := by
  have hobject := run_apply_object_identity hallowed hvalue key
  have hkey := run_apply_key hallowed key [(key, value)]
  rw [List.lookup_cons_self, Option.getD_some] at hkey
  simp only [run, hobject, continueRun, hkey, flatten_of_isDocument hvalue]

end Evaluator

namespace Filter

variable {source spelling key : String} {options : Options} {context : Context} {store : Store}
  {input value : Value}

/-- Whether a source is that of a filter that makes one value of another and changes nothing. -/
def Makes (source : String) (options : Options) (context : Context) (store : Store)
    (input value : Value) : Prop :=
  ∃ filter, compile source options = .ok filter ∧
    filter.apply context input store = some (.ok value, store)

/-- What the program of a source makes the source makes. -/
theorem makes_of_run {program : Program} (hparse : parse source = .ok program)
    (hrun : ((Filter.mk source program options).evaluator context store.now).run program input
      store = some (.ok value, store)) : Makes source options context store input value :=
  ⟨⟨source, program, options⟩, by rw [compile, hparse]; rfl, hrun⟩

/-- A filter may run where the context allows it and there is time left. -/
theorem check_evaluator (filter : Filter) (hallowed : context.check store = .ok ())
    (htimeout : ∀ timeout ∈ filter.options.timeout, 0 < timeout) :
    (filter.evaluator context store.now).context.check store = .ok () := by
  rw [evaluator, Options.evaluator]
  cases htime : filter.options.timeout with
  | none => exact hallowed
  | some timeout => exact Context.check_withTimeout hallowed (htimeout timeout htime)

/-- A bare key holds no quote. -/
theorem IsBareKey.quote_not_mem (h : IsBareKey key) : '"' ∉ key.toList := fun hmem =>
  absurd (h.forall_isWordChar _ hmem).1 (by decide)

/-- **Any text without quotes works as a key.** Between quotes it selects what a mapping holds under
it, it is the key of an object that is made of an input, and the selector behind such an object
gives the input back. A key that may stand bare makes the same programs without its quotes. -/
theorem any_text_is_a_key (key : String) :
    ('"' ∉ key.toList → ∀ (options : Options) (context : Context) (store : Store),
      context.check store = .ok () → (∀ timeout ∈ options.timeout, 0 < timeout) →
      ∀ value : Value, value.isDocument = true →
        (∀ entries, Makes ("." ++ quotedKey key) options context store
          (.mapping (Keyed.insert key value entries)) value) ∧
        Makes ("\x7b" ++ quotedKey key ++ ": .\x7d") options context store value
          (.mapping [(key, value)]) ∧
        Makes ("\x7b" ++ quotedKey key ++ ": .\x7d | ." ++ quotedKey key) options context store
          value value) ∧
    (IsBareKey key →
      (∃ program, parse ("." ++ key) = .ok program ∧
        parse ("." ++ quotedKey key) = .ok program) ∧
      ∃ program, parse ("\x7b" ++ key ++ ": .\x7d") = .ok program ∧
        parse ("\x7b" ++ quotedKey key ++ ": .\x7d") = .ok program) := by
  refine ⟨fun hquote options context store hallowed htimeout value hvalue => ?_, fun hbare => ?_⟩
  · have hspells := SpellsKey.quoted hquote
    have hcheck (source : String) (program : Program) :=
      check_evaluator ⟨source, program, options⟩ hallowed htimeout
    exact ⟨fun entries => makes_of_run (parse_selector hspells)
        (Evaluator.run_key_of_isDocument (hcheck _ _) hvalue key entries),
      makes_of_run (parse_object hspells)
        (Evaluator.run_object_of_isDocument (hcheck _ _) hvalue key),
      makes_of_run (parse_object_selector hspells hspells)
        (Evaluator.run_object_key_of_isDocument (hcheck _ _) hvalue key)⟩
  · have hspells := SpellsKey.bare hbare
    have hquoted := SpellsKey.quoted hbare.quote_not_mem
    exact ⟨⟨_, parse_selector hspells, parse_selector hquoted⟩,
      ⟨_, parse_object hspells, parse_object hquoted⟩⟩

/-- A key of two lines, and one that is an operation elsewhere. -/
theorem any_text_is_a_key_of_lines :
    Makes "\x7b\"1.\nß\": .\x7d" {} .background {} (.int 1) (.mapping [("1.\nß", .int 1)]) ∧
      ∃ program, parse ".length" = .ok program ∧ parse ".\"length\"" = .ok program := by
  have hletters : "length".toList.all Text.isAlphanumeric = true := rfl
  have hall := List.all_eq_true.mp hletters
  have hbare : IsBareKey "length" := ⟨'l', ['e', 'n', 'g', 't', 'h'], rfl,
    .inl ⟨hall 'l' (by simp), rfl⟩, fun c hc => .inl (hall c (List.mem_cons_of_mem _ hc))⟩
  have hmakes := (any_text_is_a_key "1.\nß").1 (by decide) {} .background {} rfl (by simp) (.int 1)
    rfl
  exact ⟨hmakes.2.1, ((any_text_is_a_key "length").2 hbare).1⟩

end Filter

end Sluice
