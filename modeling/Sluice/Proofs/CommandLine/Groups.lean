import Mathlib.Tactic.Common
import Sluice.CommandLine.Arguments

/-!
# Groups of arguments

A command line is made of groups: a switch, a time with its value, or a positional argument
(`Group`). What is read from the groups depends only on which switches are there, on the times in
their order and on the positional arguments in theirs (`outcome`), so the groups may otherwise be
reordered.

Every command line is spelled by groups, up to an argument that decides by itself: one that asks for
help or is wrong (`Decides`). Then nothing else matters (`parseArguments_groups`).
-/

namespace Sluice.CommandLine

/-- Arguments that belong together. -/
inductive Group
  | compact
  | strict
  | verbose
  | timeout (text : String) (millis : Nat) (reads : Decimal.uint64? text.toList = some millis)
  | positional (text : String) (plain : text ≠ "-h" ∧ ['-', '-'].isPrefixOf text.toList = false)
  deriving DecidableEq

namespace Group

/-- The arguments that spell a group. -/
def words : Group → List String
  | compact => ["--compact"]
  | strict => ["--strict"]
  | verbose => ["--verbose"]
  | timeout text _ _ => ["--timeout-ms", text]
  | positional text _ => [text]

/-- The timeout that a group sets. -/
def millis? : Group → Option Nat
  | timeout _ millis _ => some millis
  | compact | strict | verbose | positional _ _ => none

/-- The positional argument that a group is. -/
def text? : Group → Option String
  | positional text _ => some text
  | compact | strict | verbose | timeout _ _ _ => none

end Group

/-- The command line that groups spell. -/
def spelled (groups : List Group) : List String := groups.flatMap Group.words

/-- The times that groups give, in order. -/
def timeouts (groups : List Group) : List Nat := groups.filterMap Group.millis?

/-- The positional arguments among groups, in order. -/
def positionals (groups : List Group) : List String := groups.filterMap Group.text?

/-- No group sets no timeout. -/
@[simp] theorem timeouts_nil : timeouts [] = [] := rfl

/-- The timeouts of groups are read off one group after the other. -/
@[simp] theorem timeouts_cons (group : Group) (groups : List Group) :
    timeouts (group :: groups) = group.millis?.toList ++ timeouts groups := by
  rw [timeouts, List.filterMap_cons]
  cases group.millis? <;> rfl

/-- No group is no positional argument. -/
@[simp] theorem positionals_nil : positionals [] = [] := rfl

/-- The positional arguments of groups are read off one group after the other. -/
@[simp] theorem positionals_cons (group : Group) (groups : List Group) :
    positionals (group :: groups) = group.text?.toList ++ positionals groups := by
  rw [positionals, List.filterMap_cons]
  cases group.text? <;> rfl

/-- The switches that are there, and the last of the times. -/
def flagsOf (groups : List Group) : Flags where
  compact := .compact ∈ groups
  strict := .strict ∈ groups
  verbose := .verbose ∈ groups
  timeout := (timeouts groups).getLast?

/-- What is read from groups. -/
def outcome (groups : List Group) : Except UsageError (Option Arguments) :=
  match positionals groups with
  | [] => .error .missingFilter
  | [filter] => .ok (some ⟨filter, none, flagsOf groups⟩)
  | [filter, input] => .ok (some ⟨filter, some input, flagsOf groups⟩)
  | _ :: _ :: extra :: _ => .error (.unexpectedArgument extra)

/-- The options that there are. -/
def options : List String := ["--help", "--compact", "--strict", "--verbose", "--timeout-ms"]

/-- Whether the first of some arguments decides, whatever stood before: it asks for help, which is
no error, or it is an error. The argument after the option for the time is its value, whatever it
looks like. -/
inductive Decides : List String → Option UsageError → Prop
  | help {argument : String} (rest : List String) : argument = "-h" ∨ argument = "--help" →
      Decides (argument :: rest) none
  | unknownOption {argument : String} (rest : List String) :
      ['-', '-'].isPrefixOf argument.toList = true → argument ∉ options →
      Decides (argument :: rest) (some (.unknownOption argument))
  | missingTimeout : Decides ["--timeout-ms"] (some .missingTimeout)
  | invalidTimeout {value : String} (rest : List String) : Decimal.uint64? value.toList = none →
      Decides ("--timeout-ms" :: value :: rest) (some (.invalidTimeout value))

/-- The flags after groups. -/
def Flags.after (flags : Flags) (groups : List Group) : Flags where
  compact := flags.compact || .compact ∈ groups
  strict := flags.strict || .strict ∈ groups
  verbose := flags.verbose || .verbose ∈ groups
  timeout := (timeouts groups).getLast?.or flags.timeout

/-- Groups read from the start set the flags that they name. -/
theorem Flags.after_empty (groups : List Group) : ({} : Flags).after groups = flagsOf groups := by
  simp [Flags.after, flagsOf]

/-- Groups set flags one after the other. -/
theorem Flags.after_cons (flags : Flags) (group : Group) (groups : List Group) :
    flags.after (group :: groups) = (flags.after [group]).after groups := by
  simp [Flags.after, List.getLast?_append, Bool.or_assoc, Option.or_assoc]

/-- A text without dashes in front is no option. -/
theorem not_mem_options {text : String} (h : ['-', '-'].isPrefixOf text.toList = false) :
    text ∉ options := by
  intro hmem
  have hdashes : ∀ option ∈ options, ['-', '-'].isPrefixOf option.toList = true := by decide
  rw [hdashes text hmem] at h
  cases h

/-- Scanning a group raises its flag, or sets its text aside. -/
theorem scan_words (group : Group) (rest : List String) (flags : Flags)
    (positional : List String) :
    scan (group.words ++ rest) flags positional =
      scan rest (flags.after [group]) (group.text?.toList ++ positional) := by
  rw [Group.words.eq_def]
  cases group with
  | compact | strict | verbose =>
    dsimp only
    rw [List.singleton_append, scan.eq_def]
    simp [Flags.after, Group.millis?, Group.text?]
  | timeout text millis reads =>
    dsimp only
    rw [List.cons_append, List.singleton_append, scan.eq_def]
    simp [Flags.after, Group.millis?, Group.text?, reads]
  | positional text plain =>
    obtain ⟨hhelp, hplain⟩ := plain
    have hoptions := not_mem_options hplain
    simp only [options, List.mem_cons, List.not_mem_nil, or_false, not_or] at hoptions
    dsimp only
    rw [List.singleton_append, scan.eq_def]
    simp [Flags.after, Group.millis?, Group.text?, hhelp, hoptions, hplain]

/-- Groups are spelled one after the other. -/
theorem spelled_cons (group : Group) (groups : List Group) :
    spelled (group :: groups) = group.words ++ spelled groups := List.flatMap_cons

/-- Scanning groups leads to the flags after them, with their positional arguments set aside, last
first. -/
theorem scan_spelled (groups : List Group) (rest : List String) (flags : Flags)
    (positional : List String) :
    scan (spelled groups ++ rest) flags positional =
      scan rest (flags.after groups) ((positionals groups).reverse ++ positional) := by
  induction groups generalizing flags positional with
  | nil =>
    have hafter : flags.after [] = flags := by simp [Flags.after]
    rw [hafter]
    rfl
  | cons group groups ih =>
    have hreverse : group.text?.toList.reverse = group.text?.toList := by
      cases group.text? <;> rfl
    rw [spelled_cons, List.append_assoc, scan_words, ih, ← Flags.after_cons, positionals_cons,
      List.reverse_append, hreverse, List.append_assoc]

/-- Where groups are all there is, their positional arguments are counted. -/
theorem parseArguments_spelled (groups : List Group) :
    parseArguments (spelled groups) = outcome groups := by
  have hscan : scan (spelled groups) {} [] = .ok (some (flagsOf groups, positionals groups)) := by
    have hspelled := scan_spelled groups [] {} []
    rw [List.append_nil, List.append_nil, Flags.after_empty, scan, List.reverse_reverse] at hspelled
    exact hspelled
  rcases hpositionals : positionals groups with _ | ⟨_, _ | ⟨_, _ | _⟩⟩ <;>
    simp [parseArguments, hscan, outcome, hpositionals]

/-- An argument that decides ends the scan, whatever was scanned before. -/
theorem scan_of_decides {arguments : List String} {error? : Option UsageError}
    (h : Decides arguments error?) (flags : Flags) (positional : List String) :
    scan arguments flags positional = error?.elim (.ok none) .error := by
  cases h with
  | help rest hhelp =>
    rw [scan.eq_def]
    simp [hhelp]
  | @unknownOption argument rest hdashes hknown =>
    have hshort : argument ≠ "-h" := by
      rintro rfl
      exact absurd hdashes (by decide)
    simp only [options, List.mem_cons, List.not_mem_nil, or_false, not_or] at hknown
    rw [scan.eq_def]
    simp [hshort, hknown, hdashes]
  | missingTimeout => rfl
  | invalidTimeout rest hvalue =>
    rw [scan.eq_def]
    simp [hvalue]

/-- The first of some arguments belongs to a group, or decides. -/
theorem exists_words_or_decides (argument : String) (rest : List String) :
    (∃ (group : Group) (later : List String), group.words ++ later = argument :: rest) ∨
      ∃ error?, Decides (argument :: rest) error? := by
  by_cases hhelp : argument = "-h" ∨ argument = "--help"
  · exact .inr ⟨_, .help rest hhelp⟩
  rw [not_or] at hhelp
  obtain ⟨hshort, hlong⟩ := hhelp
  cases hdashes : ['-', '-'].isPrefixOf argument.toList with
  | false => exact .inl ⟨.positional argument ⟨hshort, hdashes⟩, rest, rfl⟩
  | true =>
    by_cases hknown : argument ∈ options
    · simp only [options, List.mem_cons, List.not_mem_nil, or_false, hlong, false_or] at hknown
      obtain rfl | rfl | rfl | rfl := hknown
      · exact .inl ⟨.compact, rest, rfl⟩
      · exact .inl ⟨.strict, rest, rfl⟩
      · exact .inl ⟨.verbose, rest, rfl⟩
      · cases rest with
        | nil => exact .inr ⟨_, .missingTimeout⟩
        | cons value later =>
          cases hvalue : Decimal.uint64? value.toList with
          | none => exact .inr ⟨_, .invalidTimeout later hvalue⟩
          | some millis => exact .inl ⟨.timeout value millis hvalue, later, rfl⟩
    · exact .inr ⟨_, .unknownOption rest hdashes hknown⟩

/-- A group has at least one word. -/
theorem length_words_pos (group : Group) : 0 < group.words.length := by
  cases group <;> exact Nat.zero_lt_succ _

/-- Every command line is spelled by groups, up to an argument that decides. -/
theorem exists_spelled (arguments : List String) :
    ∃ groups rest, spelled groups ++ rest = arguments ∧
      (rest = [] ∨ ∃ error?, Decides rest error?) := by
  -- A group takes one argument or two, so the induction is on the length.
  induction hlength : arguments.length using Nat.strongRecOn generalizing arguments with
  | ind length ih =>
    subst hlength
    cases arguments with
    | nil => exact ⟨[], [], rfl, .inl rfl⟩
    | cons argument rest =>
      rcases exists_words_or_decides argument rest with ⟨group, later, hwords⟩ | hdecides
      · have hshorter : later.length < (argument :: rest).length := by
          have hpos := length_words_pos group
          rw [← hwords, List.length_append]
          omega
        obtain ⟨groups, last, hspelled, hlast⟩ := ih later.length hshorter later rfl
        refine ⟨group :: groups, last, ?_, hlast⟩
        rw [spelled_cons, List.append_assoc, hspelled, hwords]
      · exact ⟨[], argument :: rest, rfl, .inr hdecides⟩

/-- Only the order among positional arguments and among timeouts matters. -/
theorem outcome_eq_of_perm {groups others : List Group} (h : groups.Perm others)
    (hpositionals : positionals groups = positionals others)
    (htimeouts : timeouts groups = timeouts others) : outcome groups = outcome others := by
  have hflags : flagsOf groups = flagsOf others := by
    simp only [flagsOf, h.mem_iff, htimeouts]
  rw [outcome, outcome, hpositionals, hflags]

/-- What groups spell is read as their outcome, and reordering them does not change it as long as
the positional arguments and the times stay in order. Where an argument after groups decides, help
is asked for or its error is reported, whatever the groups are and whatever comes later. Every
command line is of one of these two forms. -/
theorem parseArguments_groups (groups : List Group) :
    parseArguments (spelled groups) = outcome groups ∧
    (∀ others : List Group, groups.Perm others → positionals groups = positionals others →
      timeouts groups = timeouts others →
      parseArguments (spelled others) = parseArguments (spelled groups)) ∧
    (∀ rest error?, Decides rest error? →
      parseArguments (spelled groups ++ rest) = error?.elim (.ok none) .error) ∧
    ∀ arguments : List String, ∃ groups rest, spelled groups ++ rest = arguments ∧
      (rest = [] ∨ ∃ error?, Decides rest error?) := by
  refine ⟨parseArguments_spelled groups, ?_, ?_, exists_spelled⟩
  · intro others hperm hpositionals htimeouts
    rw [parseArguments_spelled, parseArguments_spelled,
      outcome_eq_of_perm hperm hpositionals htimeouts]
  · intro rest error? hdecides
    rw [parseArguments, scan_spelled, scan_of_decides hdecides]
    cases error? <;> rfl

/-- A filter, a time and a switch in two orders, and a value of a time that looks like the option
for help. -/
theorem parseArguments_groups_of_three :
    let filter := Group.positional ".a" (by decide)
    let timeout := Group.timeout "250" 250 (by decide)
    parseArguments ["--compact", "--timeout-ms", "250", ".a"] =
        parseArguments [".a", "--timeout-ms", "250", "--compact"] ∧
      outcome [filter, timeout, .compact] =
        .ok (some { filter := ".a", flags := { compact := true, timeout := some 250 } }) ∧
      parseArguments [".a", "--timeout-ms", "250", "--compact", "--timeout-ms", "--help", "-h"] =
        .error (.invalidTimeout "--help") := by
  intro filter timeout
  obtain ⟨_, hreordered, hdecides, _⟩ := parseArguments_groups [filter, timeout, .compact]
  refine ⟨?_, ?_, ?_⟩
  · exact hreordered [.compact, timeout, filter] (List.reverse_perm _).symm rfl rfl
  · rfl
  · exact hdecides ["--timeout-ms", "--help", "-h"] _ (.invalidTimeout ["-h"] (by decide))

end Sluice.CommandLine
