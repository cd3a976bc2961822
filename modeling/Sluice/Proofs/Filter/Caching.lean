import Mathlib.Data.List.Induction
import Mathlib.Tactic.Common
import Sluice.Filter.Cache

/-!
# What a cache answers

Whatever a cache was asked before, it answers with the parse of the source, and what it holds are
such parses, each under its own source (`Cache.Sound`). Answers are the same program as long as the
cache is not emptied: after a source has been parsed, the program is kept until a clear or a parse
on a full cache removes it, and from then on the source has to be parsed again
(`lookup_after_of_not_misses`). So a source that is asked for again gives the program of its last
parse exactly if the cache was not emptied since (`get_after_requests`).
-/

namespace Sluice.Filter

namespace Cache

/-- What a cache can be asked to do. -/
inductive Request
  | get (source : String)
  | clear
  deriving DecidableEq

/-- The cache after a request. -/
def step (cache : Cache) : Request → Cache
  | .get source => (cache.get source).2
  | .clear => cache.clear

/-- The cache after several requests, the first of them first. -/
def after (cache : Cache) (requests : List Request) : Cache := requests.foldl step cache

/-- Whether asking for a source has it parsed, with success. -/
def misses (cache : Cache) (source : String) : Bool :=
  (cache.entries.lookup source).isNone && (parse source).isOk

/-- Whether a request empties the cache: a clear, or a source that is parsed while it is full. -/
def empties (cache : Cache) : Request → Bool
  | .get source => cache.misses source && decide (cache.capacity ≤ cache.size)
  | .clear => true

/-- Whether one of several requests is such that a test holds of it and of the cache before it. -/
def ever (test : Cache → Request → Bool) (cache : Cache) : List Request → Bool
  | [] => false
  | request :: rest => test cache request || ever test (cache.step request) rest

/-- Whether a request has a given source parsed, with success. -/
def parses (source : String) (cache : Cache) (request : Request) : Bool :=
  decide (request = .get source) && cache.misses source

section Requests

variable {cache : Cache} {source : String}

/-- No request leaves a cache as it is. -/
@[simp] theorem after_nil (cache : Cache) : cache.after [] = cache := rfl

/-- Requests act one after the other. -/
@[simp] theorem after_cons (cache : Cache) (request : Request) (rest : List Request) :
    cache.after (request :: rest) = (cache.step request).after rest := rfl

/-- Requests may be split anywhere. -/
@[simp] theorem after_append (cache : Cache) (requests more : List Request) :
    cache.after (requests ++ more) = (cache.after requests).after more := List.foldl_append

/-- A test holds of one of several requests if it does before a point or after it. -/
theorem ever_append (test : Cache → Request → Bool) (cache : Cache)
    (requests more : List Request) :
    ever test cache (requests ++ more) =
      (ever test cache requests || ever test (cache.after requests) more) := by
  induction requests generalizing cache with
  | nil => rfl
  | cons request rest ih => simp only [List.cons_append, ever, ih, after_cons, Bool.or_assoc]

/-- A source that is held is answered with what is held, and the cache stays as it is. -/
theorem get_of_some {stamped : Stamped} (h : cache.entries.lookup source = some stamped) :
    cache.get source = (.ok stamped, cache) := by
  simp only [get, h]

/-- A source that is no filter is answered with its error, and the cache stays as it is. -/
theorem get_of_error {error : SyntaxError} (hnone : cache.entries.lookup source = none)
    (h : parse source = .error error) : cache.get source = (.error error, cache) := by
  simp only [get, hnone, h]

/-- A source that is not held is parsed and held, in place of all others if the cache is full. -/
theorem get_of_ok {program : Program} (hnone : cache.entries.lookup source = none)
    (h : parse source = .ok program) :
    cache.get source = (.ok ⟨cache.nextStamp, program⟩,
      { cache with
        entries := (source, ⟨cache.nextStamp, program⟩) ::
          if cache.capacity ≤ cache.size then [] else cache.entries
        nextStamp := cache.nextStamp + 1 }) := by
  simp only [get, hnone, h]

/-- A source has to be parsed if it is not held and is a filter. -/
theorem misses_eq_true_iff :
    cache.misses source = true ↔
      cache.entries.lookup source = none ∧ ∃ program, parse source = .ok program := by
  rw [misses, Bool.and_eq_true, Option.isNone_iff_eq_none]
  cases parse source <;> simp [Except.isOk, Except.toBool]

/-- A source that is not parsed with success leaves the cache as it is. -/
theorem step_get_of_not_misses (h : cache.misses source = false) :
    cache.step (.get source) = cache := by
  rw [step]
  cases hfound : cache.entries.lookup source with
  | some stamped => rw [get_of_some hfound]
  | none =>
    cases hparse : parse source with
    | error error => rw [get_of_error hfound hparse]
    | ok program =>
      have hmisses := misses_eq_true_iff.mpr ⟨hfound, program, hparse⟩
      rw [h] at hmisses
      cases hmisses

/-- After a source has been parsed, what is held is its program, and what was held before unless the
cache has been emptied. -/
theorem exists_step_of_misses (h : cache.misses source = true) :
    ∃ program, parse source = .ok program ∧
      cache.get source = (.ok ⟨cache.nextStamp, program⟩, cache.step (.get source)) ∧
      cache.step (.get source) =
        { cache with
          entries := (source, ⟨cache.nextStamp, program⟩) ::
            if cache.empties (.get source) then [] else cache.entries
          nextStamp := cache.nextStamp + 1 } := by
  obtain ⟨hnone, program, hparse⟩ := misses_eq_true_iff.mp h
  have hget := get_of_ok hnone hparse
  refine ⟨program, hparse, ?_, ?_⟩
  · rw [step, hget]
  · rw [step, hget]
    simp only [empties, h, Bool.true_and, decide_eq_true_eq]

/-- What is true of a cache after any requests. -/
structure Sound (room : Nat) (cache : Cache) : Prop where
  capacity_eq : cache.capacity = room
  size_le : cache.size ≤ cache.capacity
  /-- No source is held twice. -/
  nodup : (cache.entries.map (·.1)).Nodup
  /-- What is held under a source is its parse. -/
  parsed : ∀ entry ∈ cache.entries, parse entry.1 = .ok entry.2.program
  /-- The stamps that were given out come before the next one. -/
  older : ∀ entry ∈ cache.entries, entry.2.stamp < cache.nextStamp

variable {room : Nat}

/-- An empty cache is sound. -/
theorem sound_empty (capacity : Nat) : Sound (max capacity 1) (empty capacity) :=
  ⟨rfl, Nat.zero_le _, List.nodup_nil, by simp [empty], by simp [empty]⟩

/-- A cache that was cleared is sound. -/
theorem Sound.clear (h : Sound room cache) : Sound room cache.clear :=
  ⟨h.capacity_eq, Nat.zero_le _, List.nodup_nil, by simp [Cache.clear], by simp [Cache.clear]⟩

/-- A cache without a source does not hold it. -/
theorem not_mem_map_fst_of_lookup {entries : List (String × Stamped)}
    (h : entries.lookup source = none) : source ∉ entries.map (·.1) := by
  simp only [List.mem_map, not_exists, not_and]
  intro entry hmem heq
  have hne := List.lookup_eq_none_iff.mp h entry hmem
  simp [heq] at hne

/-- A cache stays sound when it is asked for a source. -/
theorem Sound.get (hroom : 0 < room) (h : Sound room cache) (source : String) :
    Sound room (cache.step (.get source)) := by
  rcases hmisses : cache.misses source with _ | _
  · rw [step_get_of_not_misses hmisses]
    exact h
  · obtain ⟨program, hparse, _, hstep⟩ := exists_step_of_misses hmisses
    have hnone := (misses_eq_true_iff.mp hmisses).1
    have hnew := not_mem_map_fst_of_lookup hnone
    have hfull : cache.empties (.get source) = decide (cache.capacity ≤ cache.size) := by
      rw [empties, hmisses, Bool.true_and]
    have hcapacity := h.capacity_eq
    rw [hstep, hfull]
    by_cases hle : cache.capacity ≤ cache.size
    · simp only [decide_eq_true hle, if_true]
      exact ⟨hcapacity, by simp only [size, List.length_singleton]; omega, by simp,
        by simpa using hparse, by simp⟩
    · simp only [decide_eq_false hle, Bool.false_eq_true, if_false]
      refine ⟨hcapacity, ?_, ?_, ?_, ?_⟩
      · simp only [size, List.length_cons] at hle ⊢
        omega
      · simpa using ⟨by simpa using hnew, h.nodup⟩
      · simpa using ⟨hparse, fun key stamped hmem => h.parsed (key, stamped) hmem⟩
      · simpa using fun key stamped hmem =>
          Nat.lt_succ_of_lt (h.older (key, stamped) hmem)

/-- A cache stays sound after any requests. -/
theorem Sound.after (hroom : 0 < room) (h : Sound room cache) (requests : List Request) :
    Sound room (cache.after requests) := by
  induction requests generalizing cache with
  | nil => exact h
  | cons request rest ih =>
    cases request with
    | get source => exact ih (h.get hroom source)
    | clear => exact ih h.clear

/-- A cache answers with the parse of the source. -/
theorem Sound.map_get (h : Sound room cache) (source : String) :
    (cache.get source).1.map Stamped.program = parse source := by
  cases hfound : cache.entries.lookup source with
  | some stamped =>
    obtain ⟨before, rest, hentries, _⟩ := List.lookup_eq_some_iff.mp hfound
    have hparse := h.parsed (source, stamped) (by simp [hentries])
    rw [get_of_some hfound, hparse]
    rfl
  | none =>
    cases hparse : parse source with
    | error error =>
      rw [get_of_error hfound hparse]
      rfl
    | ok program =>
      rw [get_of_ok hfound hparse]
      rfl

/-- As long as a source is not parsed again, it is held if it was at first and the cache has not
been emptied. -/
theorem lookup_after_of_not_misses {requests : List Request}
    (hnever : ever (parses source) cache requests = false) :
    (cache.after requests).entries.lookup source =
      if ever empties cache requests then none
      else cache.entries.lookup source := by
  induction requests generalizing cache with
  | nil => rfl
  | cons request rest ih =>
    simp only [ever, Bool.or_eq_false_iff] at hnever
    obtain ⟨hfirst, hrest⟩ := hnever
    rw [after_cons, ih hrest, ever]
    cases request with
    | clear =>
      have hnone : (cache.step .clear).entries.lookup source = none := rfl
      rw [hnone, ite_self]
      rfl
    | get other =>
      rcases hmisses : cache.misses other with _ | _
      · simp [step_get_of_not_misses hmisses, empties, hmisses]
      · obtain ⟨_, _, _, hstep⟩ := exists_step_of_misses hmisses
        have hne : (source == other) = false := by
          rw [beq_eq_false_iff_ne]
          rintro rfl
          simp [parses, hmisses] at hfirst
        rw [hstep, List.lookup_cons, hne]
        cases cache.empties (.get other) <;> simp

/-- Stamps are given out in ascending order. -/
theorem nextStamp_le_after (cache : Cache) (requests : List Request) :
    cache.nextStamp ≤ (cache.after requests).nextStamp := by
  induction requests generalizing cache with
  | nil => exact Nat.le_refl _
  | cons request rest ih =>
    refine Nat.le_trans ?_ (ih (cache.step request))
    cases request with
    | clear => exact Nat.le_refl _
    | get source =>
      rcases hmisses : cache.misses source with _ | _
      · exact Nat.le_of_eq (by rw [step_get_of_not_misses hmisses])
      · obtain ⟨_, _, _, hstep⟩ := exists_step_of_misses hmisses
        rw [hstep]
        exact Nat.le_succ _

/-- The stamp that a source has when it is asked for again, after it was parsed and while it has not
been parsed since: the one of its parse, or a new one if the cache has been emptied. -/
def laterStamp (cache : Cache) (source : String) (late : List Request) : Nat :=
  if ever empties (cache.step (.get source)) late then
    ((cache.step (.get source)).after late).nextStamp
  else cache.nextStamp

/-- A filter that has been parsed is given out again as long as it is held, and it is parsed again
once the cache has been emptied. -/
theorem get_after_of_misses (hmisses : cache.misses source = true) {program : Program}
    (hparse : parse source = .ok program) {late : List Request}
    (hnever : ever (parses source) (cache.step (.get source)) late = false) :
    (((cache.step (.get source)).after late).get source).1 =
      .ok ⟨cache.laterStamp source late, program⟩ := by
  obtain ⟨found, hfound, _, hstep⟩ := exists_step_of_misses hmisses
  obtain rfl : found = program := Except.ok.inj (hfound.symm.trans hparse)
  have hlookup := lookup_after_of_not_misses hnever
  have hheld : (cache.step (.get source)).entries.lookup source =
      some ⟨cache.nextStamp, found⟩ := by
    rw [hstep, List.lookup_cons, beq_self_eq_true]
  rw [hheld] at hlookup
  unfold laterStamp
  rcases hempties : ever empties (cache.step (.get source)) late with _ | _ <;>
    rw [hempties] at hlookup
  · rw [get_of_some hlookup]
    rfl
  · rw [get_of_ok hlookup hparse]
    rfl

/-- A source is answered with the program of its parse exactly if the cache has not been emptied
since. -/
theorem laterStamp_eq_iff (hmisses : cache.misses source = true) (late : List Request) :
    cache.laterStamp source late = cache.nextStamp ↔
      ever empties (cache.step (.get source)) late = false := by
  have hle := nextStamp_le_after (cache.step (.get source)) late
  obtain ⟨_, _, _, hstep⟩ := exists_step_of_misses hmisses
  have hnext : (cache.step (.get source)).nextStamp = cache.nextStamp + 1 := by rw [hstep]
  unfold laterStamp
  cases ever empties (cache.step (.get source)) late with
  | false => simp
  | true =>
    simp only [if_true, Bool.true_eq_false, iff_false]
    omega

/-- A filter that is asked for and need not be parsed is held, so the cache has not been emptied
since its last parse. -/
theorem laterStamp_of_not_misses (hmisses : cache.misses source = true) {before : List Request}
    (hnever : ever (parses source) (cache.step (.get source)) before = false)
    (hheld : ((cache.step (.get source)).after before).misses source = false) :
    cache.laterStamp source before = cache.nextStamp := by
  obtain ⟨program, hparse, _, _⟩ := exists_step_of_misses hmisses
  rw [laterStamp_eq_iff hmisses]
  rcases hempties : ever empties (cache.step (.get source)) before with _ | _
  · rfl
  · have hlookup := lookup_after_of_not_misses hnever
    rw [hempties, if_pos rfl] at hlookup
    rw [misses_eq_true_iff.mpr ⟨hlookup, program, hparse⟩] at hheld
    cases hheld

/-- A source that is held was asked for. -/
theorem get_mem_of_lookup_after {capacity : Nat} {requests : List Request} {stamped : Stamped}
    (h : ((empty capacity).after requests).entries.lookup source = some stamped) :
    .get source ∈ requests := by
  induction requests using List.reverseRecOn generalizing stamped with
  | nil => simp [empty] at h
  | append_singleton requests request ih =>
    rw [List.mem_append, List.mem_singleton]
    rw [after_append] at h
    generalize hcache : (empty capacity).after requests = cache at h ih
    cases request with
    | clear => simp [step, clear] at h
    | get other =>
      rcases hmisses : cache.misses other with _ | _
      · rw [after_cons, step_get_of_not_misses hmisses] at h
        exact .inl (ih h)
      · obtain ⟨_, _, _, hstep⟩ := exists_step_of_misses hmisses
        by_cases heq : source = other
        · exact .inr (by rw [heq])
        · rw [after_cons, after_nil, hstep, List.lookup_cons, beq_eq_false_iff_ne.mpr heq] at h
          cases hempties : cache.empties (.get other) with
          | true => simp [hempties] at h
          | false =>
            rw [hempties] at h
            exact .inl (ih h)

/-- Whether two lists are the requests before and after the one that had a source parsed last. -/
structure LastParse (capacity : Nat) (source : String) (requests early late : List Request) :
    Prop where
  eq : requests = early ++ .get source :: late
  misses : ((empty capacity).after early).misses source = true
  never : ever (parses source) (((empty capacity).after early).step (.get source)) late = false

/-- A filter that was asked for was parsed once for the last time. -/
theorem exists_lastParse (capacity : Nat) {requests : List Request} {program : Program}
    (hparse : parse source = .ok program) (hmem : .get source ∈ requests) :
    ∃ early late, LastParse capacity source requests early late := by
  induction requests using List.reverseRecOn with
  | nil => cases hmem
  | append_singleton requests request ih =>
    rcases hlast : parses source ((empty capacity).after requests) request with _ | _
    · have hearlier : .get source ∈ requests := by
        rcases List.mem_append.mp hmem with hmem | hmem
        · exact hmem
        · obtain rfl : Request.get source = request := List.mem_singleton.mp hmem
          -- A filter that is not parsed is held.
          cases hfound : ((empty capacity).after requests).entries.lookup source with
          | some stamped => exact get_mem_of_lookup_after hfound
          | none => simp [parses, misses_eq_true_iff.mpr ⟨hfound, program, hparse⟩] at hlast
      obtain ⟨early, late, rfl, hmisses, hnever⟩ := ih hearlier
      refine ⟨early, late ++ [request], by simp, hmisses, ?_⟩
      rw [ever_append, hnever]
      simpa [ever] using hlast
    · obtain ⟨rfl, hmisses⟩ : request = .get source ∧ _ := by simpa [parses] using hlast
      exact ⟨requests, [], rfl, hmisses, rfl⟩

end Requests

/-- After any requests to a new cache, it answers with the parse of the source that it is asked for,
a source that is no filter leaves it as it is, it holds at most as many programs as it has room for,
and what it holds under a source is the parse of this source. A filter that was asked for before was
parsed once for the last time; the cache has given this program out since then, and it gives the
program again exactly if it has not been emptied since. -/
theorem get_after_requests (capacity : Nat) (requests : List Request) (source : String) :
    let cache := (empty capacity).after requests
    (cache.get source).1.map Stamped.program = parse source ∧
    (∀ error, (cache.get source).1 = .error error → (cache.get source).2 = cache) ∧
    cache.size ≤ max capacity 1 ∧
    (cache.entries.map (·.1)).Nodup ∧
    (∀ entry ∈ cache.entries, parse entry.1 = .ok entry.2.program) ∧
    ∀ program, parse source = .ok program → .get source ∈ requests →
      ∃ early late first again, LastParse capacity source requests early late ∧
        (((empty capacity).after early).get source).1 = .ok first ∧
        (∀ before rest, late = before ++ .get source :: rest →
          (((empty capacity).after (early ++ .get source :: before)).get source).1 = .ok first) ∧
        (cache.get source).1 = .ok again ∧
        (again.stamp = first.stamp ↔
          ever empties (((empty capacity).after early).step (.get source)) late = false) := by
  intro cache
  have hsound := (sound_empty capacity).after (by omega) requests
  refine ⟨hsound.map_get source, fun error herror => ?_, hsound.capacity_eq ▸ hsound.size_le,
    hsound.nodup, hsound.parsed, fun program hparse hmem => ?_⟩
  · have hmisses : cache.misses source = false := by
      rcases hmisses : cache.misses source with _ | _
      · rfl
      · obtain ⟨_, _, hget, _⟩ := exists_step_of_misses hmisses
        rw [hget] at herror
        cases herror
    exact step_get_of_not_misses hmisses
  -- The requests are split at the last one for which the source was parsed.
  · obtain ⟨early, late, hlast⟩ := exists_lastParse capacity hparse hmem
    have hmisses := hlast.misses
    have hnever := hlast.never
    have hafter (before : List Request) : (empty capacity).after (early ++ .get source :: before) =
        (((empty capacity).after early).step (.get source)).after before := after_append _ _ _
    refine ⟨early, late, ⟨((empty capacity).after early).nextStamp, program⟩,
      ⟨((empty capacity).after early).laterStamp source late, program⟩, hlast, ?_, ?_, ?_,
      laterStamp_eq_iff hmisses late⟩
    · obtain ⟨found, hfound, hget, _⟩ := exists_step_of_misses hmisses
      rw [hget, ← Except.ok.inj (hfound.symm.trans hparse)]
    · rintro before rest rfl
      rw [ever_append, Bool.or_eq_false_iff] at hnever
      obtain ⟨hbefore, hrest⟩ := hnever
      have hheld :
          ((((empty capacity).after early).step (.get source)).after before).misses source =
            false := by
        simpa [parses] using (Bool.or_eq_false_iff.mp hrest).1
      rw [hafter before, get_after_of_misses hmisses hparse hbefore,
        laterStamp_of_not_misses hmisses hbefore hheld]
    · have hagain := get_after_of_misses hmisses hparse hnever
      rwa [← hafter late, ← hlast.eq] at hagain

/-- In a cache for one program, the parse of `length` removes `.`, and `|` removes nothing. -/
theorem get_after_requests_of_small_cache :
    parse "." = .ok [.identity] ∧
    ∃ early late first again,
      LastParse 1 "." [.get ".", .get "|", .get "length"] early late ∧
      (((empty 1).after early).get ".").1 = .ok first ∧
      (((empty 1).after [.get ".", .get "|", .get "length"]).get ".").1 = .ok again ∧
      (again.stamp = first.stamp ↔
        ever empties (((empty 1).after early).step (.get ".")) late = false) := by
  have hparse : parse "." = .ok [.identity] := rfl
  obtain ⟨_, _, _, _, _, hidentical⟩ :=
    get_after_requests 1 [.get ".", .get "|", .get "length"] "."
  obtain ⟨early, late, first, again, hlast, hfirst, _, hagain, hiff⟩ :=
    hidentical [.identity] hparse (by simp)
  exact ⟨hparse, early, late, first, again, hlast, hfirst, hagain, hiff⟩

end Cache

end Sluice.Filter
