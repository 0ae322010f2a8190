import Pbz.Parser.OwnedDeclarations
import Pbz.Parser.Outcome
import Pbz.Parser.ValidateFile

set_option autoImplicit false

/-! # What a failed parse releases

A failed parse releases the strings that the file owns, each of them once. The name of a group
field that is open where the parse fails is released once more, by the cleanup of the group.
-/

namespace Pbz

open Handles Logged Program

variable [FloatConversions]

namespace Parser

/-- The parse behind the first token. -/
def parseRest (rounds : Nat) : Parse FileDescriptor := do
  parseFile rounds
  let self ← get
  liftError (finish self.file)

theorem parse_eq {input : Bytes} {self : Parser} (hinit : init input = .ok self) :
    parse input = (parseRest (4 * input.length + 2) self).map Prod.fst := by
  unfold parse parseRest
  rw [hinit]
  cases hfile : parseFile (4 * input.length + 2) self with
  | error stop =>
      rw [bind_of_error hfile]
      show (parseFile (4 * input.length + 2) self >>= fun result => _) = _
      rw [hfile]
      rfl
  | ok result =>
      obtain ⟨⟨⟩, self'⟩ := result
      rw [bind_of_ok hfile]
      show (parseFile (4 * input.length + 2) self >>= fun result => _) = _
      rw [hfile]
      show (finish self'.file).mapError .error = (liftError (finish self'.file) self').map Prod.fst
      cases finish self'.file <;> rfl

end Parser

namespace Owned

/-- The parse behind the first token, with the cleanup of `Parser.parse`. -/
def parseRest (rounds : Nat) : OwnedParse FileDescriptor := errdefer OwnedStrings.deinit do
  parseFile rounds
  let self ← get
  liftError (Parser.finish self.file)

/-- `Parser.parse`, and what has become of the strings when it returns. -/
def parse (input : Bytes) : Except Stop FileDescriptor × OwnedStrings :=
  match Parser.init input with
  | .error stop => (.error stop, {})
  | .ok self =>
      let outcome := run (parseRest (4 * input.length + 2)) self {}
      (outcome.1.map Prod.fst, outcome.2)

/-! ## The parse and its strings -/

/-- How a parse that began without strings has ended: as the parser without strings does, and with
its strings as the cleanup of `Parser.parse` leaves them. -/
structure ParseEnds (outcome : Except Stop FileDescriptor)
    (owned : Except Stop FileDescriptor × OwnedStrings) : Prop where
  same : owned.1 = outcome
  succeeded : ∀ file, outcome = .ok file → KeepsStrings {} owned.2
  failed : ∀ e, outcome = .error (.error e) →
    ∃ strings, FailsStrings {} strings ∧ owned.2 = strings.deinit

theorem parse_ends (input : Bytes) : ParseEnds (Parser.parse input) (parse input) := by
  unfold parse
  cases hinit : Parser.init input with
  | error stop =>
      have hpure : Parser.parse input = .error stop := by
        unfold Parser.parse
        rw [hinit]
        rfl
      rw [hpure]
      exact ⟨rfl, fun _ h => (nomatch h), fun _ _ => ⟨{}, .refl, rfl⟩⟩
  | ok self =>
      dsimp only
      rw [Parser.parse_eq hinit]
      have hfollows : Follows ownership (do
          parseFile (4 * input.length + 2)
          let self ← get
          liftError (Parser.finish self.file)) (Parser.parseRest (4 * input.length + 2)) :=
        parseFile_follows.bind fun _ => .get fun s => Follows.plain s
      obtain ⟨strings, hrun, hends⟩ := hfollows self {}
      cases hresult : Parser.parseRest (4 * input.length + 2) self with
      | ok result =>
          rw [hresult] at hrun hends
          have hparse : run (parseRest (4 * input.length + 2)) self {} = (.ok result, strings) :=
            run_onStop_of_ok hrun
          rw [hparse]
          exact ⟨rfl, fun _ _ => hends.returns result rfl, fun _ h => nomatch h⟩
      | error stop =>
          rw [hresult] at hrun hends
          have hparse : run (parseRest (4 * input.length + 2)) self {}
              = (.error stop, onError OwnedStrings.deinit stop strings) := run_onStop_of_error hrun
          rw [hparse]
          refine ⟨rfl, fun _ h => (nomatch h), fun e he => ?_⟩
          cases he
          exact ⟨strings, hends.stops _ rfl e rfl, rfl⟩

variable {input : Bytes}

theorem parse_released_of_ok {file : FileDescriptor} (h : Parser.parse input = .ok file) :
    (parse input).2.ledger.released = [] :=
  ((parse_ends input).succeeded file h).released

/-- What the file owns is released once, and the name of each open group once more. -/
theorem count_released_of_error {e : ParseError} (h : Parser.parse input = .error (.error e))
    {handle : Nat} (hmade : handle < (parse input).2.ledger.made) :
    (parse input).2.ledger.released.count handle
      = 1 + ((parse input).2.openGroups.map Prod.snd).count handle := by
  obtain ⟨strings, hfails, hstrings⟩ := (parse_ends input).failed e h
  obtain ⟨groups, once, hleaves⟩ := hfails OwnedStrings.held_empty
  rw [hstrings] at hmade ⊢
  have hopen : strings.openGroups = groups := hleaves.openGroups.trans (List.append_nil _)
  -- what was released once and what the file owns are all the strings that were allocated
  have hsettled : (strings.owned ++ once).count handle = 1 :=
    (hleaves.holds.releaseAll handle hmade).trans (if_neg List.not_mem_nil)
  show (strings.owned ++ strings.ledger.released).count handle
    = 1 + (strings.openGroups.map Prod.snd).count handle
  calc (strings.owned ++ strings.ledger.released).count handle
      = strings.owned.count handle + (groups.map Prod.snd ++ once).count handle := by
        rw [List.count_append, hleaves.released.count_eq]
    _ = (strings.owned ++ once).count handle + (groups.map Prod.snd).count handle := by
        rw [List.count_append, List.count_append]
        omega
    _ = 1 + (strings.openGroups.map Prod.snd).count handle := by rw [hsettled, hopen]

/-- The strings of an outcome: of an error each has been released once, of a file none has. -/
structure ReleasesOnce (outcome : Except Stop FileDescriptor × OwnedStrings) : Prop where
  failed : ∀ e, outcome.1 = .error (.error e) →
    ∀ handle < outcome.2.ledger.made, outcome.2.ledger.released.count handle = 1
  succeeded : ∀ file, outcome.1 = .ok file →
    ∀ handle < outcome.2.ledger.made, outcome.2.ledger.released.count handle = 0

/-- The names of the group fields that have been named, but not read to their end, where the parse
stops. -/
def groupsOpen (input : Bytes) : List Bytes := (parse input).2.openGroups.map Prod.fst

/-- An open group has a name that was allocated. -/
theorem made_of_openGroups {e : ParseError} (h : Parser.parse input = .error (.error e))
    {group : Bytes × Nat} (hgroup : group ∈ (parse input).2.openGroups) :
    group.2 < (parse input).2.ledger.made := by
  obtain ⟨strings, hfails, hstrings⟩ := (parse_ends input).failed e h
  obtain ⟨groups, once, hleaves⟩ := hfails OwnedStrings.held_empty
  have hopen : strings.openGroups = groups := hleaves.openGroups.trans (List.append_nil _)
  rw [hstrings] at hgroup ⊢
  exact hleaves.groupsMade group (hopen ▸ hgroup)

/-- The strings are released as they should be unless the parse fails within a group field behind
its name. -/
theorem releasesOnce_iff (input : Bytes) :
    ReleasesOnce (parse input)
      ↔ ∀ e, Parser.parse input = .error (.error e) → groupsOpen input = [] := by
  have hsame := (parse_ends input).same
  constructor
  · intro h e he
    refine List.map_eq_nil_iff.mpr (List.eq_nil_iff_forall_not_mem.mpr fun group hgroup => ?_)
    have hmade := made_of_openGroups he hgroup
    have honce := h.failed e (hsame.trans he) group.2 hmade
    rw [count_released_of_error he hmade] at honce
    have hin : 0 < ((parse input).2.openGroups.map Prod.snd).count group.2 :=
      List.count_pos_iff.mpr (List.mem_map_of_mem hgroup)
    omega
  · intro h
    refine ⟨fun e he handle hmade => ?_, fun file hfile handle _ => ?_⟩
    · rw [hsame] at he
      rw [count_released_of_error he hmade, List.map_eq_nil_iff.mp (h e he)]
      rfl
    · rw [hsame] at hfile
      rw [parse_released_of_ok hfile]
      exact List.count_nil

omit [FloatConversions] in
theorem not_releasesOnce {outcome : Except Stop FileDescriptor × OwnedStrings} {e : ParseError}
    {handle : Nat} (he : outcome.1 = .error (.error e)) (hmade : handle < outcome.2.ledger.made)
    (hcount : outcome.2.ledger.released.count handle ≠ 1) : ¬ ReleasesOnce outcome :=
  fun h => hcount (h.failed e he handle hmade)

/-- The text ends within two groups. -/
def openGroupsText : Bytes := ascii "message M \x7b optional group G = 1 \x7b optional group H = 2 \x7b"

omit [FloatConversions] in
/-- The names `g` and `h` of the two fields are released twice. -/
theorem exists_name_released_twice :
    @Parser.parse ⟨fun _ => none, fun _ => 0⟩ openGroupsText = .error (.error .unexpectedEof) ∧
    (@parse ⟨fun _ => none, fun _ => 0⟩ openGroupsText).2.ledger.released = [0, 1, 0, 1] ∧
    ¬ ReleasesOnce (@parse ⟨fun _ => none, fun _ => 0⟩ openGroupsText) := by
  have hsame := (@parse_ends ⟨fun _ => none, fun _ => 0⟩ openGroupsText).same
  have hmade : (@parse ⟨fun _ => none, fun _ => 0⟩ openGroupsText).2.ledger.made = 2 := by
    decide +kernel
  have hreleased :
      (@parse ⟨fun _ => none, fun _ => 0⟩ openGroupsText).2.ledger.released = [0, 1, 0, 1] := by
    decide +kernel
  have hunit : (@Parser.parse ⟨fun _ => none, fun _ => 0⟩ openGroupsText).map (fun _ => ())
      = .error (.error .unexpectedEof) := by
    decide +kernel
  have hfails := map_eq_error.mp hunit
  refine ⟨hfails, hreleased, not_releasesOnce (hsame.trans hfails) (hmade ▸ Nat.zero_lt_two) ?_⟩
  rw [hreleased]
  decide

end Owned

end Pbz
