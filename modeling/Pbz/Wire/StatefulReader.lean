import Pbz.Lib.Finding
import Pbz.Wire.Cursor
import Pbz.Wire.Grammar

set_option autoImplicit false

/-! # The reader with its state

`Reader` of `wire.zig` with all of its fields. Elsewhere a reader is the list of the bytes behind its
index and the number of levels it may still descend; here its methods are those of the source, and
they do to these bytes what the functions on lists do. `skipValue` and `skipGroup` call each other
and loop over the input, so that they take fuel: they return for every reader and every tag, with
the recursion depth that they were called at.
-/

namespace Pbz

namespace Wire

open Finding

/-! ## The reader -/

structure Reader where
  input : Bytes
  index : Nat
  lastTagStart : Nat
  recursionDepth : Nat
  recursionLimit : Nat
  deriving DecidableEq

/-- What a method returns, and the reader afterwards, also where it fails. -/
abbrev Outcome (α : Type) := Except Error α × Reader

namespace Reader

def init (input : Bytes) : Reader :=
  { input, index := 0, lastTagStart := 0, recursionDepth := 0,
    recursionLimit := Pbz.recursionLimit }

def eof (self : Reader) : Bool := decide (self.index ≥ self.input.length)

def remaining (self : Reader) : Bytes := self.input.drop self.index

def nested (self : Reader) (input : Bytes) : Except Error Reader :=
  if self.recursionDepth ≥ self.recursionLimit then .error .recursionLimitExceeded
  else .ok { init input with recursionDepth := self.recursionDepth + 1,
                             recursionLimit := self.recursionLimit }

def enterRecursion (self : Reader) : Except Error Reader :=
  if self.recursionDepth ≥ self.recursionLimit then .error .recursionLimitExceeded
  else .ok { self with recursionDepth := self.recursionDepth + 1 }

def leaveRecursion (self : Reader) : Reader :=
  { self with recursionDepth := self.recursionDepth - 1 }

/-- How deep a reader may still descend. -/
def levels (self : Reader) : Nat := self.recursionLimit - self.recursionDepth

def readVarint (self : Reader) : Outcome (BitVec 64) :=
  let read := readVarintAt self.input self.index
  (read.1, { self with index := read.2 })

def nextTag (self : Reader) : Outcome (Option Tag) :=
  if self.eof then (.ok none, self)
  else
    let tagStart := self.index
    let read := { self with lastTagStart := tagStart }.readVarint
    match read.1 with
    | .error e => (.error e, read.2)
    | .ok raw =>
        if read.2.index - tagStart > 5 then (.error .malformedVarint, read.2)
        else ((Tag.decode raw.toNat).map some, read.2)

/-- The next `len` bytes, which `readBytes` returns. -/
def readSlice (self : Reader) (len : Nat) : Outcome Bytes :=
  if self.input.length - self.index < len then (.error .truncatedInput, self)
  else ((.ok ((self.input.drop self.index).take len)), { self with index := self.index + len })

/-- A `u64` is never greater than the largest `usize`. -/
def readBytes (self : Reader) : Outcome Bytes :=
  match self.input[self.index]? with
  | none => (.error .truncatedInput, self)
  | some firstLenByte =>
      if firstLenByte < 0x80 then
        { self with index := self.index + 1 }.readSlice firstLenByte.toNat
      else
        let read := self.readVarint
        match read.1 with
        | .error e => (.error e, read.2)
        | .ok len => read.2.readSlice len.toNat

def checkedAvailable (self : Reader) (len : Nat) : Except Error Nat :=
  if self.input.length - self.index < len then .error .truncatedInput else .ok len

/-- `self.index += try self.checkedAvailable(len)`. -/
def skipAvailable (self : Reader) (len : Nat) : Outcome Unit :=
  match self.checkedAvailable len with
  | .error e => (.error e, self)
  | .ok available => (.ok (), { self with index := self.index + available })

/-- A method whose value is not used. -/
def discard {α : Type} (outcome : Outcome α) : Outcome Unit :=
  (outcome.1.map (fun _ => ()), outcome.2)

/-- A body between `enterRecursion` and the deferred `leaveRecursion`. -/
def inRecursion {α : Type} (body : Reader → Option (Outcome α)) (self : Reader) :
    Option (Outcome α) :=
  match self.enterRecursion with
  | .error e => some (.error e, self)
  | .ok entered => (body entered).map (fun outcome => (outcome.1, outcome.2.leaveRecursion))

/-- The rest of a loop behind a call that may fail. -/
def continueWith {α : Type} (loop : Reader → Option (Outcome α)) (outcome : Outcome Unit) :
    Option (Outcome α) :=
  match outcome.1 with
  | .error e => some (.error e, outcome.2)
  | .ok () => loop outcome.2

mutual

def skipValue : Nat → Tag → Reader → Option (Outcome Unit)
  | 0, _, _ => none
  | fuel + 1, tag, self =>
      match tag.wireType with
      | .varint => some (discard self.readVarint)
      | .fixed64 => some (self.skipAvailable 8)
      | .lengthDelimited => some (discard self.readBytes)
      | .fixed32 => some (self.skipAvailable 4)
      | .startGroup => inRecursion (skipGroupLoop fuel tag.number) self
      | .endGroup => some (.error .unsupportedWireType, self)

/-- The loop of `skipGroup`. -/
def skipGroupLoop : Nat → Nat → Reader → Option (Outcome Unit)
  | 0, _, _ => none
  | fuel + 1, number, self =>
      let read := self.nextTag
      match read.1 with
      | .error e => some (.error e, read.2)
      | .ok none => some (.error .truncatedInput, read.2)
      | .ok (some tag) =>
          if tag.wireType = .endGroup then
            if tag.number ≠ number then some (.error .invalidFieldNumber, read.2)
            else some (.ok (), read.2)
          else (skipValue fuel tag read.2).bind (continueWith (skipGroupLoop fuel number))

end

def skipGroup (fuel number : Nat) (self : Reader) : Option (Outcome Unit) :=
  inRecursion (skipGroupLoop fuel number) self

def tagSize (number : Nat) (wireType : WireType) : Except Error Nat :=
  (Tag.encode { number, wireType }).map encodedVarintSize

/-- The loop of `readGroupBytes`. -/
def readGroupBytesLoop (start : Nat) : Nat → Nat → Reader → Option (Outcome Bytes)
  | 0, _, _ => none
  | fuel + 1, number, self =>
      let read := self.nextTag
      match read.1 with
      | .error e => some (.error e, read.2)
      | .ok none => some (.error .truncatedInput, read.2)
      | .ok (some tag) =>
          if tag.wireType = .endGroup then
            if tag.number ≠ number then some (.error .invalidFieldNumber, read.2)
            else some ((tagSize tag.number tag.wireType).map (fun size =>
              (read.2.input.take (read.2.index - size)).drop start), read.2)
          else
            (skipValue fuel tag read.2).bind (continueWith (readGroupBytesLoop start fuel number))

def readGroupBytes (fuel number : Nat) (self : Reader) : Option (Outcome Bytes) :=
  inRecursion (readGroupBytesLoop self.index fuel number) self

/-- The loop over the fields of a message, without what it does with them. -/
def skipFields : Nat → Reader → Option (Outcome Unit)
  | 0, _ => none
  | fuel + 1, self =>
      let read := self.nextTag
      match read.1 with
      | .error e => some (.error e, read.2)
      | .ok none => some (.ok (), read.2)
      | .ok (some tag) => (skipValue fuel tag read.2).bind (continueWith (skipFields fuel))

end Reader

def validateRawField (fuel : Nat) (raw : Bytes) : Option (Except Error Unit) :=
  let read := (Reader.init raw).nextTag
  match read.1 with
  | .error e => some (.error e)
  | .ok none => some (.error .invalidWireType)
  | .ok (some tag) =>
      (Reader.skipValue fuel tag read.2).map (fun outcome =>
        outcome.1.bind (fun _ => if outcome.2.eof then .ok () else .error .invalidWireType))

/-! ## What the methods do to the bytes behind the index -/

/-- A reader after a method: at another index of the same input, at the same depth. -/
structure Moved (before after : Reader) : Prop where
  input_eq : after.input = before.input
  depth_eq : after.recursionDepth = before.recursionDepth
  limit_eq : after.recursionLimit = before.recursionLimit
  within : before.index ≤ before.input.length → after.index ≤ after.input.length

theorem Moved.refl (reader : Reader) : Moved reader reader := ⟨rfl, rfl, rfl, id⟩

theorem Moved.trans {before middle after : Reader} (hfirst : Moved before middle)
    (hsecond : Moved middle after) : Moved before after :=
  ⟨hsecond.input_eq.trans hfirst.input_eq, hsecond.depth_eq.trans hfirst.depth_eq,
    hsecond.limit_eq.trans hfirst.limit_eq, fun h => hsecond.within (hfirst.within h)⟩

theorem Moved.levels_eq {before after : Reader} (h : Moved before after) :
    after.levels = before.levels := by
  rw [Reader.levels, Reader.levels, h.limit_eq, h.depth_eq]

/-- A method moves the reader, and reads what a function on lists does from the bytes behind its
index; `view` is how that function returns a value and the bytes that are left. -/
structure Reads {α γ : Type} (before : Reader) (view : α → Bytes → γ) (outcome : Outcome α)
    (read : Except Error γ) : Prop where
  result : outcome.1.map (fun value => view value outcome.2.remaining) = read
  moved : Moved before outcome.2

/-- The view of a function that returns the bytes that are left and nothing else. -/
def restView {α : Type} (_ : α) (rest : Bytes) : Bytes := rest

namespace Reader

variable {self : Reader}

theorem moveTo (self : Reader) {index : Nat}
    (h : self.index ≤ self.input.length → index ≤ self.input.length) :
    Moved self { self with index := index } :=
  ⟨rfl, rfl, rfl, h⟩

theorem readVarint_reads (self : Reader) :
    Reads self (fun value rest => (value.toNat, rest)) self.readVarint
      (Pbz.readVarint self.remaining) := by
  refine ⟨readVarintAt_eq self.input self.index, self.moveTo fun hle => ?_⟩
  rcases readVarintAt_index self.input self.index with hend | ⟨-, hlast⟩
  · rw [hend]
    exact hle
  · exact hlast

theorem eof_iff (self : Reader) : self.eof = true ↔ self.remaining = [] := by
  rw [eof, decide_eq_true_eq, remaining, List.drop_eq_nil_iff]

theorem nextTag_reads (self : Reader) :
    Reads self (fun tag rest => tag.map (fun tag => (tag, rest))) self.nextTag
      (Pbz.nextTag self.remaining) := by
  unfold nextTag Pbz.nextTag
  by_cases heof : self.eof = true
  · rw [if_pos heof, if_pos (List.isEmpty_iff.mpr (self.eof_iff.mp heof))]
    exact ⟨rfl, .refl self⟩
  · have hne : ¬ self.remaining.isEmpty = true := fun hempty =>
      heof (self.eof_iff.mpr (List.isEmpty_iff.mp hempty))
    rw [if_neg heof, if_neg hne]
    obtain ⟨hresult, hmoved⟩ := readVarint_reads { self with lastTagStart := self.index }
    have hin := readVarintAt_index self.input self.index
    cases hat : readVarintAt self.input self.index with
    | mk result last =>
        have hread : { self with lastTagStart := self.index }.readVarint
            = (result, { self with lastTagStart := self.index, index := last }) := by
          simp only [readVarint, hat]
        have hlist : { self with lastTagStart := self.index }.remaining = self.remaining := rfl
        dsimp only
        rw [hread, hlist] at hresult
        rw [hread] at hmoved ⊢
        rw [hat] at hin
        rw [← hresult]
        have hself : Moved self { self with lastTagStart := self.index, index := last } :=
          ⟨rfl, rfl, rfl, hmoved.within⟩
        cases result with
        | error e => exact ⟨rfl, hself⟩
        | ok raw =>
            rcases hin with hend | ⟨hlt, hle⟩
            · cases hend
            -- the bytes between the two positions are those between the indices
            have hused : self.remaining.length - (self.input.drop last).length
                = last - self.index := by
              rw [remaining, List.length_drop, List.length_drop]
              omega
            show Reads self _ (if last - self.index > 5 then _ else _)
              (if self.remaining.length - (self.input.drop last).length > 5 then _ else _)
            rw [hused]
            split
            · exact ⟨rfl, hself⟩
            · refine ⟨?_, hself⟩
              show ((Tag.decode raw.toNat).map some).map _ = _
              cases Tag.decode raw.toNat <;> rfl

theorem readSlice_reads (self : Reader) (len : Nat) :
    Reads self Prod.mk (self.readSlice len) (takeBytes len self.remaining) := by
  have hlength : self.remaining.length = self.input.length - self.index := List.length_drop
  unfold readSlice takeBytes
  rw [hlength]
  split
  · exact ⟨rfl, .refl self⟩
  · next hlen =>
    refine ⟨?_, self.moveTo fun hle => by omega⟩
    show Except.ok (self.remaining.take len, self.input.drop (self.index + len)) = _
    rw [remaining, List.drop_drop]

theorem readBytes_reads (self : Reader) :
    Reads self Prod.mk self.readBytes (Pbz.readBytes self.remaining) := by
  unfold readBytes
  cases hget : self.input[self.index]? with
  | none =>
      have hempty : self.remaining = [] := drop_of_getElem?_none hget
      rw [hempty]
      exact ⟨rfl, .refl self⟩
  | some first =>
      have hcons : self.remaining = first :: self.input.drop (self.index + 1) :=
        drop_of_getElem?_some hget
      obtain ⟨hlt, -⟩ := List.getElem?_eq_some_iff.mp hget
      dsimp only
      by_cases hsmall : first < 0x80
      · rw [if_pos hsmall, hcons, Pbz.readBytes, if_pos (show first.toNat < 0x80 from hsmall)]
        obtain ⟨hresult, hmoved⟩ :=
          readSlice_reads { self with index := self.index + 1 } first.toNat
        exact ⟨hresult, (self.moveTo fun _ => hlt).trans hmoved⟩
      · rw [if_neg hsmall, readBytes_eq]
        obtain ⟨hresult, hmoved⟩ := self.readVarint_reads
        rw [← hresult]
        cases hread : self.readVarint with
        | mk result after =>
            rw [hread] at hmoved
            cases result with
            | error e => exact ⟨rfl, hmoved⟩
            | ok len =>
                obtain ⟨hslice, hbehind⟩ := after.readSlice_reads len.toNat
                exact ⟨hslice, hmoved.trans hbehind⟩

theorem skipAvailable_reads (self : Reader) (len : Nat) :
    Reads self restView (self.skipAvailable len) (restOf (takeBytes len self.remaining)) := by
  have hlength : self.remaining.length = self.input.length - self.index := List.length_drop
  unfold skipAvailable checkedAvailable takeBytes
  rw [hlength]
  by_cases hshort : self.input.length - self.index < len
  · rw [if_pos hshort, if_pos hshort]
    exact ⟨rfl, .refl self⟩
  · rw [if_neg hshort, if_neg hshort]
    refine ⟨?_, self.moveTo fun hle => by omega⟩
    show Except.ok (self.input.drop (self.index + len)) = Except.ok (self.remaining.drop len)
    rw [remaining, List.drop_drop]

theorem discard_reads {α β : Type} {outcome : Outcome α} {f : α → β} {read : ReadResult β}
    (h : Reads self (fun value rest => (f value, rest)) outcome read) :
    Reads self restView (discard outcome) (restOf read) := by
  obtain ⟨result, after⟩ := outcome
  refine ⟨?_, h.moved⟩
  rw [← h.result]
  cases result <;> rfl

/-- With enough fuel the method returns, and reads what a function on lists does. -/
def ReturnsReads {α γ : Type} (self : Reader) (view : α → Bytes → γ)
    (run : Nat → Reader → Option (Outcome α)) (read : Except Error γ) : Prop :=
  ∃ outcome, Returns (fun fuel => run fuel self) (some outcome) ∧ Reads self view outcome read

/-- The recursion depth is restored behind a body, also where the body fails. -/
theorem inRecursion_moved {α : Type} {entered : Reader} {outcome : Outcome α}
    (hentered : self.enterRecursion = .ok entered) (h : Moved entered outcome.2) :
    Moved self outcome.2.leaveRecursion := by
  unfold enterRecursion at hentered
  split at hentered
  · cases hentered
  · cases hentered
    refine ⟨h.input_eq, ?_, h.limit_eq, h.within⟩
    show outcome.2.recursionDepth - 1 = self.recursionDepth
    rw [h.depth_eq]
    exact Nat.add_sub_cancel _ _

theorem enterRecursion_of_zero (h : self.levels = 0) :
    self.enterRecursion = .error .recursionLimitExceeded := by
  rw [enterRecursion, if_pos (Nat.le_of_sub_eq_zero h)]

theorem enterRecursion_of_succ {levels : Nat} (h : self.levels = levels + 1) :
    ∃ entered, self.enterRecursion = .ok entered ∧ entered.levels = levels
      ∧ entered.remaining = self.remaining ∧ entered.index = self.index
      ∧ entered.input = self.input := by
  rw [Reader.levels] at h
  refine ⟨{ self with recursionDepth := self.recursionDepth + 1 }, ?_, ?_, rfl, rfl, rfl⟩
  · rw [enterRecursion, if_neg (by omega)]
  · show self.recursionLimit - (self.recursionDepth + 1) = levels
    omega

/-- A pass of the loop of `skipGroup` on the bytes behind the index. -/
def groupStep (levels number : Nat) : Unit → Bytes → Loop.Step UInt8 Unit Error :=
  skipGroupStep (fun tag => skipWith (Pbz.skipGroup levels tag.number) tag) number

theorem groupStep_consuming (levels number : Nat) : Loop.Consuming (groupStep levels number) :=
  skipGroupStep_consuming fun tag => skipWith_shrinks (skipGroup_shrinks levels tag.number) tag

section

variable {levels number : Nat} {self after : Reader} {outcome : Outcome Unit}

/-- A pass that ends the loop. -/
theorem ReturnsReads.of_last {result : Except Error Bytes}
    (hloop : ∀ fuel, skipGroupLoop (fuel + 1) number self = some outcome)
    (hreads : Reads self restView outcome result) :
    ReturnsReads self restView (fun fuel => skipGroupLoop fuel number) result :=
  ⟨outcome, .succ (.of_forall fun fuel => hloop fuel), hreads⟩

/-- A pass that fails. -/
theorem skipGroupLoop_reads_fail {e : Error}
    (hstep : groupStep levels number () self.remaining = .fail () e)
    (hloop : ∀ fuel, skipGroupLoop (fuel + 1) number self = some (.error e, after))
    (hmoved : Moved self after) :
    ReturnsReads self restView (fun fuel => skipGroupLoop fuel number)
      (Loop.run (groupStep levels number) () self.remaining).2 := by
  refine .of_last hloop ⟨?_, hmoved⟩
  rw [Loop.run_of_fail hstep]
  rfl

/-- A pass that meets an end tag, which is the one of the group or not. -/
theorem skipGroupLoop_reads_end {tag : Tag} (hread : self.nextTag = (.ok (some tag), after))
    (hnext : Pbz.nextTag self.remaining = .ok (some (tag, after.remaining)))
    (hend : tag.wireType = .endGroup) (hmoved : Moved self after) :
    ReturnsReads self restView (fun fuel => skipGroupLoop fuel number)
      (Loop.run (groupStep levels number) () self.remaining).2 := by
  by_cases hnumber : tag.number = number
  · have hdone : groupStep levels number () self.remaining = .done () after.remaining := by
      rw [groupStep, skipGroupStep, hnext]
      simp only [if_pos hend, if_neg (not_not.mpr hnumber)]
    refine @ReturnsReads.of_last number self (.ok (), after) _ (fun fuel => ?_) ⟨?_, hmoved⟩
    · simp only [skipGroupLoop, hread, if_pos hend, if_neg (not_not.mpr hnumber)]
    · rw [Loop.run_of_done hdone]
      rfl
  · have hfail : groupStep levels number () self.remaining = .fail () .invalidFieldNumber := by
      rw [groupStep, skipGroupStep, hnext]
      simp only [if_pos hend, ne_eq, hnumber, not_false_eq_true, if_true]
    refine skipGroupLoop_reads_fail hfail (fun fuel => ?_) hmoved
    simp only [skipGroupLoop, hread, if_pos hend, ne_eq, hnumber, not_false_eq_true, if_true]

/-- A pass that meets a field: its value is skipped, and the loop goes on behind it. -/
theorem skipGroupLoop_reads_field {tag : Tag} (hread : self.nextTag = (.ok (some tag), after))
    (hnext : Pbz.nextTag self.remaining = .ok (some (tag, after.remaining)))
    (hend : tag.wireType ≠ .endGroup) (hmoved : Moved self after)
    (hvalue : ReturnsReads after restView (fun fuel => skipValue fuel tag)
      (Pbz.skipValue levels tag after.remaining))
    (hagain : ∀ behind : Reader, behind.remaining.length < self.remaining.length →
      behind.levels = after.levels →
      ReturnsReads behind restView (fun fuel => skipGroupLoop fuel number)
        (Loop.run (groupStep levels number) () behind.remaining).2) :
    ReturnsReads self restView (fun fuel => skipGroupLoop fuel number)
      (Loop.run (groupStep levels number) () self.remaining).2 := by
  obtain ⟨⟨skipped, behind⟩, hreturns, hskip⟩ := hvalue
  have hlist : skipWith (Pbz.skipGroup levels tag.number) tag after.remaining
      = skipped.map (fun _ => behind.remaining) := hskip.result.symm
  cases skipped with
  | error e =>
      have hfail : groupStep levels number () self.remaining = .fail () e := by
        rw [groupStep, skipGroupStep, hnext]
        simp only [if_neg hend, hlist, Except.map]
      refine ⟨(.error e, behind), .succ (hreturns.mono fun fuel hfuel => ?_), ?_,
        hmoved.trans hskip.moved⟩
      · have hfuel : skipValue fuel tag after = some (.error e, behind) := hfuel
        simp only [skipGroupLoop, hread, if_neg hend, hfuel]
        rfl
      · rw [Loop.run_of_fail hfail]
        rfl
  | ok _ =>
      have hgoesOn : groupStep levels number () self.remaining = .next () behind.remaining := by
        rw [groupStep, skipGroupStep, hnext]
        simp only [if_neg hend, hlist, Except.map]
      have hless := groupStep_consuming levels number _ _ _ _ hgoesOn
      obtain ⟨outcome, hloop, hreads⟩ := hagain behind hless hskip.moved.levels_eq
      refine ⟨outcome, .succ ((hreturns.and hloop).mono fun fuel hfuel => ?_), ?_,
        hmoved.trans (hskip.moved.trans hreads.moved)⟩
      · obtain ⟨hvalue, hrest⟩ := hfuel
        have hvalue : skipValue fuel tag after = some (.ok (), behind) := hvalue
        simp only [skipGroupLoop, hread, if_neg hend, hvalue]
        exact hrest
      · rw [Loop.run_of_next (groupStep_consuming levels number) hgoesOn]
        exact hreads.result

end

/-- The loop of a group, where the values of all tags are skipped as the functions on lists do. -/
theorem skipGroupLoop_reads {levels : Nat}
    (hvalue : ∀ tag (reader : Reader), reader.levels = levels →
      ReturnsReads reader restView (fun fuel => skipValue fuel tag)
        (Pbz.skipValue levels tag reader.remaining))
    (number : Nat) (self : Reader) (hlevels : self.levels = levels) :
    ReturnsReads self restView (fun fuel => skipGroupLoop fuel number)
      (Loop.run (groupStep levels number) () self.remaining).2 := by
  induction hn : self.remaining.length using Nat.strong_induction_on generalizing self with
  | _ n ih =>
      obtain ⟨hresult, hmoved⟩ := self.nextTag_reads
      cases hread : self.nextTag with
      | mk next after =>
          rw [hread] at hresult hmoved
          have hlevelsAfter := hmoved.levels_eq.trans hlevels
          cases next with
          | error e =>
              have hfail : groupStep levels number () self.remaining = .fail () e := by
                rw [groupStep, skipGroupStep, ← hresult]
                rfl
              refine skipGroupLoop_reads_fail hfail (fun fuel => ?_) hmoved
              simp only [skipGroupLoop, hread]
          | ok next =>
              cases next with
              | none =>
                  have hfail : groupStep levels number () self.remaining
                      = .fail () .truncatedInput := by
                    rw [groupStep, skipGroupStep, ← hresult]
                    rfl
                  refine skipGroupLoop_reads_fail hfail (fun fuel => ?_) hmoved
                  simp only [skipGroupLoop, hread]
              | some tag =>
                  have hnext : Pbz.nextTag self.remaining = .ok (some (tag, after.remaining)) :=
                    hresult.symm
                  by_cases hend : tag.wireType = .endGroup
                  · exact skipGroupLoop_reads_end hread hnext hend hmoved
                  · refine skipGroupLoop_reads_field hread hnext hend hmoved
                      (hvalue tag after hlevelsAfter) (fun behind hless hbehind => ?_)
                    exact ih _ (hn ▸ hless) behind (hbehind.trans hlevelsAfter) rfl

/-- A group is skipped one level down. -/
theorem inRecursion_reads {α γ : Type} {view : α → Bytes → γ}
    {body : Nat → Reader → Option (Outcome α)} {entered : Reader} {read : Except Error γ}
    (hentered : self.enterRecursion = .ok entered) (h : ReturnsReads entered view body read) :
    ReturnsReads self view (fun fuel => inRecursion (body fuel)) read := by
  obtain ⟨outcome, hreturns, hreads⟩ := h
  refine ⟨(outcome.1, outcome.2.leaveRecursion), hreturns.mono fun fuel hfuel => ?_,
    hreads.result, inRecursion_moved hentered hreads.moved⟩
  have hfuel : body fuel entered = some outcome := hfuel
  simp only [inRecursion, hentered, hfuel, Option.map_some]

/-- A value is skipped as the functions on lists do, where a group with its number is. -/
theorem skipValue_of_group {levels : Nat} {tag : Tag}
    (hgroup : ReturnsReads self restView (fun fuel => skipGroup fuel tag.number)
      (Pbz.skipGroup levels tag.number self.remaining)) :
    ReturnsReads self restView (fun fuel => skipValue fuel tag)
      (Pbz.skipValue levels tag self.remaining) := by
  have hat : ∀ outcome : Outcome Unit, ∀ read : Except Error Bytes,
      (∀ fuel, skipValue (fuel + 1) tag self = some outcome) → Reads self restView outcome read →
        ReturnsReads self restView (fun fuel => skipValue fuel tag) read :=
    fun outcome read hvalue hreads =>
      ⟨outcome, .succ (.of_forall fun fuel => hvalue fuel), hreads⟩
  unfold Pbz.skipValue skipWith
  cases htype : tag.wireType with
  | varint =>
      refine hat (discard self.readVarint) _ (fun fuel => ?_) (discard_reads self.readVarint_reads)
      simp only [skipValue, htype]
  | fixed64 =>
      refine hat (self.skipAvailable 8) _ (fun fuel => ?_) (self.skipAvailable_reads 8)
      simp only [skipValue, htype]
  | lengthDelimited =>
      refine hat (discard self.readBytes) _ (fun fuel => ?_) (discard_reads self.readBytes_reads)
      simp only [skipValue, htype]
  | fixed32 =>
      refine hat (self.skipAvailable 4) _ (fun fuel => ?_) (self.skipAvailable_reads 4)
      simp only [skipValue, htype]
  | startGroup =>
      obtain ⟨outcome, hreturns, hreads⟩ := hgroup
      refine ⟨outcome, .succ (hreturns.mono fun fuel hfuel => ?_), hreads⟩
      have hfuel : skipGroup fuel tag.number self = some outcome := hfuel
      simp only [skipValue, htype]
      exact hfuel
  | endGroup =>
      refine hat (.error .unsupportedWireType, self) _ (fun fuel => ?_) ⟨rfl, .refl self⟩
      simp only [skipValue, htype]

theorem skipGroup_reads (number : Nat) (self : Reader) :
    ReturnsReads self restView (fun fuel => skipGroup fuel number)
      (Pbz.skipGroup self.levels number self.remaining) := by
  induction hlevels : self.levels generalizing number self with
  | zero =>
      refine ⟨(.error .recursionLimitExceeded, self), .of_forall fun fuel => ?_, rfl, .refl self⟩
      simp only [skipGroup, inRecursion, enterRecursion_of_zero hlevels]
  | succ levels ih =>
      obtain ⟨entered, hentered, hentered_levels, hremaining, -, -⟩ :=
        enterRecursion_of_succ hlevels
      have hloop := skipGroupLoop_reads (fun tag reader hreader =>
        skipValue_of_group (ih tag.number reader hreader)) number entered hentered_levels
      rw [hremaining] at hloop
      exact inRecursion_reads hentered hloop

/-- `skipValue` returns for every tag and every reader, at the depth that it was called at. -/
theorem skipValue_reads (tag : Tag) (self : Reader) :
    ReturnsReads self restView (fun fuel => skipValue fuel tag)
      (Pbz.skipValue self.levels tag self.remaining) :=
  skipValue_of_group (skipGroup_reads tag.number self)

end Reader

/-! ## Validation -/

/-- Validation returns for every byte string, and what it says is what the function on lists
does. -/
theorem validateRawField_returns (raw : Bytes) :
    Returns (fun fuel => validateRawField fuel raw) (some (Pbz.validateRawField raw)) := by
  obtain ⟨hresult, hmoved⟩ := (Reader.init raw).nextTag_reads
  have hraw : (Reader.init raw).remaining = raw := rfl
  rw [hraw] at hresult
  unfold validateRawField Pbz.validateRawField
  rw [← hresult]
  cases hread : (Reader.init raw).nextTag with
  | mk next after =>
      rw [hread] at hmoved
      cases next with
      | error e => exact returns_const _
      | ok next =>
          cases next with
          | none => exact returns_const _
          | some tag =>
              have hlevels : after.levels = Pbz.recursionLimit := hmoved.levels_eq
              obtain ⟨⟨skipped, behind⟩, hreturns, hskip⟩ := after.skipValue_reads tag
              rw [hlevels] at hskip
              have hlist : skipValue Pbz.recursionLimit tag after.remaining
                  = skipped.map (fun _ => behind.remaining) := hskip.result.symm
              refine hreturns.mono fun fuel hfuel => ?_
              have hfuel : Reader.skipValue fuel tag after = some (skipped, behind) := hfuel
              simp only [Except.map, Option.map_some, hfuel, hlist]
              cases skipped with
              | error e => rfl
              | ok _ =>
                  have heof : behind.eof = behind.remaining.isEmpty := by
                    rw [Bool.eq_iff_iff, behind.eof_iff, List.isEmpty_iff]
                  simp only [Except.bind, heof]

/-- A raw field is accepted if and only if it is one well-formed field, and skipping a value comes to
its end for every tag and every reader, at the depth that it was called at. -/
theorem validateRawField_grammar :
    (∀ raw, ∃ result, Returns (fun fuel => validateRawField fuel raw) (some result)
      ∧ (result = .ok () ↔ IsField recursionLimit raw))
    ∧ ∀ (tag : Tag) (reader : Reader), ∃ result after,
      Returns (fun fuel => reader.skipValue fuel tag) (some (result, after))
        ∧ after.recursionDepth = reader.recursionDepth := by
  constructor
  · intro raw
    exact ⟨_, validateRawField_returns raw, validateRawField_iff raw⟩
  · intro tag reader
    obtain ⟨⟨result, after⟩, hreturns, hreads⟩ := reader.skipValue_reads tag
    exact ⟨result, after, hreturns, hreads.moved.depth_eq⟩

end Wire

end Pbz
