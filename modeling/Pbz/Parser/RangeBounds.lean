import Pbz.Parser.Runs
import Pbz.Parser.ValidateFile

set_option autoImplicit false

/-! # The bounds of ranges

`extensions` and `reserved` statements add one to the start of a range and to its inclusive end
as soon as they have read it. This file says which bounds a statement reads, as the source text
writes them, and that the additions stay in their type exactly if all of these are smaller than
the largest `i64`. The options of an extension range and the strings of a `reserved` statement
are read by other productions, which may stop at an arithmetic step of their own.
-/

namespace Pbz

open Program

namespace Parser

variable {α β : Type} {s s' : Parser}

/-! ## Numbers as they are written -/

/-- A signed number, its value not bounded. -/
def writtenInteger : Parse Int := do
  let negative ← consumeSign
  let numberText ← expectNumber
  match parseI64 numberText with
  | none => fail .invalidNumber
  | some value => return if negative then -value else value

/-- The number behind `to` in a range. -/
def writtenRangeEnd : Parse (Option Int) := do
  let _ ← writtenInteger
  if ← matchIdent (ascii "to") then
    if ← matchIdent (ascii "max") then return none else return some (← writtenInteger)
  else return none

/-- The range at `s` has the bound: it starts with it, or it ends with it. -/
def WritesBound (s : Parser) (bound : Int) : Prop :=
  (∃ s', writtenInteger s = .ok (bound, s')) ∨ ∃ s', writtenRangeEnd s = .ok (some bound, s')

theorem parseSignedInt64_eq : parseSignedInt64 = writtenInteger >>= checkedI64 := by
  unfold parseSignedInt64 writtenInteger
  simp only [bind_assoc]
  congr 1
  funext negative
  congr 1
  funext text
  cases hvalue : parseI64 text with
  | none => rfl
  | some value =>
      cases negative with
      | true => rfl
      | false =>
          funext s
          exact (checkedI64_of_fits (fits_of_parseI64 hvalue)).symm

/-! ## Programs without an overflow -/

theorem eq_error_of_map_unit {x : Except Stop α}
    (h : (x.map fun _ => ()) = .error .overflow) : x = .error .overflow := by
  cases x with
  | ok a => exact nomatch h
  | error stop => exact congrArg Except.error (Except.error.inj h)

/-- `p` does not stop at an arithmetic step that leaves its type. -/
def NoOverflow (p : Parse α) : Prop := ∀ s, p s ≠ .error .overflow

theorem NoOverflow.pure {a : α} : NoOverflow (Pure.pure a : Parse α) := fun _ h => nomatch h

theorem NoOverflow.fail {e : ParseError} : NoOverflow (Pbz.fail e : Parse α) :=
  fun _ h => nomatch h

theorem bind_overflow_iff {p : Parse β} {f : β → Parse α} :
    (p >>= f) s = .error .overflow ↔ p s = .error .overflow ∨
      ∃ b s', p s = .ok (b, s') ∧ f b s' = .error .overflow := by
  cases hrun : p s with
  | error stop =>
      rw [bind_of_error hrun]
      simp
  | ok run =>
      rw [bind_of_ok hrun, or_iff_right (fun h => nomatch h)]
      constructor
      · exact fun h => ⟨run.1, run.2, rfl, h⟩
      · rintro ⟨_, _, heq, h⟩
        cases heq
        exact h

/-- A sequence overflows where its second part does if the first one never does. -/
theorem NoOverflow.bind_iff {p : Parse β} {f : β → Parse α} (hp : NoOverflow p) :
    (p >>= f) s = .error .overflow ↔
      ∃ b s', p s = .ok (b, s') ∧ f b s' = .error .overflow := by
  rw [bind_overflow_iff, or_iff_right (hp s)]

theorem NoOverflow.bind {p : Parse β} {f : β → Parse α} (hp : NoOverflow p)
    (hf : ∀ b, NoOverflow (f b)) : NoOverflow (p >>= f) := by
  intro s h
  obtain ⟨b, s', -, h⟩ := hp.bind_iff.mp h
  exact hf b s' h

/-- A sequence overflows where its first part does if the second one never does. -/
theorem bind_noOverflow_iff {p : Parse β} {f : β → Parse α} (hf : ∀ b, NoOverflow (f b)) :
    (p >>= f) s = .error .overflow ↔ p s = .error .overflow := by
  rw [bind_overflow_iff, or_iff_left]
  rintro ⟨b, s', -, h⟩
  exact hf b s' h

theorem NoOverflow.get {f : Parser → Parse α} (hf : ∀ s, NoOverflow (f s)) :
    NoOverflow (get >>= f) := fun s => hf s s

theorem NoOverflow.ite {c : Prop} [Decidable c] {p q : Parse α} (hp : NoOverflow p)
    (hq : NoOverflow q) : NoOverflow (if c then p else q) := by
  split
  · exact hp
  · exact hq

theorem step_noOverflow {onError : ParseError → Stop} (h : ∀ e, onError e ≠ .overflow) :
    NoOverflow (step onError) := by
  refine .get fun s => ?_
  cases s.lexer.next with
  | error e => exact fun _ hstop => h e (Except.error.inj hstop)
  | ok read => exact fun _ hstop => nomatch hstop

theorem consumeIf_noOverflow {test : Token → Bool} : NoOverflow (consumeIf test) := by
  have hstep : NoOverflow (step fun _ => .unreachable) := step_noOverflow (by simp)
  exact .get fun _ => .ite (hstep.bind fun _ => .pure) .pure

theorem consumeSymbol_noOverflow {symbol : UInt8} : NoOverflow (consumeSymbol symbol) :=
  consumeIf_noOverflow

theorem matchIdent_noOverflow {text : Bytes} : NoOverflow (matchIdent text) := consumeIf_noOverflow

theorem expectTag_noOverflow {tag : TokenTag} : NoOverflow (expectTag tag) := by
  have hstep : NoOverflow advanceVoid := step_noOverflow (by simp)
  exact .get fun _ => .ite (hstep.bind fun _ => .pure) .fail

theorem expectSymbol_noOverflow {symbol : UInt8} : NoOverflow (expectSymbol symbol) :=
  consumeIf_noOverflow.bind fun _ => .ite .pure .fail

theorem writtenInteger_noOverflow : NoOverflow writtenInteger := by
  have hsign : NoOverflow consumeSign :=
    consumeIf_noOverflow.bind fun _ => .ite .pure (consumeIf_noOverflow.bind fun _ => .pure)
  refine hsign.bind fun negative => expectTag_noOverflow.bind fun text => ?_
  cases parseI64 text with
  | none => exact .fail
  | some value => exact .pure

theorem writtenInteger_low {value : Int} (h : writtenInteger s = .ok (value, s')) :
    -2 ^ 63 ≤ value := by
  unfold writtenInteger at h
  obtain ⟨negative, s₁, -, h⟩ := ok_of_bind h
  obtain ⟨text, s₂, -, h⟩ := ok_of_bind h
  cases hvalue : parseI64 text with
  | none =>
      rw [hvalue] at h
      exact nomatch h
  | some magnitude =>
      rw [hvalue] at h
      have hfits := fitsI64_iff.mp (fits_of_parseI64 hvalue)
      cases negative with
      | true =>
          cases h
          omega
      | false =>
          cases h
          exact hfits.1

/-! ## One range -/

/-- Read a number, add one to it and go on with both. -/
def readBound (f : Int → Int → Parse α) : Parse α := do
  let value ← parseSignedInt64
  let next ← checkedI64 (value + 1)
  f value next

theorem parseRange_eq :
    parseRange = readBound (fun start next => do
      if ← matchIdent (ascii "to") then return (start, ← parseRangeEnd)
      else return (start, some next)) := rfl

theorem parseRangeEnd_eq :
    parseRangeEnd = (do
      if ← matchIdent (ascii "max") then return none
      else readBound (fun _ next => return some next)) := rfl

theorem readBound_eq {f : Int → Int → Parse α} :
    readBound f = (do
      let value ← writtenInteger
      let value ← checkedI64 value
      let next ← checkedI64 (value + 1)
      f value next) := by
  unfold readBound
  rw [parseSignedInt64_eq]
  simp only [bind_assoc]

theorem readBound_of_small {f : Int → Int → Parse α} {value : Int}
    (h : writtenInteger s = .ok (value, s')) (hvalue : value < 2 ^ 63 - 1) :
    readBound f s = f value (value + 1) s' := by
  have hlow := writtenInteger_low h
  have hfits : FitsI64 value := fitsI64_iff.mpr ⟨hlow, by omega⟩
  have hnext : FitsI64 (value + 1) := fitsI64_iff.mpr ⟨by omega, by omega⟩
  rw [readBound_eq, bind_of_ok h, bind_of_ok (checkedI64_of_fits hfits),
    bind_of_ok (checkedI64_of_fits hnext)]

/-- The largest `i64` has no successor, and the smallest one has no negation. -/
theorem readBound_of_large {f : Int → Int → Parse α} {value : Int}
    (h : writtenInteger s = .ok (value, s')) (hvalue : 2 ^ 63 - 1 ≤ value) :
    readBound f s = .error .overflow := by
  have hnext : ¬ FitsI64 (value + 1) := by
    rw [fitsI64_iff]
    omega
  rw [readBound_eq, bind_of_ok h]
  by_cases hfits : FitsI64 value
  · rw [bind_of_ok (checkedI64_of_fits hfits)]
    exact bind_of_error (checkedI64_of_not_fits hnext)
  · exact bind_of_error (checkedI64_of_not_fits hfits)

theorem readBound_overflow_iff {f : Int → Int → Parse α} :
    readBound f s = .error .overflow ↔ ∃ value s', writtenInteger s = .ok (value, s') ∧
      (value < 2 ^ 63 - 1 → f value (value + 1) s' = .error .overflow) := by
  constructor
  · intro h
    have hread := h
    rw [readBound_eq, writtenInteger_noOverflow.bind_iff] at hread
    obtain ⟨value, s', hwritten, -⟩ := hread
    exact ⟨value, s', hwritten, fun hvalue => (readBound_of_small hwritten hvalue).symm.trans h⟩
  · rintro ⟨value, s', hwritten, h⟩
    by_cases hvalue : value < 2 ^ 63 - 1
    · exact (readBound_of_small hwritten hvalue).trans (h hvalue)
    · exact readBound_of_large hwritten (by omega)

theorem parseRangeEnd_overflow_iff :
    parseRangeEnd s = .error .overflow ↔
      ∃ s₁ bound s', matchIdent (ascii "max") s = .ok (false, s₁) ∧
        writtenInteger s₁ = .ok (bound, s') ∧ 2 ^ 63 - 1 ≤ bound := by
  rw [parseRangeEnd_eq, matchIdent_noOverflow.bind_iff]
  constructor
  · rintro ⟨isMax, s₁, hmax, h⟩
    cases isMax with
    | true => exact nomatch h
    | false =>
        obtain ⟨bound, s', hwritten, hsmall⟩ := readBound_overflow_iff.mp h
        refine ⟨s₁, bound, s', hmax, hwritten, ?_⟩
        by_contra hbound
        exact nomatch hsmall (by omega)
  · rintro ⟨s₁, bound, s', hmax, hwritten, hbound⟩
    exact ⟨false, s₁, hmax, readBound_of_large hwritten hbound⟩

/-- A range overflows exactly if one of its bounds is too large to have a successor. -/
theorem parseRange_overflow_iff :
    parseRange s = .error .overflow ↔ ∃ bound, WritesBound s bound ∧ 2 ^ 63 - 1 ≤ bound := by
  rw [parseRange_eq, readBound_overflow_iff]
  constructor
  · rintro ⟨start, s₁, hstart, hsmall⟩
    by_cases hlt : start < 2 ^ 63 - 1
    · obtain ⟨found, s₂, hto, h⟩ := matchIdent_noOverflow.bind_iff.mp (hsmall hlt)
      cases found with
      | false => exact nomatch h
      | true =>
          obtain ⟨s₃, bound, s', hmax, hwritten, hbound⟩ :=
            parseRangeEnd_overflow_iff.mp ((bind_noOverflow_iff fun _ => .pure).mp h)
          refine ⟨bound, .inr ⟨s', ?_⟩, hbound⟩
          unfold writtenRangeEnd
          rw [bind_of_ok hstart, bind_of_ok hto, if_pos rfl, bind_of_ok hmax,
            if_neg Bool.false_ne_true, bind_of_ok hwritten]
          rfl
    · exact ⟨start, .inl ⟨s₁, hstart⟩, by omega⟩
  · rintro ⟨bound, ⟨s', hwritten⟩ | ⟨s', hend⟩, hbound⟩
    · exact ⟨bound, s', hwritten, fun hlt => absurd hlt (by omega)⟩
    · obtain ⟨start, s₁, hstart, h⟩ := ok_of_bind hend
      refine ⟨start, s₁, hstart, fun _ => ?_⟩
      obtain ⟨found, s₂, hto, h⟩ := ok_of_bind h
      refine matchIdent_noOverflow.bind_iff.mpr ⟨found, s₂, hto, ?_⟩
      cases found with
      | false => exact nomatch h
      | true =>
          obtain ⟨isMax, s₃, hmax, h⟩ := ok_of_bind h
          cases isMax with
          | true => exact nomatch h
          | false =>
              obtain ⟨stop, s₄, hwritten, h⟩ := ok_of_bind h
              cases h
              exact (bind_noOverflow_iff fun _ => .pure).mpr
                (parseRangeEnd_overflow_iff.mpr ⟨s₃, bound, _, hmax, hwritten, hbound⟩)

/-- The bounds of a range fit. -/
def BoundsFit (start : Int) (stop : Option Int) : Prop :=
  FitsI64 start ∧ ∀ bound, stop = some bound → FitsI64 bound

theorem parseRange_fits : Returns parseRange (fun range => BoundsFit range.1 range.2) := by
  have hstart : Returns parseRangeBound FitsI64 := by
    show Returns parseSignedInt64 FitsI64
    rw [parseSignedInt64_eq]
    exact .skip fun _ => checkedI64_fits
  have hend : Returns parseRangeEnd (fun stop => ∀ bound, stop = some bound → FitsI64 bound) := by
    refine .skip fun isMax => .ite (.pure fun _ h => nomatch h) (.skip fun inclusive => ?_)
    refine checkedI64_fits.bind fun next hnext => .pure ?_
    intro bound hbound
    exact Option.some.inj hbound ▸ hnext
  refine hstart.bind fun start hstart => checkedI64_fits.bind fun next hnext => ?_
  refine .skip fun found => .ite (hend.bind fun stop hstop => .pure ⟨hstart, hstop⟩) (.pure ?_)
  refine ⟨hstart, ?_⟩
  intro bound hbound
  exact Option.some.inj hbound ▸ hnext

/-! ## The ranges of a statement -/

/-- The loop of a statement: ranges, each with what stands behind it, which says whether another
range follows. -/
def rangeLoop (behind : Nat → Int × Option Int → Parse Bool) : Nat → Parse Unit
  | 0 => throw .fuel
  | rounds + 1 => do
      let range ← parseRange
      if ← behind rounds range then rangeLoop behind rounds else return ()

/-- The statement that begins at the state in the third place reads a range at the state in the
last one; the numbers are the rounds left there. -/
inductive RangeAt (behind : Nat → Int × Option Int → Parse Bool) :
    Nat → Parser → Nat → Parser → Prop where
  | here {rounds : Nat} {s : Parser} : RangeAt behind (rounds + 1) s rounds s
  | later {rounds left : Nat} {s s₁ s₂ t : Parser} {range : Int × Option Int} :
      parseRange s = .ok (range, s₁) → behind rounds range s₁ = .ok (true, s₂) →
      RangeAt behind rounds s₂ left t → RangeAt behind (rounds + 1) s left t

/-- At `t`, either the range overflows or what stands behind it does. -/
def OverflowsAt (behind : Nat → Int × Option Int → Parse Bool) (left : Nat) (t : Parser) : Prop :=
  parseRange t = .error .overflow ∨
    ∃ range t', parseRange t = .ok (range, t') ∧ behind left range t' = .error .overflow

theorem rangeLoop_overflow_iff {behind : Nat → Int × Option Int → Parse Bool} {rounds : Nat} :
    rangeLoop behind rounds s = .error .overflow ↔
      ∃ left t, RangeAt behind rounds s left t ∧ OverflowsAt behind left t := by
  induction rounds generalizing s with
  | zero =>
      refine iff_of_false (fun h => nomatch h) ?_
      rintro ⟨left, t, hat, -⟩
      exact nomatch hat
  | succ rounds ih =>
      constructor
      · intro h
        rcases bind_overflow_iff.mp h with hrange | ⟨range, s₁, hrange, h⟩
        · exact ⟨rounds, s, .here, .inl hrange⟩
        · rcases bind_overflow_iff.mp h with hbehind | ⟨more, s₂, hbehind, h⟩
          · exact ⟨rounds, s, .here, .inr ⟨range, s₁, hrange, hbehind⟩⟩
          · cases more with
            | false => exact nomatch h
            | true =>
                obtain ⟨left, t, hat, hstop⟩ := ih.mp h
                exact ⟨left, t, .later hrange hbehind hat, hstop⟩
      · rintro ⟨left, t, hat, hstop⟩
        refine bind_overflow_iff.mpr ?_
        cases hat with
        | here =>
            rcases hstop with hrange | ⟨range, t', hrange, hbehind⟩
            · exact .inl hrange
            · exact .inr ⟨range, t', hrange, bind_overflow_iff.mpr (.inl hbehind)⟩
        | later hrange hbehind hat =>
            exact .inr ⟨_, _, hrange, bind_overflow_iff.mpr
              (.inr ⟨true, _, hbehind, ih.mpr ⟨left, t, hat, hstop⟩⟩)⟩

/-- Every bound that the statement at `s` writes is smaller than the largest `i64`. -/
def BoundsBelow (behind : Nat → Int × Option Int → Parse Bool) (rounds : Nat) (s : Parser) :
    Prop :=
  ∀ left t, RangeAt behind rounds s left t → ∀ bound, WritesBound t bound → bound < 2 ^ 63 - 1

theorem boundsBelow_iff {behind : Nat → Int × Option Int → Parse Bool} {rounds : Nat} :
    BoundsBelow behind rounds s ↔
      ∀ left t, RangeAt behind rounds s left t → parseRange t ≠ .error .overflow := by
  refine forall_congr' fun left => forall_congr' fun t => imp_congr_right fun _ => ?_
  rw [ne_eq, parseRange_overflow_iff]
  push Not
  rfl

/-! ## `reserved` -/

def behindReserved (_rounds : Nat) (_range : Int × Option Int) : Parse Bool := consumeSymbol 0x2c

/-- The loop of `reserved`, without what it records. -/
theorem reservedRanges_discard {rounds : Nat} {ranges : List ReservedRange} :
    (do let _ ← reservedRanges rounds ranges) = rangeLoop behindReserved rounds := by
  induction rounds generalizing ranges with
  | zero => rfl
  | succ rounds ih =>
      unfold reservedRanges rangeLoop behindReserved
      rw [bind_assoc]
      congr 1
      funext range
      show ((consumeSymbol 0x2c >>= _) >>= _) = _
      rw [bind_assoc]
      congr 1
      funext more
      cases more with
      | true => exact ih
      | false => rfl

/-- The loop of the names writes a name at the state in the last place. -/
inductive NameAt : Nat → Parser → Nat → Parser → Prop where
  | here {rounds : Nat} {s : Parser} : NameAt (rounds + 1) s rounds s
  | later {rounds left : Nat} {s s₁ s₂ t : Parser} {name : Bytes} :
      expectString rounds s = .ok (name, s₁) → consumeSymbol 0x2c s₁ = .ok (true, s₂) →
      s₂.current.tag = .stringLiteral → NameAt rounds s₂ left t → NameAt (rounds + 1) s left t

theorem reservedNames_noOverflow {rounds : Nat} {names : List Bytes} :
    NoOverflow (reservedNames true rounds names) := by
  induction rounds generalizing names with
  | zero => exact fun _ h => nomatch h
  | succ rounds ih =>
      exact expectTag_noOverflow.bind fun name => consumeIf_noOverflow.bind fun more =>
        .ite (.get fun _ => .ite ih .fail) .pure

/-- Behind the comma of a name stands another string. -/
def moreNames (rounds : Nat) (names : List Bytes) : Parse (List Bytes) := do
  let self ← get
  if self.current.tag == .stringLiteral then reservedNames false rounds names
  else fail .unexpectedToken

theorem moreNames_overflow_iff {rounds : Nat} {names : List Bytes} :
    moreNames rounds names s = .error .overflow ↔
      s.current.tag = .stringLiteral ∧ reservedNames false rounds names s = .error .overflow := by
  have hrun : moreNames rounds names s =
      (if s.current.tag == .stringLiteral then reservedNames false rounds names
        else fail .unexpectedToken : Parse (List Bytes)) s := rfl
  rw [hrun]
  by_cases htag : s.current.tag = .stringLiteral
  · rw [if_pos (beq_iff_eq.mpr htag)]
    exact (and_iff_right htag).symm
  · rw [if_neg (mt beq_iff_eq.mp htag)]
    exact iff_of_false (fun h => nomatch h) (fun h => htag h.1)

theorem reservedNames_overflow_iff {rounds : Nat} {names : List Bytes} :
    reservedNames false rounds names s = .error .overflow ↔
      ∃ left t, NameAt rounds s left t ∧ expectString left t = .error .overflow := by
  induction rounds generalizing names s with
  | zero =>
      refine iff_of_false (fun h => nomatch h) ?_
      rintro ⟨left, t, hat, -⟩
      exact nomatch hat
  | succ rounds ih =>
      constructor
      · intro h
        rcases bind_overflow_iff.mp h with hname | ⟨name, s₁, hname, h⟩
        · exact ⟨rounds, s, .here, hname⟩
        · obtain ⟨more, s₂, hmore, h⟩ := consumeSymbol_noOverflow.bind_iff.mp h
          cases more with
          | false => exact nomatch h
          | true =>
              obtain ⟨htag, hrest⟩ := moreNames_overflow_iff.mp h
              obtain ⟨left, t, hat, hstop⟩ := ih.mp hrest
              exact ⟨left, t, .later hname hmore htag hat, hstop⟩
      · rintro ⟨left, t, hat, hstop⟩
        refine bind_overflow_iff.mpr ?_
        cases hat with
        | here => exact .inl hstop
        | later hname hmore htag hat =>
            refine .inr ⟨_, _, hname, consumeSymbol_noOverflow.bind_iff.mpr
              ⟨true, _, hmore, ?_⟩⟩
            exact moreNames_overflow_iff.mpr ⟨htag, ih.mpr ⟨left, t, hat, hstop⟩⟩

/-- A `reserved` statement in front of a token with the tag. -/
def reservedStatement (tag : TokenTag) (useIdentifiers : Bool) (rounds : Nat) :
    Parse (List ReservedRange × List Bytes) :=
  if tag == .stringLiteral || tag == .identifier then
    if useIdentifiers && tag == .stringLiteral then fail .invalidSyntax
    else if !useIdentifiers && tag == .identifier then fail .invalidSyntax
    else do
      let names ← reservedNames useIdentifiers rounds []
      expectSymbol 0x3b
      return ([], names)
  else do
    let ranges ← reservedRanges rounds []
    expectSymbol 0x3b
    return (ranges, [])

/-- The ranges that `reserved` records fit. -/
theorem parseReserved_fits {rounds : Nat} :
    Returns (parseReserved rounds)
      (fun recorded => ∀ range ∈ recorded.1, BoundsFit range.start range.end) := by
  have hloop : ∀ (rounds : Nat) (ranges : List ReservedRange),
      (∀ range ∈ ranges, BoundsFit range.start range.end) →
      Returns (reservedRanges rounds ranges)
        (fun recorded => ∀ range ∈ recorded, BoundsFit range.start range.end) := by
    intro rounds
    induction rounds with
    | zero => exact fun _ _ => .throw
    | succ rounds ih =>
        intro ranges hranges
        refine parseRange_fits.bind fun range hrange => .skip fun more => ?_
        have hmore : ∀ r ∈ ranges ++ [{ start := range.1, «end» := range.2 }],
            BoundsFit r.start r.end :=
          List.forall_mem_append.mpr ⟨hranges, List.forall_mem_singleton.mpr hrange⟩
        exact .ite (ih _ hmore) (.pure hmore)
  have hnames : ∀ names : List Bytes, Returns (ε := Stop) (σ := Parser) (do
      expectSymbol 0x3b
      return (([] : List ReservedRange), names))
      (fun recorded => ∀ range ∈ recorded.1, BoundsFit range.start range.end) :=
    fun _ => .skip fun _ => .pure (List.forall_mem_nil _)
  refine .skip fun self => .ite (.ite .throw (.ite .throw (.skip hnames))) ?_
  exact (hloop rounds [] (List.forall_mem_nil _)).bind fun ranges hranges =>
    .skip fun _ => .pure hranges

theorem writtenInteger_of_name (hsymbol : s.current.tag ≠ .symbol)
    (hnumber : s.current.tag ≠ .number) : writtenInteger s = .error (.error .unexpectedToken) := by
  have hnone : ∀ symbol, consumeSymbol symbol s = .ok (false, s) := fun symbol =>
    consumeIf_of_false (by simp [Token.isSymbol, hsymbol])
  have hsign : consumeSign s = .ok (false, s) := by
    unfold consumeSign
    rw [bind_of_ok (hnone 0x2d), if_neg Bool.false_ne_true, bind_of_ok (hnone 0x2b)]
    rfl
  have hexpect : expectNumber s = .error (.error .unexpectedToken) := by
    have hrun : expectNumber s = (if s.current.tag == .number then do
        advanceVoid
        return s.current.text
      else fail .unexpectedToken : Parse Bytes) s := rfl
    rw [hrun, if_neg (mt beq_iff_eq.mp hnumber)]
    rfl
  unfold writtenInteger
  rw [bind_of_ok hsign, bind_of_error hexpect]

/-- In front of a name there is no range. -/
theorem no_range_at_name {behind : Nat → Int × Option Int → Parse Bool} {rounds left : Nat}
    {t : Parser} (hsymbol : s.current.tag ≠ .symbol) (hnumber : s.current.tag ≠ .number)
    (hat : RangeAt behind rounds s left t) : parseRange t ≠ .error .overflow := by
  have hrange : parseRange s = .error (.error .unexpectedToken) := by
    rw [parseRange_eq, readBound_eq]
    exact bind_of_error (writtenInteger_of_name hsymbol hnumber)
  cases hat with
  | here =>
      rw [hrange]
      exact fun h => nomatch h
  | later h _ _ =>
      rw [hrange] at h
      exact nomatch h

theorem reservedRanges_overflow_iff {rounds : Nat} {ranges : List ReservedRange} :
    reservedRanges rounds ranges s = .error .overflow ↔
      ∃ left t, RangeAt behindReserved rounds s left t ∧ parseRange t = .error .overflow := by
  have hdiscard := bind_noOverflow_iff (s := s) (p := reservedRanges rounds ranges)
    (fun _ => .pure (a := ()))
  rw [← hdiscard, reservedRanges_discard, rangeLoop_overflow_iff]
  refine exists_congr fun left => exists_congr fun t => and_congr_right fun _ => ?_
  refine or_iff_left ?_
  rintro ⟨range, t', -, h⟩
  exact consumeSymbol_noOverflow t' h

/-- `reserved` overflows exactly if one of its ranges does or, where it lists strings, one of
them. -/
theorem parseReserved_overflow_iff {rounds : Nat} :
    parseReserved rounds s = .error .overflow ↔
      (∃ left t, RangeAt behindReserved rounds s left t ∧ parseRange t = .error .overflow) ∨
      s.file.fileSyntax ≠ .editions ∧ s.current.tag = .stringLiteral ∧
        ∃ left t, NameAt rounds s left t ∧ expectString left t = .error .overflow := by
  have hrun : parseReserved rounds s = reservedStatement s.current.tag
      (s.file.fileSyntax == .editions) rounds s := rfl
  rw [hrun]
  unfold reservedStatement
  have hbehind : ∀ {γ δ : Type} (f : γ → δ) (read : γ), NoOverflow (do
      expectSymbol 0x3b
      return f read) := fun _ _ => expectSymbol_noOverflow.bind fun _ => .pure
  by_cases hnames : (s.current.tag == .stringLiteral || s.current.tag == .identifier) = true
  · rw [if_pos hnames]
    have hnone : ¬ ∃ left t, RangeAt behindReserved rounds s left t ∧
        parseRange t = .error .overflow := by
      rintro ⟨left, t, hat, h⟩
      refine no_range_at_name ?_ ?_ hat h
      · intro htag
        simp [htag] at hnames
      · intro htag
        simp [htag] at hnames
    rw [or_iff_right hnone]
    by_cases heditions : s.file.fileSyntax = .editions
    · refine iff_of_false ?_ (fun h => h.1 heditions)
      rw [heditions]
      exact NoOverflow.ite .fail (.ite .fail (reservedNames_noOverflow.bind (hbehind _))) s
    · rw [beq_eq_false_iff_ne.mpr heditions, Bool.false_and, if_neg Bool.false_ne_true,
        Bool.not_false, Bool.true_and, and_iff_right heditions]
      by_cases htag : s.current.tag = .stringLiteral
      · have hidentifier : ¬ (s.current.tag == .identifier) = true := by
          rw [htag]
          decide
        rw [if_neg hidentifier, bind_noOverflow_iff (hbehind _), reservedNames_overflow_iff,
          and_iff_right htag]
      · have hidentifier : (s.current.tag == .identifier) = true := by
          simpa [htag] using hnames
        rw [if_pos hidentifier]
        exact iff_of_false (fun h => nomatch h) (fun h => htag h.1)
  · rw [if_neg hnames]
    have htag : s.current.tag ≠ .stringLiteral := by
      intro htag
      simp [htag] at hnames
    rw [or_iff_left (fun h => htag h.2.1), bind_noOverflow_iff (hbehind _),
      reservedRanges_overflow_iff]

/-- The strings of a `reserved` statement of names do not overflow. -/
def StringsQuiet (rounds : Nat) (s : Parser) : Prop :=
  s.file.fileSyntax ≠ .editions → s.current.tag = .stringLiteral →
    ∀ left t, NameAt rounds s left t → expectString left t ≠ .error .overflow

/-! ## `extensions` -/

theorem applyExtensionRangeOption_bounds {range : ExtensionRange} {option : FieldOption} :
    Returns (applyExtensionRangeOption range option)
      (fun result => result.start = range.start ∧ result.end = range.end) := by
  refine .ite (.skip fun _ => .pure ⟨rfl, rfl⟩) (.ite ?_ (.ite ?_ (.pure ⟨rfl, rfl⟩)))
  · cases optionAsIdentifier option.value with
    | none => exact .throw
    | some value => exact .ite (.pure ⟨rfl, rfl⟩) (.ite (.pure ⟨rfl, rfl⟩) .throw)
  · exact .skip fun self => .ite .throw (.skip fun _ => .pure ⟨rfl, rfl⟩)

theorem applyOptions_bounds {options : List FieldOption} {range : ExtensionRange} :
    Returns (applyOptions applyExtensionRangeOption options range)
      (fun result => result.start = range.start ∧ result.end = range.end) := by
  induction options generalizing range with
  | nil => exact .pure ⟨rfl, rfl⟩
  | cons option rest ih =>
      refine applyExtensionRangeOption_bounds.bind fun applied happlied => ?_
      exact ih.imp fun result h => ⟨h.1.trans happlied.1, h.2.trans happlied.2⟩

variable [FloatConversions]

/-- What stands behind a range of an `extensions` statement: its options, if it has any. -/
def behindExtension (rounds : Nat) (range : Int × Option Int) : Parse Bool := do
  if ← consumeSymbol 0x5b then
    let options ← parseOptionList 0x5d rounds []
    let _ ← applyOptions applyExtensionRangeOption options
      { start := range.1, «end» := range.2, options := options }
    consumeSymbol 0x2c
  else consumeSymbol 0x2c

theorem extensionRanges_discard {rounds optionedRanges : Nat} {ranges : List ExtensionRange} :
    (do let _ ← extensionRanges rounds optionedRanges ranges) =
      rangeLoop behindExtension rounds := by
  induction rounds generalizing optionedRanges ranges with
  | zero => rfl
  | succ rounds ih =>
      unfold extensionRanges rangeLoop behindExtension
      rw [bind_assoc]
      congr 1
      funext range
      rw [bind_assoc, bind_assoc]
      congr 1
      funext optioned
      cases optioned with
      | true =>
          simp only [if_true, bind_assoc]
          congr 1
          funext options
          congr 1
          funext applied
          congr 1
          funext more
          cases more with
          | true => exact ih
          | false =>
              cases optionedRanges == 0 with
              | true => rfl
              | false => rfl
      | false =>
          simp only [if_neg Bool.false_ne_true, bind_assoc]
          congr 1
          funext more
          cases more with
          | true => exact ih
          | false => rfl

/-- The ranges that `extensions` records fit. -/
theorem parseExtensionRanges_fits {rounds : Nat} :
    Returns (parseExtensionRanges rounds)
      (fun recorded => ∀ range ∈ recorded, BoundsFit range.start range.end) := by
  have hloop : ∀ (rounds optionedRanges : Nat) (ranges : List ExtensionRange),
      (∀ range ∈ ranges, BoundsFit range.start range.end) →
      Returns (extensionRanges rounds optionedRanges ranges)
        (fun recorded => ∀ range ∈ recorded, BoundsFit range.start range.end) := by
    intro rounds
    induction rounds with
    | zero => exact fun _ _ _ => .throw
    | succ rounds ih =>
        intro optionedRanges ranges hranges
        refine parseRange_fits.bind fun bounds hbounds => .skip fun optioned => .ite ?_ ?_
        · refine .skip fun options => applyOptions_bounds.bind fun range hrange => ?_
          have hfits : BoundsFit range.start range.end := by
            rw [hrange.1, hrange.2]
            exact hbounds
          have hmore : ∀ r ∈ ranges ++ [range], BoundsFit r.start r.end :=
            List.forall_mem_append.mpr ⟨hranges, List.forall_mem_singleton.mpr hfits⟩
          refine .skip fun more => .ite (ih _ _ hmore) (.ite (.pure ?_) (.pure hmore))
          refine List.forall_mem_append.mpr ⟨?_, List.forall_mem_singleton.mpr hfits⟩
          intro copied hcopied
          obtain ⟨earlier, hmem, rfl⟩ := List.mem_map.mp hcopied
          exact hranges earlier hmem
        · have hmore : ∀ r ∈ ranges ++ [{ start := bounds.1, «end» := bounds.2 }],
              BoundsFit r.start r.end :=
            List.forall_mem_append.mpr ⟨hranges, List.forall_mem_singleton.mpr hbounds⟩
          exact .skip fun more => .ite (ih _ _ hmore) (.pure hmore)
  exact (hloop rounds 0 [] (List.forall_mem_nil _)).bind fun ranges hranges =>
    .skip fun _ => .pure hranges

theorem parseExtensionRanges_overflow_iff {rounds : Nat} :
    parseExtensionRanges rounds s = .error .overflow ↔
      ∃ left t, RangeAt behindExtension rounds s left t ∧ OverflowsAt behindExtension left t := by
  have hdiscard := bind_noOverflow_iff (s := s) (p := extensionRanges rounds 0 [])
    (fun _ => .pure (a := ()))
  unfold parseExtensionRanges
  rw [bind_noOverflow_iff (fun _ => expectSymbol_noOverflow.bind fun _ => .pure), ← hdiscard,
    extensionRanges_discard, rangeLoop_overflow_iff]

/-! ## Both statements -/

/-- The options behind the ranges do not overflow. -/
def OptionsQuiet (rounds : Nat) (s : Parser) : Prop :=
  ∀ left t range t', RangeAt behindExtension rounds s left t → parseRange t = .ok (range, t') →
    behindExtension left range t' ≠ .error .overflow

/-- `extensions` and `reserved` compute the ends of their ranges without an overflow exactly if
every bound they read is smaller than the largest `i64`, as far as their options and their
strings do not overflow. -/
theorem rangeStatements_fit_iff (rounds : Nat) (s : Parser) :
    ((parseExtensionRanges rounds s ≠ .error .overflow ∧
        ∀ ranges s', parseExtensionRanges rounds s = .ok (ranges, s') →
          ∀ range ∈ ranges, BoundsFit range.start range.end) ↔
      BoundsBelow behindExtension rounds s ∧ OptionsQuiet rounds s) ∧
    ((parseReserved rounds s ≠ .error .overflow ∧
        ∀ ranges names s', parseReserved rounds s = .ok ((ranges, names), s') →
          ∀ range ∈ ranges, BoundsFit range.start range.end) ↔
      BoundsBelow behindReserved rounds s ∧ StringsQuiet rounds s) := by
  constructor
  · rw [and_iff_left (fun ranges s' h => parseExtensionRanges_fits ranges s s' h), ne_eq,
      parseExtensionRanges_overflow_iff, boundsBelow_iff]
    constructor
    · intro h
      exact ⟨fun left t hat hstop => h ⟨left, t, hat, .inl hstop⟩,
        fun left t range t' hat hrange hstop => h ⟨left, t, hat, .inr ⟨range, t', hrange, hstop⟩⟩⟩
    · rintro ⟨hbounds, hoptions⟩ ⟨left, t, hat, hstop | ⟨range, t', hrange, hstop⟩⟩
      · exact hbounds left t hat hstop
      · exact hoptions left t range t' hat hrange hstop
  · rw [and_iff_left (fun ranges names s' h => parseReserved_fits (ranges, names) s s' h), ne_eq,
      parseReserved_overflow_iff, boundsBelow_iff, not_or]
    refine and_congr ?_ ?_
    · exact ⟨fun h left t hat hstop => h ⟨left, t, hat, hstop⟩,
        fun h ⟨left, t, hat, hstop⟩ => h left t hat hstop⟩
    · exact ⟨fun h hline htag left t hat hstop => h ⟨hline, htag, left, t, hat, hstop⟩,
        fun h ⟨hline, htag, left, t, hat, hstop⟩ => h hline htag left t hat hstop⟩

omit [FloatConversions] in
/-- The largest `i64` as the start or as the end of a range. -/
theorem exists_range_overflow :
    @parse ⟨fun _ => none, fun _ => 0⟩
      (ascii "message M { reserved 9223372036854775807; }") = .error .overflow ∧
    @parse ⟨fun _ => none, fun _ => 0⟩
      (ascii "message M { extensions 9223372036854775807; }") = .error .overflow ∧
    @parse ⟨fun _ => none, fun _ => 0⟩
      (ascii "message M { extensions 4 to 9223372036854775807; }") = .error .overflow ∧
    @parse ⟨fun _ => none, fun _ => 0⟩
      (ascii "enum E { reserved 4 to 9223372036854775807; }") = .error .overflow :=
  ⟨eq_error_of_map_unit (by decide +kernel), eq_error_of_map_unit (by decide +kernel),
    eq_error_of_map_unit (by decide +kernel), eq_error_of_map_unit (by decide +kernel)⟩

end Parser

end Pbz
