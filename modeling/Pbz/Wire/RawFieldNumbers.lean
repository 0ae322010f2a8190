import Mathlib.Algebra.BigOperators.Group.List.Lemmas
import Pbz.Wire.Cursor
import Pbz.Wire.NumberRuns
import Pbz.Wire.RawFields

set_option autoImplicit false

/-! # Raw fields by their number

The queries of `wire.zig` for preserved raw fields with a given number. `rawFieldNumber` decodes the
tag of a field. The queries that assume valid fields compare the first bytes with those of a tag
that `RawFieldNumberMatcher` precomputes, and decode only where this is not enough; on fields that
were accepted they return what the queries that decode every tag return. The runs of the numbers
answer the same question from a sidecar.
-/

namespace Pbz

open Wire

/-! ## Queries that decode each tag -/

def rawFieldNumber (rawField : Bytes) : Except Error Nat :=
  let read := readVarintAt rawField 0
  match read.1 with
  | .error e => .error e
  | .ok rawTag =>
      if read.2 > 5 then .error .malformedVarint
      else (Tag.decode rawTag.toNat).map Tag.number

def rawFieldCountByNumber (fields : List Bytes) (number : Nat) : Except Error Nat :=
  fields.foldlM (fun count raw =>
    if raw.isEmpty then .ok count
    else (rawFieldNumber raw).map (fun n => if n = number then count + 1 else count)) 0

/-- The second loop of `rawFieldsByNumberAlloc` fills the cells that the first one counted. -/
def rawFieldsByNumberAlloc (fields : List Bytes) (number : Nat) : Except Error (List Bytes) :=
  (rawFieldCountByNumber fields number).bind (fun count =>
    if count = 0 then .ok []
    else fields.foldlM (fun matched raw =>
      if raw.isEmpty then .ok matched
      else (rawFieldNumber raw).map (fun n => if n = number then matched ++ [raw] else matched)) [])

def rawFieldNumbersAlloc (fields : List Bytes) : Except Error (List Nat) :=
  fields.mapM (fun raw => if raw.isEmpty then .ok 0 else rawFieldNumber raw)

def rawFieldNumberRunsAlloc (fields : List Bytes) : Except Error (List RawFieldNumberRun) :=
  if fields.isEmpty then .ok []
  else (rawFieldNumbersAlloc fields).map rawFieldNumberRunsFromNumbersInPlace

/-! ## Queries that assume valid fields -/

/-- The canonical tag is the one of the number alone, with wire type 0. -/
structure RawFieldNumberMatcher where
  number : Nat
  lowStart : Nat
  canonicalTag : Bytes
  canonicalTagLen : Nat

namespace RawFieldNumberMatcher

/-- The cells of the source's array behind the tag are never read. -/
def init (number : Nat) : RawFieldNumberMatcher :=
  let canonicalTag := writeVarint (number * 8)
  { number, lowStart := number * 8 % 0x80, canonicalTag, canonicalTagLen := canonicalTag.length }

def firstByteMayMatch (self : RawFieldNumberMatcher) (first : UInt8) : Bool :=
  let low := (first &&& 0x7f).toNat
  if low < self.lowStart ∨ low > self.lowStart + 5 then false
  else decide (self.number < 16 ∨ first ≥ 0x80)

/-- The `switch` of the source compares the bytes from the second one on, up to the length. -/
def startsWithCanonicalNumberTag (self : RawFieldNumberMatcher) (raw : Bytes) : Bool :=
  if raw.length < self.canonicalTagLen then false
  else if self.canonicalTagLen = 1 then decide (raw.headD 0 < 0x80)
  else if raw.headD 0 < 0x80 then false
  else (raw.take self.canonicalTagLen).tail == self.canonicalTag.tail

/-- `none` is the `unreachable` behind a tag that does not decode. -/
def «matches» (self : RawFieldNumberMatcher) (raw : Bytes) : Option Bool :=
  if raw.isEmpty ∨ self.number = 0 then some false
  else if !self.firstByteMayMatch (raw.headD 0) then some false
  else if self.startsWithCanonicalNumberTag raw then some true
  else (rawFieldNumber raw).toOption.map (fun n => n == self.number)

end RawFieldNumberMatcher

def rawFieldCountByNumberWithMatcher (fields : List Bytes) (matcher : RawFieldNumberMatcher) :
    Option Nat :=
  fields.foldlM (fun count raw =>
    (matcher.matches raw).map (fun hit => if hit then count + 1 else count)) 0

def rawFieldCountByNumberAssumeValid (fields : List Bytes) (number : Nat) : Option Nat :=
  rawFieldCountByNumberWithMatcher fields (.init number)

/-- The loop of `rawFieldHasNumberAssumeValid`, which returns at the first field that matches. -/
def anyMatches (matcher : RawFieldNumberMatcher) : List Bytes → Option Bool
  | [] => some false
  | raw :: rest =>
      (matcher.matches raw).bind (fun hit => if hit then some true else anyMatches matcher rest)

def rawFieldHasNumberAssumeValid (fields : List Bytes) (number : Nat) : Option Bool :=
  anyMatches (.init number) fields

def rawFieldsByNumberAllocAssumeValid (fields : List Bytes) (number : Nat) :
    Option (List Bytes) :=
  let matcher := RawFieldNumberMatcher.init number
  (rawFieldCountByNumberWithMatcher fields matcher).bind (fun count =>
    if count = 0 then some []
    else fields.foldlM (fun matched raw =>
      (matcher.matches raw).map (fun hit => if hit then matched ++ [raw] else matched)) [])

/-! ## The number of a field -/

/-- The number is the one of the tag that a reader reads. -/
theorem rawFieldNumber_of_nextTag {raw rest : Bytes} {tag : Tag}
    (h : nextTag raw = .ok (some (tag, rest))) : rawFieldNumber raw = .ok tag.number := by
  obtain ⟨value, hread, hlen, htag⟩ := nextTag_some h
  have hlt : value < 2 ^ 64 := by
    obtain ⟨hvalid, rfl⟩ := tag_of_decode htag
    exact Nat.lt_trans (tag_lt hvalid tag.wireType) (by decide)
  have hat : readVarintAt raw 0 = (.ok (BitVec.ofNat 64 value), raw.length - rest.length) :=
    readVarintAt_of_readVarint hread
  rw [rawFieldNumber, hat]
  simp only
  rw [if_neg (by omega), BitVec.toNat_ofNat, Nat.mod_eq_of_lt hlt, htag]
  rfl

theorem rawFieldNumber_pos {raw : Bytes} {number : Nat} (h : rawFieldNumber raw = .ok number) :
    0 < number := by
  unfold rawFieldNumber at h
  simp only at h
  split at h
  · cases h
  · split at h
    · cases h
    · next rawTag _ _ =>
      cases htag : Tag.decode rawTag.toNat with
      | error e => rw [htag] at h; cases h
      | ok tag =>
          rw [htag] at h
          cases h
          exact number_pos_of_decode htag

/-! ## What the matcher recognises -/

/-- The bits behind the accumulator are multiples of its place. -/
theorem readLadder_value {n shift acc v : Nat} {input rest : Bytes}
    (h : readLadder n shift acc input = .ok (v, rest)) : ∃ q, v = acc + q * 2 ^ shift := by
  induction n generalizing shift acc input with
  | zero =>
      cases input with
      | nil => cases h
      | cons byte input =>
          rw [readLadder] at h
          split at h
          · split at h
            · cases h
            · cases h
              exact ⟨_, rfl⟩
          · cases h
  | succ n ih =>
      cases input with
      | nil => cases h
      | cons byte input =>
          rw [readLadder] at h
          split at h
          · cases h
            exact ⟨_, rfl⟩
          · obtain ⟨q, hq⟩ := ih h
            refine ⟨byte.toNat % 0x80 + q * 0x80, ?_⟩
            rw [hq, Nat.pow_add]
            ring

/-- The first byte holds the seven low bits of a varint, and a last one is the varint. -/
theorem readVarint_first {first : UInt8} {more rest : Bytes} {value : Nat}
    (h : readVarint (first :: more) = .ok (value, rest)) :
    value % 0x80 = first.toNat % 0x80 ∧ (first.toNat < 0x80 → value = first.toNat) := by
  rw [readVarint, readLadder] at h
  split at h
  · next hlast =>
    simp only [Except.ok.injEq, Prod.mk.injEq] at h
    have hvalue : value = first.toNat := by omega
    rw [hvalue]
    exact ⟨rfl, fun _ => rfl⟩
  · next hlast =>
    obtain ⟨q, hq⟩ := readLadder_value h
    exact ⟨by omega, fun hsmall => (hlast hsmall).elim⟩

theorem low_of_and (byte : UInt8) : (byte &&& 0x7f).toNat = byte.toNat % 0x80 := by
  rw [UInt8.toNat_and]
  exact Nat.and_two_pow_sub_one_eq_mod byte.toNat 7

namespace RawFieldNumberMatcher

/-- What is known of a first byte that may match. -/
theorem low_of_mayMatch {number : Nat} {first : UInt8}
    (h : (init number).firstByteMayMatch first = true) :
    number % 16 * 8 ≤ first.toNat % 0x80 ∧ first.toNat % 0x80 ≤ number % 16 * 8 + 5
      ∧ (number < 16 ∨ 0x80 ≤ first.toNat) := by
  have hlow : number * 8 % 0x80 = number % 16 * 8 := by omega
  unfold firstByteMayMatch init at h
  simp only [low_of_and, hlow] at h
  split at h
  · cases h
  · next hrange =>
    have hlast : number < 16 ∨ first ≥ 0x80 := of_decide_eq_true h
    exact ⟨by omega, by omega, hlast⟩

/-- A first byte with the bits of a tag with the number may match. -/
theorem mayMatch_of_low {number wireType : Nat} {first : UInt8} (hwireType : wireType ≤ 5)
    (hlow : first.toNat % 0x80 = (number * 8 + wireType) % 0x80)
    (hlast : first.toNat < 0x80 → number < 16) :
    (init number).firstByteMayMatch first = true := by
  unfold firstByteMayMatch init
  simp only [low_of_and]
  rw [if_neg (by omega), decide_eq_true_eq]
  by_cases hfirst : first.toNat < 0x80
  · exact .inl (hlast hfirst)
  · exact .inr (Nat.not_lt.mp hfirst)

theorem canonicalTag_of_small {number : Nat} (h : number < 16) :
    (init number).canonicalTag = [UInt8.ofNat (number * 8)] :=
  writeVarint_small (by omega)

theorem canonicalTag_of_large {number : Nat} (h : 16 ≤ number) :
    (init number).canonicalTag
      = UInt8.ofNat (number * 8 % 0x80 + 0x80) :: varintLadder 8 (number / 16) := by
  show varintLadder 9 (number * 8) = _
  rw [varintLadder, if_neg (by omega), show number * 8 / 0x80 = number / 16 by omega]

/-- A field that starts with the canonical tag, save for the wire type, has the number. -/
theorem number_of_startsWith {number value : Nat} {first : UInt8} {more rest : Bytes}
    (hnumber : number ≤ maxFieldNumber) (hmay : (init number).firstByteMayMatch first = true)
    (hstart : (init number).startsWithCanonicalNumberTag (first :: more) = true)
    (hread : readVarint (first :: more) = .ok (value, rest)) : value / 8 = number := by
  obtain ⟨hge, hle, -⟩ := low_of_mayMatch hmay
  obtain ⟨-, hsingle⟩ := readVarint_first hread
  have hlen : (init number).canonicalTagLen = (init number).canonicalTag.length := rfl
  unfold startsWithCanonicalNumberTag at hstart
  rw [List.headD_cons, hlen] at hstart
  by_cases hsmall : number < 16
  · -- one byte: the value is the first byte, whose range is that of the tags of the number
    rw [canonicalTag_of_small hsmall, List.length_singleton] at hstart
    split at hstart
    · cases hstart
    · rw [if_pos rfl, decide_eq_true_eq] at hstart
      have hvalue := hsingle hstart
      have hfirst : first.toNat < 0x80 := hstart
      omega
  · -- more bytes: those behind the first one are those of the canonical tag
    have htag := canonicalTag_of_large (Nat.not_lt.mp hsmall)
    have hpos : 0 < (varintLadder 8 (number / 16)).length :=
      List.length_pos_iff.mpr (varintLadder_ne_nil _ _)
    simp only [htag, List.length_cons] at hstart
    split at hstart
    · cases hstart
    · next hlong =>
      rw [if_neg (by omega)] at hstart
      split at hstart
      · cases hstart
      · next hfirst =>
        rw [List.take_succ_cons, List.tail_cons, List.tail_cons, beq_iff_eq] at hstart
        have hmore : more = varintLadder 8 (number / 16)
            ++ more.drop (varintLadder 8 (number / 16)).length := by
          conv_lhs => rw [← List.take_append_drop (varintLadder 8 (number / 16)).length more]
          rw [hstart]
        have hfit : number / 16 < 2 ^ (7 * 8 + 1) := by
          rw [maxFieldNumber] at hnumber
          omega
        have hcontinued : ¬ first.toNat < 0x80 := hfirst
        rw [hmore, readVarint, readLadder, if_neg hcontinued,
          readLadder_varintLadder 8 (number / 16) _ _ _ hfit] at hread
        simp only [Except.ok.injEq, Prod.mk.injEq] at hread
        omega

/-- On an accepted field the matcher decides whether its tag has the number. -/
theorem matches_of_valid {number : Nat} (hnumber : number ≤ maxFieldNumber) {raw : Bytes}
    (hraw : validateRawField raw = .ok ()) :
    ∃ n, rawFieldNumber raw = .ok n ∧ (init number).matches raw = some (decide (n = number)) := by
  obtain ⟨tag, rest, hnext⟩ := nextTag_of_valid hraw
  obtain ⟨value, hread, hlen, htag⟩ := nextTag_some hnext
  have hdecoded := rawFieldNumber_of_nextTag hnext
  have hpos := rawFieldNumber_pos hdecoded
  refine ⟨tag.number, hdecoded, ?_⟩
  obtain ⟨-, hvalue⟩ := tag_of_decode htag
  have htype : tag.wireType.toNat ≤ 5 := by cases tag.wireType <;> decide
  cases raw with
  | nil => cases hread
  | cons first more =>
      obtain ⟨hlow, hsingle⟩ := readVarint_first hread
      unfold «matches»
      rw [List.headD_cons, hdecoded]
      by_cases hzero : number = 0
      · rw [if_pos (.inr hzero), decide_eq_false (by omega)]
      · rw [if_neg (by simp [hzero, init])]
        by_cases hmay : (init number).firstByteMayMatch first = true
        · rw [hmay, if_neg (by simp)]
          by_cases hstart : (init number).startsWithCanonicalNumberTag (first :: more) = true
          · have heq := number_of_startsWith hnumber hmay hstart hread
            rw [if_pos hstart, decide_eq_true (by omega)]
          · rw [if_neg hstart]
            rfl
        · have hne : tag.number ≠ number := by
            intro heq
            refine hmay (mayMatch_of_low htype ?_ fun hfirst => ?_)
            · omega
            · have := hsingle hfirst
              omega
          rw [if_pos (by simpa using hmay), decide_eq_false hne]

end RawFieldNumberMatcher

/-! ## Lists of accepted fields -/

/-- Whether a field that is accepted has the number. -/
def hasNumber (number : Nat) (raw : Bytes) : Bool :=
  match rawFieldNumber raw with
  | .ok n => n == number
  | .error _ => false

theorem foldlM_eq_foldl {m : Type → Type} [Monad m] [LawfulMonad m] {σ : Type}
    {step : σ → Bytes → m σ} {next : σ → Bytes → σ} {fields : List Bytes}
    (h : ∀ s, ∀ raw ∈ fields, step s raw = pure (next s raw)) (s : σ) :
    fields.foldlM step s = pure (fields.foldl next s) := by
  induction fields generalizing s with
  | nil => rfl
  | cons raw rest ih =>
      rw [List.foldlM_cons, h s raw List.mem_cons_self, pure_bind, List.foldl_cons]
      exact ih (fun s raw hraw => h s raw (List.mem_cons_of_mem _ hraw)) _

section Accepted

variable {σ : Type} {number : Nat} {raw : Bytes}

/-- One pass of a loop that decodes each tag. -/
theorem decoded_step (hraw : WritableRawField raw) (s : σ) (hit : σ) :
    (if raw.isEmpty then .ok s
      else (rawFieldNumber raw).map (fun n => if n = number then hit else s))
      = (.ok (if hasNumber number raw then hit else s) : Except Error σ) := by
  rcases hraw with rfl | hvalid
  · rfl
  · obtain ⟨tag, rest, hnext⟩ := nextTag_of_valid hvalid
    have hne : ¬ raw.isEmpty = true := by
      intro hempty
      rw [List.isEmpty_iff.mp hempty] at hnext
      cases hnext
    have hdecoded := rawFieldNumber_of_nextTag hnext
    rw [if_neg hne, hdecoded, hasNumber, hdecoded]
    simp only [Except.map, beq_iff_eq]

/-- One pass of a loop that matches the first bytes. -/
theorem matched_step (hnumber : number ≤ maxFieldNumber) (hraw : WritableRawField raw) :
    (RawFieldNumberMatcher.init number).matches raw = some (hasNumber number raw) := by
  rcases hraw with rfl | hvalid
  · rfl
  · obtain ⟨n, hdecoded, hmatch⟩ := RawFieldNumberMatcher.matches_of_valid hnumber hvalid
    rw [hmatch, hasNumber, hdecoded]
    rfl

end Accepted

theorem foldl_count (number : Nat) (fields : List Bytes) (s : Nat) :
    fields.foldl (fun count raw => if hasNumber number raw then count + 1 else count) s
      = s + fields.countP (hasNumber number) := by
  induction fields generalizing s with
  | nil => rfl
  | cons raw rest ih =>
      rw [List.foldl_cons, ih, List.countP_cons]
      split <;> omega

theorem foldl_matched (number : Nat) (fields matched : List Bytes) :
    fields.foldl (fun matched raw => if hasNumber number raw then matched ++ [raw] else matched)
      matched = matched ++ fields.filter (hasNumber number) := by
  induction fields generalizing matched with
  | nil => exact (List.append_nil _).symm
  | cons raw rest ih =>
      rw [List.foldl_cons, ih, List.filter_cons]
      split
      · rw [List.append_assoc, List.singleton_append]
      · rfl

theorem anyMatches_eq {fields : List Bytes} {number : Nat} (hnumber : number ≤ maxFieldNumber)
    (hfields : ∀ raw ∈ fields, WritableRawField raw) :
    anyMatches (.init number) fields = some (decide (0 < fields.countP (hasNumber number))) := by
  induction fields with
  | nil => rfl
  | cons raw rest ih =>
      obtain ⟨hraw, hrest⟩ := List.forall_mem_cons.mp hfields
      rw [anyMatches, matched_step hnumber hraw, Option.bind_some, List.countP_cons, ih hrest]
      split
      · simp
      · simp

/-- On fields that are empty or were accepted, the queries that look at the first bytes return what
the queries that decode each tag do. -/
theorem assumeValid_eq_decoded {fields : List Bytes} {number : Nat}
    (hfields : ∀ raw ∈ fields, WritableRawField raw) (hnumber : number ≤ maxFieldNumber) :
    ∃ count matched, rawFieldCountByNumber fields number = .ok count
      ∧ rawFieldsByNumberAlloc fields number = .ok matched
      ∧ rawFieldCountByNumberAssumeValid fields number = some count
      ∧ rawFieldHasNumberAssumeValid fields number = some (decide (0 < count))
      ∧ rawFieldsByNumberAllocAssumeValid fields number = some matched
      ∧ matched.length = count := by
  have hcount : rawFieldCountByNumber fields number
      = .ok (fields.countP (hasNumber number)) := by
    rw [rawFieldCountByNumber, foldlM_eq_foldl
      (fun s raw hraw => decoded_step (hfields raw hraw) s (s + 1)), foldl_count, Nat.zero_add]
    rfl
  have hunchecked : rawFieldCountByNumberWithMatcher fields (.init number)
      = some (fields.countP (hasNumber number)) := by
    rw [rawFieldCountByNumberWithMatcher, foldlM_eq_foldl (fun s raw hraw => by
      rw [matched_step hnumber (hfields raw hraw)]; rfl), foldl_count, Nat.zero_add]
    rfl
  have hnone : fields.countP (hasNumber number) = 0 → fields.filter (hasNumber number) = [] := by
    intro hzero
    rw [← List.length_eq_zero_iff, ← List.countP_eq_length_filter, hzero]
  refine ⟨_, fields.filter (hasNumber number), hcount, ?_, hunchecked,
    anyMatches_eq hnumber hfields, ?_, List.countP_eq_length_filter.symm⟩
  · rw [rawFieldsByNumberAlloc, hcount, Except.bind]
    split
    · next hzero => rw [hnone hzero]
    · rw [foldlM_eq_foldl (fun matched raw hraw =>
        decoded_step (hfields raw hraw) matched (matched ++ [raw])), foldl_matched]
      rfl
  · rw [rawFieldsByNumberAllocAssumeValid]
    simp only [hunchecked, Option.bind_some]
    split
    · next hzero => rw [hnone hzero]
    · rw [foldlM_eq_foldl (fun matched raw hraw => by
        rw [matched_step hnumber (hfields raw hraw)]; rfl), foldl_matched]
      rfl

/-- Field 1 with a one-byte tag, an empty field, field 16, and field 1 with a tag of three bytes. -/
theorem assumeValid_eq_decoded_overlong :
    ∃ count matched,
      rawFieldCountByNumber [[0x08, 5], [], [0x80, 0x01, 5], [0x88, 0x80, 0x00, 5]] 1 = .ok count
      ∧ rawFieldsByNumberAlloc [[0x08, 5], [], [0x80, 0x01, 5], [0x88, 0x80, 0x00, 5]] 1
        = .ok matched
      ∧ rawFieldCountByNumberAssumeValid
          [[0x08, 5], [], [0x80, 0x01, 5], [0x88, 0x80, 0x00, 5]] 1 = some count
      ∧ rawFieldHasNumberAssumeValid [[0x08, 5], [], [0x80, 0x01, 5], [0x88, 0x80, 0x00, 5]] 1
        = some (decide (0 < count))
      ∧ rawFieldsByNumberAllocAssumeValid
          [[0x08, 5], [], [0x80, 0x01, 5], [0x88, 0x80, 0x00, 5]] 1 = some matched
      ∧ matched.length = count := by
  refine assumeValid_eq_decoded (fun raw hraw => ?_) (by decide)
  rcases List.mem_cons.mp hraw with rfl | hraw
  · exact .inr rfl
  rcases List.mem_cons.mp hraw with rfl | hraw
  · exact .inl rfl
  rcases List.mem_cons.mp hraw with rfl | hraw
  · exact .inr rfl
  rcases List.mem_singleton.mp hraw with rfl
  exact .inr rfl

/-! ## The runs -/

/-- Counting a number fails where decoding all numbers does, and counts it among them. The 0 of an
empty field is not counted. -/
theorem rawFieldCountByNumber_eq (fields : List Bytes) (number : Nat) :
    rawFieldCountByNumber fields number
      = (rawFieldNumbersAlloc fields).map
          (fun numbers => (numbers.filter (fun n => n != 0)).count number) := by
  have key : ∀ s, fields.foldlM (fun count raw =>
      if raw.isEmpty then (.ok count : Except Error Nat)
      else (rawFieldNumber raw).map (fun n => if n = number then count + 1 else count)) s
      = (rawFieldNumbersAlloc fields).map
          (fun numbers => s + (numbers.filter (fun n => n != 0)).count number) := by
    induction fields with
    | nil => intro s; rfl
    | cons raw rest ih =>
        intro s
        rw [List.foldlM_cons, rawFieldNumbersAlloc, List.mapM_cons, ← rawFieldNumbersAlloc]
        by_cases hempty : raw.isEmpty = true
        · rw [if_pos hempty, if_pos hempty]
          show (rest.foldlM _ s : Except Error Nat) = _
          rw [ih s]
          cases rawFieldNumbersAlloc rest <;> rfl
        · rw [if_neg hempty, if_neg hempty]
          cases hdecoded : rawFieldNumber raw with
          | error e => rfl
          | ok n =>
              have hpos := rawFieldNumber_pos hdecoded
              show (rest.foldlM _ (if n = number then s + 1 else s) : Except Error Nat) = _
              rw [ih]
              cases rawFieldNumbersAlloc rest with
              | error e => rfl
              | ok numbers =>
                  have hkept : (n :: numbers).filter (fun n => n != 0)
                      = n :: numbers.filter (fun n => n != 0) :=
                    List.filter_cons_of_pos (by simpa using Nat.ne_of_gt hpos)
                  refine congrArg Except.ok ?_
                  show (if n = number then s + 1 else s) + _ = s + ((n :: numbers).filter _).count _
                  rw [hkept, List.count_cons]
                  by_cases hn : n = number
                  · simp only [hn, if_true, beq_self_eq_true]
                    omega
                  · simp only [hn, if_false, beq_iff_eq]
                    omega
  rw [rawFieldCountByNumber, key]
  cases rawFieldNumbersAlloc fields with
  | error e => rfl
  | ok numbers => simp only [Except.map, Nat.zero_add]

/-- The numbers other than 0 are those of the fields that are not empty. -/
theorem countP_rawFieldNumbers {fields : List Bytes} {numbers : List Nat}
    (h : rawFieldNumbersAlloc fields = .ok numbers) :
    numbers.countP (fun n => n != 0) = fields.countP (fun raw => !raw.isEmpty) := by
  induction fields generalizing numbers with
  | nil =>
      cases h
      rfl
  | cons raw rest ih =>
      rw [rawFieldNumbersAlloc, List.mapM_cons, ← rawFieldNumbersAlloc] at h
      cases hrest : rawFieldNumbersAlloc rest with
      | error e =>
          rw [hrest] at h
          by_cases hempty : raw.isEmpty = true
          · rw [if_pos hempty] at h
            cases h
          · rw [if_neg hempty] at h
            cases hdecoded : rawFieldNumber raw <;> rw [hdecoded] at h <;> cases h
      | ok others =>
          rw [hrest] at h
          by_cases hempty : raw.isEmpty = true
          · rw [if_pos hempty] at h
            cases h
            rw [List.countP_cons_of_neg (by decide), ih hrest,
              List.countP_cons_of_neg (by simpa using hempty)]
          · rw [if_neg hempty] at h
            cases hdecoded : rawFieldNumber raw with
            | error e => rw [hdecoded] at h; cases h
            | ok n =>
                have hpos := rawFieldNumber_pos hdecoded
                rw [hdecoded] at h
                cases h
                rw [List.countP_cons_of_pos (by simpa using Nat.ne_of_gt hpos), ih hrest,
                  List.countP_cons_of_pos (by simpa using hempty)]

/-- The counts of the runs add up to the number of occurrences of numbers other than 0. -/
theorem IsRuns.sum_counts {numbers : List Nat} {runs : List RawFieldNumberRun}
    (h : IsRuns numbers runs) :
    (runs.map RawFieldNumberRun.count).sum = numbers.countP (fun n => n != 0) := by
  have hnodup : (runs.map RawFieldNumberRun.number).Nodup := by
    refine (List.pairwise_map.mpr (h.ascending.imp ?_))
    exact fun hlt => Nat.ne_of_lt hlt
  have hperm : (runs.map RawFieldNumberRun.number).Perm
      (numbers.dedup.filter (fun n => n != 0)) := by
    refine (List.perm_ext_iff_of_nodup hnodup ((List.nodup_dedup numbers).filter _)).mpr ?_
    intro number
    rw [List.mem_filter, List.mem_dedup, List.mem_map, bne_iff_ne]
    constructor
    · rintro ⟨run, hrun, rfl⟩
      obtain ⟨hne, hmem, -⟩ := h.count run hrun
      exact ⟨hmem, hne⟩
    · rintro ⟨hmem, hne⟩
      exact h.complete number hmem hne
  have hcounts : runs.map RawFieldNumberRun.count
      = (runs.map RawFieldNumberRun.number).map (fun number => numbers.count number) := by
    rw [List.map_map]
    exact List.map_congr_left fun run hrun => (h.count run hrun).2.2
  rw [hcounts, (hperm.map _).sum_eq]
  exact List.sum_map_count_dedup_filter_eq_countP _ numbers

/-- The sidecar answers as a scan does: it is built where counting succeeds, and its runs are in
ascending order, with positive counts that add up to the number of fields that are not empty. -/
theorem rawFieldNumberRuns_exact (fields : List Bytes) :
    (∀ number e, rawFieldNumberRunsAlloc fields = .error e
      ↔ rawFieldCountByNumber fields number = .error e)
    ∧ ∀ runs, rawFieldNumberRunsAlloc fields = .ok runs →
      (∀ number, number ≠ 0 →
        rawFieldCountByNumber fields number = .ok (rawFieldNumberRunCount runs number))
      ∧ runs.Pairwise (fun a b => a.number < b.number)
      ∧ (∀ run ∈ runs, 0 < run.count)
      ∧ (runs.map RawFieldNumberRun.count).sum = fields.countP (fun raw => !raw.isEmpty) := by
  have hruns : rawFieldNumberRunsAlloc fields
      = (rawFieldNumbersAlloc fields).map rawFieldNumberRunsFromNumbersInPlace := by
    cases fields <;> rfl
  refine ⟨fun number e => ?_, fun runs hok => ?_⟩
  · rw [hruns, rawFieldCountByNumber_eq]
    cases rawFieldNumbersAlloc fields <;> simp [Except.map]
  · cases hnumbers : rawFieldNumbersAlloc fields with
    | error e =>
        rw [hruns, hnumbers] at hok
        cases hok
    | ok numbers =>
        rw [hruns, hnumbers] at hok
        cases hok
        have his := isRuns_inPlace numbers
        refine ⟨fun number hne => ?_, his.ascending, fun run hrun => ?_, ?_⟩
        · rw [rawFieldCountByNumber_eq, hnumbers, his.runCount_eq hne, Except.map,
            List.count_filter (by simpa using hne)]
        · obtain ⟨-, hmem, hcount⟩ := his.count run hrun
          rw [hcount]
          exact List.count_pos_iff.mpr hmem
        · rw [his.sum_counts, countP_rawFieldNumbers hnumbers]

end Pbz
