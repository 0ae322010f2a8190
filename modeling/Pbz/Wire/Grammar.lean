import Pbz.Wire.RawFields

set_option autoImplicit false

/-! # The grammar of fields

What well-formed fields are, without a reader: varints, tags, values of each wire type, and groups
as fields in front of an end tag. The readers of `wire.zig` accept the bytes of the grammar and
leave what is behind them.
-/

namespace Pbz

/-! ## Varints and tags -/

/-- The number with these groups of seven bits, low ones first. -/
def varintValue : Bytes → Nat
  | [] => 0
  | byte :: rest => byte.toNat % 0x80 + 0x80 * varintValue rest

/-- The first byte without a continuation bit is the last one. -/
def Terminated : Bytes → Prop
  | [] => False
  | byte :: rest => if byte.toNat < 0x80 then rest = [] else Terminated rest

/-- The bytes are a varint: at most ten, with a value of 64 bits. It need not be the shortest one
of its value. -/
structure IsVarint (bytes : Bytes) (value : Nat) : Prop where
  terminated : Terminated bytes
  length_le : bytes.length ≤ 10
  value_eq : varintValue bytes = value
  fits : value < 2 ^ 64

/-- The bytes are a tag: a varint of at most five bytes with a number and a wire type. -/
structure IsTag (bytes : Bytes) (tag : Tag) : Prop where
  isVarint : IsVarint bytes (tag.number * 8 + tag.wireType.toNat)
  length_le : bytes.length ≤ 5
  validNumber : ValidNumber tag.number

/-! ## Fields -/

/-- The bytes are a value of the tag's wire type. An end tag has no value. -/
def IsValue (group : Nat → Bytes → Prop) (tag : Tag) (bytes : Bytes) : Prop :=
  match tag.wireType with
  | .varint => ∃ value, IsVarint bytes value
  | .fixed64 => bytes.length = 8
  | .lengthDelimited =>
      ∃ size payload, bytes = size ++ payload ∧ IsVarint size payload.length
  | .fixed32 => bytes.length = 4
  | .startGroup => group tag.number bytes
  | .endGroup => False

/-- The bytes are fields, one after the other. -/
inductive Fields (value : Tag → Bytes → Prop) : Bytes → Prop
  | nil : Fields value []
  | cons {tag : Tag} {tagBytes bytes rest : Bytes} (htag : IsTag tagBytes tag)
      (hvalue : value tag bytes) (hrest : Fields value rest) :
      Fields value (tagBytes ++ (bytes ++ rest))

/-- The bytes behind a start tag with the number, up to the end of its group; groups are nested in
at most so many levels. -/
def IsGroup : Nat → Nat → Bytes → Prop
  | 0, _, _ => False
  | levels + 1, number, bytes =>
      ∃ body endTag, bytes = body ++ endTag ∧ Fields (IsValue (IsGroup levels)) body
        ∧ IsTag endTag { number, wireType := .endGroup }

def IsFields (levels : Nat) (bytes : Bytes) : Prop := Fields (IsValue (IsGroup levels)) bytes

/-- The bytes are a tag and a value of its wire type, and nothing else. -/
def IsField (levels : Nat) (bytes : Bytes) : Prop :=
  ∃ tag tagBytes value, bytes = tagBytes ++ value ∧ IsTag tagBytes tag
    ∧ IsValue (IsGroup levels) tag value

/-! ## Reading -/

/-- What is skipped are bytes with the property. -/
def Skips (skip : Bytes → Except Error Bytes) (P : Bytes → Prop) : Prop :=
  ∀ input rest, skip input = .ok rest ↔ ∃ bytes, input = bytes ++ rest ∧ P bytes

theorem Skips.append {skip : Bytes → Except Error Bytes} {P : Bytes → Prop} (h : Skips skip P)
    {bytes : Bytes} (hP : P bytes) (rest : Bytes) : skip (bytes ++ rest) = .ok rest :=
  (h _ _).mpr ⟨bytes, rfl, hP⟩

theorem terminated_cons_of_lt {byte : UInt8} {bytes : Bytes} (h : byte.toNat < 0x80) :
    Terminated (byte :: bytes) ↔ bytes = [] := by
  rw [Terminated, if_pos h]

theorem terminated_cons_of_not_lt {byte : UInt8} {bytes : Bytes} (h : ¬ byte.toNat < 0x80) :
    Terminated (byte :: bytes) ↔ Terminated bytes := by
  rw [Terminated, if_neg h]

/-- The last byte that a varint may have. -/
theorem readLadder_zero_iff {shift acc : Nat} {input rest : Bytes} {v : Nat} :
    readLadder 0 shift acc input = .ok (v, rest) ↔
      ∃ bytes, input = bytes ++ rest ∧ Terminated bytes ∧ bytes.length ≤ 1
        ∧ varintValue bytes < 2 ∧ v = acc + varintValue bytes * 2 ^ shift := by
  constructor
  · intro h
    cases input with
    | nil => cases h
    | cons byte input =>
        rw [readLadder] at h
        split at h
        · next hlast =>
          split at h
          · cases h
          · next hsmall =>
            cases h
            refine ⟨[byte], rfl, (terminated_cons_of_lt hlast).mpr rfl, Nat.le_refl _, ?_, ?_⟩
            · simp only [varintValue]
              omega
            · simp only [varintValue, Nat.mul_zero, Nat.add_zero]
        · cases h
  · rintro ⟨bytes, rfl, hterm, hlen, hvalue, rfl⟩
    cases bytes with
    | nil => exact hterm.elim
    | cons byte bytes =>
        have hnil : bytes = [] :=
          List.length_eq_zero_iff.mp (by simp only [List.length_cons] at hlen; omega)
        subst hnil
        have hlast : byte.toNat < 0x80 := by
          by_contra hmore
          exact ((terminated_cons_of_not_lt hmore).mp hterm).elim
        simp only [varintValue, Nat.mul_zero, Nat.add_zero] at hvalue ⊢
        rw [List.singleton_append, readLadder, if_pos hlast, if_neg (by omega)]

/-- The value of a first byte and of the bytes behind it. -/
theorem ladder_sum (acc shift first rest : Nat) :
    acc + (first + 0x80 * rest) * 2 ^ shift = acc + first * 2 ^ shift + rest * 2 ^ (shift + 7) := by
  rw [Nat.pow_add]
  ring

theorem readLadder_iff (n : Nat) {shift : Nat} (acc : Nat) {input rest : Bytes} {v : Nat} :
    readLadder n shift acc input = .ok (v, rest) ↔
      ∃ bytes, input = bytes ++ rest ∧ Terminated bytes ∧ bytes.length ≤ n + 1
        ∧ varintValue bytes < 2 ^ (7 * n + 1) ∧ v = acc + varintValue bytes * 2 ^ shift := by
  induction n generalizing shift acc input with
  | zero => exact readLadder_zero_iff
  | succ n ih =>
      have hpow : 2 ^ (7 * (n + 1) + 1) = 0x80 * 2 ^ (7 * n + 1) := by
        rw [show 7 * (n + 1) + 1 = 7 * n + 1 + 7 by omega, Nat.pow_add, Nat.mul_comm]
      have hpos : 0 < 2 ^ (7 * n + 1) := Nat.pow_pos (by decide)
      constructor
      · intro h
        cases input with
        | nil => cases h
        | cons byte input =>
            rw [readLadder] at h
            split at h
            · next hlast =>
              cases h
              refine ⟨[byte], rfl, (terminated_cons_of_lt hlast).mpr rfl, by simp, ?_, ?_⟩
              · simp only [varintValue]
                omega
              · simp only [varintValue, Nat.mul_zero, Nat.add_zero]
            · next hmore =>
              obtain ⟨bytes, rfl, hterm, hlen, hvalue, rfl⟩ := (ih _).mp h
              refine ⟨byte :: bytes, rfl, (terminated_cons_of_not_lt hmore).mpr hterm, ?_, ?_, ?_⟩
              · rw [List.length_cons]
                omega
              · rw [varintValue]
                omega
              · rw [varintValue, ladder_sum]
      · rintro ⟨bytes, rfl, hterm, hlen, hvalue, rfl⟩
        cases bytes with
        | nil => exact hterm.elim
        | cons byte bytes =>
            rw [List.cons_append, readLadder]
            by_cases hlast : byte.toNat < 0x80
            · obtain rfl := (terminated_cons_of_lt hlast).mp hterm
              simp only [varintValue, Nat.mul_zero, Nat.add_zero, if_pos hlast, List.nil_append]
            · rw [if_neg hlast]
              rw [varintValue] at hvalue
              rw [List.length_cons] at hlen
              refine (ih _).mpr ⟨bytes, rfl, (terminated_cons_of_not_lt hlast).mp hterm, by omega,
                by omega, ?_⟩
              rw [varintValue, ladder_sum]

theorem readVarint_iff {input rest : Bytes} {value : Nat} :
    readVarint input = .ok (value, rest) ↔ ∃ bytes, input = bytes ++ rest ∧ IsVarint bytes value := by
  rw [readVarint, readLadder_iff]
  constructor
  · rintro ⟨bytes, rfl, hterm, hlen, hfits, rfl⟩
    simp only [Nat.zero_add, Nat.pow_zero, Nat.mul_one]
    exact ⟨bytes, rfl, hterm, hlen, rfl, hfits⟩
  · rintro ⟨bytes, rfl, hterm, hlen, rfl, hfits⟩
    exact ⟨bytes, rfl, hterm, hlen, hfits, by simp⟩

theorem IsVarint.readVarint_append {bytes : Bytes} {value : Nat} (h : IsVarint bytes value)
    (rest : Bytes) : readVarint (bytes ++ rest) = .ok (value, rest) :=
  readVarint_iff.mpr ⟨bytes, rfl, h⟩

theorem IsVarint.length_pos {bytes : Bytes} {value : Nat} (h : IsVarint bytes value) :
    0 < bytes.length :=
  List.length_pos_iff.mpr fun hnil => (hnil ▸ h.terminated : Terminated [])

theorem takeBytes_iff {n : Nat} {input value rest : Bytes} :
    takeBytes n input = .ok (value, rest) ↔ input = value ++ rest ∧ value.length = n := by
  constructor
  · intro h
    rw [takeBytes] at h
    split at h
    · cases h
    · next hlen =>
      cases h
      refine ⟨(List.take_append_drop n input).symm, ?_⟩
      rw [List.length_take]
      omega
  · rintro ⟨rfl, rfl⟩
    exact takeBytes_append value rest

/-- The shortcut for a length of one byte reads what the common reader does. -/
theorem readBytes_eq (input : Bytes) :
    readBytes input = (readVarint input).bind (fun read => takeBytes read.1 read.2) := by
  cases input with
  | nil => rfl
  | cons first rest =>
      rw [readBytes]
      split
      · next hlast =>
        have hread : readVarint (first :: rest) = .ok (first.toNat, rest) := by
          rw [readVarint, readLadder, if_pos hlast, Nat.mod_eq_of_lt hlast]
          simp
        rw [hread]
        rfl
      · cases readVarint (first :: rest) <;> rfl

theorem readBytes_iff {input payload rest : Bytes} :
    readBytes input = .ok (payload, rest) ↔
      ∃ size, input = size ++ payload ++ rest ∧ IsVarint size payload.length := by
  rw [readBytes_eq]
  constructor
  · intro h
    cases hread : readVarint input with
    | error e => rw [hread] at h; cases h
    | ok read =>
        obtain ⟨len, behind⟩ := read
        rw [hread] at h
        obtain ⟨rfl, rfl⟩ := takeBytes_iff.mp h
        obtain ⟨bytes, rfl, hvarint⟩ := readVarint_iff.mp hread
        exact ⟨bytes, (List.append_assoc _ _ _).symm, hvarint⟩
  · rintro ⟨bytes, rfl, hvarint⟩
    rw [List.append_assoc, hvarint.readVarint_append]
    exact takeBytes_append payload rest

theorem IsVarint.readBytes_append {size payload : Bytes} (h : IsVarint size payload.length)
    (rest : Bytes) : readBytes (size ++ (payload ++ rest)) = .ok (payload, rest) :=
  readBytes_iff.mpr ⟨size, (List.append_assoc _ _ _).symm, h⟩

theorem nextTag_iff {input rest : Bytes} {tag : Tag} :
    nextTag input = .ok (some (tag, rest)) ↔ ∃ bytes, input = bytes ++ rest ∧ IsTag bytes tag := by
  constructor
  · intro h
    obtain ⟨raw, hread, hlen, htag⟩ := nextTag_some h
    obtain ⟨bytes, rfl, hvarint⟩ := readVarint_iff.mp hread
    obtain ⟨hvalid, rfl⟩ := tag_of_decode htag
    rw [List.length_append] at hlen
    exact ⟨bytes, rfl, hvarint, by omega, hvalid⟩
  · rintro ⟨bytes, rfl, hvarint, hlen, hvalid⟩
    refine nextTag_of_readVarint (readVarint_iff.mpr ⟨bytes, rfl, hvarint⟩) ?_
      (tag_decode_encode hvalid tag.wireType)
    rw [List.length_append]
    omega

theorem IsTag.nextTag_append {bytes : Bytes} {tag : Tag} (h : IsTag bytes tag) (rest : Bytes) :
    nextTag (bytes ++ rest) = .ok (some (tag, rest)) :=
  nextTag_iff.mpr ⟨bytes, rfl, h⟩

/-! ## Skipping -/

theorem restOf_iff {α : Type} {r : ReadResult α} {rest : Bytes} :
    restOf r = .ok rest ↔ ∃ v, r = .ok (v, rest) := by
  constructor
  · exact restOf_ok
  · rintro ⟨v, rfl⟩
    rfl

theorem skipWith_skips {skip : Bytes → Except Error Bytes} {group : Nat → Bytes → Prop}
    {tag : Tag} (hgroup : Skips skip (group tag.number)) :
    Skips (skipWith skip tag) (IsValue group tag) := by
  intro input rest
  have htake : ∀ n, restOf (takeBytes n input) = .ok rest ↔
      ∃ bytes, input = bytes ++ rest ∧ bytes.length = n := by
    intro n
    rw [restOf_iff]
    exact exists_congr fun bytes => takeBytes_iff
  unfold skipWith IsValue
  cases tag.wireType with
  | varint =>
      simp only [restOf_iff, readVarint_iff]
      constructor
      · rintro ⟨value, bytes, hinput, hvarint⟩
        exact ⟨bytes, hinput, value, hvarint⟩
      · rintro ⟨bytes, hinput, value, hvarint⟩
        exact ⟨value, bytes, hinput, hvarint⟩
  | fixed64 => exact htake 8
  | lengthDelimited =>
      simp only [restOf_iff, readBytes_iff]
      constructor
      · rintro ⟨payload, size, hinput, hvarint⟩
        exact ⟨size ++ payload, hinput, size, payload, rfl, hvarint⟩
      · rintro ⟨bytes, hinput, size, payload, rfl, hvarint⟩
        exact ⟨payload, size, hinput, hvarint⟩
  | fixed32 => exact htake 4
  | startGroup => exact hgroup input rest
  | endGroup => simp

section

variable {skip : Tag → Bytes → Except Error Bytes} {value : Tag → Bytes → Prop} {number : Nat}

/-- What a pass of `skipGroup` that goes on has read: a field. -/
theorem skipGroupStep_field (hskip : ∀ tag, Skips (skip tag) (value tag)) {u u' : Unit}
    {input rest : Bytes} (h : skipGroupStep skip number u input = .next u' rest) :
    ∃ tag tagBytes bytes, input = tagBytes ++ (bytes ++ rest) ∧ IsTag tagBytes tag
      ∧ value tag bytes := by
  obtain ⟨tag, behind, hnext, -, hrest⟩ := skipGroupStep_next h
  obtain ⟨tagBytes, rfl, htag⟩ := nextTag_iff.mp hnext
  obtain ⟨bytes, rfl, hvalue⟩ := (hskip tag _ _).mp hrest
  exact ⟨tag, tagBytes, bytes, rfl, htag, hvalue⟩

/-- A pass of `skipGroup` on a field. -/
theorem skipGroupStep_of_field (hskip : ∀ tag, Skips (skip tag) (value tag))
    (hend : ∀ tag bytes, value tag bytes → tag.wireType ≠ .endGroup) {tag : Tag}
    {tagBytes bytes : Bytes} (htag : IsTag tagBytes tag) (hvalue : value tag bytes) (rest : Bytes) :
    skipGroupStep skip number () (tagBytes ++ (bytes ++ rest)) = .next () rest := by
  rw [skipGroupStep, htag.nextTag_append]
  simp only [if_neg (hend tag bytes hvalue), (hskip tag).append hvalue]

theorem skipGroupLoop_skips (hskip : ∀ tag, Skips (skip tag) (value tag))
    (hend : ∀ tag bytes, value tag bytes → tag.wireType ≠ .endGroup) :
    Skips (fun input => (Loop.run (skipGroupStep skip number) () input).2)
      (fun bytes => ∃ body endTag, bytes = body ++ endTag ∧ Fields value body
        ∧ IsTag endTag { number, wireType := .endGroup }) := by
  have hshrinks : ∀ tag, Shrinks (skip tag) := by
    intro tag input rest h
    obtain ⟨bytes, rfl, -⟩ := (hskip tag _ _).mp h
    rw [List.length_append]
    omega
  have hconsuming : Loop.Consuming (skipGroupStep skip number) := skipGroupStep_consuming hshrinks
  intro input rest
  constructor
  · refine Loop.run_induction hconsuming
      (fun _ input result => result.2 = .ok rest → ∃ bytes, input = bytes ++ rest ∧
        ∃ body endTag, bytes = body ++ endTag ∧ Fields value body
          ∧ IsTag endTag { number, wireType := .endGroup }) ?_ ?_ ?_ () input
    · intro u input u' last hdone hresult
      obtain rfl : last = rest := by simpa using hresult
      obtain ⟨endTag, rfl, htag⟩ := nextTag_iff.mp (skipGroupStep_done hdone)
      exact ⟨endTag, rfl, [], endTag, rfl, .nil, htag⟩
    · intro u input u' e _ hresult
      cases hresult
    · intro u input u' behind hstep ih hresult
      obtain ⟨tag, tagBytes, bytes, rfl, htag, hvalue⟩ := skipGroupStep_field hskip hstep
      obtain ⟨_, rfl, body, endTag, rfl, hbody, hendTag⟩ := ih hresult
      refine ⟨tagBytes ++ (bytes ++ (body ++ endTag)), by simp only [List.append_assoc],
        tagBytes ++ (bytes ++ body), endTag, by simp only [List.append_assoc],
        .cons htag hvalue hbody, hendTag⟩
  · rintro ⟨_, rfl, body, endTag, rfl, hbody, hendTag⟩
    show (Loop.run (skipGroupStep skip number) () _).2 = _
    induction hbody with
    | nil =>
        have hdone : skipGroupStep skip number () (endTag ++ rest) = .done () rest := by
          rw [skipGroupStep, hendTag.nextTag_append]
          simp
        rw [List.nil_append, Loop.run_of_done hdone]
    | cons htag hvalue _ ih =>
        simp only [List.append_assoc] at ih ⊢
        rw [Loop.run_of_next hconsuming (skipGroupStep_of_field hskip hend htag hvalue _)]
        exact ih

end

theorem endGroup_ne_of_isValue {group : Nat → Bytes → Prop} {tag : Tag} {bytes : Bytes}
    (h : IsValue group tag bytes) : tag.wireType ≠ .endGroup := by
  intro hend
  rw [IsValue, hend] at h
  exact h

/-- What `skipGroup` skips is a group. -/
theorem skipGroup_skips (levels number : Nat) :
    Skips (skipGroup levels number) (IsGroup levels number) := by
  induction levels generalizing number with
  | zero =>
      intro input rest
      simp [skipGroup, IsGroup]
  | succ levels ih =>
      intro input rest
      rw [skipGroup]
      exact skipGroupLoop_skips (fun tag => skipWith_skips (ih tag.number))
        (fun _ _ => endGroup_ne_of_isValue) input rest

/-- What `skipValue` skips is a value of the tag's wire type. -/
theorem skipValue_skips (levels : Nat) (tag : Tag) :
    Skips (skipValue levels tag) (IsValue (IsGroup levels) tag) :=
  skipWith_skips (skipGroup_skips levels tag.number)

/-- What is accepted as a raw field is one field. -/
theorem validateRawField_iff (raw : Bytes) :
    validateRawField raw = .ok () ↔ IsField recursionLimit raw := by
  constructor
  · intro h
    obtain ⟨tag, behind, hnext⟩ := nextTag_of_valid h
    unfold validateRawField at h
    rw [hnext] at h
    simp only at h
    cases hskip : skipValue recursionLimit tag behind with
    | error e => rw [hskip] at h; cases h
    | ok rest =>
        rw [hskip] at h
        simp only at h
        split at h
        · next hempty =>
          obtain ⟨tagBytes, rfl, htag⟩ := nextTag_iff.mp hnext
          obtain ⟨value, rfl, hvalue⟩ := (skipValue_skips _ _ _ _).mp hskip
          rw [List.isEmpty_iff.mp hempty, List.append_nil]
          exact ⟨tag, tagBytes, value, rfl, htag, hvalue⟩
        · cases h
  · rintro ⟨tag, tagBytes, value, rfl, htag, hvalue⟩
    have hskip := (skipValue_skips recursionLimit tag).append hvalue []
    rw [List.append_nil] at hskip
    rw [validateRawField, htag.nextTag_append]
    simp only [hskip]
    rfl

end Pbz
