import Pbz.Lib.Loop
import Pbz.Wire.Varint

set_option autoImplicit false

/-! # Tags, payloads and skipping

The `Reader` and `Writer` of `wire.zig`. A reader is the list of the bytes from its index on,
together with the number of levels it may still descend (`recursion_limit - recursion_depth`,
100 at the start). Writing functions return the bytes they append. Lengths and indices are the
64-bit `usize`.
-/

namespace Pbz

/-- `Reader.recursion_limit`, the levels a fresh reader may descend. -/
def recursionLimit : Nat := 100

inductive WireType where
  | varint
  | fixed64
  | lengthDelimited
  | startGroup
  | endGroup
  | fixed32
  deriving DecidableEq, Repr

def WireType.toNat : WireType → Nat
  | .varint => 0
  | .fixed64 => 1
  | .lengthDelimited => 2
  | .startGroup => 3
  | .endGroup => 4
  | .fixed32 => 5

def WireType.fromInt : Nat → Except Error WireType
  | 0 => .ok .varint
  | 1 => .ok .fixed64
  | 2 => .ok .lengthDelimited
  | 3 => .ok .startGroup
  | 4 => .ok .endGroup
  | 5 => .ok .fixed32
  | _ => .error .invalidWireType

/-- The largest `u29`. -/
def maxFieldNumber : Nat := 2 ^ 29 - 1

structure Tag where
  number : Nat
  wireType : WireType
  deriving DecidableEq, Repr

def Tag.encode (tag : Tag) : Except Error Nat :=
  if tag.number = 0 then .error .invalidFieldNumber
  else .ok (tag.number * 8 + tag.wireType.toNat)

def Tag.decode (value : Nat) : Except Error Tag :=
  let number := value / 8
  if number = 0 ∨ number > maxFieldNumber then .error .invalidFieldNumber
  else match WireType.fromInt (value % 8) with
    | .error e => .error e
    | .ok wireType => .ok { number, wireType }

/-- A field number that a tag can carry: a `u29` other than 0. -/
def ValidNumber (number : Nat) : Prop := 0 < number ∧ number ≤ maxFieldNumber

instance (number : Nat) : Decidable (ValidNumber number) :=
  inferInstanceAs (Decidable (_ ∧ _))

/-! ## Writing -/

def writeTag (number : Nat) (wireType : WireType) : Except Error Bytes :=
  match (Tag.mk number wireType).encode with
  | .error e => .error e
  | .ok raw => .ok (writeVarint raw)

/-- The varint length of the value's bytes and the bytes. -/
def lengthPrefixed (value : Bytes) : Bytes := writeVarint value.length ++ value

def writeBytes (number : Nat) (value : Bytes) : Except Error Bytes :=
  match writeTag number .lengthDelimited with
  | .error e => .error e
  | .ok tag => .ok (tag ++ lengthPrefixed value)

def writeMessage (number : Nat) (encodedMessage : Bytes) : Except Error Bytes :=
  writeBytes number encodedMessage

/-! ## Reading -/

/-- The next tag, `none` at the end of the input. -/
def nextTag (input : Bytes) : Except Error (Option (Tag × Bytes)) :=
  if input.isEmpty then .ok none
  else match readVarint input with
    | .error e => .error e
    | .ok (raw, rest) =>
        if input.length - rest.length > 5 then .error .malformedVarint
        else match Tag.decode raw with
          | .error e => .error e
          | .ok tag => .ok (some (tag, rest))

/-- The next `n` bytes. -/
def takeBytes (n : Nat) (input : Bytes) : ReadResult Bytes :=
  if input.length < n then .error .truncatedInput
  else .ok (input.take n, input.drop n)

def readBytes (input : Bytes) : ReadResult Bytes :=
  match input with
  | [] => .error .truncatedInput
  | first :: rest =>
      if first.toNat < 0x80 then takeBytes first.toNat rest
      else match readVarint input with
        | .error e => .error e
        | .ok (len, rest) => takeBytes len rest

/-- A little-endian word of `n` bytes. -/
def readRawLittle (n : Nat) (input : Bytes) : ReadResult Nat :=
  match takeBytes n input with
  | .error e => .error e
  | .ok (raw, rest) => .ok (ofLittleBytes raw, rest)

/-- The bytes between two positions of one reader: `input[start..position]`. -/
def consumed (start position : Bytes) : Bytes := start.take (start.length - position.length)

/-- What a read leaves, without what it returned. -/
def restOf {α : Type} (r : ReadResult α) : Except Error Bytes :=
  match r with
  | .error e => .error e
  | .ok (_, rest) => .ok rest

/-- One pass of the loop of `skipGroup`; `skip` is `skipValue`, one level down. -/
def skipGroupStep (skip : Tag → Bytes → Except Error Bytes) (number : Nat) (_ : Unit)
    (input : Bytes) : Loop.Step UInt8 Unit Error :=
  match nextTag input with
  | .error e => .fail () e
  | .ok none => .fail () .truncatedInput
  | .ok (some (tag, rest)) =>
      if tag.wireType = .endGroup then
        if tag.number ≠ number then .fail () .invalidFieldNumber else .done () rest
      else match skip tag rest with
        | .error e => .fail () e
        | .ok rest => .next () rest

/-- `skipValue`, given how a group with the tag's number is skipped. -/
def skipWith (skipGroup : Bytes → Except Error Bytes) (tag : Tag) (input : Bytes) :
    Except Error Bytes :=
  match tag.wireType with
  | .varint => restOf (readVarint input)
  | .fixed64 => restOf (takeBytes 8 input)
  | .lengthDelimited => restOf (readBytes input)
  | .fixed32 => restOf (takeBytes 4 input)
  | .startGroup => skipGroup input
  | .endGroup => .error .unsupportedWireType

/-- Skip a group's fields up to its end tag; `levels` is how far the reader may descend. -/
def skipGroup : Nat → Nat → Bytes → Except Error Bytes
  | 0, _, _ => .error .recursionLimitExceeded
  | levels + 1, number, input =>
      (Loop.run (skipGroupStep (fun tag => skipWith (skipGroup levels tag.number) tag) number)
        () input).2

def skipValue (levels : Nat) (tag : Tag) (input : Bytes) : Except Error Bytes :=
  skipWith (skipGroup levels tag.number) tag input

/-! ## Reading back what was written -/

theorem tag_decode_encode {number : Nat} (h : ValidNumber number) (wt : WireType) :
    Tag.decode (number * 8 + wt.toNat) = .ok { number, wireType := wt } := by
  have hwt : wt.toNat < 8 := by cases wt <;> decide
  have hn : (number * 8 + wt.toNat) / 8 = number := by omega
  have hm : (number * 8 + wt.toNat) % 8 = wt.toNat := by omega
  have hcond : ¬ (number = 0 ∨ number > maxFieldNumber) := by
    rintro (h0 | h0)
    · exact absurd h.1 (by omega)
    · exact absurd h.2 (by omega)
  simp only [Tag.decode, hn, hm, if_neg hcond]
  cases wt <;> rfl

theorem toNat_of_fromInt {type : Nat} {wireType : WireType}
    (h : WireType.fromInt type = .ok wireType) : wireType.toNat = type := by
  unfold WireType.fromInt at h
  split at h <;> cases h <;> rfl

/-- What decodes to a tag is the tag's number and wire type. -/
theorem tag_of_decode {value : Nat} {tag : Tag} (h : Tag.decode value = .ok tag) :
    ValidNumber tag.number ∧ value = tag.number * 8 + tag.wireType.toNat := by
  unfold Tag.decode at h
  simp only at h
  split at h
  · cases h
  · next hnumber =>
    cases hw : WireType.fromInt (value % 8) with
    | error e => rw [hw] at h; cases h
    | ok wireType =>
        rw [hw] at h
        cases h
        have htype := toNat_of_fromInt hw
        have hvalid : ValidNumber (value / 8) := ⟨by omega, by omega⟩
        refine ⟨hvalid, ?_⟩
        show value = value / 8 * 8 + wireType.toNat
        omega

theorem tag_lt {number : Nat} (h : ValidNumber number) (wt : WireType) :
    number * 8 + wt.toNat < 2 ^ 32 := by
  have hwt : wt.toNat < 8 := by cases wt <;> decide
  have h2 := h.2
  rw [maxFieldNumber] at h2
  omega

theorem writeTag_eq {number : Nat} (h : ValidNumber number) (wt : WireType) :
    writeTag number wt = .ok (writeVarint (number * 8 + wt.toNat)) := by
  have h0 : ¬ number = 0 := Nat.ne_of_gt h.1
  simp only [writeTag, Tag.encode, if_neg h0]

theorem writeVarint_length_le_five {v : Nat} (h : v < 2 ^ 32) : (writeVarint v).length ≤ 5 := by
  by_cases h0 : v = 0
  · subst h0; decide
  · have hl : Nat.log2 v < 32 := (Nat.log2_lt h0).mpr h
    rw [writeVarint, varintLadder_length 9 v (by omega) (by omega)]
    omega

@[simp] theorem nextTag_nil : nextTag [] = .ok none := rfl

/-- A tag is read when a varint of at most five bytes is, and decodes to it. -/
theorem nextTag_of_readVarint {input rest : Bytes} {raw : Nat} {tag : Tag}
    (hr : readVarint input = .ok (raw, rest)) (hl : input.length - rest.length ≤ 5)
    (ht : Tag.decode raw = .ok tag) : nextTag input = .ok (some (tag, rest)) := by
  have hne : ¬ input.isEmpty = true := by
    intro he
    rw [List.isEmpty_iff.mp he] at hr
    simp [readVarint, readLadder] at hr
  rw [nextTag, if_neg hne, hr]
  simp only
  rw [if_neg (by omega), ht]

/-- A written tag is read back. -/
theorem nextTag_tag {number : Nat} (h : ValidNumber number) (wt : WireType) (rest : Bytes) :
    nextTag (writeVarint (number * 8 + wt.toNat) ++ rest)
      = .ok (some ({ number, wireType := wt }, rest)) := by
  have hlt := tag_lt h wt
  have hlen := writeVarint_length_le_five hlt
  refine nextTag_of_readVarint (readVarint_writeVarint (by omega) rest) ?_
    (tag_decode_encode h wt)
  rw [List.length_append]
  omega

theorem takeBytes_append (value rest : Bytes) :
    takeBytes value.length (value ++ rest) = .ok (value, rest) := by
  rw [takeBytes, List.length_append, if_neg (by omega), List.take_left, List.drop_left]

/-- A written length-delimited payload is read back. -/
theorem readBytes_lengthPrefixed {value : Bytes} (h : value.length < 2 ^ 64) (rest : Bytes) :
    readBytes (lengthPrefixed value ++ rest) = .ok (value, rest) := by
  rw [lengthPrefixed, List.append_assoc]
  by_cases hs : value.length < 0x80
  · have hb : (UInt8.ofNat value.length).toNat = value.length := by
      rw [UInt8.toNat_ofNat']; omega
    rw [writeVarint_small hs, List.singleton_append, readBytes, hb, if_pos hs,
      takeBytes_append]
  · have hv : readVarint (writeVarint value.length ++ (value ++ rest))
        = .ok (value.length, value ++ rest) := readVarint_writeVarint h _
    have hhead : ∃ b bs, writeVarint value.length = b :: bs ∧ ¬ b.toNat < 0x80 := by
      rw [writeVarint, varintLadder, if_neg hs]
      refine ⟨_, _, rfl, ?_⟩
      rw [UInt8.toNat_ofNat']
      omega
    obtain ⟨b, bs, he, hb⟩ := hhead
    rw [he] at hv ⊢
    rw [List.cons_append] at hv ⊢
    rw [readBytes, if_neg hb, hv]
    simp only [takeBytes_append]

theorem readRawLittle_littleBytes (n v : Nat) (h : v < 256 ^ n) (rest : Bytes) :
    readRawLittle n (littleBytes n v ++ rest) = .ok (v, rest) := by
  have ht := takeBytes_append (littleBytes n v) rest
  rw [littleBytes_length] at ht
  rw [readRawLittle, ht]
  simp only [ofLittleBytes_littleBytes n v h]

/-! ## What reading uses -/

theorem takeBytes_length {n : Nat} {input value rest : Bytes}
    (h : takeBytes n input = .ok (value, rest)) : rest.length + n = input.length := by
  rw [takeBytes] at h
  split at h
  · simp at h
  · simp only [Except.ok.injEq, Prod.mk.injEq] at h
    rw [← h.2, List.length_drop]
    omega

theorem takeBytes_local (n : Nat) : Local (takeBytes n) := by
  intro bs v rest ys h
  rw [takeBytes] at h ⊢
  split at h
  · simp at h
  · next hn =>
    simp only [Except.ok.injEq, Prod.mk.injEq] at h
    rw [List.length_append, if_neg (by omega), ← h.1, ← h.2,
      List.take_append_of_le_length (by omega), List.drop_append_of_le_length (by omega)]

theorem readBytes_consumes : Consumes readBytes := by
  intro bs v rest h
  cases bs with
  | nil => simp [readBytes] at h
  | cons b bs =>
      rw [readBytes] at h
      split at h
      · have := takeBytes_length h
        simp only [List.length_cons]
        omega
      · split at h
        · simp at h
        · next len r hr =>
          have h1 := readVarint_consumes _ _ _ hr
          have h2 := takeBytes_length h
          omega

theorem takeBytes_value_length {n : Nat} {input value rest : Bytes}
    (h : takeBytes n input = .ok (value, rest)) :
    value.length + rest.length = input.length := by
  have hl := takeBytes_length h
  rw [takeBytes] at h
  split at h
  · simp at h
  · simp only [Except.ok.injEq, Prod.mk.injEq] at h
    rw [← h.1, List.length_take]
    omega

/-- A payload stands behind its length. -/
theorem readBytes_value_length {input value rest : Bytes}
    (h : readBytes input = .ok (value, rest)) : value.length + rest.length < input.length := by
  cases input with
  | nil => simp [readBytes] at h
  | cons b bs =>
      rw [readBytes] at h
      split at h
      · rw [takeBytes_value_length h, List.length_cons]
        exact Nat.lt_succ_self _
      · split at h
        · simp at h
        · next len r hr =>
          rw [takeBytes_value_length h]
          exact readVarint_consumes _ _ _ hr

theorem readBytes_local : Local readBytes := by
  intro bs v rest ys h
  cases bs with
  | nil => simp [readBytes] at h
  | cons b bs =>
      rw [List.cons_append, readBytes]
      rw [readBytes] at h
      split at h
      · next hb => rw [if_pos hb]; exact takeBytes_local _ _ _ _ ys h
      · next hb =>
        rw [if_neg hb, ← List.cons_append]
        split at h
        · simp at h
        · next len r hr =>
          rw [readVarint_local _ _ _ ys hr]
          exact takeBytes_local _ _ _ _ ys h

theorem readRawLittle_length {n : Nat} {input rest : Bytes} {v : Nat}
    (h : readRawLittle n input = .ok (v, rest)) : rest.length + n = input.length := by
  rw [readRawLittle] at h
  split at h
  · simp at h
  · next raw r hr =>
    simp only [Except.ok.injEq, Prod.mk.injEq] at h
    rw [← h.2]
    exact takeBytes_length hr

theorem readRawLittle_local (n : Nat) : Local (readRawLittle n) := by
  intro bs v rest ys h
  rw [readRawLittle] at h ⊢
  split at h
  · simp at h
  · next raw r hr =>
    simp only [Except.ok.injEq, Prod.mk.injEq] at h
    rw [takeBytes_local n _ _ _ ys hr, ← h.1, ← h.2]

theorem nextTag_some {input rest : Bytes} {tag : Tag} (h : nextTag input = .ok (some (tag, rest))) :
    ∃ raw, readVarint input = .ok (raw, rest) ∧ input.length - rest.length ≤ 5
      ∧ Tag.decode raw = .ok tag := by
  rw [nextTag] at h
  split at h
  · simp at h
  · cases hr : readVarint input with
    | error e => rw [hr] at h; simp at h
    | ok p =>
        obtain ⟨raw, r⟩ := p
        rw [hr] at h
        simp only at h
        split at h
        · simp at h
        · next hl =>
          cases ht : Tag.decode raw with
          | error e => rw [ht] at h; simp at h
          | ok t =>
              rw [ht] at h
              simp only [Except.ok.injEq, Option.some.injEq, Prod.mk.injEq] at h
              exact ⟨raw, by rw [h.2], by rw [← h.2]; omega, by rw [h.1] at ht; exact ht⟩

theorem nextTag_none {input : Bytes} (h : nextTag input = .ok none) : input = [] := by
  rw [nextTag] at h
  split at h
  · next he => exact List.isEmpty_iff.mp he
  · cases hr : readVarint input with
    | error e => rw [hr] at h; simp at h
    | ok p =>
        rw [hr] at h
        simp only at h
        split at h
        · simp at h
        · cases ht : Tag.decode p.1 with
          | error e => rw [ht] at h; simp at h
          | ok t => rw [ht] at h; simp at h

theorem nextTag_length {input rest : Bytes} {tag : Tag}
    (h : nextTag input = .ok (some (tag, rest))) : rest.length < input.length := by
  obtain ⟨raw, hr, -, -⟩ := nextTag_some h
  exact readVarint_consumes _ _ _ hr

theorem nextTag_local {input rest : Bytes} {tag : Tag} (ys : Bytes)
    (h : nextTag input = .ok (some (tag, rest))) :
    nextTag (input ++ ys) = .ok (some (tag, rest ++ ys)) := by
  have hlt := nextTag_length h
  obtain ⟨raw, hr, hl, ht⟩ := nextTag_some h
  refine nextTag_of_readVarint (readVarint_local _ _ _ ys hr) ?_ ht
  rw [List.length_append, List.length_append]
  omega

theorem consumed_append (a b ys : Bytes) : consumed (a ++ ys) (b ++ ys) = consumed a b := by
  rw [consumed, consumed, List.length_append, List.length_append,
    show a.length + ys.length - (b.length + ys.length) = a.length - b.length by omega,
    List.take_append_of_le_length (by omega)]

theorem consumed_prefix (raw rest : Bytes) : consumed (raw ++ rest) rest = raw := by
  rw [consumed, List.length_append, Nat.add_sub_cancel, List.take_left]

/-! ## What skipping uses -/

theorem restOf_ok {α : Type} {r : ReadResult α} {rest : Bytes} (h : restOf r = .ok rest) :
    ∃ v, r = .ok (v, rest) := by
  cases r with
  | error e => simp [restOf] at h
  | ok p =>
      simp only [restOf, Except.ok.injEq] at h
      exact ⟨p.1, by rw [← h]⟩

/-- A skipping function leaves no more than it was given. -/
def Shrinks (skip : Bytes → Except Error Bytes) : Prop :=
  ∀ input rest, skip input = .ok rest → rest.length ≤ input.length

/-- A skipping function does not look at the bytes after those it skipped. -/
def SkipsLocally (skip : Bytes → Except Error Bytes) : Prop :=
  ∀ input rest ys, skip input = .ok rest → skip (input ++ ys) = .ok (rest ++ ys)

theorem skipWith_shrinks {group : Bytes → Except Error Bytes} (hg : Shrinks group) (tag : Tag) :
    Shrinks (skipWith group tag) := by
  intro input rest h
  rw [skipWith] at h
  split at h
  · obtain ⟨v, hv⟩ := restOf_ok h
    exact Nat.le_of_lt (readVarint_consumes _ _ _ hv)
  · obtain ⟨v, hv⟩ := restOf_ok h
    have := takeBytes_length hv
    omega
  · obtain ⟨v, hv⟩ := restOf_ok h
    exact Nat.le_of_lt (readBytes_consumes _ _ _ hv)
  · obtain ⟨v, hv⟩ := restOf_ok h
    have := takeBytes_length hv
    omega
  · exact hg _ _ h
  · simp at h

theorem skipWith_local {group : Bytes → Except Error Bytes} (hg : SkipsLocally group)
    (tag : Tag) : SkipsLocally (skipWith group tag) := by
  intro input rest ys h
  rw [skipWith] at h ⊢
  cases hw : tag.wireType with
  | varint =>
      rw [hw] at h
      obtain ⟨v, hv⟩ := restOf_ok h
      simp only [readVarint_local _ _ _ ys hv, restOf]
  | fixed64 =>
      rw [hw] at h
      obtain ⟨v, hv⟩ := restOf_ok h
      simp only [takeBytes_local 8 _ _ _ ys hv, restOf]
  | lengthDelimited =>
      rw [hw] at h
      obtain ⟨v, hv⟩ := restOf_ok h
      simp only [readBytes_local _ _ _ ys hv, restOf]
  | fixed32 =>
      rw [hw] at h
      obtain ⟨v, hv⟩ := restOf_ok h
      simp only [takeBytes_local 4 _ _ _ ys hv, restOf]
  | startGroup => rw [hw] at h; exact hg _ _ ys h
  | endGroup => rw [hw] at h; simp at h

/-- What a pass of `skipGroup` that goes on has read. -/
theorem skipGroupStep_next {skip : Tag → Bytes → Except Error Bytes} {number : Nat} {u u' : Unit}
    {input rest : Bytes} (h : skipGroupStep skip number u input = .next u' rest) :
    ∃ tag r, nextTag input = .ok (some (tag, r)) ∧ tag.wireType ≠ .endGroup
      ∧ skip tag r = .ok rest := by
  rw [skipGroupStep] at h
  split at h
  · simp at h
  · simp at h
  · next tag r hr =>
    split at h
    · split at h <;> simp at h
    · next hw =>
      split at h
      · simp at h
      · next r' hs =>
        simp only [Loop.Step.next.injEq] at h
        exact ⟨tag, r, hr, hw, by rw [hs, h.2]⟩

/-- What the pass of `skipGroup` that ends the group has read. -/
theorem skipGroupStep_done {skip : Tag → Bytes → Except Error Bytes} {number : Nat} {u u' : Unit}
    {input rest : Bytes} (h : skipGroupStep skip number u input = .done u' rest) :
    nextTag input = .ok (some ({ number, wireType := .endGroup }, rest)) := by
  rw [skipGroupStep] at h
  split at h
  · simp at h
  · simp at h
  · next tag r hr =>
    split at h
    · next hw =>
      split at h
      · simp at h
      · next hn =>
        simp only [Loop.Step.done.injEq] at h
        have ht : tag = { number, wireType := .endGroup } := by
          cases tag
          simp only [not_not] at hn
          simp only at hw
          rw [hn, hw]
        rw [hr, ht, h.2]
    · split at h <;> simp at h

section
variable {skip : Tag → Bytes → Except Error Bytes} {number : Nat}

theorem skipGroupStep_consuming (hs : ∀ tag, Shrinks (skip tag)) :
    Loop.Consuming (skipGroupStep skip number) := by
  intro u xs u' xs' h
  obtain ⟨tag, r, hr, -, hk⟩ := skipGroupStep_next h
  have h1 := nextTag_length hr
  have h2 := hs tag _ _ hk
  omega

theorem skipGroupStep_extends (hl : ∀ tag, SkipsLocally (skip tag)) :
    Loop.Extends (skipGroupStep skip number) := by
  intro u xs u' xs' ys h
  obtain ⟨tag, r, hr, hw, hk⟩ := skipGroupStep_next h
  rw [skipGroupStep, nextTag_local ys hr]
  simp only [if_neg hw, hl tag _ _ ys hk]

theorem skipGroupStep_done_append {u u' : Unit} {input rest : Bytes} (ys : Bytes)
    (h : skipGroupStep skip number u input = .done u' rest) :
    skipGroupStep skip number u (input ++ ys) = .done u' (rest ++ ys) := by
  rw [skipGroupStep, nextTag_local ys (skipGroupStep_done h)]
  simp

end

theorem skipGroup_shrinks (levels number : Nat) : Shrinks (skipGroup levels number) := by
  induction levels generalizing number with
  | zero => intro input rest h; simp [skipGroup] at h
  | succ levels ih =>
      intro input rest h
      rw [skipGroup] at h
      have hs : ∀ tag : Tag, Shrinks (skipWith (skipGroup levels tag.number) tag) :=
        fun tag => skipWith_shrinks (ih tag.number) tag
      exact Loop.run_length_le (skipGroupStep_consuming hs)
        (fun u xs u' r hb => Nat.le_of_lt (nextTag_length (skipGroupStep_done hb))) () input
        (Prod.ext rfl h)

theorem skipGroup_local (levels number : Nat) : SkipsLocally (skipGroup levels number) := by
  induction levels generalizing number with
  | zero => intro input rest ys h; simp [skipGroup] at h
  | succ levels ih =>
      intro input rest ys h
      rw [skipGroup] at h ⊢
      have hs : ∀ tag : Tag, Shrinks (skipWith (skipGroup levels tag.number) tag) :=
        fun tag => skipWith_shrinks (skipGroup_shrinks levels tag.number) tag
      have hl : ∀ tag : Tag, SkipsLocally (skipWith (skipGroup levels tag.number) tag) :=
        fun tag => skipWith_local (ih tag.number) tag
      rw [Loop.run_extend (skipGroupStep_consuming hs) (skipGroupStep_extends hl)
        (fun u xs u' r ys hb => skipGroupStep_done_append ys hb) () input (Prod.ext rfl h) ys]

theorem skipValue_shrinks (levels : Nat) (tag : Tag) : Shrinks (skipValue levels tag) :=
  skipWith_shrinks (skipGroup_shrinks levels tag.number) tag

theorem skipValue_local (levels : Nat) (tag : Tag) : SkipsLocally (skipValue levels tag) :=
  skipWith_local (skipGroup_local levels tag.number) tag

end Pbz
