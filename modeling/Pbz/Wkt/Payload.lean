import Pbz.Json.Integers
import Pbz.Lib.JsonString
import Pbz.Parser.Runs
import Pbz.Wkt.Utf8

set_option autoImplicit false

/-! # String payloads

`Timestamp`, `Duration` and `FieldMask` are read from a JSON string, whose escapes are resolved by a
loop of its own. The code units of its escapes are read with `std.fmt.parseInt`, and the characters
between the escapes are copied as bytes.
-/

namespace Pbz

namespace Wkt

open JsonString (utf8 escapedByte)

inductive WktError where
  | invalidTimestamp
  | invalidDuration
  | invalidFieldMask
  | timestampOutOfRange
  | durationOutOfRange
  | invalidNanos
  | durationSignMismatch
  deriving DecidableEq, Repr

/-- Why a function ends without a value: with an error, at an arithmetic step or a cast that leaves
its integer type, or at an `unreachable`. `fuel` marks a loop of the model that has been given too
few rounds. -/
inductive WktStop where
  | error (e : WktError)
  | overflow
  | «unreachable»
  | fuel
  deriving DecidableEq, Repr

/-! ## The loop -/

/-- `parseJsonHexCodeUnit`; the text begins at the index. -/
def parseJsonHexCodeUnit (invalid : WktError) (text : Bytes) : Except WktStop (Nat × Bytes) :=
  if text.length < 4 then .error (.error invalid)
  else match parseInt ⟨0, 2 ^ 16 - 1⟩ (text.take 4) 16 with
    | none => .error (.error invalid)
    | some value => .ok (value.toNat, text.drop 4)

/-- The code point of an escape behind its `\u`. -/
def readCodepoint (invalid : WktError) (text : Bytes) : Except WktStop (Nat × Bytes) := do
  let (codepoint, rest) ← parseJsonHexCodeUnit invalid text
  if codepoint ≥ 0xd800 && codepoint ≤ 0xdbff then
    if rest.length < 6 || rest.take 2 != ascii "\\u" then .error (.error invalid)
    else do
      let (low, rest) ← parseJsonHexCodeUnit invalid (rest.drop 2)
      if low < 0xdc00 || low > 0xdfff then .error (.error invalid)
      else return (0x10000 + ((codepoint - 0xd800) <<< 10) + (low - 0xdc00), rest)
  else if codepoint ≥ 0xdc00 && codepoint ≤ 0xdfff then .error (.error invalid)
  else return (codepoint, rest)

/-- `std.unicode.utf8Encode`. -/
def utf8Encode (codepoint : Nat) : Option Bytes :=
  if codepoint > 0x10ffff || (codepoint ≥ 0xd800 && codepoint ≤ 0xdfff) then none
  else some (utf8 codepoint)

/-- What stands behind a backslash. -/
def readEscape (invalid : WktError) (text : Bytes) : Except WktStop (Bytes × Bytes) :=
  match text with
  | [] => .error (.error invalid)
  | letter :: rest =>
      match escapedByte letter with
      | some byte => .ok ([byte], rest)
      | none =>
          if letter == 0x75 then do
            let (codepoint, rest) ← readCodepoint invalid rest
            match utf8Encode codepoint with
            | none => .error (.error invalid)
            | some encoded => return (encoded, rest)
          else .error (.error invalid)

/-- The loop of `unescapeJsonStringPayload`. -/
def unescape (invalid : WktError) : Nat → Bytes → Except WktStop Bytes
  | _, [] => .ok []
  | 0, _ :: _ => .error .fuel
  | rounds + 1, byte :: rest =>
      if byte < 0x20 then .error (.error invalid)
      else if byte != 0x5c then (unescape invalid rounds rest).map (byte :: ·)
      else do
        let (bytes, rest) ← readEscape invalid rest
        let more ← unescape invalid rounds rest
        return bytes ++ more

def unescapeJsonStringPayload (invalid : WktError) (text : Bytes) : Except WktStop Bytes :=
  unescape invalid text.length text

/-- The text between quotes; without quotes it is taken as it stands. -/
def jsonStringPayload (invalid : WktError) (text : Bytes) : Except WktStop Bytes :=
  if text.length < 2 || text.head? != some 0x22 || text.getLast? != some 0x22 then .ok text
  else
    let inner := (text.drop 1).dropLast
    if !text.contains 0x5c then .ok inner
    else unescapeJsonStringPayload invalid inner

/-! ## Bodies of JSON strings -/

/-- Four hexadecimal digits. -/
structure CodeUnit (digits : Bytes) : Prop where
  length : digits.length = 4
  digits : ∀ c ∈ digits, IsDigitOf 16 c

def unitNumber (digits : Bytes) : Nat := digitsNumber 16 0 digits

def pairNumber (high low : Nat) : Nat := 0x10000 + (high - 0xd800) * 1024 + (low - 0xdc00)

/-- The text is the body of a JSON string that denotes the code points. -/
inductive JsonBody : Bytes → List Nat → Prop where
  | nil : JsonBody [] []
  | character {point : Nat} {text : Bytes} {points : List Nat} (hscalar : IsScalar point)
      (hcontrol : 0x20 ≤ point) (hquote : point ≠ 0x22) (hslash : point ≠ 0x5c)
      (h : JsonBody text points) : JsonBody (utf8 point ++ text) (point :: points)
  | short {letter byte : UInt8} {text : Bytes} {points : List Nat}
      (hletter : escapedByte letter = some byte) (h : JsonBody text points) :
      JsonBody (0x5c :: letter :: text) (byte.toNat :: points)
  | unit {digits text : Bytes} {points : List Nat} (hdigits : CodeUnit digits)
      (hscalar : IsScalar (unitNumber digits)) (h : JsonBody text points) :
      JsonBody (0x5c :: 0x75 :: (digits ++ text)) (unitNumber digits :: points)
  | pair {high low text : Bytes} {points : List Nat} (hhigh : CodeUnit high) (hlow : CodeUnit low)
      (hhighRange : 0xd800 ≤ unitNumber high ∧ unitNumber high ≤ 0xdbff)
      (hlowRange : 0xdc00 ≤ unitNumber low ∧ unitNumber low ≤ 0xdfff) (h : JsonBody text points) :
      JsonBody (0x5c :: 0x75 :: (high ++ 0x5c :: 0x75 :: (low ++ text)))
        (pairNumber (unitNumber high) (unitNumber low) :: points)

/-- The text has a sign or an underscore. -/
def HasSign (text : Bytes) : Prop := 0x2b ∈ text ∨ 0x2d ∈ text ∨ 0x5f ∈ text

/-! ## Pieces -/

/-- What a round of the loop takes off the text. -/
inductive Piece where
  | plain (c : UInt8)
  | short (letter byte : UInt8)
  | unit (group : Bytes)
  | pair (high low : Bytes)

/-- The number that `parseInt` reads off a group of four characters. -/
def groupNumber (group : Bytes) : Nat := ((parseInt ⟨0, 2 ^ 16 - 1⟩ group 16).getD 0).toNat

/-- Four characters that `parseInt` accepts. -/
structure Group (group : Bytes) : Prop where
  length : group.length = 4
  parsed : (parseInt ⟨0, 2 ^ 16 - 1⟩ group 16).isSome

namespace Piece

def text : Piece → Bytes
  | plain c => [c]
  | short letter _ => [0x5c, letter]
  | unit group => 0x5c :: 0x75 :: group
  | pair high low => 0x5c :: 0x75 :: (high ++ 0x5c :: 0x75 :: low)

def bytes : Piece → Bytes
  | plain c => [c]
  | short _ byte => [byte]
  | unit group => utf8 (groupNumber group)
  | pair high low => utf8 (pairNumber (groupNumber high) (groupNumber low))

/-- The loop takes the piece. -/
def Accepted : Piece → Prop
  | plain c => 0x20 ≤ c.toNat ∧ c ≠ 0x5c
  | short letter byte => escapedByte letter = some byte
  | unit group => Group group ∧ IsScalar (groupNumber group)
  | pair high low => Group high ∧ Group low
      ∧ (0xd800 ≤ groupNumber high ∧ groupNumber high ≤ 0xdbff)
      ∧ (0xdc00 ≤ groupNumber low ∧ groupNumber low ≤ 0xdfff)

/-- A quote that is not escaped, or a code unit with a sign or an underscore. -/
def Loose : Piece → Prop
  | plain c => c = 0x22
  | short _ _ => False
  | unit group => HasSign group
  | pair high low => HasSign high ∨ HasSign low

end Piece

/-- The text is made of pieces that the loop takes, and one of them is loose or the text is not
UTF-8. -/
def LooselyAccepted (text : Bytes) : Prop :=
  ∃ pieces : List Piece, (∀ piece ∈ pieces, piece.Accepted) ∧ text = pieces.flatMap Piece.text
    ∧ ((∃ piece ∈ pieces, piece.Loose) ∨ utf8ValidateSlice text = false)

/-! ## Groups of four characters -/

/-- What `parseInt` accepts without a sign or an underscore is made of digits. -/
theorem digits_of_parseInt {type : IntegerType} {text : Bytes} {number : Int}
    (h : parseInt type text 16 = some number) (hsign : ¬ HasSign text) :
    ∀ c ∈ text, IsDigitOf 16 c := by
  obtain ⟨hplus, hminus, hunderscore⟩ : 0x2b ∉ text ∧ 0x2d ∉ text ∧ 0x5f ∉ text := by
    simpa [HasSign] using hsign
  have hloose : ¬ Loose 16 text := by
    rintro (⟨rfl | rfl, -⟩ | ⟨hmem, -⟩)
    · exact hplus List.mem_cons_self
    · exact hminus List.mem_cons_self
    · exact hunderscore hmem
  exact ((parseInt_eq_some_iff (by decide) (Nat.le_refl 16) hloose).mp h).2.1

theorem CodeUnit.parseInt_eq {digits : Bytes} (h : CodeUnit digits) :
    parseInt ⟨0, 2 ^ 16 - 1⟩ digits 16 = some (unitNumber digits : Int) := by
  cases digits with
  | nil => cases h.length
  | cons c rest =>
      have hvalue : ∀ c : UInt8, digitValue c < 16 := forall_byte (by decide)
      have hlt : digitsNumber 16 0 (c :: rest) < 65536 :=
        calc digitsNumber 16 0 (c :: rest)
            < (0 + 1) * 16 ^ (c :: rest).length := digitsNumber_lt_pow 0 (fun c _ => hvalue c)
          _ = 65536 := by rw [h.length]; rfl
      rw [parseInt_digits (by decide) (Nat.le_refl 16) h.digits]
      exact if_pos ⟨Int.natCast_nonneg _, by dsimp only; omega⟩

theorem CodeUnit.group {digits : Bytes} (h : CodeUnit digits) :
    Group digits ∧ groupNumber digits = unitNumber digits ∧ ¬ HasSign digits := by
  refine ⟨⟨h.length, by rw [h.parseInt_eq]; rfl⟩, by rw [groupNumber, h.parseInt_eq]; rfl, ?_⟩
  rintro (hplus | hminus | hunderscore)
  · exact (h.digits _ hplus).ne_sign.1 rfl
  · exact (h.digits _ hminus).ne_sign.2 rfl
  · exact (h.digits _ hunderscore).ne_underscore rfl

theorem Group.codeUnit {group : Bytes} (h : Group group) (hsign : ¬ HasSign group) :
    CodeUnit group := by
  obtain ⟨number, hnumber⟩ := Option.isSome_iff_exists.mp h.parsed
  exact ⟨h.length, digits_of_parseInt hnumber hsign⟩

theorem Group.parseInt_eq {group : Bytes} (h : Group group) :
    ∃ number : Int, parseInt ⟨0, 2 ^ 16 - 1⟩ group 16 = some number
      ∧ groupNumber group = number.toNat ∧ groupNumber group ≤ 0xffff := by
  obtain ⟨number, hnumber⟩ := Option.isSome_iff_exists.mp h.parsed
  have hgroup : groupNumber group = number.toNat := by rw [groupNumber, hnumber]; rfl
  obtain ⟨-, hhigh⟩ := fits_of_parseInt hnumber
  have hle : number ≤ 65535 := hhigh
  exact ⟨number, hnumber, hgroup, by omega⟩

section

variable (invalid : WktError)

theorem parseJsonHexCodeUnit_group {group : Bytes} (h : Group group) (rest : Bytes) :
    parseJsonHexCodeUnit invalid (group ++ rest) = .ok (groupNumber group, rest) := by
  obtain ⟨number, hnumber, hgroup, -⟩ := h.parseInt_eq
  have hlength : ¬ (group ++ rest).length < 4 := by
    rw [List.length_append, h.length]
    omega
  have htake : (group ++ rest).take 4 = group := List.take_left' h.length
  have hdrop : (group ++ rest).drop 4 = rest := List.drop_left' h.length
  rw [parseJsonHexCodeUnit, if_neg hlength, htake, hdrop, hnumber, hgroup]

theorem group_of_parseJsonHexCodeUnit {text rest : Bytes} {number : Nat}
    (h : parseJsonHexCodeUnit invalid text = .ok (number, rest)) :
    ∃ group, Group group ∧ text = group ++ rest ∧ number = groupNumber group := by
  rw [parseJsonHexCodeUnit] at h
  split at h
  · cases h
  · next hlength =>
    cases hparse : parseInt ⟨0, 2 ^ 16 - 1⟩ (text.take 4) 16 with
    | none =>
        rw [hparse] at h
        cases h
    | some value =>
        rw [hparse] at h
        cases h
        refine ⟨text.take 4, ⟨?_, by rw [hparse]; rfl⟩, (List.take_append_drop 4 text).symm,
          by rw [groupNumber, hparse]; rfl⟩
        rw [List.length_take]
        omega

/-! ## What the loop accepts -/

theorem utf8Encode_scalar {point : Nat} (h : IsScalar point) : utf8Encode point = some (utf8 point) := by
  unfold IsScalar at h
  rw [utf8Encode, if_neg]
  simp only [Bool.or_eq_true, Bool.and_eq_true, decide_eq_true_eq]
  omega

theorem isScalar_pairNumber {high low : Nat} (hhigh : 0xd800 ≤ high ∧ high ≤ 0xdbff)
    (hlow : 0xdc00 ≤ low ∧ low ≤ 0xdfff) : IsScalar (pairNumber high low) := by
  unfold IsScalar pairNumber
  omega

theorem readCodepoint_unit {group : Bytes} (h : Group group) (hscalar : IsScalar (groupNumber group))
    (rest : Bytes) : readCodepoint invalid (group ++ rest) = .ok (groupNumber group, rest) := by
  have hlead : ¬ (0xd800 ≤ groupNumber group ∧ groupNumber group ≤ 0xdbff) := by
    unfold IsScalar at hscalar
    omega
  have htrail : ¬ (0xdc00 ≤ groupNumber group ∧ groupNumber group ≤ 0xdfff) := by
    unfold IsScalar at hscalar
    omega
  rw [readCodepoint, parseJsonHexCodeUnit_group invalid h]
  simp [Bind.bind, Except.bind, hlead, htrail]
  rfl

theorem readCodepoint_pair {high low : Bytes} (hhigh : Group high) (hlow : Group low)
    (hhighRange : 0xd800 ≤ groupNumber high ∧ groupNumber high ≤ 0xdbff)
    (hlowRange : 0xdc00 ≤ groupNumber low ∧ groupNumber low ≤ 0xdfff) (rest : Bytes) :
    readCodepoint invalid (high ++ 0x5c :: 0x75 :: (low ++ rest))
      = .ok (pairNumber (groupNumber high) (groupNumber low), rest) := by
  have hlead : (decide (groupNumber high ≥ 0xd800) && decide (groupNumber high ≤ 0xdbff)) = true := by
    rw [decide_eq_true hhighRange.1, decide_eq_true hhighRange.2]
    rfl
  have hlength : ¬ (0x5c :: 0x75 :: (low ++ rest)).length < 6 := by
    rw [List.length_cons, List.length_cons, List.length_append, hlow.length]
    omega
  have hmark : (decide ((0x5c :: 0x75 :: (low ++ rest)).length < 6)
      || (0x5c :: 0x75 :: (low ++ rest)).take 2 != ascii "\\u") = false := by
    rw [decide_eq_false hlength]
    rfl
  have hrange : (decide (groupNumber low < 0xdc00) || decide (groupNumber low > 0xdfff)) = false := by
    rw [decide_eq_false (Nat.not_lt.mpr hlowRange.1), decide_eq_false (Nat.not_lt.mpr hlowRange.2)]
    rfl
  have hshift : (groupNumber high - 0xd800) <<< 10 = (groupNumber high - 0xd800) * 1024 := by
    rw [Nat.shiftLeft_eq]
  have hlowRead : parseJsonHexCodeUnit invalid ((0x5c :: 0x75 :: (low ++ rest)).drop 2)
      = .ok (groupNumber low, rest) := parseJsonHexCodeUnit_group invalid hlow rest
  rw [readCodepoint, parseJsonHexCodeUnit_group invalid hhigh]
  simp only [Bind.bind, Except.bind, hlead, hmark, hlowRead, hrange, hshift, if_true,
    Bool.false_eq_true, if_false]
  rfl

/-- The code point of an escape is that of a group, or of two that are surrogates. -/
theorem piece_of_readCodepoint {text rest : Bytes} {point : Nat}
    (h : readCodepoint invalid text = .ok (point, rest)) :
    ∃ piece : Piece, piece.Accepted ∧ 0x5c :: 0x75 :: text = piece.text ++ rest
      ∧ piece.bytes = utf8 point ∧ IsScalar point := by
  rw [readCodepoint] at h
  cases hfirst : parseJsonHexCodeUnit invalid text with
  | error e =>
      rw [hfirst] at h
      cases h
  | ok read =>
      obtain ⟨codepoint, more⟩ := read
      obtain ⟨group, hgroup, rfl, rfl⟩ := group_of_parseJsonHexCodeUnit invalid hfirst
      obtain ⟨-, -, -, hle⟩ := hgroup.parseInt_eq
      rw [hfirst] at h
      simp only [Bind.bind, Except.bind] at h
      split at h
      · next hlead =>
        simp only [Bool.and_eq_true, decide_eq_true_eq] at hlead
        split at h
        · cases h
        · next hmark =>
          simp only [Bool.or_eq_true, decide_eq_true_eq, bne_iff_ne, not_or, not_not] at hmark
          have hrest : more = 0x5c :: 0x75 :: more.drop 2 := by
            have happend := List.take_append_drop 2 more
            rw [hmark.2] at happend
            exact happend.symm
          cases hsecond : parseJsonHexCodeUnit invalid (more.drop 2) with
          | error e =>
              rw [hsecond] at h
              cases h
          | ok read =>
              obtain ⟨low, after⟩ := read
              obtain ⟨second, hlow, hdrop, rfl⟩ := group_of_parseJsonHexCodeUnit invalid hsecond
              rw [hsecond] at h
              dsimp only at h
              split at h
              · cases h
              · next hrange =>
                simp only [Bool.or_eq_true, decide_eq_true_eq, not_or, Nat.not_lt] at hrange
                have hshift : (groupNumber group - 0xd800) <<< 10
                    = (groupNumber group - 0xd800) * 1024 := by rw [Nat.shiftLeft_eq]
                rw [hshift] at h
                obtain ⟨hpoint, rfl⟩ := Prod.mk.inj (Except.ok.inj h)
                rw [← hpoint]
                refine ⟨.pair group second, ⟨hgroup, hlow, hlead, hrange⟩, ?_, rfl,
                  isScalar_pairNumber hlead hrange⟩
                rw [hrest, hdrop]
                simp [Piece.text]
      · next hlead =>
        simp only [Bool.and_eq_true, decide_eq_true_eq] at hlead
        split at h
        · cases h
        · next htrail =>
          simp only [Bool.and_eq_true, decide_eq_true_eq] at htrail
          cases h
          have hscalar : IsScalar (groupNumber group) := by
            unfold IsScalar
            omega
          exact ⟨.unit group, ⟨hgroup, hscalar⟩, rfl, rfl, hscalar⟩

theorem readEscape_short {letter byte : UInt8} (h : escapedByte letter = some byte) (rest : Bytes) :
    readEscape invalid (letter :: rest) = .ok ([byte], rest) := by
  rw [readEscape, h]

theorem readEscape_codepoint {text rest : Bytes} {point : Nat}
    (h : readCodepoint invalid text = .ok (point, rest)) (hscalar : IsScalar point) :
    readEscape invalid (0x75 :: text) = .ok (utf8 point, rest) := by
  have hnone : escapedByte 0x75 = none := rfl
  simp [readEscape, hnone, h, utf8Encode_scalar hscalar, Bind.bind, Except.bind]
  rfl

/-- What stands behind a backslash makes a piece with it. -/
theorem piece_of_readEscape {text bytes rest : Bytes}
    (h : readEscape invalid text = .ok (bytes, rest)) :
    ∃ piece : Piece, piece.Accepted ∧ 0x5c :: text = piece.text ++ rest ∧ piece.bytes = bytes := by
  cases text with
  | nil => cases h
  | cons letter text =>
      rw [readEscape] at h
      cases hletter : escapedByte letter with
      | some byte =>
          rw [hletter] at h
          cases h
          exact ⟨.short letter byte, hletter, rfl, rfl⟩
      | none =>
          rw [hletter] at h
          dsimp only at h
          split at h
          · next hu =>
            rw [beq_iff_eq.mp hu]
            cases hread : readCodepoint invalid text with
            | error e =>
                rw [hread] at h
                cases h
            | ok read =>
                obtain ⟨point, after⟩ := read
                obtain ⟨piece, hpiece, htext, hbytes, hscalar⟩ :=
                  piece_of_readCodepoint invalid hread
                simp only [hread, Bind.bind, Except.bind, utf8Encode_scalar hscalar] at h
                cases h
                exact ⟨piece, hpiece, htext, hbytes⟩
          · cases h

theorem unescape_escape {text bytes rest : Bytes} (h : readEscape invalid text = .ok (bytes, rest))
    (rounds : Nat) : unescape invalid (rounds + 1) (0x5c :: text)
      = (unescape invalid rounds rest).map (bytes ++ ·) := by
  show (readEscape invalid text).bind (fun read =>
    (unescape invalid rounds read.2).bind (fun more => .ok (read.1 ++ more))) = _
  rw [h]
  show (unescape invalid rounds rest).bind (fun more => .ok (bytes ++ more)) = _
  cases unescape invalid rounds rest <;> rfl

/-- A round takes a piece, whatever follows it. -/
theorem unescape_piece {piece : Piece} (h : piece.Accepted) (rounds : Nat) (rest : Bytes) :
    unescape invalid (rounds + 1) (piece.text ++ rest)
      = (unescape invalid rounds rest).map (piece.bytes ++ ·) := by
  cases piece with
  | plain c =>
      obtain ⟨hcontrol, hslash⟩ := h
      have hlow : ¬ c < 0x20 := Nat.not_lt.mpr hcontrol
      show unescape invalid (rounds + 1) (c :: rest) = _
      rw [unescape, if_neg hlow, if_pos (bne_iff_ne.mpr hslash)]
      rfl
  | short letter byte => exact unescape_escape invalid (readEscape_short invalid h rest) rounds
  | unit group =>
      have hread := readCodepoint_unit invalid h.1 h.2 rest
      exact unescape_escape invalid (readEscape_codepoint invalid hread h.2) rounds
  | pair high low =>
      obtain ⟨hhigh, hlow, hhighRange, hlowRange⟩ := h
      have hread := readCodepoint_pair invalid hhigh hlow hhighRange hlowRange rest
      have htext : (Piece.pair high low).text ++ rest
          = 0x5c :: 0x75 :: (high ++ 0x5c :: 0x75 :: (low ++ rest)) := by simp [Piece.text]
      rw [htext]
      exact unescape_escape invalid
        (readEscape_codepoint invalid hread (isScalar_pairNumber hhighRange hlowRange)) rounds

theorem piece_of_unescape {rounds : Nat} {c : UInt8} {text bytes : Bytes}
    (h : unescape invalid (rounds + 1) (c :: text) = .ok bytes) :
    ∃ (piece : Piece) (rest more : Bytes), piece.Accepted ∧ c :: text = piece.text ++ rest
      ∧ unescape invalid rounds rest = .ok more ∧ bytes = piece.bytes ++ more := by
  have hcontrol : ¬ c < 0x20 := by
    intro hlow
    rw [unescape, if_pos hlow] at h
    cases h
  by_cases hslash : c = 0x5c
  · rw [hslash] at h ⊢
    cases hescape : readEscape invalid text with
    | error e =>
        simp [unescape, hescape, Bind.bind, Except.bind] at h
    | ok read =>
        obtain ⟨escaped, rest⟩ := read
        obtain ⟨piece, hpiece, htext, rfl⟩ := piece_of_readEscape invalid hescape
        rw [unescape_escape invalid hescape] at h
        cases hmore : unescape invalid rounds rest with
        | error e =>
            rw [hmore] at h
            cases h
        | ok more =>
            rw [hmore] at h
            cases h
            exact ⟨piece, rest, more, hpiece, htext, hmore, rfl⟩
  · rw [unescape, if_neg hcontrol, if_pos (bne_iff_ne.mpr hslash)] at h
    cases hmore : unescape invalid rounds text with
    | error e =>
        rw [hmore] at h
        cases h
    | ok more =>
        rw [hmore] at h
        cases h
        exact ⟨.plain c, text, more, ⟨Nat.not_lt.mp hcontrol, hslash⟩, rfl, hmore, rfl⟩

/-- The loop takes pieces, and gives the bytes of them all. -/
theorem unescape_pieces {pieces : List Piece} (h : ∀ piece ∈ pieces, piece.Accepted) {rounds : Nat}
    (hrounds : pieces.length ≤ rounds) :
    unescape invalid rounds (pieces.flatMap Piece.text) = .ok (pieces.flatMap Piece.bytes) := by
  induction pieces generalizing rounds with
  | nil => cases rounds <;> rfl
  | cons piece pieces ih =>
      obtain ⟨hpiece, hpieces⟩ := List.forall_mem_cons.mp h
      obtain ⟨rounds, rfl⟩ : ∃ n, rounds = n + 1 :=
        Nat.exists_eq_add_one.mpr (Nat.zero_lt_of_lt hrounds)
      rw [List.flatMap_cons, unescape_piece invalid hpiece,
        ih hpieces (Nat.le_of_succ_le_succ hrounds)]
      rfl

theorem pieces_of_unescape {rounds : Nat} {text bytes : Bytes}
    (h : unescape invalid rounds text = .ok bytes) :
    ∃ pieces : List Piece, (∀ piece ∈ pieces, piece.Accepted)
      ∧ text = pieces.flatMap Piece.text ∧ bytes = pieces.flatMap Piece.bytes := by
  induction rounds generalizing text bytes with
  | zero =>
      cases text with
      | nil =>
          cases h
          exact ⟨[], by simp, rfl, rfl⟩
      | cons c text => cases h
  | succ rounds ih =>
      cases text with
      | nil =>
          cases h
          exact ⟨[], by simp, rfl, rfl⟩
      | cons c text =>
          obtain ⟨piece, rest, more, hpiece, htext, hmore, rfl⟩ := piece_of_unescape invalid h
          obtain ⟨pieces, hpieces, rfl, rfl⟩ := ih hmore
          exact ⟨piece :: pieces, List.forall_mem_cons.mpr ⟨hpiece, hpieces⟩, htext, rfl⟩

theorem pieces_length_le (pieces : List Piece) :
    pieces.length ≤ (pieces.flatMap Piece.text).length := by
  induction pieces with
  | nil => simp
  | cons piece pieces ih =>
      have hpiece : 1 ≤ piece.text.length := by cases piece <;> simp [Piece.text]
      rw [List.flatMap_cons, List.length_append, List.length_cons]
      omega

/-- `unescapeJsonStringPayload` accepts the texts that are made of pieces, and returns the bytes of
these. -/
theorem unescapeJsonStringPayload_iff {text bytes : Bytes} :
    unescapeJsonStringPayload invalid text = .ok bytes ↔
      ∃ pieces : List Piece, (∀ piece ∈ pieces, piece.Accepted)
        ∧ text = pieces.flatMap Piece.text ∧ bytes = pieces.flatMap Piece.bytes := by
  constructor
  · exact pieces_of_unescape invalid
  · rintro ⟨pieces, hpieces, rfl, rfl⟩
    exact unescape_pieces invalid hpieces (pieces_length_le pieces)

end

/-! ## What the loop refuses -/

section

variable (invalid : WktError)

theorem parseJsonHexCodeUnit_outcome (text : Bytes) :
    (∃ read, parseJsonHexCodeUnit invalid text = .ok read)
      ∨ parseJsonHexCodeUnit invalid text = .error (.error invalid) := by
  rw [parseJsonHexCodeUnit]
  split
  · exact .inr rfl
  · split
    · exact .inr rfl
    · exact .inl ⟨_, rfl⟩

theorem readCodepoint_outcome (text : Bytes) :
    (∃ read, readCodepoint invalid text = .ok read)
      ∨ readCodepoint invalid text = .error (.error invalid) := by
  rw [readCodepoint]
  rcases parseJsonHexCodeUnit_outcome invalid text with ⟨⟨unit, rest⟩, hunit⟩ | herror
  swap
  · exact .inr (by rw [herror]; rfl)
  simp only [hunit, Bind.bind, Except.bind]
  split
  · split
    · exact .inr rfl
    · rcases parseJsonHexCodeUnit_outcome invalid (rest.drop 2) with ⟨low, hlow⟩ | herror
      · simp only [hlow]
        split
        · exact .inr rfl
        · exact .inl ⟨_, rfl⟩
      · exact .inr (by rw [herror])
  · split
    · exact .inr rfl
    · exact .inl ⟨_, rfl⟩

theorem readEscape_outcome (text : Bytes) :
    (∃ bytes rest, readEscape invalid text = .ok (bytes, rest))
      ∨ readEscape invalid text = .error (.error invalid) := by
  cases text with
  | nil => exact .inr rfl
  | cons letter text =>
      cases hletter : escapedByte letter with
      | some byte => exact .inl ⟨[byte], text, readEscape_short invalid hletter text⟩
      | none =>
          by_cases hu : letter = 0x75
          · rw [hu]
            rcases readCodepoint_outcome invalid text with ⟨⟨point, rest⟩, hread⟩ | herror
            · obtain ⟨piece, -, -, -, hscalar⟩ := piece_of_readCodepoint invalid hread
              exact .inl ⟨utf8 point, rest, readEscape_codepoint invalid hread hscalar⟩
            · refine .inr ?_
              have hnone : escapedByte 0x75 = none := rfl
              simp [readEscape, hnone, herror, Bind.bind, Except.bind]
          · exact .inr (by simp [readEscape, hletter, hu])

/-- The loop has rounds enough for the characters. -/
theorem unescape_outcome {rounds : Nat} {text : Bytes} (h : text.length ≤ rounds) :
    (∃ bytes, unescape invalid rounds text = .ok bytes)
      ∨ unescape invalid rounds text = .error (.error invalid) := by
  induction rounds generalizing text with
  | zero =>
      cases text with
      | nil => exact .inl ⟨[], rfl⟩
      | cons c text => cases h
  | succ rounds ih =>
      cases text with
      | nil => exact .inl ⟨[], rfl⟩
      | cons c text =>
          have hroom : text.length ≤ rounds := Nat.le_of_succ_le_succ h
          by_cases hcontrol : c < 0x20
          · exact .inr (by rw [unescape, if_pos hcontrol])
          by_cases hslash : c = 0x5c
          · rw [hslash]
            rcases readEscape_outcome invalid text with ⟨bytes, rest, hescape⟩ | herror
            · obtain ⟨piece, -, htext, -⟩ := piece_of_readEscape invalid hescape
              have hpiece : 1 ≤ piece.text.length := by cases piece <;> simp [Piece.text]
              have hlength := congrArg List.length htext
              rw [List.length_cons, List.length_append] at hlength
              rw [unescape_escape invalid hescape]
              rcases ih (show rest.length ≤ rounds by omega) with ⟨more, hmore⟩ | herror
              · exact .inl ⟨bytes ++ more, by rw [hmore]; rfl⟩
              · exact .inr (by rw [herror]; rfl)
            · exact .inr (by simp [unescape, herror, Bind.bind, Except.bind])
          · rw [unescape, if_neg hcontrol, if_pos (bne_iff_ne.mpr hslash)]
            rcases ih hroom with ⟨more, hmore⟩ | herror
            · exact .inl ⟨c :: more, by rw [hmore]; rfl⟩
            · exact .inr (by rw [herror]; rfl)

theorem jsonStringPayload_outcome (text : Bytes) :
    (∃ payload, jsonStringPayload invalid text = .ok payload)
      ∨ jsonStringPayload invalid text = .error (.error invalid) := by
  rw [jsonStringPayload]
  split
  · exact .inl ⟨_, rfl⟩
  · dsimp only
    split
    · exact .inl ⟨_, rfl⟩
    · exact unescape_outcome invalid (Nat.le_refl _)

/-- The text between quotes, if nothing in it is escaped. -/
theorem jsonStringPayload_quoted {payload : Bytes} (h : 0x5c ∉ payload) :
    jsonStringPayload invalid (0x22 :: (payload ++ [0x22])) = .ok payload := by
  have hquotes : ¬ (decide ((0x22 :: (payload ++ [0x22])).length < 2)
      || (0x22 :: (payload ++ [0x22])).head? != some 0x22
      || (0x22 :: (payload ++ [0x22])).getLast? != some 0x22) = true := by
    have hlast : (0x22 :: (payload ++ [0x22])).getLast? = some 0x22 := by
      rw [← List.cons_append, List.getLast?_concat]
    rw [hlast]
    simp
  have hslash : (!(0x22 :: (payload ++ [0x22])).contains 0x5c) = true := by
    simp [h]
  have hinner : ((0x22 :: (payload ++ [0x22])).drop 1).dropLast = payload := by simp
  rw [jsonStringPayload, if_neg hquotes]
  dsimp only
  rw [if_pos hslash, hinner]

end

end Wkt

end Pbz
