import Pbz.Lib.Radix
import Pbz.Parser.IntegerLiterals

set_option autoImplicit false

/-! # Base64 of bytes fields

`decodeBase64` reads its text twice: one pass counts the characters and the padding, the other
shifts the values of the characters, six bits each, into an accumulator and takes a byte out of it
whenever there are eight bits. The accumulator is a `u32` and the count of its bits a `u5`; a step
that leaves either, or the buffer, ends the run with the reason.
-/

namespace Pbz

namespace Json

/-! ## The decoder -/

inductive Base64Error where
  | invalidPadding
  | invalidCharacter
  deriving DecidableEq, Repr

/-- Why a run ends without bytes. `fuel` marks a loop of the model with too few rounds. -/
inductive Base64Stop where
  | error (e : Base64Error)
  | overflow
  | outOfBounds
  | assertion
  | fuel
  deriving DecidableEq, Repr

def base64Index (byte : UInt8) : Option Nat :=
  if 0x41 ≤ byte && byte ≤ 0x5a then some (byte.toNat - 0x41)
  else if 0x61 ≤ byte && byte ≤ 0x7a then some (26 + byte.toNat - 0x61)
  else if 0x30 ≤ byte && byte ≤ 0x39 then some (52 + byte.toNat - 0x30)
  else if byte == 0x2b || byte == 0x2d then some 62
  else if byte == 0x2f || byte == 0x5f then some 63
  else none

/-- The first pass: the numbers of data and of padding characters. -/
def countBase64 : Nat → Nat → Bytes → Except Base64Error (Nat × Nat)
  | dataChars, paddingChars, [] => .ok (dataChars, paddingChars)
  | dataChars, paddingChars, byte :: rest =>
      if byte == 0x3d then countBase64 dataChars (paddingChars + 1) rest
      else if paddingChars != 0 then .error .invalidPadding
      else match base64Index byte with
        | none => .error .invalidCharacter
        | some _ => countBase64 (dataChars + 1) paddingChars rest

/-- The padding behind so many characters; there are never four and one of them. -/
def expectedPadding (dataChars : Nat) : Nat :=
  if dataChars % 4 == 2 then 2 else if dataChars % 4 == 3 then 1 else 0

def checkBase64 (value : Bytes) : Except Base64Error Nat := do
  let (dataChars, paddingChars) ← countBase64 0 0 value
  if dataChars % 4 == 1 then .error .invalidPadding
  else if 2 < paddingChars then .error .invalidPadding
  else if paddingChars != 0 && paddingChars != expectedPadding dataChars then
    .error .invalidPadding
  else .ok dataChars

structure Accumulator where
  acc : Nat := 0
  accBits : Nat := 0
  out : Bytes := []
  deriving DecidableEq, Repr

/-- The inner loop: bytes are taken out while there are eight bits. -/
def takeBytes (size : Nat) : Nat → Accumulator → Except Base64Stop Accumulator
  | 0, s => if s.accBits < 8 then .ok s else .error .fuel
  | rounds + 1, s =>
      if s.accBits < 8 then .ok s
      else
        let accBits := s.accBits - 8
        if size ≤ s.out.length then .error .outOfBounds
        else takeBytes size rounds {
          acc := s.acc &&& ((1 <<< accBits) - 1)
          accBits
          out := s.out ++ [UInt8.ofNat (s.acc >>> accBits)] }

/-- One round of the outer loop. -/
def shiftIn (size : Nat) (s : Accumulator) (idx : Nat) : Except Base64Stop Accumulator :=
  if 2 ^ 32 ≤ s.acc <<< 6 || 2 ^ 5 ≤ s.accBits + 6 then .error .overflow
  else takeBytes size (s.accBits + 6)
    { s with acc := (s.acc <<< 6) ||| idx, accBits := s.accBits + 6 }

/-- The second pass; it ends at the padding. -/
def accumulateBase64 (size : Nat) : Accumulator → Bytes → Except Base64Stop Accumulator
  | s, [] => .ok s
  | s, byte :: rest =>
      if byte == 0x3d then .ok s
      else match base64Index byte with
        | none => .error .assertion
        | some idx =>
            match shiftIn size s idx with
            | .error e => .error e
            | .ok s => accumulateBase64 size s rest

def decodeBase64 (value : Bytes) : Except Base64Stop Bytes := do
  let dataChars ← (checkBase64 value).mapError .error
  let size := dataChars * 6 / 8
  let s ← accumulateBase64 size {} value
  if s.out.length == size then .ok s.out else .error .assertion

/-! ## The encodings -/

/-- The 64 characters of an encoding. -/
inductive Base64Alphabet where
  | standard
  | urlSafe
  deriving DecidableEq, Repr

def Base64Alphabet.characters : Base64Alphabet → Bytes
  | .standard => ascii "ABCDEFGHIJKLMNOPQRSTUVWXYZabcdefghijklmnopqrstuvwxyz0123456789+/"
  | .urlSafe => ascii "ABCDEFGHIJKLMNOPQRSTUVWXYZabcdefghijklmnopqrstuvwxyz0123456789-_"

/-- Three bytes make four digits of six bits; the last digit of a group that is not full is
filled up with zeros. -/
def sextets : Bytes → List Nat
  | [] => []
  | [a] => [a.toNat / 4, a.toNat % 4 * 16]
  | [a, b] => [a.toNat / 4, a.toNat % 4 * 16 + b.toNat / 16, b.toNat % 16 * 4]
  | a :: b :: c :: rest =>
      [a.toNat / 4, a.toNat % 4 * 16 + b.toNat / 16, b.toNat % 16 * 4 + c.toNat / 64,
        c.toNat % 64] ++ sextets rest

/-- The padding that completes a group of four characters. -/
def base64Padding (characters : Nat) : Bytes := List.replicate ((4 - characters % 4) % 4) 0x3d

/-- `std.base64` with or without padding. -/
def encodeBase64 (alphabet : Base64Alphabet) (padded : Bool) (bytes : Bytes) : Bytes :=
  let characters := (sextets bytes).map (fun idx => alphabet.characters.getD idx 0)
  characters ++ if padded then base64Padding characters.length else []

/-! ## The characters -/

/-- The codes of the characters: letters, digits and the two that the encodings differ in. -/
def Base64Alphabet.codes (alphabet : Base64Alphabet) : List Nat :=
  List.range' 0x41 26 ++ List.range' 0x61 26 ++ List.range' 0x30 10 ++
    match alphabet with
    | .standard => [0x2b, 0x2f]
    | .urlSafe => [0x2d, 0x5f]

theorem Base64Alphabet.characters_eq (alphabet : Base64Alphabet) :
    alphabet.characters = alphabet.codes.map UInt8.ofNat := by
  cases alphabet with
  | standard => rfl
  | urlSafe => rfl

theorem Base64Alphabet.codes_lt (alphabet : Base64Alphabet) : ∀ n ∈ alphabet.codes, n < 256 := by
  cases alphabet with
  | standard => decide
  | urlSafe => decide

theorem Base64Alphabet.mem_characters (alphabet : Base64Alphabet) (c : UInt8) :
    c ∈ alphabet.characters ↔ c.toNat ∈ alphabet.codes := by
  rw [characters_eq, List.mem_map]
  constructor
  · rintro ⟨n, hn, rfl⟩
    rwa [UInt8.toNat_ofNat_of_lt' (alphabet.codes_lt n hn)]
  · exact fun hc => ⟨c.toNat, hc, UInt8.ofNat_toNat⟩

theorem base64Index_iff (c : UInt8) : (base64Index c).isSome ↔
    c ∈ Base64Alphabet.standard.characters ∨ c ∈ Base64Alphabet.urlSafe.characters := by
  rw [Base64Alphabet.mem_characters, Base64Alphabet.mem_characters, base64Index]
  simp only [Base64Alphabet.codes, List.mem_append, List.mem_range'_1, List.mem_cons,
    List.not_mem_nil, or_false, Bool.and_eq_true, Bool.or_eq_true, decide_eq_true_eq, beq_iff_eq,
    UInt8.le_iff_toNat_le, ← UInt8.toNat_inj, UInt8.toNat_ofNat]
  split_ifs <;> simp <;> omega

theorem base64Index_lt : ∀ c : UInt8, ∀ idx ∈ base64Index c, idx < 64 :=
  forall_byte (by decide)

theorem base64Index_padding : base64Index 0x3d = none := by decide

theorem base64Index_character (alphabet : Base64Alphabet) : ∀ idx < 64,
    base64Index (alphabet.characters.getD idx 0) = some idx := by
  cases alphabet with
  | standard => decide +kernel
  | urlSafe => decide +kernel

/-! ## The first pass -/

/-- The text is data in one or both alphabets, followed by padding. -/
structure Base64Text (data padding : Bytes) : Prop where
  alphabet : ∀ c ∈ data,
    c ∈ Base64Alphabet.standard.characters ∨ c ∈ Base64Alphabet.urlSafe.characters
  remainder : data.length % 4 ≠ 1
  padding : padding = [] ∨ padding = base64Padding data.length

theorem countBase64_padding (dataChars paddingChars : Nat) (rest : Bytes) :
    countBase64 dataChars paddingChars (0x3d :: rest)
      = countBase64 dataChars (paddingChars + 1) rest := rfl

theorem countBase64_data {byte : UInt8} {idx : Nat} (h : base64Index byte = some idx)
    (dataChars : Nat) (rest : Bytes) :
    countBase64 dataChars 0 (byte :: rest) = countBase64 (dataChars + 1) 0 rest := by
  have hbyte : byte ≠ 0x3d := by
    rintro rfl
    cases base64Index_padding.symm.trans h
  simp [countBase64, hbyte, h]

/-- Once padding has begun, only padding follows. -/
theorem countBase64_padding_iff {dataChars paddingChars : Nat} {value : Bytes}
    {counts : Nat × Nat} (h : paddingChars ≠ 0) :
    countBase64 dataChars paddingChars value = .ok counts ↔
      value = List.replicate value.length 0x3d
        ∧ counts = (dataChars, paddingChars + value.length) := by
  induction value generalizing paddingChars with
  | nil =>
      rw [countBase64, Except.ok.injEq]
      simp [eq_comm]
  | cons byte rest ih =>
      by_cases hbyte : byte = 0x3d
      · subst hbyte
        rw [countBase64_padding, ih (by omega)]
        simp [List.replicate_succ, Nat.add_assoc, Nat.add_comm 1]
      · have herror : countBase64 dataChars paddingChars (byte :: rest)
            = .error .invalidPadding := by simp [countBase64, hbyte, h]
        simp [herror, List.replicate_succ, hbyte]

theorem countBase64_iff {dataChars : Nat} {value : Bytes} {counts : Nat × Nat} :
    countBase64 dataChars 0 value = .ok counts ↔
      ∃ data paddingChars, value = data ++ List.replicate paddingChars 0x3d
        ∧ (∀ c ∈ data, (base64Index c).isSome)
        ∧ counts = (dataChars + data.length, paddingChars) := by
  induction value generalizing dataChars with
  | nil =>
      constructor
      · intro h
        exact ⟨[], 0, rfl, by simp, by simpa [countBase64, eq_comm] using h⟩
      · rintro ⟨data, paddingChars, hvalue, -, rfl⟩
        obtain ⟨rfl, hpadding⟩ := List.append_eq_nil_iff.mp hvalue.symm
        have hzero : paddingChars = 0 := by simpa using hpadding
        subst hzero
        rfl
  | cons byte rest ih =>
      by_cases hbyte : byte = 0x3d
      · -- the padding begins here
        subst hbyte
        rw [countBase64_padding, countBase64_padding_iff (by omega)]
        constructor
        · rintro ⟨hrest, rfl⟩
          refine ⟨[], rest.length + 1, ?_, by simp, ?_⟩
          · rw [List.nil_append, List.replicate_succ, ← hrest]
          · simp [Nat.add_comm]
        · rintro ⟨data, paddingChars, hvalue, hdata, rfl⟩
          obtain rfl : data = [] := by
            cases data with
            | nil => rfl
            | cons c data =>
                obtain ⟨rfl, -⟩ : 0x3d = c ∧ _ := by simpa using hvalue
                simpa [base64Index_padding] using hdata 0x3d (by simp)
          have hpadding : 0x3d :: rest = List.replicate paddingChars 0x3d := by simpa using hvalue
          obtain ⟨n, rfl⟩ : ∃ n, paddingChars = n + 1 := Nat.exists_eq_add_one.mpr (by
            have := congrArg List.length hpadding
            simp at this
            omega)
          have hrest : rest = List.replicate n 0x3d := by
            simpa [List.replicate_succ] using hpadding
          subst hrest
          simp [Nat.add_comm]
      · cases hidx : base64Index byte with
        | none =>
            have herror : countBase64 dataChars 0 (byte :: rest) = .error .invalidCharacter := by
              simp [countBase64, hbyte, hidx]
            rw [herror]
            constructor
            · intro h
              cases h
            · rintro ⟨data, paddingChars, hvalue, hdata, -⟩
              cases data with
              | nil => cases paddingChars <;> simp_all [List.replicate_succ]
              | cons c data =>
                  obtain ⟨rfl, -⟩ : byte = c ∧ _ := by simpa using hvalue
                  simpa [hidx] using hdata byte (by simp)
        | some idx =>
            rw [countBase64_data hidx, ih]
            constructor
            · rintro ⟨data, paddingChars, rfl, hdata, rfl⟩
              refine ⟨byte :: data, paddingChars, rfl, ?_, by simp [Nat.add_assoc, Nat.add_comm 1]⟩
              intro c hc
              rcases List.mem_cons.mp hc with rfl | hc
              · simp [hidx]
              · exact hdata c hc
            · rintro ⟨data, paddingChars, hvalue, hdata, rfl⟩
              cases data with
              | nil => cases paddingChars <;> simp_all [List.replicate_succ]
              | cons c data =>
                  obtain ⟨rfl, hrest⟩ : byte = c ∧ rest = data ++ _ := by simpa using hvalue
                  exact ⟨data, paddingChars, hrest, fun c hc => hdata c (by simp [hc]),
                    by simp [Nat.add_assoc, Nat.add_comm 1]⟩

/-- The padding that the check lets pass is the one that completes a group. -/
theorem padding_checked_iff {n paddingChars : Nat} (hn : n % 4 ≠ 1) :
    (¬ 2 < paddingChars ∧ ¬ (paddingChars != 0 && paddingChars != expectedPadding n) = true) ↔
      List.replicate paddingChars (0x3d : UInt8) = []
        ∨ List.replicate paddingChars 0x3d = base64Padding n := by
  have hcomplete : expectedPadding n = (4 - n % 4) % 4 := by
    unfold expectedPadding
    simp only [beq_iff_eq]
    split <;> [skip; split] <;> omega
  rw [List.replicate_eq_nil_iff, base64Padding, List.replicate_left_inj]
  simp only [hcomplete, Bool.and_eq_true, bne_iff_ne, ne_eq]
  omega

theorem checkBase64_iff {value : Bytes} {n : Nat} :
    checkBase64 value = .ok n ↔
      ∃ data padding, value = data ++ padding ∧ Base64Text data padding ∧ n = data.length := by
  constructor
  · intro h
    unfold checkBase64 at h
    cases hcount : countBase64 0 0 value with
    | error e => simp [hcount, bind, Except.bind] at h
    | ok counts =>
        obtain ⟨data, paddingChars, hvalue, hdata, rfl⟩ := countBase64_iff.mp hcount
        simp only [hcount, bind, Except.bind, Nat.zero_add, beq_iff_eq] at h
        split at h
        · cases h
        · next hremainder =>
          split at h
          · cases h
          · next htwo =>
            split at h
            · cases h
            · next hpadding =>
              refine ⟨data, _, hvalue, ⟨fun c hc => (base64Index_iff c).mp (hdata c hc),
                hremainder, ?_⟩, by simpa [eq_comm] using h⟩
              exact (padding_checked_iff hremainder).mp ⟨htwo, hpadding⟩
  · rintro ⟨data, padding, rfl, htext, rfl⟩
    -- the padding is a run of `=` in either case
    obtain ⟨paddingChars, rfl⟩ : ∃ k, padding = List.replicate k 0x3d := by
      rcases htext.padding with rfl | rfl
      · exact ⟨0, rfl⟩
      · exact ⟨_, rfl⟩
    have hcount : countBase64 0 0 (data ++ List.replicate paddingChars 0x3d)
        = .ok (data.length, paddingChars) :=
      countBase64_iff.mpr ⟨data, paddingChars, rfl,
        fun c hc => (base64Index_iff c).mpr (htext.alphabet c hc), by simp⟩
    have hchecked := (padding_checked_iff htext.remainder).mpr htext.padding
    simp [checkBase64, hcount, bind, Except.bind, htext.remainder, hchecked.1, hchecked.2]

/-! ## The second pass -/

/-- What the loop keeps true: the bytes written and the bits left over are the digits taken in, and
fewer than eight bits are left. -/
structure Accumulated (taken : List Nat) (s : Accumulator) : Prop where
  regrouped : Regrouped 6 8 taken (s.out.map UInt8.toNat) s.acc s.accBits
  bits : s.accBits < 8

theorem takeBytes_of_lt {size : Nat} {s : Accumulator} (h : s.accBits < 8) (rounds : Nat) :
    takeBytes size rounds s = .ok s := by
  cases rounds <;> simp [takeBytes, h]

/-- One character more. The buffer has room for the byte that its bits may complete. -/
theorem shiftIn_ok {size idx : Nat} {taken : List Nat} {s : Accumulator}
    (h : Accumulated taken s) (hidx : idx < 64)
    (hroom : 6 * (taken.length + 1) / 8 ≤ size) :
    ∃ s', shiftIn size s idx = .ok s' ∧ Accumulated (taken ++ [idx]) s' := by
  have hbits := h.bits
  have hcount := h.regrouped.count
  rw [List.length_map] at hcount
  have hacc : s.acc < 2 ^ 7 :=
    h.regrouped.fits.trans_le (Nat.pow_le_pow_right (by decide) (by omega))
  have hshift : s.acc <<< 6 = s.acc * 2 ^ 6 := Nat.shiftLeft_eq _ _
  have hor : (s.acc <<< 6) ||| idx = s.acc * 2 ^ 6 + idx := by
    rw [← Nat.shiftLeft_add_eq_or_of_lt (show idx < 2 ^ 6 by omega), hshift]
  have hguard : (decide (2 ^ 32 ≤ s.acc <<< 6) || decide (2 ^ 5 ≤ s.accBits + 6)) = false := by
    rw [hshift, Bool.or_eq_false_iff, decide_eq_false_iff_not, decide_eq_false_iff_not]
    omega
  have htaken := h.regrouped.take (show idx < 2 ^ 6 by omega)
  unfold shiftIn
  rw [hguard, if_neg Bool.false_ne_true, hor]
  by_cases hfew : s.accBits + 6 < 8
  · exact ⟨_, takeBytes_of_lt (s := { s with acc := _, accBits := _ }) hfew _, ⟨htaken, hfew⟩⟩
  · -- eight bits are there: one byte is taken out, and then too few are left
    obtain ⟨less, hless⟩ : ∃ less, s.accBits + 6 = less + 8 := ⟨s.accBits - 2, by omega⟩
    rw [hless] at htaken ⊢
    have hspace : ¬ size ≤ s.out.length := by omega
    have hwritten := htaken.write
    refine ⟨{ acc := (s.acc * 2 ^ 6 + idx) % 2 ^ less
              accBits := less
              out := s.out ++ [UInt8.ofNat ((s.acc * 2 ^ 6 + idx) / 2 ^ less)] }, ?_, ?_, ?_⟩
    · rw [takeBytes, if_neg (by simp), Nat.add_sub_cancel]
      simp only [hspace, if_false, Nat.one_shiftLeft, Nat.and_two_pow_sub_one_eq_mod,
        Nat.shiftRight_eq_div_pow]
      exact takeBytes_of_lt (show less < 8 by omega) _
    · have hbyte : (s.acc * 2 ^ 6 + idx) / 2 ^ less < 256 := by
        have hfits := htaken.fits
        rw [Nat.pow_add] at hfits
        exact Nat.div_lt_of_lt_mul hfits
      have hvalue : (UInt8.ofNat ((s.acc * 2 ^ 6 + idx) / 2 ^ less)).toNat
          = (s.acc * 2 ^ 6 + idx) / 2 ^ less := UInt8.toNat_ofNat_of_lt' hbyte
      simpa only [List.map_append, List.map_cons, List.map_nil, hvalue] using hwritten
    · show less < 8
      omega

theorem accumulateBase64_ok {size : Nat} {data padding : Bytes} {taken : List Nat}
    {s : Accumulator} (h : Accumulated taken s) (hdata : ∀ c ∈ data, (base64Index c).isSome)
    (hpadding : ∀ c ∈ padding, c = 0x3d)
    (hroom : 6 * (taken.length + data.length) / 8 ≤ size) :
    ∃ s', accumulateBase64 size s (data ++ padding) = .ok s'
      ∧ Accumulated (taken ++ data.filterMap base64Index) s' := by
  induction data generalizing taken s with
  | nil =>
      refine ⟨s, ?_, by simpa using h⟩
      cases padding with
      | nil => rfl
      | cons c rest =>
          obtain rfl : c = 0x3d := hpadding c (by simp)
          rfl
  | cons c rest ih =>
      obtain ⟨idx, hidx⟩ := Option.isSome_iff_exists.mp (hdata c (by simp))
      have hchar : c ≠ 0x3d := by
        rintro rfl
        cases base64Index_padding.symm.trans hidx
      rw [List.length_cons] at hroom
      obtain ⟨s₁, hshift, h₁⟩ := shiftIn_ok h (base64Index_lt c idx hidx)
        (show 6 * (taken.length + 1) / 8 ≤ size by omega)
      obtain ⟨s', hrest, h'⟩ := ih h₁ (fun c hc => hdata c (by simp [hc])) (by
        rw [List.length_append, List.length_singleton]
        omega)
      refine ⟨s', ?_, ?_⟩
      · simp only [List.cons_append, accumulateBase64, beq_iff_eq, hchar, if_false, hidx, hshift]
        exact hrest
      · simpa [List.filterMap_cons, hidx] using h'

/-- What the decoder makes of a text of characters and padding: all their digits, regrouped. -/
theorem decodeBase64_text {data padding : Bytes} (h : Base64Text data padding) :
    ∃ s, decodeBase64 (data ++ padding) = .ok s.out
      ∧ Accumulated (data.filterMap base64Index) s := by
  have hcheck : checkBase64 (data ++ padding) = .ok data.length :=
    checkBase64_iff.mpr ⟨data, padding, rfl, h, rfl⟩
  have hpadding : ∀ c ∈ padding, c = 0x3d := by
    intro c hc
    rcases h.padding with rfl | rfl
    · cases hc
    · exact List.eq_of_mem_replicate hc
  have hdata (c : UInt8) (hc : c ∈ data) : (base64Index c).isSome :=
    (base64Index_iff c).mpr (h.alphabet c hc)
  have hstart : Accumulated [] {} := ⟨.start, by decide⟩
  have hroom : 6 * (([] : List Nat).length + data.length) / 8 ≤ data.length * 6 / 8 := by
    simp [Nat.mul_comm]
  obtain ⟨s, hrun, hs⟩ := accumulateBase64_ok hstart hdata hpadding hroom
  rw [List.nil_append] at hs
  have hlength : (data.filterMap base64Index).length = data.length := by
    rw [List.length_filterMap_eq_countP]
    exact List.countP_eq_length.mpr hdata
  have hcount := hs.regrouped.count
  have hbits := hs.bits
  rw [hlength, List.length_map] at hcount
  have hfull : s.out.length = data.length * 6 / 8 := by omega
  refine ⟨s, ?_, hs⟩
  simp [decodeBase64, hcheck, hrun, hfull, Except.mapError, bind, Except.bind]

theorem decodeBase64_succeeds_iff (text : Bytes) :
    (∃ bytes, decodeBase64 text = .ok bytes) ↔
      ∃ data padding, text = data ++ padding ∧ Base64Text data padding := by
  constructor
  · rintro ⟨bytes, h⟩
    cases hcheck : checkBase64 text with
    | error e => simp [decodeBase64, hcheck, Except.mapError, bind, Except.bind] at h
    | ok n =>
        obtain ⟨data, padding, htext, hwell, -⟩ := checkBase64_iff.mp hcheck
        exact ⟨data, padding, htext, hwell⟩
  · rintro ⟨data, padding, rfl, h⟩
    obtain ⟨s, hdecode, -⟩ := decodeBase64_text h
    exact ⟨s.out, hdecode⟩

/-- A run that ends without bytes ends with an error of the check: no step leaves its integer
type or the buffer. -/
theorem decodeBase64_stop {text : Bytes} {stop : Base64Stop}
    (h : decodeBase64 text = .error stop) : ∃ e, stop = .error e := by
  cases hcheck : checkBase64 text with
  | error e =>
      refine ⟨e, ?_⟩
      simpa [decodeBase64, hcheck, Except.mapError, bind, Except.bind, eq_comm] using h
  | ok n =>
      obtain ⟨data, padding, rfl, hwell, -⟩ := checkBase64_iff.mp hcheck
      obtain ⟨s, hdecode, -⟩ := decodeBase64_text hwell
      cases hdecode.symm.trans h

/-! ## The round trip -/

/-- The encoder regroups the bytes; the bits it fills a group up with are zeros. -/
theorem sextets_regrouped (bytes : Bytes) :
    ∃ left, Regrouped 6 8 (sextets bytes) (bytes.map UInt8.toNat) 0 left ∧ left < 6 := by
  fun_induction sextets bytes with
  | case1 => exact ⟨0, .start, by decide⟩
  | case2 a => exact ⟨4, ⟨rfl, by simp [bigEndian_cons]; omega, by decide⟩, by decide⟩
  | case3 a b =>
      have hb := b.toNat_lt
      exact ⟨2, ⟨rfl, by simp [bigEndian_cons]; omega, by decide⟩, by decide⟩
  | case4 a b c rest ih =>
      have hb := b.toNat_lt
      have hc := c.toNat_lt
      obtain ⟨left, hrest, hleft⟩ := ih
      have hgroup : Regrouped 6 8 [a.toNat / 4, a.toNat % 4 * 16 + b.toNat / 16,
          b.toNat % 16 * 4 + c.toNat / 64, c.toNat % 64] [a.toNat, b.toNat, c.toNat] 0 0 :=
        ⟨rfl, by simp [bigEndian_cons]; omega, by decide⟩
      exact ⟨left, hgroup.append hrest, hleft⟩

theorem sextets_lt {bytes : Bytes} : ∀ idx ∈ sextets bytes, idx < 64 := by
  fun_induction sextets bytes with
  | case1 => simp
  | case2 a =>
      have ha := a.toNat_lt
      simp
      omega
  | case3 a b =>
      have ha := a.toNat_lt
      have hb := b.toNat_lt
      simp
      omega
  | case4 a b c rest ih =>
      have ha := a.toNat_lt
      have hb := b.toNat_lt
      have hc := c.toNat_lt
      intro idx hidx
      rcases List.mem_append.mp hidx with hidx | hidx
      · simp at hidx
        omega
      · exact ih idx hidx

theorem decodeBase64_encode (alphabet : Base64Alphabet) (padded : Bool) (bytes : Bytes) :
    decodeBase64 (encodeBase64 alphabet padded bytes) = .ok bytes := by
  obtain ⟨left, hsextets, hleft⟩ := sextets_regrouped bytes
  have hcount := hsextets.count
  let characters := (sextets bytes).map (fun idx => alphabet.characters.getD idx 0)
  have hdigits : characters.filterMap base64Index = sextets bytes := by
    rw [List.filterMap_map]
    calc (sextets bytes).filterMap (base64Index ∘ fun idx => alphabet.characters.getD idx 0)
        = (sextets bytes).filterMap some :=
          List.filterMap_congr (fun idx hidx =>
            base64Index_character alphabet idx (sextets_lt idx hidx))
      _ = sextets bytes := List.filterMap_some
  have hlength : characters.length = (sextets bytes).length := List.length_map _
  have htext : Base64Text characters
      (if padded then base64Padding characters.length else []) := by
    refine ⟨fun c hc => ?_, by rw [List.length_map] at hcount; omega, ?_⟩
    · obtain ⟨idx, hidx, rfl⟩ := List.mem_map.mp hc
      rw [← base64Index_iff, base64Index_character alphabet idx (sextets_lt idx hidx)]
      rfl
    · cases padded <;> simp
  obtain ⟨s, hdecode, hs⟩ := decodeBase64_text htext
  rw [hdigits] at hs
  have hmap : s.out.map UInt8.toNat = bytes.map UInt8.toNat := by
    have hbytes (written : Bytes) : ∀ d ∈ written.map UInt8.toNat, d < 2 ^ 8 := by
      intro d hd
      obtain ⟨byte, -, rfl⟩ := List.mem_map.mp hd
      exact byte.toNat_lt
    exact hs.regrouped.unique (by decide) hs.bits hsextets (by omega) (hbytes _) (hbytes _)
  have hout : s.out = bytes := List.map_injective_iff.mpr (fun _ _ => UInt8.toNat_inj.mp) hmap
  rw [encodeBase64, hdecode, hout]

/-- Decoding inverts both encodings, accepts the texts of both alphabets and no others, and never
overflows. -/
theorem base64_exact :
    (∀ alphabet padded bytes, decodeBase64 (encodeBase64 alphabet padded bytes) = .ok bytes) ∧
    (∀ text, (∃ bytes, decodeBase64 text = .ok bytes) ↔
      ∃ data padding, text = data ++ padding ∧ Base64Text data padding) ∧
    (∀ text stop, decodeBase64 text = .error stop → ∃ e, stop = .error e) :=
  ⟨decodeBase64_encode, decodeBase64_succeeds_iff, fun _ _ => decodeBase64_stop⟩

end Json

end Pbz
