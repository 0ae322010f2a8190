import Mathlib.Tactic

set_option autoImplicit false

/-! # Bytes, errors and varints

The lowest layer of `wire.zig`: byte strings, the error set, base-128 varints, zig-zag numbers
and little-endian words. A `u64` that is written as a varint is a `Nat`, signed and unsigned
machine words are bit vectors, and a reader position is the list of the bytes still to be read.
-/

namespace Pbz

abbrev Bytes := List UInt8

/-- The bytes of an ASCII text. -/
def ascii (s : String) : Bytes := s.toList.map (fun c => UInt8.ofNat c.toNat)

/-- The errors of `wire.Error` and of the codecs above it. -/
inductive Error where
  | truncatedInput
  | malformedVarint
  | invalidFieldNumber
  | invalidWireType
  | unsupportedWireType
  | recursionLimitExceeded
  | overflow
  | typeMismatch
  | invalidUtf8
  deriving DecidableEq, Repr

/-! ## Readers

A reading function takes the bytes from the read position on and returns what it read and the
bytes after it. -/

/-- The outcome of reading an `α` from the front of a byte string. -/
abbrev ReadResult (α : Type) := Except Error (α × Bytes)

/-- A successful read uses at least one byte. -/
def Consumes {α : Type} (p : Bytes → ReadResult α) : Prop :=
  ∀ bs v rest, p bs = .ok (v, rest) → rest.length < bs.length

/-- A successful read does not look at the bytes after those it used. -/
def Local {α : Type} (p : Bytes → ReadResult α) : Prop :=
  ∀ bs v rest ys, p bs = .ok (v, rest) → p (bs ++ ys) = .ok (v, rest ++ ys)

/-! ## Varints -/

/-- The number of bytes `writeVarint` appends. -/
def encodedVarintSize (value : Nat) : Nat :=
  if value < 2 ^ 7 then 1
  else if value < 2 ^ 14 then 2
  else if value < 2 ^ 21 then 3
  else (Nat.log2 value + 1 + 6) / 7

/-- The ladder of `writeVarintToBuffer`: `n` bytes may still be followed by another one. -/
def varintLadder : Nat → Nat → Bytes
  | 0, v => [UInt8.ofNat v]
  | n + 1, v =>
      if v < 0x80 then [UInt8.ofNat v]
      else UInt8.ofNat (v % 0x80 + 0x80) :: varintLadder n (v / 0x80)

/-- The varint of a `u64`: at most ten bytes, seven bits each, low bits first. -/
def writeVarint (value : Nat) : Bytes := varintLadder 9 value

/-- The ladder of `readVarintAt`: `n` bytes may still be followed by another one, `shift` is the
place of the next seven bits. These bits do not overlap `acc`, so the source's `|=` adds them. -/
def readLadder : Nat → Nat → Nat → Bytes → ReadResult Nat
  | _, _, _, [] => .error .truncatedInput
  | 0, shift, acc, byte :: rest =>
      if byte.toNat < 0x80 then
        if byte.toNat > 1 then .error .malformedVarint
        else .ok (acc + byte.toNat % 0x80 * 2 ^ shift, rest)
      else .error .malformedVarint
  | n + 1, shift, acc, byte :: rest =>
      if byte.toNat < 0x80 then .ok (acc + byte.toNat % 0x80 * 2 ^ shift, rest)
      else readLadder n (shift + 7) (acc + byte.toNat % 0x80 * 2 ^ shift) rest

def readVarint (input : Bytes) : ReadResult Nat := readLadder 9 0 0 input

theorem varintLadder_ne_nil (n v : Nat) : varintLadder n v ≠ [] := by
  cases n with
  | zero => simp [varintLadder]
  | succ n => rw [varintLadder]; split <;> simp

theorem writeVarint_length_pos (v : Nat) : 0 < (writeVarint v).length :=
  List.length_pos_iff.mpr (varintLadder_ne_nil 9 v)

theorem writeVarint_small {v : Nat} (h : v < 0x80) : writeVarint v = [UInt8.ofNat v] := by
  rw [writeVarint, varintLadder, if_pos h]

/-- The reader's ladder undoes the writer's, from the same rung. -/
theorem readLadder_varintLadder : ∀ (n : Nat) (v shift acc : Nat) (rest : Bytes),
    v < 2 ^ (7 * n + 1) →
      readLadder n shift acc (varintLadder n v ++ rest) = .ok (acc + v * 2 ^ shift, rest) := by
  intro n
  induction n with
  | zero =>
      intro v shift acc rest hv
      have hb : (UInt8.ofNat v).toNat = v := by
        rw [UInt8.toNat_ofNat']; omega
      have hmod : v % 0x80 = v := by omega
      rw [varintLadder, List.singleton_append, readLadder, hb, if_pos (by omega),
        if_neg (by omega), hmod]
  | succ n ih =>
      intro v shift acc rest hv
      rw [varintLadder]
      by_cases hs : v < 0x80
      · have hb : (UInt8.ofNat v).toNat = v := by
          rw [UInt8.toNat_ofNat']; omega
        have hmod : v % 0x80 = v := by omega
        rw [if_pos hs, List.singleton_append, readLadder, hb, if_pos hs, hmod]
      · have hb : (UInt8.ofNat (v % 0x80 + 0x80)).toNat = v % 0x80 + 0x80 := by
          rw [UInt8.toNat_ofNat']; omega
        have hq : v / 0x80 < 2 ^ (7 * n + 1) := by
          rw [Nat.div_lt_iff_lt_mul (by decide)]
          have hp : 2 ^ (7 * (n + 1) + 1) = 2 ^ (7 * n + 1) * 0x80 := by
            rw [show 7 * (n + 1) + 1 = 7 * n + 1 + 7 by omega, Nat.pow_add]
          omega
        have hmod : (v % 0x80 + 0x80) % 0x80 = v % 0x80 := by omega
        rw [if_neg hs, List.cons_append, readLadder, hb, if_neg (by omega), hmod, ih _ _ _ _ hq]
        have hsum : acc + v % 0x80 * 2 ^ shift + v / 0x80 * 2 ^ (shift + 7)
            = acc + v * 2 ^ shift := by
          have hdm := Nat.div_add_mod v 0x80
          have hp : 2 ^ (shift + 7) = 0x80 * 2 ^ shift := by rw [Nat.pow_add]; ring
          calc acc + v % 0x80 * 2 ^ shift + v / 0x80 * 2 ^ (shift + 7)
              = acc + (0x80 * (v / 0x80) + v % 0x80) * 2 ^ shift := by rw [hp]; ring
            _ = acc + v * 2 ^ shift := by rw [hdm]
        rw [hsum]

/-- Reading undoes writing, for every `u64`. -/
theorem readVarint_writeVarint {v : Nat} (h : v < 2 ^ 64) (rest : Bytes) :
    readVarint (writeVarint v ++ rest) = .ok (v, rest) := by
  have key := readLadder_varintLadder 9 v 0 0 rest (by omega)
  rw [readVarint, writeVarint, key]
  simp

theorem readLadder_consumes : ∀ (n shift acc : Nat), Consumes (readLadder n shift acc) := by
  intro n
  induction n with
  | zero =>
      intro shift acc bs v rest h
      cases bs with
      | nil => simp [readLadder] at h
      | cons b bs =>
          rw [readLadder] at h
          split at h
          · split at h
            · simp at h
            · simp only [Except.ok.injEq, Prod.mk.injEq] at h
              rw [← h.2]; simp
          · simp at h
  | succ n ih =>
      intro shift acc bs v rest h
      cases bs with
      | nil => simp [readLadder] at h
      | cons b bs =>
          rw [readLadder] at h
          split at h
          · simp only [Except.ok.injEq, Prod.mk.injEq] at h
            rw [← h.2]; simp
          · have := ih _ _ _ _ _ h
            simp only [List.length_cons]
            omega

theorem readVarint_consumes : Consumes readVarint := readLadder_consumes 9 0 0

theorem readLadder_local : ∀ (n shift acc : Nat), Local (readLadder n shift acc) := by
  intro n
  induction n with
  | zero =>
      intro shift acc bs v rest ys h
      cases bs with
      | nil => simp [readLadder] at h
      | cons b bs =>
          rw [List.cons_append, readLadder]
          rw [readLadder] at h
          split at h
          · next hb =>
            split at h
            · simp at h
            · next h1 =>
              simp only [Except.ok.injEq, Prod.mk.injEq] at h
              rw [if_pos hb, if_neg h1, h.1, h.2]
          · simp at h
  | succ n ih =>
      intro shift acc bs v rest ys h
      cases bs with
      | nil => simp [readLadder] at h
      | cons b bs =>
          rw [List.cons_append, readLadder]
          rw [readLadder] at h
          split at h
          · next hb =>
            simp only [Except.ok.injEq, Prod.mk.injEq] at h
            rw [if_pos hb, h.1, h.2]
          · next hb =>
            rw [if_neg hb]
            exact ih _ _ _ _ _ ys h

theorem readVarint_local : Local readVarint := readLadder_local 9 0 0

/-! ## The size of a varint -/

theorem log2_div_128 {v : Nat} (h : 0x80 ≤ v) : Nat.log2 (v / 0x80) + 7 = Nat.log2 v := by
  have hd : v / 0x80 ≠ 0 := by omega
  have h1 := Nat.log2_self_le hd
  have h2 := Nat.lt_log2_self (n := v / 0x80)
  symm
  rw [Nat.log2_eq_iff (by omega)]
  constructor
  · rw [Nat.pow_add]
    omega
  · have hp : 2 ^ (Nat.log2 (v / 0x80) + 7 + 1) = 2 ^ (Nat.log2 (v / 0x80) + 1) * 0x80 := by
      rw [show Nat.log2 (v / 0x80) + 7 + 1 = Nat.log2 (v / 0x80) + 1 + 7 by omega, Nat.pow_add]
    omega

theorem varintLadder_length : ∀ (n v : Nat), v < 2 ^ (7 * (n + 1)) → 0 < v →
    (varintLadder n v).length = Nat.log2 v / 7 + 1 := by
  intro n
  induction n with
  | zero =>
      intro v hv h0
      have hl : Nat.log2 v < 7 := (Nat.log2_lt (by omega)).mpr hv
      rw [varintLadder, List.length_singleton]
      omega
  | succ n ih =>
      intro v hv h0
      rw [varintLadder]
      by_cases hs : v < 0x80
      · have hl : Nat.log2 v < 7 := (Nat.log2_lt (by omega)).mpr hs
        rw [if_pos hs, List.length_singleton]
        omega
      · have hq : v / 0x80 < 2 ^ (7 * (n + 1)) := by
          rw [Nat.div_lt_iff_lt_mul (by decide)]
          have hp : 2 ^ (7 * (n + 1 + 1)) = 2 ^ (7 * (n + 1)) * 0x80 := by
            rw [show 7 * (n + 1 + 1) = 7 * (n + 1) + 7 by omega, Nat.pow_add]
          omega
        have hlog := log2_div_128 (v := v) (by omega)
        rw [if_neg hs, List.length_cons, ih _ hq (by omega)]
        omega

/-- The size function and the writer agree on every `u64`. -/
theorem writeVarint_length {v : Nat} (h : v < 2 ^ 64) :
    (writeVarint v).length = encodedVarintSize v := by
  by_cases h0 : v = 0
  · subst h0; decide
  · rw [writeVarint, varintLadder_length 9 v (by omega) (by omega), encodedVarintSize]
    have hbound : ∀ k, v < 2 ^ k ↔ Nat.log2 v < k := fun k => (Nat.log2_lt h0).symm
    rw [if_congr (hbound 7) rfl rfl, if_congr (hbound 14) rfl rfl, if_congr (hbound 21) rfl rfl]
    split
    · omega
    · split
      · omega
      · split <;> omega

/-! ## Zig-zag numbers -/

/-- `(value << 1) ^ (value >> (w - 1))` on a signed word of `w` bits. -/
def zigZagEncode (w : Nat) (value : BitVec w) : BitVec w :=
  (value <<< 1) ^^^ value.sshiftRight (w - 1)

/-- `half ^ sign` with `half = value >> 1` and `sign = -(value & 1)`. -/
def zigZagDecode (w : Nat) (value : BitVec w) : BitVec w := (value >>> 1) ^^^ -(value &&& 1#w)

def zigZagEncode32 (value : BitVec 32) : BitVec 32 := zigZagEncode 32 value

def zigZagDecode32 (value : BitVec 32) : BitVec 32 := zigZagDecode 32 value

def zigZagEncode64 (value : BitVec 64) : BitVec 64 := zigZagEncode 64 value

def zigZagDecode64 (value : BitVec 64) : BitVec 64 := zigZagDecode 64 value

theorem getLsbD_neg_and_one {w : Nat} (v : BitVec w) (i : Nat) (hi : i < w) :
    (-(v &&& 1#w)).getLsbD i = v.getLsbD 0 := by
  have h : v &&& 1#w = if v.getLsbD 0 then 1#w else 0#w := by
    apply BitVec.eq_of_getLsbD_eq
    intro j hj
    cases hb : v.getLsbD 0 <;> cases j <;> simp_all
  rw [h]
  cases hb : v.getLsbD 0
  · simp
  · simp [BitVec.neg_one_eq_allOnes, hi]

theorem getLsbD_sign {w : Nat} (v : BitVec w) (i : Nat) (hi : i < w) :
    (v.sshiftRight (w - 1)).getLsbD i = v.msb := by
  rw [BitVec.getLsbD_sshiftRight]
  by_cases h0 : i = 0
  · subst h0
    simp [BitVec.msb_eq_getLsbD_last]
    omega
  · have : ¬ w - 1 + i < w := by omega
    simp [this]
    omega

theorem zigZagDecode_zigZagEncode {w : Nat} (hw : 0 < w) (v : BitVec w) :
    zigZagDecode w (zigZagEncode w v) = v := by
  have h0 : (zigZagEncode w v).getLsbD 0 = v.msb := by
    rw [zigZagEncode, BitVec.getLsbD_xor, getLsbD_sign v 0 hw]
    simp
  apply BitVec.eq_of_getLsbD_eq
  intro i hi
  rw [zigZagDecode, BitVec.getLsbD_xor, getLsbD_neg_and_one _ _ hi, h0,
    BitVec.getLsbD_ushiftRight, zigZagEncode]
  by_cases hl : 1 + i < w
  · have hl' : (v <<< 1).getLsbD (1 + i) = v.getLsbD i := by
      rw [BitVec.getLsbD_shiftLeft]
      simp [hl]
    rw [BitVec.getLsbD_xor, getLsbD_sign v (1 + i) hl, hl']
    cases v.getLsbD i <;> cases v.msb <;> rfl
  · have hi' : i = w - 1 := by omega
    rw [BitVec.getLsbD_of_ge _ _ (by omega), BitVec.msb_eq_getLsbD_last, hi']
    simp

/-! ## Little-endian words -/

/-- The `n` low bytes of `v`, low byte first. -/
def littleBytes : Nat → Nat → Bytes
  | 0, _ => []
  | n + 1, v => UInt8.ofNat v :: littleBytes n (v / 256)

/-- The number whose bytes, low byte first, are `bs`. -/
def ofLittleBytes : Bytes → Nat
  | [] => 0
  | b :: bs => b.toNat + 256 * ofLittleBytes bs

@[simp] theorem littleBytes_length (n v : Nat) : (littleBytes n v).length = n := by
  induction n generalizing v with
  | zero => rfl
  | succ n ih => rw [littleBytes, List.length_cons, ih]

theorem ofLittleBytes_littleBytes (n v : Nat) (h : v < 256 ^ n) :
    ofLittleBytes (littleBytes n v) = v := by
  induction n generalizing v with
  | zero => simp only [littleBytes, ofLittleBytes]; omega
  | succ n ih =>
      have hq : v / 256 < 256 ^ n := by
        rw [Nat.div_lt_iff_lt_mul (by decide)]
        rw [Nat.pow_succ] at h
        exact h
      have hb : (UInt8.ofNat v).toNat = v % 256 := by simp
      rw [littleBytes, ofLittleBytes, ih _ hq, hb]
      omega

end Pbz
