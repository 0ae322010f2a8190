import Pbz.Lib.FilledBuffer
import Pbz.Wire.Varint

set_option autoImplicit false

/-! # Varints at an index

The varint writers of `wire.zig` that fill a buffer from an index on, and `readVarintAt`, which
reads from an index on and leaves it behind what it has looked at, also where it fails. Values are
machine words here. The writers emit what `writeVarint` does, and the reader reads what
`readVarint` does from the bytes behind its index.
-/

namespace Pbz

namespace Wire

/-! ## Writers -/

/-- `@truncate` of a word to a byte. -/
def truncateByte {w : Nat} (v : BitVec w) : UInt8 := UInt8.ofNat v.toNat

/-- The ladder of `writeVarintToBuffer` and `writeUInt32VarintToBuffer`: `n` bytes may still be
followed by another one. The index of the buffer is the number of its cells in use. -/
def writeLadder {w : Nat} : Nat → BitVec w → FilledBuffer UInt8 → Option (FilledBuffer UInt8)
  | 0, v, buffer => buffer.push (truncateByte v)
  | n + 1, v, buffer =>
      if v < 0x80#w then buffer.push (truncateByte v)
      else (buffer.push (truncateByte (v ||| 0x80#w))).bind (writeLadder n (v >>> 7))

/-- The cells afterwards and the number of those that were written. -/
def writeVarintToBuffer (buffer : Bytes) (value : BitVec 64) : Option (Bytes × Nat) :=
  (writeLadder 9 value (.ofCells buffer)).map (fun written => (written.cells, written.used))

def writeUInt32VarintToBuffer (buffer : Bytes) (value : BitVec 32) : Option (Bytes × Nat) :=
  (writeLadder 4 value (.ofCells buffer)).map (fun written => (written.cells, written.used))

def writeVarintToSlice (value : BitVec 64) (buffer : FilledBuffer UInt8) :
    Option (FilledBuffer UInt8) :=
  writeLadder 9 value buffer

def writeUInt32VarintToSlice (value : BitVec 32) (buffer : FilledBuffer UInt8) :
    Option (FilledBuffer UInt8) :=
  writeLadder 4 value buffer

def writeDirectScalarVarintToSlice (value : BitVec 64) (buffer : FilledBuffer UInt8) :
    Option (FilledBuffer UInt8) :=
  if value < 0x80#64 then buffer.push (truncateByte value)
  else if value < 0x4000#64 then
    (buffer.push (truncateByte ((value &&& 0x7f#64) ||| 0x80#64))).bind
      (fun buffer => buffer.push (truncateByte (value >>> 7)))
  else writeLadder 9 value buffer

/-- The loop over the first nine bytes, `n` of which are left, and the byte behind them. -/
def negativeLadder : Nat → BitVec 64 → FilledBuffer UInt8 → Option (FilledBuffer UInt8)
  | 0, v, buffer => buffer.push (truncateByte v)
  | n + 1, v, buffer =>
      (buffer.push (truncateByte (v ||| 0x80#64))).bind (negativeLadder n (v >>> 7))

def writeNegativeInt64VarintToSlice (value : BitVec 64) (buffer : FilledBuffer UInt8) :
    Option (FilledBuffer UInt8) :=
  negativeLadder 9 value buffer

/-- `Writer.writeVarint`: the bytes that are there, and new cells of any content for those of the
value. -/
def appendVarint (bytes cells : Bytes) (value : BitVec 64) : Option Bytes :=
  (writeVarintToBuffer cells value).map (fun written => bytes ++ written.1)

/-- The writer writes these bytes one after the other, wherever the index of the buffer is. -/
def Emits (write : FilledBuffer UInt8 → Option (FilledBuffer UInt8)) (bytes : Bytes) : Prop :=
  ∀ buffer, write buffer = buffer.pushAll bytes

/-! ### The bytes of the ladders -/

/-- The continuation bit takes the place of the eighth bit. -/
theorem or_continuation (v : Nat) : (v ||| 0x80) % 256 = v % 0x80 + 0x80 := by
  have hbyte : ∀ byte < 256, byte ||| 0x80 = byte % 0x80 + 0x80 := by decide +kernel
  calc (v ||| 0x80) % 256
      = v % 256 ||| 0x80 % 256 := Nat.or_mod_two_pow (n := 8)
    _ = v % 256 % 0x80 + 0x80 := hbyte _ (Nat.mod_lt _ (by decide))
    _ = v % 0x80 + 0x80 := by rw [Nat.mod_mod_of_dvd _ (by decide : 0x80 ∣ 256)]

theorem truncateByte_or {w : Nat} (hw : 8 ≤ w) (v : BitVec w) :
    truncateByte (v ||| 0x80#w) = UInt8.ofNat (v.toNat % 0x80 + 0x80) := by
  have hpow : 2 ^ 8 ≤ 2 ^ w := Nat.pow_le_pow_right (by decide) hw
  have hsmall : (0x80 : Nat) % 2 ^ w = 0x80 := Nat.mod_eq_of_lt (by omega)
  apply UInt8.toNat_inj.mp
  rw [truncateByte, UInt8.toNat_ofNat', UInt8.toNat_ofNat', BitVec.toNat_or, BitVec.toNat_ofNat,
    hsmall]
  have hor := or_continuation v.toNat
  omega

theorem lt_continuation_iff {w : Nat} (hw : 8 ≤ w) (v : BitVec w) :
    v < 0x80#w ↔ v.toNat < 0x80 := by
  have hpow : 2 ^ 8 ≤ 2 ^ w := Nat.pow_le_pow_right (by decide) hw
  rw [BitVec.lt_def, BitVec.toNat_ofNat, Nat.mod_eq_of_lt (by omega)]

theorem pushAll_cons (buffer : FilledBuffer UInt8) (byte : UInt8) (bytes : Bytes) :
    buffer.pushAll (byte :: bytes) = (buffer.push byte).bind (fun b => b.pushAll bytes) := by
  rw [FilledBuffer.pushAll]
  cases buffer.push byte <;> rfl

theorem pushAll_singleton (buffer : FilledBuffer UInt8) (byte : UInt8) :
    buffer.pushAll [byte] = buffer.push byte := by
  rw [pushAll_cons]
  cases buffer.push byte <;> rfl

theorem writeLadder_emits {w : Nat} (hw : 8 ≤ w) (n : Nat) (v : BitVec w) :
    Emits (writeLadder n v) (varintLadder n v.toNat) := by
  induction n generalizing v with
  | zero =>
      intro buffer
      rw [writeLadder, varintLadder, pushAll_singleton]
      rfl
  | succ n ih =>
      intro buffer
      rw [writeLadder, varintLadder, if_congr (lt_continuation_iff hw v) rfl rfl]
      split
      · rw [pushAll_singleton]
        rfl
      · rw [pushAll_cons, truncateByte_or hw]
        congr 1
        funext b
        rw [ih (v >>> 7) b, BitVec.toNat_ushiftRight, Nat.shiftRight_eq_div_pow]

theorem negativeLadder_emits (n : Nat) (v : BitVec 64) (h : 2 ^ (7 * n) ≤ v.toNat) :
    Emits (negativeLadder n v) (varintLadder n v.toNat) := by
  induction n generalizing v with
  | zero =>
      intro buffer
      rw [negativeLadder, varintLadder, pushAll_singleton]
      rfl
  | succ n ih =>
      intro buffer
      have hsplit : 2 ^ (7 * (n + 1)) = 2 ^ (7 * n) * 0x80 := by
        rw [show 7 * (n + 1) = 7 * n + 7 by omega, Nat.pow_add]
      have hpos : 0 < 2 ^ (7 * n) := Nat.pow_pos (by decide)
      have hrest : 2 ^ (7 * n) ≤ (v >>> 7).toNat := by
        rw [BitVec.toNat_ushiftRight, Nat.shiftRight_eq_div_pow, Nat.le_div_iff_mul_le (by decide)]
        omega
      rw [negativeLadder, varintLadder, if_neg (by omega), pushAll_cons,
        truncateByte_or (by decide)]
      congr 1
      funext b
      rw [ih (v >>> 7) hrest b, BitVec.toNat_ushiftRight, Nat.shiftRight_eq_div_pow]

/-! ### The writers -/

theorem writeVarintToSlice_emits (value : BitVec 64) :
    Emits (writeVarintToSlice value) (writeVarint value.toNat) :=
  writeLadder_emits (by decide) 9 value

/-- Fewer rungs suffice for a small value. -/
theorem varintLadder_of_lt {n m v : Nat} (hn : v < 2 ^ (7 * (n + 1))) (hle : n ≤ m) :
    varintLadder n v = varintLadder m v := by
  induction n generalizing m v with
  | zero =>
      cases m with
      | zero => rfl
      | succ m => rw [varintLadder, varintLadder, if_pos (by omega)]
  | succ n ih =>
      obtain ⟨m, rfl⟩ : ∃ k, m = k + 1 := ⟨m - 1, by omega⟩
      rw [varintLadder, varintLadder]
      split
      · rfl
      · have hsplit : 2 ^ (7 * (n + 1 + 1)) = 2 ^ (7 * (n + 1)) * 0x80 := by
          rw [show 7 * (n + 1 + 1) = 7 * (n + 1) + 7 by omega, Nat.pow_add]
        have hquot : v / 0x80 < 2 ^ (7 * (n + 1)) :=
          (Nat.div_lt_iff_lt_mul (by decide)).mpr (by omega)
        rw [ih hquot (Nat.le_of_succ_le_succ hle)]

theorem writeUInt32VarintToSlice_emits (value : BitVec 32) :
    Emits (writeUInt32VarintToSlice value) (writeVarint value.toNat) := by
  have hlt := value.isLt
  rw [writeVarint, ← varintLadder_of_lt (n := 4) (by omega) (by omega)]
  exact writeLadder_emits (by decide) 4 value

theorem writeDirectScalarVarintToSlice_emits (value : BitVec 64) :
    Emits (writeDirectScalarVarintToSlice value) (writeVarint value.toNat) := by
  intro buffer
  rw [writeDirectScalarVarintToSlice, if_congr (lt_continuation_iff (by decide) value) rfl rfl]
  split
  · next hone =>
    rw [writeVarint_small hone, pushAll_singleton]
    rfl
  · next hmore =>
    split
    · next htwo =>
      have hlt : value.toNat < 0x4000 := htwo
      have hmask : (value &&& 0x7f#64).toNat = value.toNat % 0x80 := by
        rw [BitVec.toNat_and]
        exact Nat.and_two_pow_sub_one_eq_mod value.toNat 7
      have hbytes : writeVarint value.toNat
          = [UInt8.ofNat (value.toNat % 0x80 + 0x80), UInt8.ofNat (value.toNat / 0x80)] := by
        rw [writeVarint, varintLadder, if_neg hmore, varintLadder, if_pos (by omega)]
      rw [hbytes, pushAll_cons, truncateByte_or (by decide), hmask, Nat.mod_mod]
      congr 1
      funext b
      rw [pushAll_singleton, truncateByte, BitVec.toNat_ushiftRight, Nat.shiftRight_eq_div_pow]
    · exact writeLadder_emits (by decide) 9 value buffer

/-- A negative value has its highest bit set, so that all ten bytes are written. -/
theorem writeNegativeInt64VarintToSlice_emits {value : BitVec 64} (h : value.toInt < 0) :
    Emits (writeNegativeInt64VarintToSlice value) (writeVarint value.toNat) := by
  refine negativeLadder_emits 9 value ?_
  have hmsb : 2 ^ 63 ≤ value.toNat := by
    rw [BitVec.toInt_eq_toNat_cond] at h
    split at h
    · omega
    · omega
  omega

/-- A buffer that the bytes fill is the bytes. -/
theorem ofCells_of_emits {write : FilledBuffer UInt8 → Option (FilledBuffer UInt8)} {bytes : Bytes}
    (h : Emits write bytes) {cells : Bytes} (hlength : cells.length = bytes.length) :
    (write (.ofCells cells)).map (fun written => (written.cells, written.used))
      = some (bytes, bytes.length) := by
  have hfits : (FilledBuffer.ofCells cells).used + bytes.length
      ≤ (FilledBuffer.ofCells cells).size := by simp [hlength]
  obtain ⟨written, hall, hcontents, hused, hsize⟩ := FilledBuffer.pushAll_of_fits hfits
  have hfull : written.used = written.size := by
    rw [hused, hsize]
    simp [hlength]
  have hcells := FilledBuffer.cells_of_full hfull
  rw [h, hall, Option.map_some, hcells, hcontents, hused]
  simp

theorem appendVarint_eq (bytes : Bytes) {cells : Bytes} (value : BitVec 64)
    (hlength : cells.length = encodedVarintSize value.toNat) :
    appendVarint bytes cells value = some (bytes ++ writeVarint value.toNat) := by
  have hsize : cells.length = (writeVarint value.toNat).length := by
    rw [hlength, writeVarint_length value.isLt]
  have hbuffer : writeVarintToBuffer cells value
      = some (writeVarint value.toNat, (writeVarint value.toNat).length) :=
    ofCells_of_emits (writeVarintToSlice_emits value) hsize
  rw [appendVarint, hbuffer]
  rfl

/-! ## The reader -/

/-- The bits of a byte that a mask leaves, as a word. -/
def maskedBits (w : Nat) (mask byte : UInt8) : BitVec w := (byte &&& mask).toBitVec.setWidth w

/-- The ladder of `readVarintAt`: `n` bytes may still be followed by another one, `shift` is the
place of the next seven bits. What stands beside the result is the index that is left. -/
def readLadderAt (input : Bytes) : Nat → Nat → BitVec 64 → Nat → Except Error (BitVec 64) × Nat
  | 0, shift, result, index =>
      match input[index]? with
      | none => (.error .truncatedInput, index)
      | some byte =>
          if byte < 0x80 then
            if byte > 1 then (.error .malformedVarint, index + 1)
            else (.ok (result ||| maskedBits 64 0x7f byte <<< shift), index + 1)
          else (.error .malformedVarint, index + 1)
  | n + 1, shift, result, index =>
      match input[index]? with
      | none => (.error .truncatedInput, index)
      | some byte =>
          if byte < 0x80 then (.ok (result ||| maskedBits 64 0x7f byte <<< shift), index + 1)
          else
            readLadderAt input n (shift + 7) (result ||| maskedBits 64 0x7f byte <<< shift)
              (index + 1)

def readVarintAt (input : Bytes) (index : Nat) : Except Error (BitVec 64) × Nat :=
  readLadderAt input 9 0 0 index

/-- A read from an index on, as a read of the bytes behind the index. -/
def asRead {α β : Type} (input : Bytes) (f : α → β) (read : Except Error α × Nat) : ReadResult β :=
  read.1.map (fun value => (f value, input.drop read.2))

theorem toNat_maskedBits {w : Nat} (hw : 7 ≤ w) (byte : UInt8) :
    (maskedBits w 0x7f byte).toNat = byte.toNat % 0x80 := by
  have hpow : 2 ^ 7 ≤ 2 ^ w := Nat.pow_le_pow_right (by decide) hw
  have hmask : (byte &&& 0x7f).toNat = byte.toNat % 0x80 := by
    rw [UInt8.toNat_and]
    exact Nat.and_two_pow_sub_one_eq_mod byte.toNat 7
  rw [maskedBits, BitVec.toNat_setWidth, UInt8.toNat_toBitVec, hmask]
  exact Nat.mod_eq_of_lt (by omega)

/-- The next bits lie above those that are there, so that `|=` adds them. -/
theorem toNat_or_shiftLeft {result bits : BitVec 64} {shift : Nat}
    (hlow : result.toNat < 2 ^ shift) (hfits : bits.toNat * 2 ^ shift < 2 ^ 64) :
    (result ||| bits <<< shift).toNat = result.toNat + bits.toNat * 2 ^ shift := by
  rw [BitVec.toNat_or, BitVec.toNat_shiftLeft, Nat.shiftLeft_eq, Nat.mod_eq_of_lt hfits,
    Nat.or_comm, Nat.mul_comm, ← Nat.two_pow_add_eq_or_of_lt hlow, Nat.add_comm]

theorem drop_of_getElem?_none {input : Bytes} {index : Nat} (h : input[index]? = none) :
    input.drop index = [] :=
  List.drop_eq_nil_of_le (List.getElem?_eq_none_iff.mp h)

theorem drop_of_getElem?_some {input : Bytes} {index : Nat} {byte : UInt8}
    (h : input[index]? = some byte) : input.drop index = byte :: input.drop (index + 1) := by
  obtain ⟨hlt, rfl⟩ := List.getElem?_eq_some_iff.mp h
  exact List.drop_eq_getElem_cons hlt

/-- The ladder over an index is the ladder over the bytes behind it. -/
theorem readLadderAt_eq (input : Bytes) (n : Nat) {shift : Nat} (hshift : shift + 7 * n = 63)
    {result : BitVec 64} (hresult : result.toNat < 2 ^ shift) (index : Nat) :
    asRead input BitVec.toNat (readLadderAt input n shift result index)
      = readLadder n shift result.toNat (input.drop index) := by
  induction n generalizing shift result index with
  | zero =>
      cases hget : input[index]? with
      | none =>
          simp only [readLadderAt, hget, drop_of_getElem?_none hget]
          rfl
      | some byte =>
          rw [readLadderAt, drop_of_getElem?_some hget, readLadder]
          simp only [hget]
          by_cases hlast : byte.toNat < 0x80
          · rw [if_pos hlast, if_pos (show byte < 0x80 from hlast)]
            by_cases hbig : byte.toNat > 1
            · rw [if_pos hbig, if_pos (show byte > 1 from hbig)]
              rfl
            · have hbits : (maskedBits 64 0x7f byte).toNat * 2 ^ shift < 2 ^ 64 := by
                rw [toNat_maskedBits (by decide), show shift = 63 by omega]
                omega
              rw [if_neg hbig, if_neg (show ¬ byte > 1 from hbig), asRead, Except.map,
                toNat_or_shiftLeft hresult hbits, toNat_maskedBits (by decide)]
          · rw [if_neg hlast, if_neg (show ¬ byte < 0x80 from hlast)]
            rfl
  | succ n ih =>
      cases hget : input[index]? with
      | none =>
          simp only [readLadderAt, hget, drop_of_getElem?_none hget]
          rfl
      | some byte =>
          have hsmall : (maskedBits 64 0x7f byte).toNat < 0x80 := by
            rw [toNat_maskedBits (by decide)]
            exact Nat.mod_lt _ (by decide)
          have hnext : (maskedBits 64 0x7f byte).toNat * 2 ^ shift + 2 ^ shift
              ≤ 2 ^ (shift + 7) := by
            calc (maskedBits 64 0x7f byte).toNat * 2 ^ shift + 2 ^ shift
                = ((maskedBits 64 0x7f byte).toNat + 1) * 2 ^ shift := by ring
              _ ≤ 0x80 * 2 ^ shift := Nat.mul_le_mul_right _ hsmall
              _ = 2 ^ (shift + 7) := by rw [Nat.pow_add, Nat.mul_comm]
          have hwidth : 2 ^ (shift + 7) ≤ 2 ^ 63 :=
            Nat.pow_le_pow_right (by decide) (by omega)
          have hor : (result ||| maskedBits 64 0x7f byte <<< shift).toNat
              = result.toNat + byte.toNat % 0x80 * 2 ^ shift := by
            rw [toNat_or_shiftLeft hresult (by omega), toNat_maskedBits (by decide)]
          rw [readLadderAt, drop_of_getElem?_some hget, readLadder]
          simp only [hget]
          by_cases hlast : byte.toNat < 0x80
          · rw [if_pos hlast, if_pos (show byte < 0x80 from hlast), asRead, Except.map, hor]
          · rw [if_neg hlast, if_neg (show ¬ byte < 0x80 from hlast), ← hor]
            refine ih (by omega) ?_ (index + 1)
            rw [hor, ← toNat_maskedBits (by decide : 7 ≤ 64)]
            omega

theorem readVarintAt_eq (input : Bytes) (index : Nat) :
    asRead input BitVec.toNat (readVarintAt input index) = readVarint (input.drop index) :=
  readLadderAt_eq input 9 (by decide) (by decide) index

/-- The index stays where there is no byte, and otherwise moves on inside the input. -/
theorem readLadderAt_index (input : Bytes) (n shift : Nat) (result : BitVec 64) (index : Nat) :
    readLadderAt input n shift result index = (.error .truncatedInput, index)
      ∨ index < (readLadderAt input n shift result index).2
        ∧ (readLadderAt input n shift result index).2 ≤ input.length := by
  induction n generalizing shift result index with
  | zero =>
      cases hget : input[index]? with
      | none => exact .inl (by simp only [readLadderAt, hget])
      | some byte =>
          obtain ⟨hlt, -⟩ := List.getElem?_eq_some_iff.mp hget
          right
          simp only [readLadderAt, hget]
          split
          · split
            · exact ⟨Nat.lt_succ_self _, hlt⟩
            · exact ⟨Nat.lt_succ_self _, hlt⟩
          · exact ⟨Nat.lt_succ_self _, hlt⟩
  | succ n ih =>
      cases hget : input[index]? with
      | none => exact .inl (by simp only [readLadderAt, hget])
      | some byte =>
          obtain ⟨hlt, -⟩ := List.getElem?_eq_some_iff.mp hget
          right
          simp only [readLadderAt, hget]
          split
          · exact ⟨Nat.lt_succ_self _, hlt⟩
          · rcases ih (shift + 7) (result ||| maskedBits 64 0x7f byte <<< shift) (index + 1) with
              hend | ⟨hless, hle⟩
            · rw [hend]
              exact ⟨Nat.lt_succ_self _, hlt⟩
            · exact ⟨by omega, hle⟩

theorem readVarintAt_index (input : Bytes) (index : Nat) :
    readVarintAt input index = (.error .truncatedInput, index)
      ∨ index < (readVarintAt input index).2 ∧ (readVarintAt input index).2 ≤ input.length :=
  readLadderAt_index input 9 0 0 index

/-- What a read of the bytes behind an index says about the read at the index. -/
theorem readVarintAt_of_readVarint {input rest : Bytes} {index v : Nat}
    (h : readVarint (input.drop index) = .ok (v, rest)) :
    readVarintAt input index = (.ok (BitVec.ofNat 64 v), input.length - rest.length) := by
  rw [← readVarintAt_eq] at h
  have hindex := readVarintAt_index input index
  generalize readVarintAt input index = read at h hindex
  obtain ⟨result, last⟩ := read
  cases result with
  | error e => cases h
  | ok value =>
      rcases hindex with hend | ⟨-, hle⟩
      · cases hend
      simp only [asRead, Except.map, Except.ok.injEq, Prod.mk.injEq] at h hle
      obtain ⟨rfl, rfl⟩ := h
      have hlast : input.length - (input.drop last).length = last := by
        rw [List.length_drop]
        omega
      rw [BitVec.ofNat_toNat, BitVec.setWidth_eq, hlast]

/-- A varint is read where it stands, whatever is behind it. -/
theorem readVarintAt_writeVarint (v : BitVec 64) (before rest : Bytes) :
    readVarintAt (before ++ writeVarint v.toNat ++ rest) before.length
      = (.ok v, before.length + encodedVarintSize v.toNat) := by
  have hbehind : (before ++ writeVarint v.toNat ++ rest).drop before.length
      = writeVarint v.toNat ++ rest := by
    rw [List.append_assoc, List.drop_left]
  have hread := readVarint_writeVarint v.isLt rest
  rw [← hbehind] at hread
  have hlength : (before ++ writeVarint v.toNat ++ rest).length - rest.length
      = before.length + encodedVarintSize v.toNat := by
    rw [List.length_append, List.length_append, writeVarint_length v.isLt]
    omega
  rw [readVarintAt_of_readVarint hread, hlength, BitVec.ofNat_toNat, BitVec.setWidth_eq]

/-! ## The codec -/

/-- All writers emit the same bytes for a value, and they are read as the value. -/
theorem varint_codec :
    (∀ v : BitVec 64,
      (writeVarint v.toNat).length = encodedVarintSize v.toNat
        ∧ Emits (writeVarintToSlice v) (writeVarint v.toNat)
        ∧ Emits (writeDirectScalarVarintToSlice v) (writeVarint v.toNat)
        ∧ (v.toInt < 0 → Emits (writeNegativeInt64VarintToSlice v) (writeVarint v.toNat))
        ∧ (∀ bytes cells : Bytes, cells.length = encodedVarintSize v.toNat →
            writeVarintToBuffer cells v = some (writeVarint v.toNat, encodedVarintSize v.toNat)
              ∧ appendVarint bytes cells v = some (bytes ++ writeVarint v.toNat))
        ∧ (∀ before rest, readVarintAt (before ++ writeVarint v.toNat ++ rest) before.length
            = (.ok v, before.length + encodedVarintSize v.toNat)))
      ∧ (∀ v : BitVec 32,
        Emits (writeUInt32VarintToSlice v) (writeVarint v.toNat)
          ∧ (∀ cells : Bytes, cells.length = encodedVarintSize v.toNat →
            writeUInt32VarintToBuffer cells v
              = some (writeVarint v.toNat, encodedVarintSize v.toNat)))
      ∧ (∀ v : BitVec 32, zigZagDecode32 (zigZagEncode32 v) = v)
      ∧ (∀ v : BitVec 64, zigZagDecode64 (zigZagEncode64 v) = v) := by
  refine ⟨fun v => ?_, fun v => ?_, fun v => zigZagDecode_zigZagEncode (by decide) v,
    fun v => zigZagDecode_zigZagEncode (by decide) v⟩
  · have hlength := writeVarint_length v.isLt
    have hslice := writeVarintToSlice_emits v
    refine ⟨hlength, hslice, writeDirectScalarVarintToSlice_emits v,
      writeNegativeInt64VarintToSlice_emits, fun bytes cells hcells => ⟨?_, ?_⟩,
      readVarintAt_writeVarint v⟩
    · rw [← hlength]
      exact ofCells_of_emits hslice (hcells.trans hlength.symm)
    · exact appendVarint_eq bytes v hcells
  · have hlt : v.toNat < 2 ^ 64 := Nat.lt_trans v.isLt (by decide)
    have hlength := writeVarint_length hlt
    have hslice := writeUInt32VarintToSlice_emits v
    refine ⟨hslice, fun cells hcells => ?_⟩
    rw [← hlength]
    exact ofCells_of_emits hslice (hcells.trans hlength.symm)

end Wire

end Pbz
