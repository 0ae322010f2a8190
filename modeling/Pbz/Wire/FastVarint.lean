import Pbz.Wire.Cursor

set_option autoImplicit false

/-! # Fast varint readers

The readers of `wire.zig` that read short varints on the spot, in words of 32 bits, and leave longer
ones to `readVarintAt`, from the start of the varint. Each of them returns the value of
`readVarintAt` cut to its type, fails where that fails with the same error, and leaves the same
index.
-/

namespace Pbz

namespace Wire

/-- A read whose value is seen through a function. -/
def mapValue {α β : Type} (f : α → β) (read : Except Error α × Nat) : Except Error β × Nat :=
  (read.1.map f, read.2)

/-- The bytes that are read on the spot, one for each mask. A varint that goes on behind them is
left to the fallback. -/
def readRungs {α : Type} (input : Bytes) (finish : BitVec 32 → α)
    (fallback : Except Error α × Nat) :
    List UInt8 → Nat → BitVec 32 → Nat → Except Error α × Nat
  | [], _, _, _ => fallback
  | mask :: masks, shift, raw, index =>
      match input[index]? with
      | none => (.error .truncatedInput, index)
      | some byte =>
          let raw := raw ||| maskedBits 32 mask byte <<< shift
          if byte < 0x80 then (.ok (finish raw), index + 1)
          else readRungs input finish fallback masks (shift + 7) raw (index + 1)

/-- The fifth byte has only four bits of a `u32`. -/
def readUInt32At (input : Bytes) (start : Nat) : Except Error (BitVec 32) × Nat :=
  readRungs input id (mapValue (BitVec.setWidth 32) (readVarintAt input start))
    [0x7f, 0x7f, 0x7f, 0x7f, 0x0f] 0 0 start

def readInt32At (input : Bytes) (start : Nat) : Except Error (BitVec 32) × Nat :=
  readRungs input id (mapValue (BitVec.setWidth 32) (readVarintAt input start))
    [0x7f, 0x7f] 0 0 start

def readSInt32At (input : Bytes) (start : Nat) : Except Error (BitVec 32) × Nat :=
  readRungs input zigZagDecode32
    (mapValue (fun value => zigZagDecode32 (value.setWidth 32)) (readVarintAt input start))
    [0x7f, 0x7f] 0 0 start

def readBoolAt (input : Bytes) (start : Nat) : Except Error Bool × Nat :=
  match input[start]? with
  | none => (.error .truncatedInput, start)
  | some first =>
      if first < 0x80 then (.ok (first != 0), start + 1)
      else mapValue (fun value => value != 0) (readVarintAt input start)

/-- What `nextPackedVarint32Hot` reads at an index inside a payload. -/
def readPackedVarint32Hot (payload : Bytes) (start : Nat) : Except Error (BitVec 32) × Nat :=
  readRungs payload id (mapValue (BitVec.setWidth 32) (readVarintAt payload start))
    [0x7f, 0x7f] 0 0 start

/-! ## The rungs -/

/-- The mask leaves the bits of a byte that fit into 32 bits at their place. -/
def MaskAt (shift : Nat) (mask : UInt8) : Prop :=
  ∀ i < 8, shift + i < 32 → mask.toBitVec.getLsbD i = (0x7f : UInt8).toBitVec.getLsbD i

instance (shift : Nat) (mask : UInt8) : Decidable (MaskAt shift mask) :=
  inferInstanceAs (Decidable (∀ i < 8, _ → _))

/-- The masks of the bytes from a place on. -/
def MasksFrom : Nat → List UInt8 → Prop
  | _, [] => True
  | shift, mask :: masks => MaskAt shift mask ∧ MasksFrom (shift + 7) masks

theorem masksFrom_two : MasksFrom 0 [0x7f, 0x7f] := ⟨by decide, by decide, trivial⟩

theorem masksFrom_five : MasksFrom 0 [0x7f, 0x7f, 0x7f, 0x7f, 0x0f] :=
  ⟨by decide, by decide, by decide, by decide, by decide, trivial⟩

theorem getLsbD_maskedBits (w : Nat) (mask byte : UInt8) (i : Nat) :
    (maskedBits w mask byte).getLsbD i
      = (decide (i < w) && (byte.toBitVec.getLsbD i && mask.toBitVec.getLsbD i)) := by
  rw [maskedBits, BitVec.getLsbD_setWidth, UInt8.toBitVec_and, BitVec.getLsbD_and]

/-- The bits of a byte at their place in a `u32` are those in a `u64`, cut to 32 bits. -/
theorem maskedBits_setWidth {shift : Nat} {mask : UInt8} (h : MaskAt shift mask) (byte : UInt8) :
    maskedBits 32 mask byte <<< shift = (maskedBits 64 0x7f byte <<< shift).setWidth 32 := by
  apply BitVec.eq_of_getLsbD_eq
  intro i hi
  rw [BitVec.getLsbD_shiftLeft, BitVec.getLsbD_setWidth, BitVec.getLsbD_shiftLeft,
    getLsbD_maskedBits, getLsbD_maskedBits]
  by_cases hplace : i < shift
  · simp [hplace]
  · have hbits : (byte.toBitVec.getLsbD (i - shift) && mask.toBitVec.getLsbD (i - shift))
        = (byte.toBitVec.getLsbD (i - shift) && (0x7f : UInt8).toBitVec.getLsbD (i - shift)) := by
      by_cases hbyte : i - shift < 8
      · rw [h (i - shift) hbyte (by omega)]
      · rw [BitVec.getLsbD_of_ge byte.toBitVec _ (by omega), Bool.false_and, Bool.false_and]
    rw [hbits, decide_eq_true hi, decide_eq_true (show i < 64 by omega),
      decide_eq_true (show i - shift < 32 by omega), decide_eq_true (show i - shift < 64 by omega)]
    simp only [Bool.true_and]

/-- Cut to 32 bits, the rungs on the spot are the first ones of the common ladder. -/
theorem readRungs_eq {α : Type} (finish : BitVec 32 → α) {input : Bytes} {start : Nat}
    {masks : List UInt8} {shift : Nat} (hmasks : MasksFrom shift masks) {n : Nat}
    (hn : masks.length ≤ n) (result : BitVec 64) (index : Nat)
    (hladder : readVarintAt input start = readLadderAt input n shift result index) :
    readRungs input finish
        (mapValue (fun value => finish (value.setWidth 32)) (readVarintAt input start))
        masks shift (result.setWidth 32) index
      = mapValue (fun value => finish (value.setWidth 32)) (readVarintAt input start) := by
  induction masks generalizing shift n result index with
  | nil => rfl
  | cons mask masks ih =>
      obtain ⟨hmask, hmore⟩ := hmasks
      obtain ⟨n, rfl⟩ : ∃ k, n = k + 1 := ⟨n - 1, by simp only [List.length_cons] at hn; omega⟩
      rw [readLadderAt] at hladder
      rw [readRungs]
      cases hget : input[index]? with
      | none =>
          rw [hget] at hladder
          rw [hladder]
          rfl
      | some byte =>
          have hraw : result.setWidth 32 ||| maskedBits 32 mask byte <<< shift
              = (result ||| maskedBits 64 0x7f byte <<< shift).setWidth 32 := by
            rw [maskedBits_setWidth hmask, BitVec.setWidth_or]
          simp only [hget] at hladder
          simp only [hraw]
          by_cases hlast : byte < 0x80
          · rw [if_pos hlast] at hladder
            rw [if_pos hlast, hladder]
            rfl
          · rw [if_neg hlast] at hladder
            rw [if_neg hlast]
            exact ih hmore (Nat.le_of_succ_le_succ hn) _ _ hladder

/-! ## The readers -/

theorem readUInt32At_eq (input : Bytes) (start : Nat) :
    readUInt32At input start = mapValue (BitVec.setWidth 32) (readVarintAt input start) :=
  readRungs_eq id masksFrom_five (by decide) 0 start rfl

theorem readInt32At_eq (input : Bytes) (start : Nat) :
    readInt32At input start = mapValue (BitVec.setWidth 32) (readVarintAt input start) :=
  readRungs_eq id masksFrom_two (by decide) 0 start rfl

theorem readSInt32At_eq (input : Bytes) (start : Nat) :
    readSInt32At input start
      = mapValue (fun value => zigZagDecode32 (value.setWidth 32)) (readVarintAt input start) :=
  readRungs_eq zigZagDecode32 masksFrom_two (by decide) 0 start rfl

theorem readPackedVarint32Hot_eq (payload : Bytes) (start : Nat) :
    readPackedVarint32Hot payload start
      = mapValue (BitVec.setWidth 32) (readVarintAt payload start) :=
  readRungs_eq id masksFrom_two (by decide) 0 start rfl

theorem readBoolAt_eq (input : Bytes) (start : Nat) :
    readBoolAt input start = mapValue (fun value => value != 0) (readVarintAt input start) := by
  rw [readBoolAt]
  cases hget : input[start]? with
  | none =>
      have hread : readVarintAt input start = (.error .truncatedInput, start) := by
        simp only [readVarintAt, readLadderAt, hget]
      rw [hread]
      rfl
  | some first =>
      dsimp only
      by_cases hlast : first < 0x80
      · have hread : readVarintAt input start = (.ok (maskedBits 64 0x7f first), start + 1) := by
          simp only [readVarintAt, readLadderAt, hget, if_pos hlast]
          simp
        have hzero : maskedBits 64 0x7f first = 0 ↔ first = 0 := by
          have hsmall : first.toNat < 0x80 := hlast
          rw [← BitVec.toNat_inj, ← UInt8.toNat_inj, toNat_maskedBits (by decide),
            Nat.mod_eq_of_lt hsmall]
          rfl
        have hvalue : (maskedBits 64 0x7f first != 0) = (first != 0) := by
          rw [Bool.eq_iff_iff, bne_iff_ne, bne_iff_ne, ne_eq, ne_eq, hzero]
        rw [if_pos hlast, hread, mapValue, Except.map, hvalue]
      · rw [if_neg hlast]

end Wire

end Pbz
