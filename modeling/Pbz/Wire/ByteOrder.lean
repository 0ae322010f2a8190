import Pbz.Lib.Radix
import Pbz.Wire.Varint

set_option autoImplicit false

/-! # The order of byte strings

`bytesLessThan` of `wire.zig`, the comparison that generated code sorts the entries of a map with
string keys by. It compares eight bytes at a time, as the word that they are in big-endian order,
and the last bytes one by one. `none` stands for an index outside of a slice and for a difference
that leaves its `usize`; there is neither.
-/

namespace Pbz

namespace Wire

/-- The byte order of the target. -/
inductive Endian where
  | little
  | big
  deriving DecidableEq, Repr

/-- The bytes of a word in memory, taken for a `u64` of the target. -/
def bitCast (native : Endian) (bytes : Bytes) : Nat :=
  match native with
  | .little => ofLittleBytes bytes
  | .big => ofLittleBytes bytes.reverse

/-- `@byteSwap` of a `u64`. -/
def byteSwap (word : Nat) : Nat := ofLittleBytes (littleBytes 8 word).reverse

/-- `std.mem.readInt(u64, bytes, .big)`. -/
def readIntBig (native : Endian) (bytes : Bytes) : Nat :=
  if native == .big then bitCast native bytes else byteSwap (bitCast native bytes)

/-- The word at `bytes[i..][0..8]`. -/
def wordAt (native : Endian) (bytes : Bytes) (i : Nat) : Option Nat :=
  if i + 8 ≤ bytes.length then some (readIntBig native ((bytes.drop i).take 8)) else none

/-- The loop over single bytes. -/
def lessThanBytes (lhs rhs : Bytes) (commonLen i : Nat) : Option Bool :=
  if i < commonLen then do
    let left ← lhs[i]?
    let right ← rhs[i]?
    if left != right then some (left < right) else lessThanBytes lhs rhs commonLen (i + 1)
  else some (lhs.length < rhs.length)
termination_by commonLen - i

/-- The loop over words, and what follows it. -/
def lessThanWords (native : Endian) (lhs rhs : Bytes) (commonLen i : Nat) : Option Bool :=
  -- `commonLen - i` is a difference of `usize`
  if commonLen < i then none
  else if 8 ≤ commonLen - i then do
    let left ← wordAt native lhs i
    let right ← wordAt native rhs i
    if left != right then some (left < right) else lessThanWords native lhs rhs commonLen (i + 8)
  else lessThanBytes lhs rhs commonLen i
termination_by commonLen - i

def bytesLessThan (native : Endian) (lhs rhs : Bytes) : Option Bool :=
  lessThanWords native lhs rhs (min lhs.length rhs.length) 0

/-! ## Words -/

theorem ofLittleBytes_eq (bytes : Bytes) :
    ofLittleBytes bytes = Nat.ofDigits 256 (bytes.map UInt8.toNat) := by
  induction bytes with
  | nil => rfl
  | cons b bytes ih => rw [ofLittleBytes, ih, List.map_cons, Nat.ofDigits_cons]

theorem littleBytes_ofLittleBytes (bytes : Bytes) :
    littleBytes bytes.length (ofLittleBytes bytes) = bytes := by
  induction bytes with
  | nil => rfl
  | cons b bytes ih =>
      have hb := b.toNat_lt
      have hlow : UInt8.ofNat (b.toNat + 256 * ofLittleBytes bytes) = b := by
        rw [← UInt8.toNat_inj, UInt8.toNat_ofNat']
        omega
      have hhigh : (b.toNat + 256 * ofLittleBytes bytes) / 256 = ofLittleBytes bytes := by omega
      rw [List.length_cons, ofLittleBytes, littleBytes, hlow, hhigh, ih]

/-- On every target the word is the number that the bytes write in big-endian order. -/
theorem readIntBig_eq (native : Endian) {bytes : Bytes} (hlength : bytes.length = 8) :
    readIntBig native bytes = bigEndian 256 (bytes.map UInt8.toNat) := by
  have hnumber : ofLittleBytes bytes.reverse = bigEndian 256 (bytes.map UInt8.toNat) := by
    rw [ofLittleBytes_eq, List.map_reverse, bigEndian]
  cases native with
  | big => exact hnumber
  | little =>
      show byteSwap (ofLittleBytes bytes) = _
      rw [byteSwap, ← hlength, littleBytes_ofLittleBytes, hnumber]

theorem map_toNat_lt_iff {lhs rhs : Bytes} :
    lhs.map UInt8.toNat < rhs.map UInt8.toNat ↔ lhs < rhs := by
  induction lhs generalizing rhs with
  | nil => cases rhs <;> simp
  | cons x lhs ih =>
      cases rhs with
      | nil => simp
      | cons y rhs =>
          rw [List.map_cons, List.map_cons, List.cons_lt_cons_iff, List.cons_lt_cons_iff, ih,
            UInt8.toNat_inj, UInt8.lt_iff_toNat_lt]

theorem readIntBig_lt_iff (native : Endian) {lhs rhs : Bytes} (hlhs : lhs.length = 8)
    (hrhs : rhs.length = 8) : readIntBig native lhs < readIntBig native rhs ↔ lhs < rhs := by
  have hbyte (bytes : Bytes) : ∀ d ∈ bytes.map UInt8.toNat, d < 256 :=
    List.forall_mem_map.mpr (fun b _ => b.toNat_lt)
  rw [readIntBig_eq native hlhs, readIntBig_eq native hrhs,
    bigEndian_lt_iff (by decide) (by simp [hlhs, hrhs]) (hbyte lhs) (hbyte rhs), map_toNat_lt_iff]

theorem readIntBig_inj (native : Endian) {lhs rhs : Bytes} (hlhs : lhs.length = 8)
    (hrhs : rhs.length = 8) : readIntBig native lhs = readIntBig native rhs ↔ lhs = rhs := by
  refine ⟨fun h => ?_, fun h => h ▸ rfl⟩
  have hbyte (bytes : Bytes) : ∀ d ∈ bytes.map UInt8.toNat, d < 256 :=
    List.forall_mem_map.mpr (fun b _ => b.toNat_lt)
  rw [readIntBig_eq native hlhs, readIntBig_eq native hrhs] at h
  have hmap := bigEndian_injective (by decide) (by simp [hlhs, hrhs]) (hbyte lhs) (hbyte rhs) h
  exact List.map_injective_iff.mpr (fun _ _ => UInt8.toNat_inj.mp) hmap

/-! ## The loops -/

section

variable {lhs rhs : Bytes}

/-- From an index on, the loop over bytes compares what is behind it. -/
theorem lessThanBytes_spec {i : Nat} (hi : i ≤ min lhs.length rhs.length) :
    ∃ less, lessThanBytes lhs rhs (min lhs.length rhs.length) i = some less
      ∧ (less = true ↔ lhs.drop i < rhs.drop i) := by
  unfold lessThanBytes
  split
  · next hlt =>
    obtain ⟨hleft, hright⟩ := Nat.lt_min.mp hlt
    have hstep : lhs.drop i < rhs.drop i
        ↔ lhs[i] < rhs[i] ∨ lhs[i] = rhs[i] ∧ lhs.drop (i + 1) < rhs.drop (i + 1) := by
      rw [List.drop_eq_getElem_cons hleft, List.drop_eq_getElem_cons hright,
        List.cons_lt_cons_iff]
    rw [List.getElem?_eq_getElem hleft, List.getElem?_eq_getElem hright, hstep]
    by_cases hbyte : lhs[i] = rhs[i]
    · obtain ⟨less, hless, hiff⟩ := lessThanBytes_spec (i := i + 1) hlt
      exact ⟨less, by simpa [hbyte] using hless, by simp [hbyte, hiff]⟩
    · exact ⟨decide (lhs[i] < rhs[i]), by simp [hbyte], by simp [hbyte]⟩
  · next hge =>
    refine ⟨decide (lhs.length < rhs.length), rfl, ?_⟩
    rw [decide_eq_true_iff]
    -- one of the two ends here
    rcases Nat.le_total lhs.length rhs.length with hle | hle
    · have hend : rhs.drop i = [] ↔ rhs.length ≤ i := List.drop_eq_nil_iff
      rw [List.drop_of_length_le (by omega : lhs.length ≤ i)]
      cases hrest : rhs.drop i with
      | nil =>
          have hle' := hend.mp hrest
          simp
          omega
      | cons c rest =>
          have hlt := mt hend.mpr (hrest ▸ List.cons_ne_nil c rest)
          simp only [List.nil_lt_cons, iff_true]
          omega
    · rw [List.drop_of_length_le (by omega : rhs.length ≤ i)]
      simp [hle]
termination_by min lhs.length rhs.length - i

theorem exists_wordAt (native : Endian) {bytes : Bytes} {i : Nat} (h : i + 8 ≤ bytes.length) :
    ∃ front, front.length = 8 ∧ bytes.drop i = front ++ bytes.drop (i + 8)
      ∧ wordAt native bytes i = some (readIntBig native front) := by
  refine ⟨(bytes.drop i).take 8, ?_, ?_, if_pos h⟩
  · rw [List.length_take, List.length_drop]
    omega
  · rw [← List.drop_drop, List.take_append_drop]

/-- The loop over words compares what is behind its index, too. -/
theorem lessThanWords_spec (native : Endian) {i : Nat} (hi : i ≤ min lhs.length rhs.length) :
    ∃ less, lessThanWords native lhs rhs (min lhs.length rhs.length) i = some less
      ∧ (less = true ↔ lhs.drop i < rhs.drop i) := by
  unfold lessThanWords
  rw [if_neg (Nat.not_lt.mpr hi)]
  split
  · next hword =>
    have hnext : i + 8 ≤ min lhs.length rhs.length := by omega
    obtain ⟨left, hleft, hleftDrop, hleftWord⟩ := exists_wordAt native (Nat.le_min.mp hnext).1
    obtain ⟨right, hright, hrightDrop, hrightWord⟩ := exists_wordAt native (Nat.le_min.mp hnext).2
    rw [hleftWord, hrightWord, hleftDrop, hrightDrop,
      append_lt_append_iff (hleft.trans hright.symm), ← readIntBig_lt_iff native hleft hright,
      ← readIntBig_inj native hleft hright]
    -- equal words hold the same eight bytes, so the rest decides
    by_cases hequal : readIntBig native left = readIntBig native right
    · obtain ⟨less, hless, hiff⟩ := lessThanWords_spec native (i := i + 8) hnext
      exact ⟨less, by simpa [hequal] using hless, by simp [hequal, hiff]⟩
    · exact ⟨decide (readIntBig native left < readIntBig native right), by simp [hequal],
        by simp [hequal]⟩
  · exact lessThanBytes_spec hi
termination_by min lhs.length rhs.length - i

end

/-- The comparison is that of the order on lists; it ends, and stays inside the slices. -/
theorem bytesLessThan_eq (native : Endian) (lhs rhs : Bytes) :
    bytesLessThan native lhs rhs = some (decide (lhs < rhs)) := by
  obtain ⟨less, hless, hiff⟩ := @lessThanWords_spec lhs rhs native 0 (Nat.zero_le _)
  rw [List.drop_zero, List.drop_zero, ← decide_eq_true_iff (p := lhs < rhs)] at hiff
  rw [bytesLessThan, hless, Bool.eq_iff_iff.mpr hiff]

/-! ## The order -/

/-- The first byte that differs is smaller in `lhs`, or `lhs` is a proper prefix of `rhs`. -/
def Precedes (lhs rhs : Bytes) : Prop :=
  (∃ front a left b right, lhs = front ++ a :: left ∧ rhs = front ++ b :: right
      ∧ a.toNat < b.toNat)
    ∨ ∃ c rest, rhs = lhs ++ c :: rest

theorem precedes_cons {x y : UInt8} {lhs rhs : Bytes} : Precedes (x :: lhs) (y :: rhs)
    ↔ x < y ∨ x = y ∧ Precedes lhs rhs := by
  constructor
  · rintro (⟨front, a, left, b, right, hleft, hright, hlt⟩ | ⟨c, rest, hrest⟩)
    · cases front with
      | nil =>
          cases hleft
          cases hright
          exact .inl hlt
      | cons z front =>
          cases hleft
          cases hright
          exact .inr ⟨rfl, .inl ⟨front, a, left, b, right, rfl, rfl, hlt⟩⟩
    · cases hrest
      exact .inr ⟨rfl, .inr ⟨c, rest, rfl⟩⟩
  · rintro (hlt | ⟨rfl, ⟨front, a, left, b, right, rfl, rfl, hlt⟩ | ⟨c, rest, rfl⟩⟩)
    · exact .inl ⟨[], x, lhs, y, rhs, rfl, rfl, hlt⟩
    · exact .inl ⟨x :: front, a, left, b, right, rfl, rfl, hlt⟩
    · exact .inr ⟨c, rest, rfl⟩

theorem precedes_iff {lhs rhs : Bytes} : Precedes lhs rhs ↔ lhs < rhs := by
  induction lhs generalizing rhs with
  | nil =>
      cases rhs with
      | nil => simp [Precedes]
      | cons c rest => exact ⟨fun _ => List.nil_lt_cons c rest, fun _ => .inr ⟨c, rest, rfl⟩⟩
  | cons x lhs ih =>
      cases rhs with
      | nil => simp [Precedes]
      | cons y rhs => rw [precedes_cons, ih, List.cons_lt_cons_iff]

/-- On every target the result is whether `lhs` comes first. -/
theorem bytesLessThan_lexicographic (native : Endian) (lhs rhs : Bytes) :
    ∃ less, bytesLessThan native lhs rhs = some less ∧ (less = true ↔ Precedes lhs rhs) :=
  ⟨_, bytesLessThan_eq native lhs rhs, by rw [decide_eq_true_iff, precedes_iff]⟩

end Wire

end Pbz
