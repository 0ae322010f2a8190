import Pbz.Dynamic.Value
import Pbz.Lib.JsonString

set_option autoImplicit false

/-! # UTF-8

What the validation accepts are the forms of scalar values, one behind the other.
-/

namespace Pbz

namespace Wkt

open JsonString (utf8)

/-- A code point that is no surrogate. -/
def IsScalar (point : Nat) : Prop := point < 0xd800 ∨ (0xe000 ≤ point ∧ point ≤ 0x10ffff)

instance (point : Nat) : Decidable (IsScalar point) := inferInstanceAs (Decidable (_ ∨ _))

theorem toNat_ofNat_byte {n : Nat} (h : n < 256) : (UInt8.ofNat n).toNat = n :=
  Nat.mod_eq_of_lt h

theorem utf8_one {point : Nat} (h : point < 0x80) : utf8 point = [UInt8.ofNat point] := if_pos h

theorem utf8_two {point : Nat} (hlow : 0x80 ≤ point) (hhigh : point < 0x800) :
    utf8 point = [UInt8.ofNat (0xc0 + point / 64), UInt8.ofNat (0x80 + point % 64)] := by
  rw [utf8, if_neg (by omega), if_pos hhigh]

theorem utf8_three {point : Nat} (hlow : 0x800 ≤ point) (hhigh : point < 0x10000) :
    utf8 point = [UInt8.ofNat (0xe0 + point / 4096), UInt8.ofNat (0x80 + point / 64 % 64),
      UInt8.ofNat (0x80 + point % 64)] := by
  rw [utf8, if_neg (by omega), if_neg (by omega), if_pos hhigh]

theorem utf8_four {point : Nat} (hlow : 0x10000 ≤ point) :
    utf8 point = [UInt8.ofNat (0xf0 + point / 262144), UInt8.ofNat (0x80 + point / 4096 % 64),
      UInt8.ofNat (0x80 + point / 64 % 64), UInt8.ofNat (0x80 + point % 64)] := by
  rw [utf8, if_neg (by omega), if_neg (by omega), if_neg (by omega)]

theorem utf8Continuation_iff (b : UInt8) :
    utf8Continuation b = true ↔ 0x80 ≤ b.toNat ∧ b.toNat ≤ 0xbf := by
  rw [utf8Continuation, Bool.and_eq_true, decide_eq_true_eq, decide_eq_true_eq]
  exact Iff.rfl

/-! ## Bytes that begin a form -/

section

variable {b0 b1 b2 b3 : UInt8} {rest : Bytes}

theorem validate_one (h : b0.toNat < 0x80) :
    utf8ValidateSlice (b0 :: rest) = utf8ValidateSlice rest := by
  rw [utf8ValidateSlice.eq_def]
  exact if_pos h

theorem validate_two (hlow : 0xc2 ≤ b0.toNat) (hhigh : b0.toNat < 0xe0) :
    utf8ValidateSlice (b0 :: b1 :: rest) = true
      ↔ (0x80 ≤ b1.toNat ∧ b1.toNat ≤ 0xbf) ∧ utf8ValidateSlice rest = true := by
  have hone : ¬ b0 < 0x80 := Nat.not_lt.mpr (Nat.le_trans (by decide) hlow)
  have htwo : ¬ b0 < 0xc2 := Nat.not_lt.mpr hlow
  have hthree : b0 < 0xe0 := hhigh
  rw [utf8ValidateSlice.eq_def]
  dsimp only
  rw [if_neg hone, if_neg htwo, if_pos hthree, Bool.and_eq_true, utf8Continuation_iff]

theorem validate_three (hlow : 0xe0 ≤ b0.toNat) (hhigh : b0.toNat < 0xf0) :
    utf8ValidateSlice (b0 :: b1 :: b2 :: rest) = true
      ↔ (0x80 ≤ b1.toNat ∧ b1.toNat ≤ 0xbf ∧ (b0.toNat = 0xe0 → 0xa0 ≤ b1.toNat)
          ∧ (b0.toNat = 0xed → b1.toNat ≤ 0x9f))
        ∧ (0x80 ≤ b2.toNat ∧ b2.toNat ≤ 0xbf) ∧ utf8ValidateSlice rest = true := by
  have hone : ¬ b0 < 0x80 := Nat.not_lt.mpr (Nat.le_trans (by decide) hlow)
  have htwo : ¬ b0 < 0xc2 := Nat.not_lt.mpr (Nat.le_trans (by decide) hlow)
  have hthree : ¬ b0 < 0xe0 := Nat.not_lt.mpr hlow
  have hfour : b0 < 0xf0 := hhigh
  have hsecond : (if b0 == 0xe0 then decide (0xa0 ≤ b1) && decide (b1 ≤ 0xbf)
      else if b0 == 0xed then decide (0x80 ≤ b1) && decide (b1 ≤ 0x9f)
      else utf8Continuation b1) = true
        ↔ 0x80 ≤ b1.toNat ∧ b1.toNat ≤ 0xbf ∧ (b0.toNat = 0xe0 → 0xa0 ≤ b1.toNat)
          ∧ (b0.toNat = 0xed → b1.toNat ≤ 0x9f) := by
    by_cases he : b0 = 0xe0
    · rw [he]
      simp [UInt8.le_iff_toNat_le]
      omega
    · by_cases hd : b0 = 0xed
      · rw [hd]
        simp [UInt8.le_iff_toNat_le]
        omega
      · have hen : b0.toNat ≠ 0xe0 := fun h => he (UInt8.toNat_inj.mp h)
        have hdn : b0.toNat ≠ 0xed := fun h => hd (UInt8.toNat_inj.mp h)
        simp [he, hd, hen, hdn, utf8Continuation_iff]
  rw [utf8ValidateSlice.eq_def]
  dsimp only
  rw [if_neg hone, if_neg htwo, if_neg hthree, if_pos hfour, Bool.and_eq_true, Bool.and_eq_true,
    hsecond, utf8Continuation_iff, and_assoc]

theorem validate_four (hlow : 0xf0 ≤ b0.toNat) :
    utf8ValidateSlice (b0 :: b1 :: b2 :: b3 :: rest) = true
      ↔ b0.toNat < 0xf5
        ∧ (0x80 ≤ b1.toNat ∧ b1.toNat ≤ 0xbf ∧ (b0.toNat = 0xf0 → 0x90 ≤ b1.toNat)
          ∧ (b0.toNat = 0xf4 → b1.toNat ≤ 0x8f))
        ∧ (0x80 ≤ b2.toNat ∧ b2.toNat ≤ 0xbf) ∧ (0x80 ≤ b3.toNat ∧ b3.toNat ≤ 0xbf)
        ∧ utf8ValidateSlice rest = true := by
  have hone : ¬ b0 < 0x80 := Nat.not_lt.mpr (Nat.le_trans (by decide) hlow)
  have htwo : ¬ b0 < 0xc2 := Nat.not_lt.mpr (Nat.le_trans (by decide) hlow)
  have hthree : ¬ b0 < 0xe0 := Nat.not_lt.mpr (Nat.le_trans (by decide) hlow)
  have hfour : ¬ b0 < 0xf0 := Nat.not_lt.mpr hlow
  have hsecond : (if b0 == 0xf0 then decide (0x90 ≤ b1) && decide (b1 ≤ 0xbf)
      else if b0 == 0xf4 then decide (0x80 ≤ b1) && decide (b1 ≤ 0x8f)
      else utf8Continuation b1) = true
        ↔ 0x80 ≤ b1.toNat ∧ b1.toNat ≤ 0xbf ∧ (b0.toNat = 0xf0 → 0x90 ≤ b1.toNat)
          ∧ (b0.toNat = 0xf4 → b1.toNat ≤ 0x8f) := by
    by_cases he : b0 = 0xf0
    · rw [he]
      simp [UInt8.le_iff_toNat_le]
      omega
    · by_cases hd : b0 = 0xf4
      · rw [hd]
        simp [UInt8.le_iff_toNat_le]
        omega
      · have hen : b0.toNat ≠ 0xf0 := fun h => he (UInt8.toNat_inj.mp h)
        have hdn : b0.toNat ≠ 0xf4 := fun h => hd (UInt8.toNat_inj.mp h)
        simp [he, hd, hen, hdn, utf8Continuation_iff]
  rw [utf8ValidateSlice.eq_def]
  dsimp only
  rw [if_neg hone, if_neg htwo, if_neg hthree, if_neg hfour, Bool.and_eq_true, Bool.and_eq_true,
    Bool.and_eq_true, Bool.and_eq_true, hsecond, utf8Continuation_iff, utf8Continuation_iff,
    decide_eq_true_eq]
  show (((b0.toNat < 0xf5 ∧ _) ∧ _) ∧ _) ∧ _ ↔ _
  simp only [and_assoc]

end

/-- The form of a scalar value is valid and leaves the rest to be. -/
theorem utf8ValidateSlice_utf8 {point : Nat} (h : IsScalar point) (rest : Bytes) :
    utf8ValidateSlice (utf8 point ++ rest) = utf8ValidateSlice rest := by
  have hbyte {n : Nat} (hn : n < 256) := toNat_ofNat_byte hn
  unfold IsScalar at h
  rw [Bool.eq_iff_iff]
  by_cases hone : point < 0x80
  · have h0 := @hbyte point (by omega)
    rw [utf8_one hone]
    exact iff_of_eq (congrArg (· = true) (validate_one (by omega)))
  by_cases htwo : point < 0x800
  · have h0 := @hbyte (0xc0 + point / 64) (by omega)
    have h1 := @hbyte (0x80 + point % 64) (by omega)
    rw [utf8_two (by omega) htwo]
    refine (validate_two (by omega) (by omega)).trans ?_
    rw [h1]
    exact and_iff_right (by omega)
  by_cases hthree : point < 0x10000
  · have h0 := @hbyte (0xe0 + point / 4096) (by omega)
    have h1 := @hbyte (0x80 + point / 64 % 64) (by omega)
    have h2 := @hbyte (0x80 + point % 64) (by omega)
    rw [utf8_three (by omega) hthree]
    refine (validate_three (by omega) (by omega)).trans ?_
    rw [h0, h1, h2, and_iff_right (by omega), and_iff_right (by omega)]
    exact Iff.rfl
  · have h0 := @hbyte (0xf0 + point / 262144) (by omega)
    have h1 := @hbyte (0x80 + point / 4096 % 64) (by omega)
    have h2 := @hbyte (0x80 + point / 64 % 64) (by omega)
    have h3 := @hbyte (0x80 + point % 64) (by omega)
    rw [utf8_four (by omega)]
    refine (validate_four (by omega)).trans ?_
    rw [h0, h1, h2, h3, and_iff_right (by omega), and_iff_right (by omega),
      and_iff_right (by omega), and_iff_right (by omega)]
    exact Iff.rfl

/-- A valid text begins with the form of a scalar value. -/
theorem exists_utf8 {b0 : UInt8} {text : Bytes} (h : utf8ValidateSlice (b0 :: text) = true) :
    ∃ point rest, IsScalar point ∧ b0 :: text = utf8 point ++ rest
      ∧ utf8ValidateSlice rest = true := by
  have hb0 := b0.toNat_lt
  by_cases hone : b0.toNat < 0x80
  · refine ⟨b0.toNat, text, .inl (by omega), ?_, (validate_one hone).symm.trans h⟩
    rw [utf8_one hone, UInt8.ofNat_toNat]
    rfl
  have hbyte {b : UInt8} {n : Nat} (hn : n = b.toNat) : UInt8.ofNat n = b := by
    rw [hn, UInt8.ofNat_toNat]
  have hone' : ¬ b0 < 0x80 := hone
  have htwo : ¬ b0 < 0xc2 := by
    intro hlt
    rw [utf8ValidateSlice.eq_def] at h
    dsimp only at h
    rw [if_neg hone', if_pos hlt] at h
    cases h
  have hlow : 0xc2 ≤ b0.toNat := Nat.not_lt.mp htwo
  by_cases hthree : b0.toNat < 0xe0
  · rcases text with _ | ⟨b1, text⟩
    · rw [utf8ValidateSlice.eq_def] at h
      dsimp only at h
      rw [if_neg hone', if_neg htwo] at h
      cases h
    · obtain ⟨h1, hrest⟩ := (validate_two hlow hthree).mp h
      refine ⟨(b0.toNat - 0xc0) * 64 + (b1.toNat - 0x80), text, .inl (by omega), ?_, hrest⟩
      rw [utf8_two (by omega) (by omega), hbyte (b := b0) (by omega), hbyte (b := b1) (by omega)]
      rfl
  have hthree' : ¬ b0 < 0xe0 := hthree
  by_cases hfour : b0.toNat < 0xf0
  · rcases text with _ | ⟨b1, _ | ⟨b2, text⟩⟩
    · rw [utf8ValidateSlice.eq_def] at h
      dsimp only at h
      rw [if_neg hone', if_neg htwo] at h
      cases h
    · rw [utf8ValidateSlice.eq_def] at h
      dsimp only at h
      rw [if_neg hone', if_neg htwo, if_neg hthree'] at h
      cases h
    · obtain ⟨h1, h2, hrest⟩ := (validate_three (Nat.not_lt.mp hthree) hfour).mp h
      refine ⟨(b0.toNat - 0xe0) * 4096 + (b1.toNat - 0x80) * 64 + (b2.toNat - 0x80), text, ?_, ?_,
        hrest⟩
      · unfold IsScalar
        omega
      · rw [utf8_three (by omega) (by omega), hbyte (b := b0) (by omega),
          hbyte (b := b1) (by omega), hbyte (b := b2) (by omega)]
        rfl
  have hfour' : ¬ b0 < 0xf0 := hfour
  rcases text with _ | ⟨b1, _ | ⟨b2, _ | ⟨b3, text⟩⟩⟩
  · rw [utf8ValidateSlice.eq_def] at h
    dsimp only at h
    rw [if_neg hone', if_neg htwo] at h
    cases h
  · rw [utf8ValidateSlice.eq_def] at h
    dsimp only at h
    rw [if_neg hone', if_neg htwo, if_neg hthree'] at h
    cases h
  · rw [utf8ValidateSlice.eq_def] at h
    dsimp only at h
    rw [if_neg hone', if_neg htwo, if_neg hthree', if_neg hfour'] at h
    cases h
  · obtain ⟨h0, h1, h2, h3, hrest⟩ := (validate_four (Nat.not_lt.mp hfour)).mp h
    refine ⟨(b0.toNat - 0xf0) * 262144 + (b1.toNat - 0x80) * 4096 + (b2.toNat - 0x80) * 64
      + (b3.toNat - 0x80), text, ?_, ?_, hrest⟩
    · unfold IsScalar
      omega
    · rw [utf8_four (by omega), hbyte (b := b0) (by omega), hbyte (b := b1) (by omega),
        hbyte (b := b2) (by omega), hbyte (b := b3) (by omega)]
      rfl

theorem validate_ascii {front : Bytes} (h : ∀ c ∈ front, c.toNat < 0x80) (rest : Bytes) :
    utf8ValidateSlice (front ++ rest) = utf8ValidateSlice rest := by
  induction front with
  | nil => rfl
  | cons c front ih =>
      obtain ⟨hc, hfront⟩ := List.forall_mem_cons.mp h
      exact (validate_one hc).trans (ih hfront)

/-- The form of a code point beyond ASCII has no byte of ASCII. -/
theorem utf8_bytes {point : Nat} (h : 0x80 ≤ point) (hhigh : point ≤ 0x10ffff) :
    ∀ c ∈ utf8 point, 0x80 ≤ c.toNat := by
  have hbyte {n : Nat} (hn : n < 256) := toNat_ofNat_byte hn
  intro c hc
  by_cases htwo : point < 0x800
  · rw [utf8_two h htwo] at hc
    simp only [List.mem_cons, List.not_mem_nil, or_false] at hc
    rcases hc with rfl | rfl <;> rw [hbyte (by omega)] <;> omega
  by_cases hthree : point < 0x10000
  · rw [utf8_three (by omega) hthree] at hc
    simp only [List.mem_cons, List.not_mem_nil, or_false] at hc
    rcases hc with rfl | rfl | rfl <;> rw [hbyte (by omega)] <;> omega
  · rw [utf8_four (by omega)] at hc
    simp only [List.mem_cons, List.not_mem_nil, or_false] at hc
    rcases hc with rfl | rfl | rfl | rfl <;> rw [hbyte (by omega)] <;> omega

end Wkt

end Pbz
