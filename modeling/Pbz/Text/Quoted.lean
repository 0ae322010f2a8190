import Pbz.Text.Escapes

set_option autoImplicit false

/-! # Quoting

What `writeQuoted` prints is a literal of the text format for the bytes it has been given. Octal
escapes are printed with three digits, so that no digit behind them is taken for one of theirs.
-/

namespace Pbz

namespace Text

theorem vectorsNeedEscape_eq (vectorLen rounds : Nat) (bytes : Bytes) :
    vectorsNeedEscape vectorLen rounds bytes = bytes.any byteNeedsEscape := by
  induction rounds generalizing bytes with
  | zero => rfl
  | succ rounds ih =>
      rw [vectorsNeedEscape, ih, ← List.any_append, List.take_append_drop, ite_self]

theorem textStringNeedsEscape_eq (vectorLen : Nat) (bytes : Bytes) :
    textStringNeedsEscape vectorLen bytes = bytes.any byteNeedsEscape := by
  rw [textStringNeedsEscape, vectorsNeedEscape_eq, ite_self]

/-- What `writeQuoted` prints between the quotes. -/
def quotedBody (bytes : Bytes) : Bytes :=
  if !bytes.any byteNeedsEscape then bytes else bytes.flatMap quotedByte

theorem writeQuoted_eq (vectorLen : Nat) (bytes : Bytes) :
    writeQuoted vectorLen bytes = 0x22 :: (quotedBody bytes ++ [0x22]) := by
  rw [writeQuoted, textStringNeedsEscape_eq, quotedBody]
  split
  · rfl
  · rfl

section

variable {rest text bytes : Bytes}

/-- The three digits of an escape write the byte. -/
theorem octalText_digits : ∀ c : UInt8,
    isOctalDigit (0x30 + c / 64) = true ∧ isOctalDigit (0x30 + c / 8 % 8) = true
      ∧ isOctalDigit (0x30 + c % 8) = true
      ∧ digitsNumber 8 0 [0x30 + c / 64, 0x30 + c / 8 % 8, 0x30 + c % 8] = c.toNat :=
  forall_byte (by decide)

theorem octalText_spells (c : UInt8) (h : Spells (textDialect 0x22) rest text bytes) :
    Spells (textDialect 0x22) rest (octalText c ++ text) (c :: bytes) := by
  obtain ⟨hfirst, hsecond, hthird, hnumber⟩ := octalText_digits c
  have hgreedy : Greedy isOctalDigit 2 [0x30 + c / 8 % 8, 0x30 + c % 8] text :=
    ⟨by simp [hsecond, hthird], Nat.le_refl 2, fun hlt => absurd hlt (Nat.lt_irrefl 2)⟩
  have hfits : digitsNumber 8 0 [0x30 + c / 64, 0x30 + c / 8 % 8, 0x30 + c % 8] < 256 :=
    hnumber ▸ c.toNat_lt
  have hescape := @Escape.octal (textDialect 0x22) _ _ _ hfirst hgreedy hfits
  rw [hnumber, UInt8.ofNat_toNat] at hescape
  exact .escape hescape h

/-- What the loop prints for a byte denotes it. -/
theorem quotedByte_spells (c : UInt8) (h : Spells (textDialect 0x22) rest text bytes) :
    Spells (textDialect 0x22) rest (quotedByte c ++ text) (c :: bytes) := by
  have hletter (letter byte : UInt8) (hbyte : simpleEscape letter = some byte) :
      Spells (textDialect 0x22) rest (0x5c :: letter :: text) (byte :: bytes) :=
    .escape (.letter hbyte) h
  rw [quotedByte]
  split_ifs with hslash hquote hnewline hreturn htab hprintable
  · rw [beq_iff_eq.mp hslash]
    exact hletter 0x5c 0x5c rfl
  · rw [beq_iff_eq.mp hquote]
    exact hletter 0x22 0x22 rfl
  · rw [beq_iff_eq.mp hnewline]
    exact hletter 0x6e 0x0a rfl
  · rw [beq_iff_eq.mp hreturn]
    exact hletter 0x72 0x0d rfl
  · rw [beq_iff_eq.mp htab]
    exact hletter 0x74 0x09 rfl
  · refine .plain ?_ h
    simp_all [textDialect]
  · exact octalText_spells c h

/-- A byte of the fast path stands for itself. -/
theorem plain_of_not_needsEscape : ∀ c : UInt8,
    byteNeedsEscape c = false → (textDialect 0x22).plain c = true :=
  forall_byte (by decide)

end

/-- On both paths, what stands between the quotes denotes the bytes. -/
theorem quotedBody_spells (bytes rest : Bytes) :
    Spells (textDialect 0x22) rest (quotedBody bytes ++ rest) bytes := by
  rw [quotedBody]
  cases hescape : bytes.any byteNeedsEscape with
  | false =>
      rw [List.any_eq_false] at hescape
      show Spells _ rest (bytes ++ rest) bytes
      induction bytes with
      | nil => exact .nil
      | cons c more ih =>
          obtain ⟨hc, hmore⟩ := List.forall_mem_cons.mp hescape
          exact .plain (plain_of_not_needsEscape c (Bool.eq_false_iff.mpr hc)) (ih hmore)
  | true =>
      clear hescape
      show Spells _ rest (bytes.flatMap quotedByte ++ rest) bytes
      induction bytes with
      | nil => exact .nil
      | cons c more ih =>
          rw [List.flatMap_cons, List.append_assoc]
          exact quotedByte_spells c ih

/-- Behind the opening quote the text is consumed up to the closing one, whatever follows it. -/
theorem readQuotedStringPart_quotedBody (bytes rest : Bytes) {rounds : Nat}
    (h : (quotedBody bytes ++ 0x22 :: rest).length ≤ rounds) :
    readQuotedStringPart 0x22 rounds (quotedBody bytes ++ 0x22 :: rest) = .ok (bytes, rest) :=
  readQuotedStringPart_literal rfl (quotedBody_spells bytes (0x22 :: rest)) h

/-- The loop goes on behind the quoted text. -/
theorem readParts_quotedBody (bytes rest : Bytes) (rounds : Nat) :
    readParts (rounds + 1) (0x22 :: (quotedBody bytes ++ 0x22 :: rest))
      = (readParts rounds rest).map (fun read => (bytes ++ read.1, read.2)) := by
  have hread := readQuotedStringPart_quotedBody bytes rest (Nat.le_refl _)
  have hspace : skipSpace (0x22 :: (quotedBody bytes ++ 0x22 :: rest))
      = 0x22 :: (quotedBody bytes ++ 0x22 :: rest) := by
    rw [skipSpace]
    rfl
  rw [readParts, hspace]
  show (readQuotedStringPart 0x22 (quotedBody bytes ++ 0x22 :: rest).length
      (quotedBody bytes ++ 0x22 :: rest)).bind (fun part =>
        (readParts rounds part.2).bind (fun more => .ok (part.1 ++ more.1, more.2))) = _
  rw [hread]
  show (readParts rounds rest).bind (fun more => .ok (bytes ++ more.1, more.2)) = _
  cases readParts rounds rest <;> rfl

theorem readParts_end {rest : Bytes} (h : (skipSpace rest).head?.any isQuote = false)
    (rounds : Nat) : readParts (rounds + 1) rest = .ok ([], skipSpace rest) := by
  rw [readParts]
  cases hrest : skipSpace rest with
  | nil => rfl
  | cons c more =>
      rw [hrest] at h
      have hc : isQuote c = false := h
      simp [hc]

/-- The printed string is read back and nothing else is consumed, unless another literal follows. -/
theorem readString_writeQuoted (vectorLen : Nat) (bytes : Bytes) {rest : Bytes}
    (h : (skipSpace rest).head?.any isQuote = false) :
    readString (writeQuoted vectorLen bytes ++ rest) = .ok (bytes, skipSpace rest) := by
  have htext : writeQuoted vectorLen bytes ++ rest
      = 0x22 :: (quotedBody bytes ++ 0x22 :: rest) := by
    rw [writeQuoted_eq]
    simp
  have hquote : ((skipSpace (0x22 :: (quotedBody bytes ++ 0x22 :: rest))).head?.any isQuote)
      = true := by
    rw [skipSpace]
    rfl
  rw [htext, readString, if_pos hquote, readParts_quotedBody, List.length_cons, readParts_end h]
  exact congrArg (fun read => Except.ok (read, skipSpace rest)) (List.append_nil bytes)

/-- Reading the printed text gives the bytes back; it ends where the text ends, whatever follows the
closing quote. -/
theorem writeQuoted_roundTrip (vectorLen : Nat) (bytes : Bytes) :
    readString (writeQuoted vectorLen bytes) = .ok (bytes, [])
      ∧ ∀ rest, ∃ text, writeQuoted vectorLen bytes ++ rest = 0x22 :: text
        ∧ readQuotedStringPart 0x22 text.length text = .ok (bytes, rest)
        ∧ ((skipSpace rest).head?.any isQuote = false →
          readString (writeQuoted vectorLen bytes ++ rest) = .ok (bytes, skipSpace rest)) := by
  refine ⟨?_, fun rest => ⟨quotedBody bytes ++ 0x22 :: rest, ?_, ?_, ?_⟩⟩
  · have hread := @readString_writeQuoted vectorLen bytes [] rfl
    rwa [List.append_nil] at hread
  · rw [writeQuoted_eq]
    simp
  · exact readQuotedStringPart_quotedBody bytes rest (Nat.le_refl _)
  · exact readString_writeQuoted vectorLen bytes

theorem writeQuoted_roundTrip_octal :
    readString (writeQuoted 16 [0xff, 0x37] ++ ascii " \x7d")
      = .ok ([0xff, 0x37], ascii "\x7d") := by
  obtain ⟨text, -, -, hread⟩ := (writeQuoted_roundTrip 16 [0xff, 0x37]).2 (ascii " \x7d")
  exact hread (by decide)

end Text

end Pbz
