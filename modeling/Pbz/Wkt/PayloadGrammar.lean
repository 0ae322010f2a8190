import Pbz.Wkt.Payload

set_option autoImplicit false

/-! # Payloads and JSON

A payload that the loop takes is the body of a JSON string, unless an escape is read with a sign or an
underscore among its digits, a quotation mark stands in it, or its bytes are no UTF-8.
-/

namespace Pbz

namespace Wkt

open JsonString (utf8 escapedByte)

/-! ## Pieces and bodies -/

/-- A text begins with one piece at most. -/
theorem piece_unique {piece other : Piece} (h : piece.Accepted) (hother : other.Accepted)
    {rest more : Bytes} (htext : piece.text ++ rest = other.text ++ more) :
    piece = other ∧ rest = more := by
  have hu {byte : UInt8} : escapedByte 0x75 ≠ some byte := by
    intro hbyte
    cases hbyte
  have hgroups {group second : Bytes} (hgroup : Group group) (hsecond : Group second)
      {left right : Bytes} (happend : group ++ left = second ++ right) :
      group = second ∧ left = right :=
    List.append_inj happend (hgroup.length.trans hsecond.length.symm)
  cases piece with
  | plain c =>
      cases other with
      | plain d =>
          obtain ⟨rfl, rfl⟩ := List.cons.inj htext
          exact ⟨rfl, rfl⟩
      | short letter byte => exact absurd (List.cons.inj htext).1 h.2
      | unit group => exact absurd (List.cons.inj htext).1 h.2
      | pair high low => exact absurd (List.cons.inj htext).1 h.2
  | short letter byte =>
      cases other with
      | plain d => exact absurd (List.cons.inj htext).1.symm hother.2
      | short letter' byte' =>
          obtain ⟨hletter, rfl⟩ := List.cons.inj (List.cons.inj htext).2
          rw [hletter] at h
          have hbyte : byte = byte' := Option.some.inj (h.symm.trans hother)
          rw [hletter, hbyte]
          exact ⟨rfl, rfl⟩
      | unit group =>
          have hletter : letter = 0x75 := (List.cons.inj (List.cons.inj htext).2).1
          exact absurd (hletter ▸ h) hu
      | pair high low =>
          have hletter : letter = 0x75 := (List.cons.inj (List.cons.inj htext).2).1
          exact absurd (hletter ▸ h) hu
  | unit group =>
      cases other with
      | plain d => exact absurd (List.cons.inj htext).1.symm hother.2
      | short letter byte =>
          have hletter : 0x75 = letter := (List.cons.inj (List.cons.inj htext).2).1
          exact absurd (hletter ▸ hother) hu
      | unit second =>
          have hgroup := hgroups h.1 hother.1 (List.cons.inj (List.cons.inj htext).2).2
          rw [hgroup.1, hgroup.2]
          exact ⟨rfl, rfl⟩
      | pair high low =>
          have htail : group ++ rest = high ++ ((0x5c :: 0x75 :: low) ++ more) := by
            simpa [Piece.text] using htext
          obtain ⟨rfl, -⟩ := hgroups h.1 hother.1 htail
          obtain ⟨-, hscalar⟩ := h
          obtain ⟨-, -, hrange, -⟩ := hother
          unfold IsScalar at hscalar
          omega
  | pair high low =>
      cases other with
      | plain d => exact absurd (List.cons.inj htext).1.symm hother.2
      | short letter byte =>
          have hletter : 0x75 = letter := (List.cons.inj (List.cons.inj htext).2).1
          exact absurd (hletter ▸ hother) hu
      | unit second =>
          have htail : high ++ ((0x5c :: 0x75 :: low) ++ rest) = second ++ more := by
            simpa [Piece.text] using htext
          obtain ⟨rfl, -⟩ := hgroups h.1 hother.1 htail
          obtain ⟨-, hscalar⟩ := hother
          obtain ⟨-, -, hrange, -⟩ := h
          unfold IsScalar at hscalar
          omega
      | pair high' low' =>
          have htail : high ++ ((0x5c :: 0x75 :: low) ++ rest)
              = high' ++ ((0x5c :: 0x75 :: low') ++ more) := by
            simpa [Piece.text] using htext
          obtain ⟨rfl, hsecond⟩ := hgroups h.1 hother.1 htail
          have hlows := hgroups h.2.1 hother.2.1 (List.cons.inj (List.cons.inj hsecond).2).2
          rw [hlows.1, hlows.2]
          exact ⟨rfl, rfl⟩

theorem pieces_unique {pieces others : List Piece} (h : ∀ piece ∈ pieces, piece.Accepted)
    (hothers : ∀ piece ∈ others, piece.Accepted)
    (htext : pieces.flatMap Piece.text = others.flatMap Piece.text) : pieces = others := by
  have hne (piece : Piece) (more : List Piece) : (piece :: more).flatMap Piece.text ≠ [] := by
    cases piece <;> simp [Piece.text]
  induction pieces generalizing others with
  | nil =>
      cases others with
      | nil => rfl
      | cons other others => exact absurd htext.symm (hne other others)
  | cons piece pieces ih =>
      cases others with
      | nil => exact absurd htext (hne piece pieces)
      | cons other others =>
          obtain ⟨hpiece, hpieces⟩ := List.forall_mem_cons.mp h
          obtain ⟨hother, hmore⟩ := List.forall_mem_cons.mp hothers
          rw [List.flatMap_cons, List.flatMap_cons] at htext
          obtain ⟨rfl, hrest⟩ := piece_unique hpiece hother htext
          rw [ih hpieces hmore hrest]

/-- A piece that is taken and is not loose. -/
def Piece.Strict (piece : Piece) : Prop := piece.Accepted ∧ ¬ piece.Loose

theorem isDigitOf_ascii : ∀ c : UInt8, IsDigitOf 16 c → c.toNat < 0x80 :=
  forall_byte (by decide)

theorem escapedByte_ascii {letter byte : UInt8} (h : escapedByte letter = some byte) :
    letter.toNat < 0x80 ∧ byte.toNat < 0x80 := by
  have hall : ∀ letter : UInt8, (escapedByte letter).all (fun byte =>
      letter.toNat < 0x80 && byte.toNat < 0x80) = true := forall_byte (by decide)
  have hletter := hall letter
  rw [h] at hletter
  simpa using hletter

/-- The characters that stand for themselves do so byte by byte. -/
theorem strict_plain {point : Nat} (hscalar : IsScalar point) (hcontrol : 0x20 ≤ point)
    (hquote : point ≠ 0x22) (hslash : point ≠ 0x5c) :
    ∀ c ∈ utf8 point, (Piece.plain c).Strict := by
  intro c hc
  have hne {byte : UInt8} (h : c.toNat ≠ byte.toNat) : c ≠ byte := fun heq => h (heq ▸ rfl)
  by_cases hone : point < 0x80
  · rw [utf8_one hone, List.mem_singleton] at hc
    have hnumber : c.toNat = point := by rw [hc, toNat_ofNat_byte (by omega)]
    exact ⟨⟨hnumber ▸ hcontrol, hne (hnumber ▸ hslash)⟩, hne (hnumber ▸ hquote)⟩
  · have hhigh := utf8_bytes (Nat.not_lt.mp hone) (by unfold IsScalar at hscalar; omega) c hc
    refine ⟨⟨by omega, hne ?_⟩, hne ?_⟩
    · exact Nat.ne_of_gt (Nat.lt_of_lt_of_le (by decide) hhigh)
    · exact Nat.ne_of_gt (Nat.lt_of_lt_of_le (by decide) hhigh)

theorem plains_text (bytes : Bytes) : (bytes.map Piece.plain).flatMap Piece.text = bytes := by
  rw [List.flatMap_map]
  exact List.flatMap_singleton' bytes

theorem plains_bytes (bytes : Bytes) : (bytes.map Piece.plain).flatMap Piece.bytes = bytes := by
  rw [List.flatMap_map]
  exact List.flatMap_singleton' bytes

/-- An escape is ASCII if it is strict. -/
theorem Piece.Strict.text_ascii {piece : Piece} (h : piece.Strict) :
    (∃ c, piece = .plain c) ∨ ∀ c ∈ piece.text, c.toNat < 0x80 := by
  have hunit {group : Bytes} (hgroup : Group group) (hsign : ¬ HasSign group) :
      ∀ c ∈ group, c.toNat < 0x80 :=
    fun c hc => isDigitOf_ascii c ((hgroup.codeUnit hsign).digits c hc)
  have hmark : ∀ c ∈ ascii "\\u", c.toNat < 0x80 := by decide +kernel
  obtain ⟨haccepted, hloose⟩ := h
  cases piece with
  | plain c => exact .inl ⟨c, rfl⟩
  | short letter byte =>
      refine .inr (List.forall_mem_cons.mpr ⟨by decide, ?_⟩)
      exact List.forall_mem_singleton.mpr (escapedByte_ascii haccepted).1
  | unit group => exact .inr (List.forall_mem_append.mpr ⟨hmark, hunit haccepted.1 hloose⟩)
  | pair high low =>
      obtain ⟨hhigh, hlow⟩ := not_or.mp hloose
      have hfront := List.forall_mem_append.mpr ⟨hmark, hunit haccepted.1 hhigh⟩
      have hback := List.forall_mem_append.mpr ⟨hmark, hunit haccepted.2.1 hlow⟩
      exact .inr (List.forall_mem_append.mpr ⟨hfront, hback⟩)

theorem CodeUnit.strict_unit {digits : Bytes} (h : CodeUnit digits)
    (hscalar : IsScalar (unitNumber digits)) : (Piece.unit digits).Strict := by
  obtain ⟨hgroup, hnumber, hsign⟩ := h.group
  exact ⟨⟨hgroup, hnumber ▸ hscalar⟩, hsign⟩

theorem CodeUnit.strict_pair {high low : Bytes} (hhigh : CodeUnit high) (hlow : CodeUnit low)
    (hhighRange : 0xd800 ≤ unitNumber high ∧ unitNumber high ≤ 0xdbff)
    (hlowRange : 0xdc00 ≤ unitNumber low ∧ unitNumber low ≤ 0xdfff) :
    (Piece.pair high low).Strict := by
  obtain ⟨hhighGroup, hhighNumber, hhighSign⟩ := hhigh.group
  obtain ⟨hlowGroup, hlowNumber, hlowSign⟩ := hlow.group
  exact ⟨⟨hhighGroup, hlowGroup, hhighNumber ▸ hhighRange, hlowNumber ▸ hlowRange⟩,
    not_or.mpr ⟨hhighSign, hlowSign⟩⟩

/-- The text is made of strict pieces that denote the code points, and is UTF-8. -/
structure MadeOf (text : Bytes) (points : List Nat) (pieces : List Piece) : Prop where
  strict : ∀ piece ∈ pieces, piece.Strict
  text_eq : text = pieces.flatMap Piece.text
  bytes_eq : points.flatMap utf8 = pieces.flatMap Piece.bytes
  valid : utf8ValidateSlice text = true

theorem MadeOf.cons_escape {text : Bytes} {points : List Nat} {pieces : List Piece}
    (h : MadeOf text points pieces) {piece : Piece} (hpiece : piece.Strict)
    (hne : ∀ c, piece ≠ .plain c) {point : Nat} (hbytes : utf8 point = piece.bytes) :
    MadeOf (piece.text ++ text) (point :: points) (piece :: pieces) where
  strict := List.forall_mem_cons.mpr ⟨hpiece, h.strict⟩
  text_eq := by rw [List.flatMap_cons, ← h.text_eq]
  bytes_eq := by rw [List.flatMap_cons, List.flatMap_cons, hbytes, h.bytes_eq]
  valid := by
    rcases hpiece.text_ascii with ⟨c, hplain⟩ | hascii
    · exact absurd hplain (hne c)
    · rw [validate_ascii hascii, h.valid]

/-- The body of a JSON string is made of strict pieces. -/
theorem exists_madeOf {text : Bytes} {points : List Nat} (h : JsonBody text points) :
    ∃ pieces, MadeOf text points pieces := by
  induction h with
  | nil => exact ⟨[], by simp, rfl, rfl, rfl⟩
  | @character point text points hscalar hcontrol hquote hslash _ ih =>
      obtain ⟨pieces, hmade⟩ := ih
      refine ⟨(utf8 point).map .plain ++ pieces, ?_, ?_, ?_, ?_⟩
      · refine List.forall_mem_append.mpr ⟨fun piece hpiece => ?_, hmade.strict⟩
        obtain ⟨c, hc, rfl⟩ := List.mem_map.mp hpiece
        exact strict_plain hscalar hcontrol hquote hslash c hc
      · rw [List.flatMap_append, plains_text, ← hmade.text_eq]
      · rw [List.flatMap_append, plains_bytes, List.flatMap_cons, hmade.bytes_eq]
      · rw [utf8ValidateSlice_utf8 hscalar, hmade.valid]
  | @short letter byte text points hletter _ ih =>
      obtain ⟨pieces, hmade⟩ := ih
      have hbyte : utf8 byte.toNat = [byte] := by
        rw [utf8_one (escapedByte_ascii hletter).2, UInt8.ofNat_toNat]
      have hpiece : (Piece.short letter byte).Strict := ⟨hletter, id⟩
      exact ⟨_, hmade.cons_escape hpiece (by simp) hbyte⟩
  | @unit digits text points hdigits hscalar _ ih =>
      obtain ⟨pieces, hmade⟩ := ih
      have hbytes : utf8 (unitNumber digits) = (Piece.unit digits).bytes := by
        rw [Piece.bytes, hdigits.group.2.1]
      exact ⟨_, hmade.cons_escape (hdigits.strict_unit hscalar) (by simp) hbytes⟩
  | @pair high low text points hhigh hlow hhighRange hlowRange _ ih =>
      obtain ⟨pieces, hmade⟩ := ih
      have hbytes : utf8 (pairNumber (unitNumber high) (unitNumber low))
          = (Piece.pair high low).bytes := by
        rw [Piece.bytes, hhigh.group.2.1, hlow.group.2.1]
      have hcons := hmade.cons_escape (hhigh.strict_pair hlow hhighRange hlowRange) (by simp) hbytes
      have htext : (Piece.pair high low).text ++ text
          = 0x5c :: 0x75 :: (high ++ 0x5c :: 0x75 :: (low ++ text)) := by simp [Piece.text]
      exact ⟨_, htext ▸ hcons⟩

/-- Pieces that stand for bytes other than a backslash are plain. -/
theorem plains_of_text {bytes rest : Bytes} (hbytes : ∀ c ∈ bytes, c ≠ 0x5c) {pieces : List Piece}
    (htext : pieces.flatMap Piece.text = bytes ++ rest) :
    ∃ more, pieces = bytes.map Piece.plain ++ more ∧ more.flatMap Piece.text = rest := by
  induction bytes generalizing pieces with
  | nil => exact ⟨pieces, rfl, htext⟩
  | cons c bytes ih =>
      obtain ⟨hc, hmore⟩ := List.forall_mem_cons.mp hbytes
      cases pieces with
      | nil => cases htext
      | cons piece pieces =>
          rw [List.flatMap_cons] at htext
          cases piece with
          | plain d =>
              obtain ⟨rfl, htail⟩ := List.cons.inj htext
              obtain ⟨more, rfl, hrest⟩ := ih hmore htail
              exact ⟨more, rfl, hrest⟩
          | short letter byte => exact absurd (List.cons.inj htext).1.symm hc
          | unit group => exact absurd (List.cons.inj htext).1.symm hc
          | pair high low => exact absurd (List.cons.inj htext).1.symm hc

/-- The first character of a valid text whose first piece is plain. -/
theorem exists_character {c : UInt8} {pieces : List Piece}
    (hstrict : ∀ piece ∈ Piece.plain c :: pieces, piece.Strict)
    (hvalid : utf8ValidateSlice ((Piece.plain c :: pieces).flatMap Piece.text) = true) :
    ∃ point more, IsScalar point ∧ 0x20 ≤ point ∧ point ≠ 0x22 ∧ point ≠ 0x5c
      ∧ Piece.plain c :: pieces = (utf8 point).map Piece.plain ++ more
      ∧ utf8ValidateSlice (more.flatMap Piece.text) = true ∧ more.length ≤ pieces.length := by
  obtain ⟨point, rest, hscalar, htext, hrest⟩ := exists_utf8 hvalid
  obtain ⟨⟨hcontrol, hslash⟩, hquote⟩ := (List.forall_mem_cons.mp hstrict).1
  have hne : utf8 point ≠ [] := by
    rw [utf8]
    split_ifs <;> exact List.cons_ne_nil _ _
  have hpoint : 0x20 ≤ point ∧ point ≠ 0x22 ∧ point ≠ 0x5c := by
    by_cases hone : point < 0x80
    · rw [utf8_one hone] at htext
      obtain ⟨rfl, -⟩ := List.cons.inj htext
      rw [toNat_ofNat_byte (by omega)] at hcontrol
      refine ⟨hcontrol, ?_, ?_⟩
      · rintro rfl
        exact hquote rfl
      · rintro rfl
        exact hslash rfl
    · exact ⟨by omega, by omega, by omega⟩
  obtain ⟨hlow, hnoQuote, hnoSlash⟩ := hpoint
  have hplain : ∀ b ∈ utf8 point, b ≠ 0x5c :=
    fun b hb => (strict_plain hscalar hlow hnoQuote hnoSlash b hb).1.2
  obtain ⟨more, hpieces, hmore⟩ := @plains_of_text _ rest hplain (.plain c :: pieces) htext
  refine ⟨point, more, hscalar, hlow, hnoQuote, hnoSlash, hpieces, hmore ▸ hrest, ?_⟩
  have hlength := congrArg List.length hpieces
  rw [List.length_cons, List.length_append, List.length_map] at hlength
  have hpos := List.length_pos_iff.mpr hne
  omega

/-- Strict pieces whose text is UTF-8 make the body of a JSON string. -/
theorem exists_jsonBody {pieces : List Piece} (h : ∀ piece ∈ pieces, piece.Strict)
    (hvalid : utf8ValidateSlice (pieces.flatMap Piece.text) = true) :
    ∃ points, JsonBody (pieces.flatMap Piece.text) points
      ∧ points.flatMap utf8 = pieces.flatMap Piece.bytes := by
  induction hlength : pieces.length using Nat.strongRecOn generalizing pieces with
  | ind length ih =>
      cases pieces with
      | nil => exact ⟨[], .nil, rfl⟩
      | cons piece pieces =>
          obtain ⟨hpiece, hpieces⟩ := List.forall_mem_cons.mp h
          have hlt : pieces.length < length := by
            rw [← hlength, List.length_cons]
            exact Nat.lt_succ_self _
          have hescape (hne : ∀ c, piece ≠ .plain c) :
              ∃ points, JsonBody (pieces.flatMap Piece.text) points
                ∧ points.flatMap utf8 = pieces.flatMap Piece.bytes := by
            rcases hpiece.text_ascii with ⟨c, hplain⟩ | hascii
            · exact absurd hplain (hne c)
            · rw [List.flatMap_cons, validate_ascii hascii] at hvalid
              exact ih pieces.length hlt hpieces hvalid rfl
          cases piece with
          | plain c =>
              obtain ⟨point, more, hscalar, hcontrol, hquote, hslash, htext, hmore, hle⟩ :=
                exists_character h hvalid
              rw [htext] at h ⊢
              have hstrict : ∀ piece ∈ more, piece.Strict :=
                fun piece hmem => h piece (List.mem_append_right _ hmem)
              obtain ⟨points, hbody, hbytes⟩ :=
                ih more.length (Nat.lt_of_le_of_lt hle hlt) hstrict hmore rfl
              refine ⟨point :: points, ?_, ?_⟩
              · rw [List.flatMap_append, plains_text]
                exact .character hscalar hcontrol hquote hslash hbody
              · rw [List.flatMap_append, plains_bytes, List.flatMap_cons, hbytes]
          | short letter byte =>
              obtain ⟨points, hbody, hbytes⟩ := hescape (by simp)
              refine ⟨byte.toNat :: points, .short hpiece.1 hbody, ?_⟩
              rw [List.flatMap_cons, List.flatMap_cons, utf8_one (escapedByte_ascii hpiece.1).2,
                UInt8.ofNat_toNat, hbytes]
              rfl
          | unit group =>
              obtain ⟨points, hbody, hbytes⟩ := hescape (by simp)
              obtain ⟨⟨hgroup, hscalar⟩, hsign⟩ := hpiece
              have hunit := hgroup.codeUnit hsign
              have hnumber := hunit.group.2.1
              rw [hnumber] at hscalar
              refine ⟨unitNumber group :: points, .unit hunit hscalar hbody, ?_⟩
              rw [List.flatMap_cons, List.flatMap_cons, Piece.bytes, hnumber, hbytes]
          | pair high low =>
              obtain ⟨points, hbody, hbytes⟩ := hescape (by simp)
              obtain ⟨⟨hhigh, hlow, hhighRange, hlowRange⟩, hsigns⟩ := hpiece
              have hhighUnit := hhigh.codeUnit (not_or.mp hsigns).1
              have hlowUnit := hlow.codeUnit (not_or.mp hsigns).2
              rw [hhighUnit.group.2.1] at hhighRange
              rw [hlowUnit.group.2.1] at hlowRange
              refine ⟨pairNumber (unitNumber high) (unitNumber low) :: points, ?_, ?_⟩
              · have hpair := JsonBody.pair hhighUnit hlowUnit hhighRange hlowRange hbody
                have htext : (Piece.pair high low :: pieces).flatMap Piece.text
                    = 0x5c :: 0x75 :: (high ++ 0x5c :: 0x75 ::
                      (low ++ pieces.flatMap Piece.text)) := by simp [Piece.text]
                rw [htext]
                exact hpair
              · rw [List.flatMap_cons, List.flatMap_cons, Piece.bytes, hhighUnit.group.2.1,
                  hlowUnit.group.2.1, hbytes]

/-! ## Exactness -/

/-- The payload is accepted just if it is the body of a JSON string, and its code points are
returned as UTF-8. -/
def UnescapesExactly (invalid : WktError) (text : Bytes) : Prop :=
  ∀ bytes, unescapeJsonStringPayload invalid text = .ok bytes ↔
    ∃ points, JsonBody text points ∧ bytes = points.flatMap utf8

theorem not_unescapesExactly_of_loose {text : Bytes} (h : LooselyAccepted text)
    (invalid : WktError) : ¬ UnescapesExactly invalid text := by
  obtain ⟨pieces, hpieces, htext, hloose⟩ := h
  intro hexact
  obtain ⟨points, hbody, -⟩ := (hexact _).mp
    ((unescapeJsonStringPayload_iff invalid).mpr ⟨pieces, hpieces, htext, rfl⟩)
  obtain ⟨others, hmade⟩ := exists_madeOf hbody
  -- the text has one reading
  have hsame : pieces = others := pieces_unique hpieces
    (fun piece hpiece => (hmade.strict piece hpiece).1) (htext.symm.trans hmade.text_eq)
  rcases hloose with ⟨piece, hpiece, hbad⟩ | hinvalid
  · exact (hmade.strict piece (hsame ▸ hpiece)).2 hbad
  · exact Bool.false_ne_true (hinvalid.symm.trans hmade.valid)

/-- The payload is unescaped exactly unless it is accepted with a quote, a sign or an underscore in
a code unit, or a text that is not UTF-8. -/
theorem unescapesExactly_iff (invalid : WktError) (text : Bytes) :
    UnescapesExactly invalid text ↔ ¬ LooselyAccepted text := by
  refine ⟨fun hexact hloose => not_unescapesExactly_of_loose hloose invalid hexact,
    fun hcondition bytes => ?_⟩
  rw [unescapeJsonStringPayload_iff]
  constructor
  · rintro ⟨pieces, hpieces, rfl, rfl⟩
    have hstrict : ∀ piece ∈ pieces, piece.Strict := fun piece hpiece =>
      ⟨hpieces piece hpiece, fun hloose =>
        hcondition ⟨pieces, hpieces, rfl, .inl ⟨piece, hpiece, hloose⟩⟩⟩
    have hvalid : utf8ValidateSlice (pieces.flatMap Piece.text) = true := by
      by_contra hinvalid
      exact hcondition ⟨pieces, hpieces, rfl, .inr (Bool.eq_false_iff.mpr hinvalid)⟩
    obtain ⟨points, hbody, hbytes⟩ := exists_jsonBody hstrict hvalid
    exact ⟨points, hbody, hbytes.symm⟩
  · rintro ⟨points, hbody, rfl⟩
    obtain ⟨pieces, hmade⟩ := exists_madeOf hbody
    exact ⟨pieces, fun piece hpiece => (hmade.strict piece hpiece).1, hmade.text_eq,
      hmade.bytes_eq⟩

/-- The code unit `+041` is taken for a letter. -/
theorem not_unescapesExactly_sign :
    unescapeJsonStringPayload .invalidTimestamp (ascii "\\u+041") = .ok (ascii "A")
      ∧ ¬ UnescapesExactly .invalidTimestamp (ascii "\\u+041") := by
  refine ⟨by decide +kernel, not_unescapesExactly_of_loose ⟨[.unit (ascii "+041")], ?_, rfl, ?_⟩ _⟩
  · refine List.forall_mem_singleton.mpr ⟨⟨rfl, by decide +kernel⟩, ?_⟩
    show groupNumber (ascii "+041") < 0xd800 ∨ _
    exact .inl (by decide +kernel)
  · exact .inl ⟨_, List.mem_singleton.mpr rfl, .inl (by decide)⟩

end Wkt

end Pbz
