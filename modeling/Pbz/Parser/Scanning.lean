import Pbz.Parser.Lexer

set_option autoImplicit false

/-! # What the lexer reads

A token is read again from its own start, and it is read the same from a part of the input that
ends behind it.
-/

namespace Pbz

theorem passing_eq_ok {n k : Nat} {scan : Except ParseError Nat} :
    passing n scan = .ok k ↔ ∃ j, scan = .ok j ∧ n + j = k := by
  cases scan with
  | error e => simp [passing, Except.map]
  | ok j => simp [passing, Except.map]

namespace Lexer

/-! ## White space and comments -/

variable {c : UInt8} {rest : Bytes}

theorem skip_whitespace (h : isWhitespace c = true) :
    skipSpaceAndComments (c :: rest) = passing 1 (skipSpaceAndComments rest) := by
  cases rest with
  | nil => exact if_pos h
  | cons n more => exact if_pos h

theorem skip_token (h : isWhitespace c = false) (hc : c ≠ 0x2f) :
    skipSpaceAndComments (c :: rest) = .ok 0 := by
  have hws : ¬ isWhitespace c = true := by simp [h]
  have hslash : ¬ (c == 0x2f) = true := by simp [hc]
  cases rest with
  | nil => exact (if_neg hws).trans (if_neg hslash)
  | cons n more => exact (if_neg hws).trans (if_neg hslash)

theorem skipBlockComment_other (h : (c == 0x2a && rest.head? == some 0x2f) = false) :
    skipBlockComment (c :: rest) = passing 1 (skipBlockComment rest) := by
  have hother : ¬ (c == 0x2a && rest.head? == some 0x2f) = true := by simp [h]
  cases rest with
  | nil => exact if_neg hother
  | cons n more => exact if_neg hother

/-- A block comment has an end to read. -/
theorem skipBlockComment_pos : ∀ {xs : Bytes} {k : Nat}, skipBlockComment xs = .ok k → 0 < k := by
  intro xs
  induction xs with
  | nil => intro k h; cases h
  | cons c rest ih =>
      intro k h
      by_cases hc : (c == 0x2a && rest.head? == some 0x2f) = true
      · cases rest with
        | nil => simp at hc
        | cons n more =>
            have hpass : passing 2 (skipSpaceAndComments more) = .ok k := (if_pos hc).symm.trans h
            obtain ⟨j, -, hj⟩ := passing_eq_ok.mp hpass
            omega
      · rw [skipBlockComment_other (by simpa using hc)] at h
        obtain ⟨j, -, hj⟩ := passing_eq_ok.mp h
        omega

attribute [local grind =] skip_whitespace skip_token skipBlockComment_other

/-- A scan passes no more bytes than there are. -/
theorem skip_le :
    (∀ xs k, skipSpaceAndComments xs = .ok k → k ≤ xs.length) ∧
    (∀ xs k, skipBlockComment xs = .ok k → k ≤ xs.length) ∧
    (∀ xs k, skipLineComment xs = .ok k → k ≤ xs.length) := by
  apply skipSpaceAndComments.mutual_induct
  all_goals
    intros
    grind [skipSpaceAndComments, skipBlockComment, skipLineComment, passing_eq_ok]

/-- Behind what a scan has passed there is nothing to skip. -/
theorem skip_drop :
    (∀ xs k, skipSpaceAndComments xs = .ok k → skipSpaceAndComments (xs.drop k) = .ok 0) ∧
    (∀ xs k, skipBlockComment xs = .ok k → skipSpaceAndComments (xs.drop k) = .ok 0) ∧
    (∀ xs k, skipLineComment xs = .ok k → skipSpaceAndComments (xs.drop k) = .ok 0) := by
  apply skipSpaceAndComments.mutual_induct
  all_goals
    intros
    grind [skipSpaceAndComments, skipBlockComment, skipLineComment, passing_eq_ok]

/-- A scan that ends within the first part of its input does the same without the second part. -/
theorem skip_append :
    (∀ xs tail k, skipSpaceAndComments (xs ++ tail) = .ok k → k ≤ xs.length →
      skipSpaceAndComments xs = .ok k) ∧
    (∀ xs tail k, skipBlockComment (xs ++ tail) = .ok k → k ≤ xs.length →
      skipBlockComment xs = .ok k) ∧
    (∀ xs tail k, skipLineComment (xs ++ tail) = .ok k → k ≤ xs.length →
      skipLineComment xs = .ok k) := by
  apply skipSpaceAndComments.mutual_induct
  case case3 =>
    -- a slash at the end of the first part
    intro c hws hc tail k h hk
    cases tail with
    | nil => exact h
    | cons n more => grind [skipSpaceAndComments, passing_eq_ok]
  case case8 =>
    intro tail k h hk
    have hpos := skipBlockComment_pos h
    simp at hk
    omega
  case case11 =>
    -- a star at the end of the first part
    intro c rest hc ih tail k h hk
    cases rest with
    | nil =>
        by_cases hend : (c == 0x2a && (([] : Bytes) ++ tail).head? == some 0x2f) = true
        · cases tail with
          | nil => simp at hend
          | cons n more => grind [skipBlockComment, passing_eq_ok]
        · have hother : skipBlockComment (c :: ([] ++ tail)) =
              passing 1 (skipBlockComment ([] ++ tail)) :=
            skipBlockComment_other (by simpa using hend)
          rw [List.cons_append, hother] at h
          obtain ⟨j, hj, hsum⟩ := passing_eq_ok.mp h
          have hpos := skipBlockComment_pos hj
          have hone : k ≤ 1 := hk
          omega
    | cons n more => grind [passing_eq_ok]
  all_goals
    intros
    grind [skipSpaceAndComments, skipBlockComment, skipLineComment, passing_eq_ok]

/-! ## Strings and words -/

variable {quote : UInt8}

theorem readString_quote (h : c = quote) : readString quote (c :: rest) = .ok 0 := by
  have hq : (c == quote) = true := by simp [h]
  cases rest with
  | nil => exact if_pos hq
  | cons n more => exact if_pos hq

theorem readString_other (h : c ≠ quote) (hc : c ≠ 0x5c) :
    readString quote (c :: rest) = passing 1 (readString quote rest) := by
  have hq : ¬ (c == quote) = true := by simp [h]
  have hback : ¬ (c == 0x5c) = true := by simp [hc]
  cases rest with
  | nil => exact (if_neg hq).trans (if_neg hback)
  | cons n more => exact (if_neg hq).trans (if_neg hback)

attribute [local grind =] readString_quote readString_other

/-- The closing quote is one of the bytes. -/
theorem readString_lt : ∀ xs k, readString quote xs = .ok k → k < xs.length := by
  apply readString.induct quote
  all_goals
    intros
    grind [readString, passing_eq_ok]

theorem readString_append : ∀ xs tail k,
    readString quote (xs ++ tail) = .ok k → k < xs.length → readString quote xs = .ok k := by
  apply readString.induct quote
  case case3 =>
    -- a backslash at the end of the first part
    intro c hq hback tail k h hk
    cases tail with
    | nil => exact h
    | cons n more => grind [readString, passing_eq_ok]
  all_goals
    intros
    grind [readString, passing_eq_ok]

theorem takeWhile_append_of_length_le {p : UInt8 → Bool} {xs tail : Bytes}
    (h : ((xs ++ tail).takeWhile p).length ≤ xs.length) :
    (xs ++ tail).takeWhile p = xs.takeWhile p := by
  rw [List.takeWhile_append] at h ⊢
  split at h
  · next hall =>
      rw [if_pos hall]
      have hnil : tail.takeWhile p = [] := by
        rw [List.length_append] at h
        exact List.length_eq_zero_iff.mp (by omega)
      rw [hnil, List.append_nil]
      exact ((List.takeWhile_sublist p).eq_of_length hall).symm
  · next hall => rw [if_neg hall]

/-! ## Tokens -/

/-- A token behind another offset. -/
def moved (t : Token) (start : Nat) : Token :=
  { t with start := start, «end» := start + (t.end - t.start) }

theorem token_cons (start : Nat) (c : UInt8) (more : Bytes) :
    token start (c :: more) =
      if isIdentStart c = true then
        .ok ⟨.identifier, start, start + ((more.takeWhile isIdentContinue).length + 1),
          c :: more.takeWhile isIdentContinue, 0⟩
      else if isDigit c = true then
        .ok ⟨.number, start, start + ((more.takeWhile isNumberContinue).length + 1),
          c :: more.takeWhile isNumberContinue, 0⟩
      else if (c == 0x22 || c == 0x27) = true then
        (readString c more).map (fun length =>
          ⟨.stringLiteral, start, start + length + 2, more.take length, 0⟩)
      else .ok ⟨.symbol, start, start + 1, [c], c⟩ := by
  simp only [token, List.length_cons]
  cases readString c more with
  | error e => rfl
  | ok length => rfl

/-- What a token is made of: its bounds within the input. -/
structure Bounds (start : Nat) (rest : Bytes) (t : Token) : Prop where
  start_eq : t.start = start
  eof_iff : t.tag = .eof ↔ rest = []
  end_eof : t.tag = .eof → t.end = start
  lt_end : t.tag ≠ .eof → start < t.end
  end_le : t.end ≤ start + rest.length

theorem bounds_of_token {start : Nat} {rest : Bytes} {t : Token} (h : token start rest = .ok t) :
    Bounds start rest t := by
  cases rest with
  | nil =>
      cases h
      exact ⟨rfl, by simp, by simp, by simp, by simp⟩
  | cons c more =>
      rw [token_cons] at h
      have hword (p : UInt8 → Bool) : (more.takeWhile p).length ≤ more.length :=
        (List.takeWhile_sublist p).length_le
      by_cases hident : isIdentStart c = true
      · rw [if_pos hident] at h
        cases h
        have hle := hword isIdentContinue
        exact ⟨rfl, by simp, by simp, by simp, by simp; omega⟩
      rw [if_neg hident] at h
      by_cases hdigit : isDigit c = true
      · rw [if_pos hdigit] at h
        cases h
        have hle := hword isNumberContinue
        exact ⟨rfl, by simp, by simp, by simp, by simp; omega⟩
      rw [if_neg hdigit] at h
      by_cases hquote : (c == 0x22 || c == 0x27) = true
      · rw [if_pos hquote] at h
        cases hread : readString c more with
        | error e => simp [hread, Except.map] at h
        | ok length =>
            have hlt := readString_lt more length hread
            rw [hread] at h
            cases h
            exact ⟨rfl, by simp, by simp, by simp; omega, by simp; omega⟩
      · rw [if_neg hquote] at h
        cases h
        exact ⟨rfl, by simp, by simp, by simp, by simp⟩

/-- A token that ends within the first part of its input is read from that part alone. -/
theorem token_append {start : Nat} (start' : Nat) {xs tail : Bytes} {t : Token}
    (h : token start (xs ++ tail) = .ok t) (hxs : xs ≠ []) (hend : t.end ≤ start + xs.length) :
    token start' xs = .ok (moved t start') := by
  cases xs with
  | nil => exact absurd rfl hxs
  | cons c more =>
      rw [List.cons_append] at h
      rw [token_cons] at h ⊢
      by_cases hident : isIdentStart c = true
      · rw [if_pos hident] at h
        cases h
        simp only [List.length_cons] at hend
        rw [if_pos hident, moved, takeWhile_append_of_length_le (by omega)]
        simp
      rw [if_neg hident] at h
      rw [if_neg hident]
      by_cases hdigit : isDigit c = true
      · rw [if_pos hdigit] at h
        cases h
        simp only [List.length_cons] at hend
        rw [if_pos hdigit, moved, takeWhile_append_of_length_le (by omega)]
        simp
      rw [if_neg hdigit] at h
      rw [if_neg hdigit]
      by_cases hquote : (c == 0x22 || c == 0x27) = true
      · rw [if_pos hquote] at h
        rw [if_pos hquote]
        cases hread : readString c (more ++ tail) with
        | error e => simp [hread, Except.map] at h
        | ok length =>
            rw [hread] at h
            cases h
            simp only [List.length_cons] at hend
            have hlt : length < more.length := by omega
            rw [readString_append more tail length hread hlt]
            have htake : (more ++ tail).take length = more.take length :=
              List.take_append_of_le_length (by omega)
            simp only [Except.map, moved, htake, Except.ok.injEq, Token.mk.injEq, true_and]
            exact ⟨by omega, trivial⟩
      · rw [if_neg hquote] at h
        cases h
        rw [if_neg hquote]
        simp [moved]

/-! ## The next token -/

theorem next_eq_ok {input : Bytes} {i : Nat} {t : Token} {lexer : Lexer} :
    next ⟨input, i⟩ = .ok (t, lexer) ↔
      ∃ k, skipSpaceAndComments (input.drop i) = .ok k ∧
        token (i + k) (input.drop (i + k)) = .ok t ∧ lexer = ⟨input, t.end⟩ := by
  unfold next
  cases hskip : skipSpaceAndComments (input.drop i) with
  | error e => simp [bind, Except.bind]
  | ok k =>
      cases htoken : token (i + k) (input.drop (i + k)) with
      | error e => simp [bind, Except.bind, htoken]
      | ok found =>
          simp only [bind, Except.bind, htoken, Except.ok.injEq, Prod.mk.injEq, exists_eq_left']
          constructor
          · rintro ⟨rfl, rfl⟩
            exact ⟨rfl, rfl⟩
          · rintro ⟨rfl, rfl⟩
            exact ⟨rfl, rfl⟩

/-- The place of a token behind the index it was read from. -/
structure Follows (input : Bytes) (i : Nat) (t : Token) : Prop where
  start_ge : i ≤ t.start
  eof_iff : t.tag = .eof ↔ input.length ≤ t.start
  lt_end : t.tag ≠ .eof → t.start < t.end
  end_eof : t.tag = .eof → t.end = t.start
  end_le : i ≤ input.length → t.end ≤ input.length

theorem follows_of_next {input : Bytes} {i : Nat} {t : Token} {lexer : Lexer}
    (h : next ⟨input, i⟩ = .ok (t, lexer)) : Follows input i t := by
  obtain ⟨k, hskip, htoken, -⟩ := next_eq_ok.mp h
  have hb := bounds_of_token htoken
  have hk := skip_le.1 _ _ hskip
  have hend := hb.end_le
  rw [List.length_drop] at hk hend
  refine ⟨by rw [hb.start_eq]; omega, ?_, ?_, ?_, fun hi => by omega⟩
  · rw [hb.eof_iff, hb.start_eq]
    exact List.drop_eq_nil_iff
  · rw [hb.start_eq]
    exact hb.lt_end
  · rw [hb.start_eq]
    exact hb.end_eof

/-- A token is read again from its own start. -/
theorem next_start {input : Bytes} {i : Nat} {t : Token} {lexer : Lexer}
    (h : next ⟨input, i⟩ = .ok (t, lexer)) : next ⟨input, t.start⟩ = .ok (t, lexer) := by
  obtain ⟨k, hskip, htoken, hlexer⟩ := next_eq_ok.mp h
  have hstart := (bounds_of_token htoken).start_eq
  refine next_eq_ok.mpr ⟨0, ?_, ?_, hlexer⟩
  · have hdrop := skip_drop.1 _ _ hskip
    rwa [List.drop_drop, ← hstart] at hdrop
  · rw [Nat.add_zero, hstart]
    exact htoken

/-- A part of the input that begins at `k` reads its tokens as the input does. -/
theorem next_part {input : Bytes} {k stop i : Nat} {t : Token} {lexer : Lexer}
    (h : next ⟨input, k + i⟩ = .ok (t, lexer)) (ht : t.tag ≠ .eof) (hstop : t.end ≤ stop) :
    next ⟨(input.drop k).take (stop - k), i⟩ =
      .ok (moved t (t.start - k), ⟨(input.drop k).take (stop - k), t.end - k⟩) := by
  obtain ⟨j, hskip, htoken, -⟩ := next_eq_ok.mp h
  have hb := bounds_of_token htoken
  have hlt := hb.lt_end ht
  have hend := hb.end_le
  rw [List.length_drop] at hend
  set part := (input.drop (k + i)).take (stop - (k + i)) with hpart
  have hsplit : input.drop (k + i) = part ++ input.drop (k + i + (stop - (k + i))) := by
    rw [hpart, ← @List.drop_drop _ (stop - (k + i)) (k + i) input, List.take_append_drop]
  have hlength : part.length = min (stop - (k + i)) (input.length - (k + i)) := by
    rw [hpart, List.length_take, List.length_drop]
  have hj : j < part.length := by omega
  have hdrop (n : Nat) : ((input.drop k).take (stop - k)).drop (i + n) = part.drop n := by
    rw [hpart, List.drop_take, List.drop_take, List.drop_drop, List.drop_drop]
    congr 1
    · omega
    · congr 1
      omega
  have hskip' : skipSpaceAndComments part = .ok j := by
    rw [hsplit] at hskip
    exact skip_append.1 _ _ _ hskip hj.le
  have htoken' : token (i + j) (part.drop j) = .ok (moved t (i + j)) := by
    rw [← List.drop_drop, hsplit, List.drop_append_of_le_length hj.le] at htoken
    refine token_append (i + j) htoken ?_ ?_
    · exact fun hnil => by rw [List.drop_eq_nil_iff] at hnil; omega
    · rw [List.length_drop]
      omega
  have hstart : t.start - k = i + j := by rw [hb.start_eq]; omega
  have hstop' : t.end - k = (moved t (i + j)).end := by
    show t.end - k = i + j + (t.end - t.start)
    rw [hb.start_eq]
    omega
  rw [hstart, hstop']
  refine next_eq_ok.mpr ⟨j, ?_, ?_, rfl⟩
  · have hzero := hdrop 0
    rw [Nat.add_zero, List.drop_zero] at hzero
    rw [hzero]
    exact hskip'
  · rw [hdrop j]
    exact htoken'

/-- From `i` on the input reads as tokens that lead to `stop`. -/
inductive Reads (input : Bytes) : Nat → Nat → Prop
  | done (i : Nat) : Reads input i i
  | token {i stop : Nat} {t : Token} {lexer : Lexer} (h : next ⟨input, i⟩ = .ok (t, lexer))
      (ht : t.tag ≠ .eof) (rest : Reads input t.end stop) : Reads input i stop

theorem Reads.le {input : Bytes} {i stop : Nat} (h : Reads input i stop) : i ≤ stop := by
  induction h with
  | done i => exact le_rfl
  | token h ht rest ih =>
      have hf := follows_of_next h
      have hlt := hf.lt_end ht
      have hge := hf.start_ge
      omega

/-- A part of the input between two token bounds reads as the same tokens. -/
theorem Reads.part {input : Bytes} {i stop : Nat} (h : Reads input i stop) {k : Nat} (hk : k ≤ i) :
    Reads ((input.drop k).take (stop - k)) (i - k) (stop - k) := by
  induction h with
  | done i => exact .done _
  | @token i stop t lexer h ht rest ih =>
      have hf := follows_of_next h
      have hlt := hf.lt_end ht
      have hge := hf.start_ge
      have hsum : i = k + (i - k) := by omega
      rw [hsum] at h
      have hend : (moved t (t.start - k)).end = t.end - k := by
        show t.start - k + (t.end - t.start) = t.end - k
        omega
      refine .token (next_part h ht rest.le) ht ?_
      rw [hend]
      exact ih (by omega)

end Lexer

end Pbz
