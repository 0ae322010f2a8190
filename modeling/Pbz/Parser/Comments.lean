import Pbz.Parser.Advance
import Pbz.Lib.Slices

set_option autoImplicit false

/-! # The comments of a location

`addSourceLocation` takes the comments around a declaration from the source text: it goes over the
lines above the start of the declaration and the text behind its end. The slices it takes have
bounds that may be wrong; then there is no result.
-/

namespace Pbz

namespace Parser

open Slices

/-! ## Lines -/

/-- `" \t\r"` -/
def isBlank (c : UInt8) : Bool := c == 0x20 || c == 0x09 || c == 0x0d

def trimBlank (text : Bytes) : Bytes :=
  ((text.dropWhile isBlank).reverse.dropWhile isBlank).reverse

/-- The marks `//`, `/*` and `*/`. -/
def lineMark : Bytes := [0x2f, 0x2f]

def openMark : Bytes := [0x2f, 0x2a]

def closeMark : Bytes := [0x2a, 0x2f]

def lineStart (input : Bytes) (index : Nat) : Nat :=
  let start := min index input.length
  start - ((input.take start).reverse.takeWhile (· != 0x0a)).length

/-- The start and the end of the line in front of a line start. -/
def previousLine (input : Bytes) (cursor : Nat) : Option (Nat × Nat) :=
  if cursor = 0 then none else some (lineStart input (cursor - 1), cursor - 1)

/-- The lines in front of a line start, the nearest one first. -/
def linesAbove (input : Bytes) : Nat → Nat → List (Nat × Nat)
  | 0, _ => []
  | fuel + 1, cursor =>
      match previousLine input cursor with
      | none => []
      | some line => line :: linesAbove input fuel line.1

def linesInFront (input : Bytes) (start : Nat) : List (Nat × Nat) :=
  linesAbove input (lineStart input start) (lineStart input start)

/-- The text of a `//` comment. -/
def commentText (line : Bytes) : Bytes :=
  match line.drop 2 with
  | 0x20 :: text => text
  | text => text

/-- The lines are in the reverse of their order. -/
def joinCommentLines (linesReversed : List Bytes) : Bytes :=
  linesReversed.reverse.flatMap (fun line => line ++ [0x0a])

/-! ## Block comments -/

/-- A line of a block comment, without the asterisk in front. -/
def blockLine (rawLine : Bytes) : Bytes :=
  match trimBlank rawLine with
  | 0x2a :: 0x20 :: text => text ++ [0x0a]
  | 0x2a :: text => text ++ [0x0a]
  | line => line ++ [0x0a]

def normalizeLines : Nat → Bytes → Option Bytes
  | 0, _ => some []
  | fuel + 1, rest =>
      if rest.isEmpty then some []
      else match indexOf rest [0x0a] with
        | none => some (blockLine rest)
        | some idx =>
            (sliceOf rest 0 idx).bind fun rawLine =>
              (sliceOf rest (idx + 1) rest.length).bind fun next =>
                (normalizeLines fuel next).map (blockLine rawLine ++ ·)

def normalizeBlockComment (raw : Bytes) : Option Bytes :=
  (normalizeLines (raw.length + 1) raw).map (fun out => if out.isEmpty then [0x0a] else out)

/-! ## Leading comments -/

/-- What the scan over the lines comes to: the `//` comments in front of the declaration, nearest
first, or a block comment that is taken up to the end of a line. -/
inductive Leading where
  | lines (linesReversed : List Bytes)
  | block (blockStart prevEnd : Nat)
  deriving DecidableEq

def leadingScan (input : Bytes) : List (Nat × Nat) → List Bytes → Option Leading
  | [], lines => some (.lines lines)
  | (prevStart, prevEnd) :: above, lines =>
      (sliceOf input prevStart prevEnd).bind fun text =>
        let line := trimBlank text
        if line.isEmpty then some (.lines lines)
        else match (if closeMark.isSuffixOf line then lastIndexOf (input.take prevEnd) openMark
            else none) with
          | some blockStart => some (.block blockStart prevEnd)
          | none =>
              if !lineMark.isPrefixOf line then some (.lines lines)
              else leadingScan input above (lines ++ [commentText line])

def leadingLineComments (input : Bytes) (start : Nat) : Option (Option Bytes) :=
  (leadingScan input (linesInFront input start) []).bind fun leading =>
    match leading with
    | .block blockStart prevEnd =>
        (sliceOf input (blockStart + 2) (prevEnd - 2)).bind fun raw =>
          (normalizeBlockComment raw).map some
    | .lines lines => some (if lines.isEmpty then none else some (joinCommentLines lines))

/-! ## Detached comments -/

/-- The lines behind the attached `//` comments. -/
def skipAttached (input : Bytes) : List (Nat × Nat) → Option (List (Nat × Nat))
  | [] => some []
  | (prevStart, prevEnd) :: above =>
      (sliceOf input prevStart prevEnd).bind fun text =>
        let line := trimBlank text
        if line.isEmpty || !lineMark.isPrefixOf line then some ((prevStart, prevEnd) :: above)
        else skipAttached input above

/-- The lines behind the blank ones, and whether there are any of these. -/
def skipBlankLines (input : Bytes) : List (Nat × Nat) → Option (Bool × List (Nat × Nat))
  | [] => some (false, [])
  | (prevStart, prevEnd) :: above =>
      (sliceOf input prevStart prevEnd).bind fun text =>
        if !(trimBlank text).isEmpty then some (false, (prevStart, prevEnd) :: above)
        else (skipBlankLines input above).map (fun result => (true, result.2))

/-- The `//` comments of a paragraph and the lines behind them. -/
def paragraphLines (input : Bytes) : List (Nat × Nat) → Option (List Bytes × List (Nat × Nat))
  | [] => some ([], [])
  | (prevStart, prevEnd) :: above =>
      (sliceOf input prevStart prevEnd).bind fun text =>
        let line := trimBlank text
        if line.isEmpty || !lineMark.isPrefixOf line then some ([], (prevStart, prevEnd) :: above)
        else (paragraphLines input above).map (fun result => (commentText line :: result.1, result.2))

def paragraphs (input : Bytes) : Nat → List (Nat × Nat) → Option (List Bytes)
  | 0, _ => some []
  | fuel + 1, above =>
      (skipBlankLines input above).bind fun blank =>
        if !blank.1 then some []
        else (paragraphLines input blank.2).bind fun paragraph =>
          if paragraph.1.isEmpty then some []
          else (paragraphs input fuel paragraph.2).map (joinCommentLines paragraph.1 :: ·)

def leadingDetachedLineComments (input : Bytes) (start : Nat) : Option (List Bytes) :=
  (skipAttached input (linesInFront input start)).bind fun above =>
    (paragraphs input (above.length + 1) above).map List.reverse

/-! ## Trailing comments -/

def trailingLineComment (input : Bytes) (stop : Nat) : Option (Option Bytes) :=
  let cursor := stop + ((input.drop stop).takeWhile isBlank).length
  if cursor + 1 ≥ input.length || input[cursor]? != some 0x2f then some none
  else if input[cursor + 1]? == some 0x2a then
    (sliceOf input (cursor + 2) input.length).bind fun behind =>
      match indexOf behind closeMark with
      | none => some none
      | some blockEnd =>
          (sliceOf input (cursor + 2) (cursor + 2 + blockEnd)).bind fun raw =>
            (normalizeBlockComment raw).map some
  else if input[cursor + 1]? != some 0x2f then some none
  else
    let commentStart := if input[cursor + 2]? == some 0x20 then cursor + 3 else cursor + 2
    let commentEnd :=
      commentStart + ((input.drop commentStart).takeWhile (· != 0x0a)).length
    (sliceOf input commentStart commentEnd).map fun comment =>
      some (((comment.dropWhile (· == 0x0d)).reverse.dropWhile (· == 0x0d)).reverse ++ [0x0a])

/-! ## Slices that exist -/

section Slices

variable {input : Bytes}

theorem lineStart_le (input : Bytes) (index : Nat) :
    lineStart input index ≤ index ∧ lineStart input index ≤ input.length := by
  unfold lineStart
  dsimp only
  omega

/-- A location is recorded from the start of a token to the end of one, places of the text. -/
theorem lexed_inside {t : Token} (h : Lexer.Lexed input t) :
    t.start ≤ input.length ∧ t.end ≤ input.length := by
  obtain ⟨i, hreads, hnext⟩ := h
  have hfollows := Lexer.follows_of_next hnext
  have hend := hfollows.end_le (hreads.le_length (Nat.zero_le _))
  by_cases heof : t.tag = .eof
  · have hsame := hfollows.end_eof heof
    omega
  · have hlt := hfollows.lt_end heof
    omega

theorem previousLine_eq_some {cursor : Nat} {line : Nat × Nat}
    (h : previousLine input cursor = some line) : line.1 ≤ line.2 ∧ line.2 < cursor := by
  unfold previousLine at h
  split_ifs at h with hzero
  cases h
  have hstart := (lineStart_le input (cursor - 1)).1
  dsimp only
  omega

/-- The bounds of some lines are bounds of slices. -/
def LinesInside (input : Bytes) (lines : List (Nat × Nat)) : Prop :=
  ∀ line ∈ lines, line.1 ≤ line.2 ∧ line.2 ≤ input.length

theorem linesAbove_inside {fuel cursor : Nat} (h : cursor ≤ input.length) :
    LinesInside input (linesAbove input fuel cursor) := by
  induction fuel generalizing cursor with
  | zero => exact fun line hline => absurd hline List.not_mem_nil
  | succ fuel ih =>
      rw [linesAbove]
      cases hline : previousLine input cursor with
      | none => exact fun line hmem => absurd hmem List.not_mem_nil
      | some line =>
          obtain ⟨hle, hlt⟩ := previousLine_eq_some hline
          refine List.forall_mem_cons.mpr ⟨⟨hle, by omega⟩, ih (by omega)⟩

/-- All the lines in front are listed: more fuel lists no others. -/
theorem linesAbove_of_le {fuel cursor : Nat} (h : cursor ≤ fuel) :
    linesAbove input fuel cursor = linesAbove input cursor cursor := by
  induction fuel using Nat.strong_induction_on generalizing cursor with
  | _ fuel ih =>
      cases hfuel : fuel with
      | zero =>
          obtain rfl : cursor = 0 := by omega
          rfl
      | succ rest =>
          cases cursor with
          | zero => rfl
          | succ cursor =>
              rw [linesAbove, linesAbove]
              cases hline : previousLine input (cursor + 1) with
              | none => rfl
              | some line =>
                  obtain ⟨hle, hlt⟩ := previousLine_eq_some hline
                  dsimp only
                  rw [ih rest (by omega) (by omega), ih cursor (by omega) (by omega)]

theorem linesInFront_inside (input : Bytes) (start : Nat) : LinesInside input (linesInFront input start) :=
  linesAbove_inside (lineStart_le input start).2

theorem LinesInside.head {line : Nat × Nat} {above : List (Nat × Nat)}
    (h : LinesInside input (line :: above)) :
    sliceOf input line.1 line.2 = some ((input.take line.2).drop line.1) :=
  sliceOf_of_le (h line List.mem_cons_self).1 (h line List.mem_cons_self).2

theorem LinesInside.tail {line : Nat × Nat} {above : List (Nat × Nat)}
    (h : LinesInside input (line :: above)) : LinesInside input above :=
  (List.forall_mem_cons.mp h).2

theorem skipAttached_inside {lines : List (Nat × Nat)} (h : LinesInside input lines) :
    ∃ above, skipAttached input lines = some above ∧ LinesInside input above := by
  induction lines with
  | nil => exact ⟨[], rfl, h⟩
  | cons line above ih =>
      obtain ⟨prevStart, prevEnd⟩ := line
      rw [skipAttached, h.head, Option.bind_some]
      dsimp only
      split_ifs
      · exact ⟨_, rfl, h⟩
      · exact ih h.tail

theorem skipBlankLines_inside {lines : List (Nat × Nat)} (h : LinesInside input lines) :
    ∃ result, skipBlankLines input lines = some result ∧ LinesInside input result.2 := by
  induction lines with
  | nil => exact ⟨(false, []), rfl, h⟩
  | cons line above ih =>
      obtain ⟨prevStart, prevEnd⟩ := line
      rw [skipBlankLines, h.head, Option.bind_some]
      split_ifs
      · exact ⟨_, rfl, h⟩
      · obtain ⟨result, hresult, hinside⟩ := ih h.tail
        rw [hresult]
        exact ⟨_, rfl, hinside⟩

theorem paragraphLines_inside {lines : List (Nat × Nat)} (h : LinesInside input lines) :
    ∃ result, paragraphLines input lines = some result ∧ LinesInside input result.2 := by
  induction lines with
  | nil => exact ⟨([], []), rfl, h⟩
  | cons line above ih =>
      obtain ⟨prevStart, prevEnd⟩ := line
      rw [paragraphLines, h.head, Option.bind_some]
      dsimp only
      split_ifs
      · exact ⟨_, rfl, h⟩
      · obtain ⟨result, hresult, hinside⟩ := ih h.tail
        rw [hresult]
        exact ⟨_, rfl, hinside⟩

theorem paragraphs_isSome {fuel : Nat} {lines : List (Nat × Nat)} (h : LinesInside input lines) :
    (paragraphs input fuel lines).isSome = true := by
  induction fuel generalizing lines with
  | zero => rfl
  | succ fuel ih =>
      obtain ⟨blank, hblank, habove⟩ := skipBlankLines_inside h
      rw [paragraphs, hblank, Option.bind_some]
      split_ifs
      · rfl
      · obtain ⟨paragraph, hparagraph, hrest⟩ := paragraphLines_inside habove
        rw [hparagraph, Option.bind_some]
        split_ifs
        · rfl
        · rw [Option.isSome_map]
          exact ih hrest

/-- The detached comments are slices of the text. -/
theorem leadingDetachedLineComments_isSome (input : Bytes) (start : Nat) :
    (leadingDetachedLineComments input start).isSome = true := by
  obtain ⟨above, habove, hinside⟩ := skipAttached_inside (linesInFront_inside input start)
  rw [leadingDetachedLineComments, habove, Option.bind_some, Option.isSome_map]
  exact paragraphs_isSome hinside

theorem normalizeLines_isSome {fuel : Nat} {rest : Bytes} :
    (normalizeLines fuel rest).isSome = true := by
  induction fuel generalizing rest with
  | zero => rfl
  | succ fuel ih =>
      rw [normalizeLines]
      split_ifs
      · rfl
      · cases hidx : indexOf rest [0x0a] with
        | none => rfl
        | some idx =>
            have hle : idx + 1 ≤ rest.length := indexOf_le hidx (List.cons_ne_nil _ _)
            dsimp only
            rw [sliceOf_of_le (Nat.zero_le idx) (by omega), Option.bind_some,
              sliceOf_of_le hle le_rfl, Option.bind_some, Option.isSome_map]
            exact ih

theorem normalizeBlockComment_isSome (raw : Bytes) :
    (normalizeBlockComment raw).isSome = true := by
  rw [normalizeBlockComment, Option.isSome_map]
  exact normalizeLines_isSome

/-- The trailing comment is a slice of the text. -/
theorem trailingLineComment_isSome (input : Bytes) (stop : Nat) :
    (trailingLineComment input stop).isSome = true := by
  unfold trailingLineComment
  dsimp only
  generalize stop + ((input.drop stop).takeWhile isBlank).length = cursor
  split_ifs with hnone hblock hline hspace
  · rfl
  · simp only [Bool.or_eq_true, decide_eq_true_eq, not_or] at hnone
    rw [sliceOf_of_le (by omega) le_rfl, Option.bind_some]
    cases hidx : indexOf ((input.take input.length).drop (cursor + 2)) closeMark with
    | none => rfl
    | some blockEnd =>
        have hle := indexOf_le hidx (List.cons_ne_nil _ _)
        rw [List.length_drop, List.length_take, Nat.min_self] at hle
        dsimp only
        rw [sliceOf_of_le (by omega) (by omega), Option.bind_some, Option.isSome_map]
        exact normalizeBlockComment_isSome _
  · rfl
  · have hin : cursor + 2 < input.length := by
      by_contra hout
      rw [List.getElem?_eq_none (by omega)] at hspace
      cases hspace
    have hbehind : ((input.drop (cursor + 3)).takeWhile (· != 0x0a)).length ≤ _ :=
      (List.takeWhile_sublist _).length_le
    rw [List.length_drop] at hbehind
    rw [Option.isSome_map, sliceOf_isSome_iff]
    omega
  · simp only [Bool.or_eq_true, decide_eq_true_eq, not_or] at hnone
    have hbehind : ((input.drop (cursor + 2)).takeWhile (· != 0x0a)).length ≤ _ :=
      (List.takeWhile_sublist _).length_le
    rw [List.length_drop] at hbehind
    rw [Option.isSome_map, sliceOf_isSome_iff]
    omega

/-- A block comment that the scan comes to begins at the last `/*` in front of the end of a line. -/
structure TakenBlock (input : Bytes) (blockStart prevEnd : Nat) : Prop where
  inside : prevEnd ≤ input.length
  last : lastIndexOf (input.take prevEnd) openMark = some blockStart

theorem leadingScan_inside {lines : List (Nat × Nat)} (h : LinesInside input lines)
    (comments : List Bytes) :
    ∃ leading, leadingScan input lines comments = some leading ∧
      ∀ blockStart prevEnd, leading = .block blockStart prevEnd →
        TakenBlock input blockStart prevEnd := by
  induction lines generalizing comments with
  | nil => exact ⟨_, rfl, fun _ _ hblock => nomatch hblock⟩
  | cons line above ih =>
      obtain ⟨prevStart, prevEnd⟩ := line
      rw [leadingScan, h.head, Option.bind_some]
      dsimp only
      split_ifs with hempty hclose hcomment
      · exact ⟨_, rfl, fun _ _ hblock => nomatch hblock⟩
      · cases hlast : lastIndexOf (input.take prevEnd) openMark with
        | some blockStart =>
            refine ⟨_, rfl, fun start stop hblock => ?_⟩
            cases hblock
            exact ⟨(h _ List.mem_cons_self).2, hlast⟩
        | none => exact ⟨_, rfl, fun _ _ hblock => nomatch hblock⟩
      · cases hlast : lastIndexOf (input.take prevEnd) openMark with
        | some blockStart =>
            refine ⟨_, rfl, fun start stop hblock => ?_⟩
            cases hblock
            exact ⟨(h _ List.mem_cons_self).2, hlast⟩
        | none => exact ih h.tail _
      · exact ⟨_, rfl, fun _ _ hblock => nomatch hblock⟩
      · exact ih h.tail _

end Slices

/-! ## The comments of the text -/

/-- A block comment from its opening mark at `start` up to `stop`, behind the first closing mark. -/
structure BlockCommentAt (input : Bytes) (start stop : Nat) : Prop where
  opens : occursAt openMark input start = true
  room : start + 4 ≤ stop
  closes : occursAt closeMark input (stop - 2) = true
  first : ∀ i, start + 2 ≤ i → i < stop - 2 → occursAt closeMark input i = false

/-- A `//` comment from its mark at `start` up to `stop`, the end of the line or of the text. -/
structure LineCommentAt (input : Bytes) (start stop : Nat) : Prop where
  opens : occursAt lineMark input start = true
  room : start + 2 ≤ stop
  inside : stop ≤ input.length
  line : ∀ i, start + 2 ≤ i → i < stop → input[i]? ≠ some 0x0a
  ends : stop = input.length ∨ input[stop]? = some 0x0a

/-- Behind a token the lexer goes over white space and comments from `i` up to a place. -/
inductive Skipped (input : Bytes) (i : Nat) : Nat → Prop
  | here : Skipped input i i
  | space {j : Nat} {c : UInt8} (h : Skipped input i j) (hc : input[j]? = some c)
      (hwhite : isWhitespace c = true) : Skipped input i (j + 1)
  | line {j k : Nat} (h : Skipped input i j) (hline : LineCommentAt input j k) :
      Skipped input i k
  | block {j k : Nat} (h : Skipped input i j) (hblock : BlockCommentAt input j k) :
      Skipped input i k

/-- A block comment of the source text. -/
def BlockComment (input : Bytes) (start stop : Nat) : Prop :=
  BlockCommentAt input start stop ∧ ∃ i, Lexer.Reads input 0 i ∧ Skipped input i start

/-! The lexer goes over what is skipped here. -/

section Lexer

variable {input : Bytes} {i j start stop : Nat}

theorem passing_passing (m n : Nat) (scan : Except ParseError Nat) :
    passing m (passing n scan) = passing (m + n) scan := by
  cases scan with
  | error e => rfl
  | ok k => exact congrArg Except.ok (Nat.add_assoc m n k).symm

theorem drop_of_occursAt {part : Bytes} (h : occursAt part input i = true) :
    input.drop i = part ++ input.drop (i + part.length) := by
  obtain ⟨rest, hrest⟩ := List.isPrefixOf_iff_prefix.mp h
  rw [← List.drop_drop, ← hrest, List.drop_left]

theorem drop_cons (h : j < input.length) :
    ∃ c, input[j]? = some c ∧ input.drop j = c :: input.drop (j + 1) := by
  cases hj : input[j]? with
  | none =>
      rw [List.getElem?_eq_none_iff] at hj
      omega
  | some c =>
      refine ⟨c, rfl, ?_⟩
      obtain ⟨hlt, hget⟩ := List.getElem?_eq_some_iff.mp hj
      rw [← hget]
      exact List.drop_eq_getElem_cons hlt

/-- What the lexer tests for the closing mark. -/
theorem closes_eq_false {c : UInt8} {rest : Bytes} (h : closeMark.isPrefixOf (c :: rest) = false) :
    (c == 0x2a && rest.head? == some 0x2f) = false := by
  by_contra hcloses
  rw [Bool.not_eq_false, Bool.and_eq_true, beq_iff_eq, beq_iff_eq] at hcloses
  obtain ⟨rfl, hhead⟩ := hcloses
  obtain ⟨more, rfl⟩ := List.head?_eq_some_iff.mp hhead
  simp [closeMark] at h

theorem skipBlockComment_upTo (h : BlockCommentAt input start stop) (hj : start + 2 ≤ j)
    (hstop : j ≤ stop - 2) :
    Lexer.skipBlockComment (input.drop j) =
      passing (stop - j) (Lexer.skipSpaceAndComments (input.drop stop)) := by
  have hroom := h.room
  have hlength : stop - 2 + 2 ≤ input.length := occursAt_le h.closes (List.cons_ne_nil _ _)
  -- the induction is on what is left up to the closing mark
  induction hleft : stop - 2 - j generalizing j with
  | zero =>
      obtain rfl : j = stop - 2 := by omega
      have hclose : input.drop (stop - 2) = 0x2a :: 0x2f :: input.drop (stop - 2 + 2) :=
        drop_of_occursAt h.closes
      rw [hclose, show stop - 2 + 2 = stop by omega, show stop - (stop - 2) = 2 by omega]
      rfl
  | succ left ih =>
      obtain ⟨c, -, hdrop⟩ := drop_cons (show j < input.length by omega)
      have hnot := h.first j hj (by omega)
      rw [occursAt, hdrop] at hnot
      rw [hdrop, Lexer.skipBlockComment_other (closes_eq_false hnot), ih (by omega) (by omega)
        (by omega), passing_passing, show 1 + (stop - (j + 1)) = stop - j by omega]

theorem skip_blockComment (h : BlockCommentAt input start stop) :
    Lexer.skipSpaceAndComments (input.drop start) =
      passing (stop - start) (Lexer.skipSpaceAndComments (input.drop stop)) := by
  have hroom := h.room
  have hopen : input.drop start = 0x2f :: 0x2a :: input.drop (start + 2) :=
    drop_of_occursAt h.opens
  have hskip : Lexer.skipSpaceAndComments (input.drop start) =
      passing 2 (Lexer.skipBlockComment (input.drop (start + 2))) := by
    rw [hopen]
    rfl
  rw [hskip, skipBlockComment_upTo h le_rfl (by omega), passing_passing,
    show 2 + (stop - (start + 2)) = stop - start by omega]

theorem skipLineComment_upTo (h : LineCommentAt input start stop) (hj : start + 2 ≤ j)
    (hstop : j ≤ stop) :
    Lexer.skipLineComment (input.drop j) =
      passing (stop - j) (Lexer.skipSpaceAndComments (input.drop stop)) := by
  have hinside := h.inside
  induction hleft : stop - j generalizing j with
  | zero =>
      obtain rfl : j = stop := by omega
      rcases h.ends with hend | hnewline
      · rw [List.drop_eq_nil_of_le (by omega)]
        rfl
      · obtain ⟨hlt, -⟩ := List.getElem?_eq_some_iff.mp hnewline
        obtain ⟨c, hc, hdrop⟩ := drop_cons hlt
        obtain rfl : c = 0x0a := Option.some.inj (hc.symm.trans hnewline)
        rw [hdrop, Lexer.skip_whitespace rfl, passing_passing]
        rfl
  | succ left ih =>
      obtain ⟨c, hc, hdrop⟩ := drop_cons (show j < input.length by omega)
      have hnot : ¬ (c == 0x0a) = true := by
        rw [beq_iff_eq]
        rintro rfl
        exact h.line j hj (by omega) hc
      rw [hdrop, Lexer.skipLineComment, if_neg hnot, ih (by omega) (by omega) (by omega),
        passing_passing, Nat.add_comm 1 left]

theorem skip_lineComment (h : LineCommentAt input start stop) :
    Lexer.skipSpaceAndComments (input.drop start) =
      passing (stop - start) (Lexer.skipSpaceAndComments (input.drop stop)) := by
  have hroom := h.room
  have hopen : input.drop start = 0x2f :: 0x2f :: input.drop (start + 2) :=
    drop_of_occursAt h.opens
  have hskip : Lexer.skipSpaceAndComments (input.drop start) =
      passing 2 (Lexer.skipLineComment (input.drop (start + 2))) := by
    rw [hopen]
    rfl
  rw [hskip, skipLineComment_upTo h le_rfl hroom, passing_passing,
    show 2 + (stop - (start + 2)) = stop - start by omega]

theorem Skipped.le (h : Skipped input i j) : i ≤ j := by
  induction h with
  | here => exact le_rfl
  | space _ _ _ ih => omega
  | line _ hline ih =>
      have hroom := hline.room
      omega
  | block _ hblock ih =>
      have hroom := hblock.room
      omega

/-- What is skipped up to a place and what the lexer skips from there is what it skips. -/
theorem Skipped.skip (h : Skipped input i j) :
    Lexer.skipSpaceAndComments (input.drop i) =
      passing (j - i) (Lexer.skipSpaceAndComments (input.drop j)) := by
  induction h with
  | here =>
      rw [Nat.sub_self]
      cases Lexer.skipSpaceAndComments (input.drop i) with
      | error e => rfl
      | ok k => exact congrArg Except.ok (Nat.zero_add k).symm
  | @space j c h hc hwhite ih =>
      have hle := h.le
      obtain ⟨hlt, -⟩ := List.getElem?_eq_some_iff.mp hc
      obtain ⟨d, hd, hdrop⟩ := drop_cons hlt
      obtain rfl : c = d := Option.some.inj (hc.symm.trans hd)
      rw [ih, hdrop, Lexer.skip_whitespace hwhite, passing_passing,
        show j - i + 1 = j + 1 - i by omega]
  | @line j k h hline ih =>
      have hle := h.le
      have hroom := hline.room
      rw [ih, skip_lineComment hline, passing_passing, show j - i + (k - j) = k - i by omega]
  | @block j k h hblock ih =>
      have hle := h.le
      have hroom := hblock.room
      rw [ih, skip_blockComment hblock, passing_passing, show j - i + (k - j) = k - i by omega]

end Lexer

/-- All slices for the comments of a location exist, and where a block comment is taken as its
leading comment the slice is the text between the marks of a block comment. -/
structure CommentsInside (input : Bytes) (start stop : Nat) : Prop where
  leading : (leadingLineComments input start).isSome = true
  detached : (leadingDetachedLineComments input start).isSome = true
  trailing : (trailingLineComment input stop).isSome = true
  block : ∀ blockStart prevEnd,
    leadingScan input (linesInFront input start) [] = some (.block blockStart prevEnd) →
      ∃ opening closing, BlockComment input opening closing ∧ blockStart + 2 = opening + 2 ∧
        prevEnd - 2 = closing - 2

/-- Where the scan stops for a block comment, the line ends, without blanks behind it, with a block
comment that has no other `/*` in it. -/
def BlockEndsLine (input : Bytes) (start : Nat) : Prop :=
  ∀ blockStart prevEnd,
    leadingScan input (linesInFront input start) [] = some (.block blockStart prevEnd) →
      ∃ opening, BlockComment input opening prevEnd ∧
        ∀ i, opening < i → occursAt openMark (input.take prevEnd) i = false

/-- The block that is taken exists as a slice where it is a block comment. -/
theorem BlockCommentAt.taken {input : Bytes} {blockStart prevEnd opening : Nat}
    (h : BlockCommentAt input opening prevEnd) (htaken : TakenBlock input blockStart prevEnd)
    (honly : ∀ i, opening < i → occursAt openMark (input.take prevEnd) i = false) :
    blockStart = opening := by
  have hroom := h.room
  have hopens : occursAt openMark (input.take prevEnd) opening = true := by
    refine occursAt_take.mpr ⟨h.opens, ?_⟩
    show 2 ≤ prevEnd - opening
    omega
  have hlast : lastIndexOf (input.take prevEnd) openMark = some opening :=
    (lastIndexOf_eq_some_iff (List.cons_ne_nil _ _)).mpr ⟨hopens, honly⟩
  exact Option.some.inj (htaken.last.symm.trans hlast)

/-- When the comments of a location are slices of the text and a leading block comment is the text
between its marks. -/
theorem commentsInside_iff (input : Bytes) (start stop : Nat) :
    CommentsInside input start stop ↔ BlockEndsLine input start := by
  obtain ⟨leading, hscan, htaken⟩ := leadingScan_inside (linesInFront_inside input start) []
  constructor
  · rintro ⟨-, -, -, hblock⟩ blockStart prevEnd hfound
    obtain ⟨opening, closing, hcomment, hopening, hclosing⟩ := hblock blockStart prevEnd hfound
    have htake : TakenBlock input blockStart prevEnd :=
      htaken blockStart prevEnd (Option.some.inj (hscan.symm.trans hfound))
    have hroom := hcomment.1.room
    obtain rfl : blockStart = opening := by omega
    obtain rfl : prevEnd = closing := by omega
    exact ⟨blockStart, hcomment,
      ((lastIndexOf_eq_some_iff (List.cons_ne_nil _ _)).mp htake.last).2⟩
  · intro hends
    refine ⟨?_, leadingDetachedLineComments_isSome input start, trailingLineComment_isSome input stop,
      fun blockStart prevEnd hfound => ?_⟩
    · rw [leadingLineComments, hscan, Option.bind_some]
      cases leading with
      | lines comments => rfl
      | block blockStart prevEnd =>
          have htake := htaken blockStart prevEnd rfl
          obtain ⟨opening, hcomment, honly⟩ := hends blockStart prevEnd hscan
          obtain rfl := hcomment.1.taken htake honly
          have hroom := hcomment.1.room
          have hinside := htake.inside
          dsimp only
          rw [sliceOf_of_le (by omega) (by omega), Option.bind_some, Option.isSome_map]
          exact normalizeBlockComment_isSome _
    · have htake : TakenBlock input blockStart prevEnd :=
        htaken blockStart prevEnd (Option.some.inj (hscan.symm.trans hfound))
      obtain ⟨opening, hcomment, honly⟩ := hends blockStart prevEnd hfound
      obtain rfl := hcomment.1.taken htake honly
      exact ⟨blockStart, prevEnd, hcomment, rfl, rfl⟩

/-! ## Three texts -/

/-- A line comment that ends in `*/`. -/
def overlappingText : Bytes := ascii "//*/\nmessage M {}"

/-- A block comment with a blank behind it. -/
def trailingBlankText : Bytes := ascii "/* a */ \nmessage M {}"

/-- A block comment with an opening mark in it. -/
def innerMarkText : Bytes := ascii "/* a /* b */\nmessage M {}"

/-- A taken block whose end is not behind a closing mark is not a block comment. -/
theorem not_commentsInside_of_taken {input : Bytes} {start stop blockStart prevEnd : Nat}
    (hscan : leadingScan input (linesInFront input start) [] = some (.block blockStart prevEnd))
    (hcloses : occursAt closeMark input (prevEnd - 2) = false) :
    ¬ CommentsInside input start stop := by
  intro hinside
  obtain ⟨opening, closing, hcomment, -, hclosing⟩ := hinside.block blockStart prevEnd hscan
  have hmark := hcomment.1.closes
  rw [← hclosing, hcloses] at hmark
  cases hmark

/-- In the first text there is no slice for the leading comment of the message, in the second the
slice is not the text of the comment, and in the third it is a part of it. -/
theorem exists_comments_outside :
    ((init overlappingText).map (·.current.start) = .ok 5 ∧
      leadingLineComments overlappingText 5 = none ∧
      ∀ stop, ¬ CommentsInside overlappingText 5 stop) ∧
    ((init trailingBlankText).map (·.current.start) = .ok 9 ∧
      leadingLineComments trailingBlankText 9 = some (some (ascii "a *\n")) ∧
      ∀ stop, ¬ CommentsInside trailingBlankText 9 stop) ∧
    (init innerMarkText).map (·.current.start) = .ok 13 ∧
      leadingLineComments innerMarkText 13 = some (some (ascii "b\n")) := by
  have hnone : leadingLineComments overlappingText 5 = none := by decide
  refine ⟨⟨by decide, hnone, fun stop hinside => ?_⟩,
    ⟨by decide, by decide, fun stop => ?_⟩, by decide, by decide⟩
  · have hsome := hinside.leading
    rw [hnone] at hsome
    cases hsome
  · have hscan : leadingScan trailingBlankText (linesInFront trailingBlankText 9) [] =
        some (.block 0 8) := by decide
    exact not_commentsInside_of_taken hscan (by decide)

end Parser

end Pbz
