import Pbz.Parser.Frames
import Pbz.Scoping

set_option autoImplicit false

/-! # Names and the layout inside them

The parser takes a dotted name as the bytes from its first token to its last one, with whatever
white space and comments stand between them. What the name says is in its tokens; what the parser
compares are its bytes.
-/

namespace Pbz

open Program

/-- A text as its tokens spell it, without white space and comments. -/
def withoutLayout (text : Bytes) : Bytes :=
  (Lexer.tokens (text.length + 1) ⟨text, 0⟩).flatMap (·.text)

/-- A word of the source text. -/
structure IsWord (text : Bytes) : Prop where
  ne_nil : text ≠ []
  continues : ∀ c ∈ text, isIdentContinue c = true

theorem IsWord.no_dot {text : Bytes} (h : IsWord text) : (0x2e : UInt8) ∉ text :=
  fun hmem => absurd (h.continues _ hmem) (by decide)

namespace Lexer

variable {input : Bytes} {i stop : Nat} {t : Token} {lexer : Lexer} {tokenList : List Token}

/-! ## Words -/

theorem word_of_next (h : next ⟨input, i⟩ = .ok (t, lexer)) (ht : t.tag = .identifier) :
    IsWord t.text ∧ t.end = t.start + t.text.length ∧ t.text <+: input.drop t.start := by
  obtain ⟨k, -, htoken, -⟩ := next_eq_ok.mp h
  cases hrest : input.drop (i + k) with
  | nil =>
      rw [hrest] at htoken
      cases htoken
      cases ht
  | cons c more =>
      rw [hrest, token_cons] at htoken
      by_cases hident : isIdentStart c = true
      · rw [if_pos hident] at htoken
        cases htoken
        refine ⟨⟨by simp, fun b hb => ?_⟩, by simp, ?_⟩
        · rcases List.mem_cons.mp hb with rfl | hb
          · simp [isIdentContinue, hident]
          · exact List.all_eq_true.mp List.all_takeWhile b hb
        · show c :: more.takeWhile isIdentContinue <+: input.drop (i + k)
          rw [hrest, List.cons_prefix_cons]
          exact ⟨rfl, List.takeWhile_prefix _⟩
      rw [if_neg hident] at htoken
      split at htoken
      · cases htoken
        cases ht
      · split at htoken
        · cases hread : readString c more with
          | error e => simp [hread, Except.map] at htoken
          | ok length =>
              rw [hread] at htoken
              cases htoken
              cases ht
        · cases htoken
          cases ht

theorem symbol_of_next (h : next ⟨input, i⟩ = .ok (t, lexer)) (ht : t.tag = .symbol) :
    t.text = [t.symbol] ∧ t.end = t.start + 1 ∧ input[t.start]? = some t.symbol := by
  obtain ⟨k, -, htoken, -⟩ := next_eq_ok.mp h
  cases hrest : input.drop (i + k) with
  | nil =>
      rw [hrest] at htoken
      cases htoken
      cases ht
  | cons c more =>
      have hhead : input[i + k]? = some c := by
        rw [← List.head?_drop, hrest, List.head?_cons]
      rw [hrest, token_cons] at htoken
      split at htoken
      · cases htoken
        cases ht
      split at htoken
      · cases htoken
        cases ht
      split at htoken
      · cases hread : readString c more with
        | error e => simp [hread, Except.map] at htoken
        | ok length =>
            rw [hread] at htoken
            cases htoken
            cases ht
      · cases htoken
        exact ⟨rfl, rfl, hhead⟩

/-! ## What stands in front of a token -/

/-- No word ends at `i`. -/
def NoWordEnds (input : Bytes) (i : Nat) : Prop :=
  ∀ c, 0 < i → input[i - 1]? = some c → isIdentContinue c = false

theorem noWordEnds_cons {c : UInt8} {rest : Bytes} {j : Nat}
    (hc : j = 0 → isIdentContinue c = false) (h : NoWordEnds rest j) :
    NoWordEnds (c :: rest) (1 + j) := by
  intro b _ hb
  cases j with
  | zero =>
      obtain rfl : c = b := by simpa using hb
      exact hc rfl
  | succ j => exact h b (by omega) (by rwa [show 1 + (j + 1) - 1 = j + 1 by omega] at hb)

theorem noWordEnds_zero : NoWordEnds input 0 := fun _ h => absurd h (lt_irrefl 0)

theorem not_identContinue_of_isWhitespace {c : UInt8} (h : isWhitespace c = true) :
    isIdentContinue c = false := by
  simp only [isWhitespace, Bool.or_eq_true, beq_iff_eq] at h
  rcases h with ((((rfl | rfl) | rfl) | rfl) | rfl) | rfl <;> decide

theorem skipLineComment_zero {xs : Bytes} (h : skipLineComment xs = .ok 0) : xs = [] := by
  cases xs with
  | nil => rfl
  | cons c rest =>
      rw [skipLineComment] at h
      split at h
      · obtain ⟨j, -, hj⟩ := passing_eq_ok.mp h
        omega
      · obtain ⟨j, -, hj⟩ := passing_eq_ok.mp h
        omega

/-- What the lexer skips in front of a token does not end in a word. -/
theorem skip_noWordEnds :
    (∀ xs k, skipSpaceAndComments xs = .ok k → k < xs.length → NoWordEnds xs k) ∧
    (∀ xs k, skipBlockComment xs = .ok k → k < xs.length → NoWordEnds xs k) ∧
    (∀ xs k, skipLineComment xs = .ok k → k < xs.length → NoWordEnds xs k) := by
  have hslash : isIdentContinue 0x2f = false := by decide
  have hnewline : isIdentContinue 0x0a = false := by decide
  apply skipSpaceAndComments.mutual_induct
  case case2 =>
    intro c rest hws ih k h hk
    rw [skip_whitespace hws] at h
    obtain ⟨j, hj, rfl⟩ := passing_eq_ok.mp h
    rw [List.length_cons] at hk
    exact noWordEnds_cons (fun _ => not_identContinue_of_isWhitespace hws) (ih j hj (by omega))
  case case4 =>
    -- a line comment, which does not end the input
    intro c hws hc n rest hn ih k h hk
    rw [skipSpaceAndComments, if_neg hws, if_pos hc, if_pos hn] at h
    obtain ⟨j, hj, rfl⟩ := passing_eq_ok.mp h
    rw [List.length_cons, List.length_cons] at hk
    have hpos : j ≠ 0 := by
      rintro rfl
      rw [skipLineComment_zero hj] at hk
      simp at hk
    rw [show 2 + j = 1 + (1 + j) by omega]
    refine noWordEnds_cons (fun h => by omega) (noWordEnds_cons (fun h => absurd h hpos) ?_)
    exact ih j hj (by omega)
  case case5 =>
    intro c hws hc n rest hn hn' ih k h hk
    rw [skipSpaceAndComments, if_neg hws, if_pos hc, if_neg hn, if_pos hn'] at h
    obtain ⟨j, hj, rfl⟩ := passing_eq_ok.mp h
    rw [List.length_cons, List.length_cons] at hk
    have hpos := skipBlockComment_pos hj
    rw [show 2 + j = 1 + (1 + j) by omega]
    refine noWordEnds_cons (fun h => by omega) (noWordEnds_cons (fun h => by omega) ?_)
    exact ih j hj (by omega)
  case case10 =>
    -- the end of a block comment
    intro c n rest hc ih k h hk
    have hn : n = 0x2f := by
      rw [Bool.and_eq_true] at hc
      simpa using hc.2
    rw [skipBlockComment, if_pos hc] at h
    obtain ⟨j, hj, rfl⟩ := passing_eq_ok.mp h
    rw [List.length_cons, List.length_cons] at hk
    rw [show 2 + j = 1 + (1 + j) by omega]
    refine noWordEnds_cons (fun h => by omega) (noWordEnds_cons (fun _ => hn ▸ hslash) ?_)
    exact ih j hj (by omega)
  case case11 =>
    intro c rest hc ih k h hk
    rw [skipBlockComment_other (by simpa using hc)] at h
    obtain ⟨j, hj, rfl⟩ := passing_eq_ok.mp h
    rw [List.length_cons] at hk
    have hpos := skipBlockComment_pos hj
    exact noWordEnds_cons (fun h => by omega) (ih j hj (by omega))
  case case13 =>
    intro c rest hc ih k h hk
    have hc' : c = 0x0a := by simpa using hc
    rw [skipLineComment, if_pos hc] at h
    obtain ⟨j, hj, rfl⟩ := passing_eq_ok.mp h
    rw [List.length_cons] at hk
    exact noWordEnds_cons (fun _ => hc' ▸ hnewline) (ih j hj (by omega))
  case case14 =>
    intro c rest hc ih k h hk
    rw [skipLineComment, if_neg hc] at h
    obtain ⟨j, hj, rfl⟩ := passing_eq_ok.mp h
    rw [List.length_cons] at hk
    refine noWordEnds_cons (fun hzero => ?_) (ih j hj (by omega))
    rw [hzero] at hj
    rw [skipLineComment_zero hj] at hk
    simp [hzero] at hk
  all_goals
    -- nothing is skipped, or there is nothing behind it
    intros
    grind [skipSpaceAndComments, skipBlockComment, skipLineComment, noWordEnds_zero, skip_token]

theorem next_noWordEnds (h : next ⟨input, i⟩ = .ok (t, lexer)) (ht : t.tag ≠ .eof)
    (hi : NoWordEnds input i) : NoWordEnds input t.start := by
  obtain ⟨k, hskip, htoken, -⟩ := next_eq_ok.mp h
  have hb := bounds_of_token htoken
  rw [hb.start_eq]
  by_cases hk : k = 0
  · rw [hk, Nat.add_zero]
    exact hi
  · have hlt : k < (input.drop i).length := by
      by_contra hge
      refine ht (hb.eof_iff.mpr (List.drop_eq_nil_iff.mpr ?_))
      rw [List.length_drop] at hge
      omega
    intro c _ hc
    refine skip_noWordEnds.1 _ _ hskip hlt c (by omega) ?_
    rw [List.getElem?_drop]
    rwa [show i + (k - 1) = i + k - 1 by omega]

/-! ## The tokens of a part of the input -/

/-- From `i` on the input reads as these tokens, up to `stop`. -/
def Spells (input : Bytes) : Nat → List Token → Nat → Prop
  | i, [], stop => i = stop
  | i, t :: rest, stop =>
      next ⟨input, i⟩ = .ok (t, ⟨input, t.end⟩) ∧ t.tag ≠ .eof ∧ Spells input t.end rest stop

theorem spells_append {more : List Token} :
    Spells input i (tokenList ++ more) stop ↔
      ∃ j, Spells input i tokenList j ∧ Spells input j more stop := by
  induction tokenList generalizing i with
  | nil => simp [Spells]
  | cons t rest ih =>
      simp only [List.cons_append, Spells, ih]
      constructor
      · rintro ⟨hnext, ht, j, hrest, hmore⟩
        exact ⟨j, ⟨hnext, ht, hrest⟩, hmore⟩
      · rintro ⟨j, ⟨hnext, ht, hrest⟩, hmore⟩
        exact ⟨hnext, ht, j, hrest, hmore⟩

theorem Spells.le (h : Spells input i tokenList stop) : i ≤ stop := by
  induction tokenList generalizing i with
  | nil => exact h.le
  | cons t rest ih =>
      obtain ⟨hnext, ht, hrest⟩ := h
      have hf := follows_of_next hnext
      have hlt := hf.lt_end ht
      have hge := hf.start_ge
      have hle := ih hrest
      omega

/-- The same tokens are read from a part of the input that ends behind them. -/
theorem Spells.part (h : Spells input i tokenList stop) {k : Nat} (hk : k ≤ i) :
    Spells ((input.drop k).take (stop - k)) (i - k)
      (tokenList.map (fun t => moved t (t.start - k))) (stop - k) := by
  induction tokenList generalizing i with
  | nil =>
      obtain rfl : i = stop := h
      rfl
  | cons t rest ih =>
      obtain ⟨hnext, ht, hrest⟩ := h
      have hf := follows_of_next hnext
      have hlt := hf.lt_end ht
      have hge := hf.start_ge
      have hend : (moved t (t.start - k)).end = t.end - k := by
        show t.start - k + (t.end - t.start) = t.end - k
        omega
      have hsum : i = k + (i - k) := by omega
      rw [hsum] at hnext
      refine ⟨?_, ht, ?_⟩
      · rw [hend]
        exact next_part hnext ht hrest.le
      · rw [hend]
        exact ih hrest (by omega)

theorem Spells.tokens (h : Spells input i tokenList input.length) {rounds : Nat}
    (hr : input.length - i < rounds) :
    (Lexer.tokens rounds ⟨input, i⟩).flatMap (·.text) = tokenList.flatMap (·.text) := by
  induction tokenList generalizing i rounds with
  | nil =>
      obtain rfl : i = input.length := h
      obtain ⟨rounds, rfl⟩ : ∃ n, rounds = n + 1 := ⟨rounds - 1, by omega⟩
      rw [Lexer.tokens, next_at_end le_rfl]
      rfl
  | cons t rest ih =>
      obtain ⟨hnext, ht, hrest⟩ := h
      have hf := follows_of_next hnext
      have hlt := hf.lt_end ht
      have hge := hf.start_ge
      have hle := hrest.le
      obtain ⟨rounds, rfl⟩ : ∃ n, rounds = n + 1 := ⟨rounds - 1, by omega⟩
      have hlater := @ih t.end hrest rounds (by omega)
      rw [Lexer.tokens, hnext]
      simp only [beq_iff_eq, ht, if_false, List.flatMap_cons, hlater]

end Lexer

/-! ## Dotted names -/

open Lexer

/-- A name whose last token is a word, behind a dot if it is not the first token. -/
def IsReference (name : Bytes) : Prop :=
  ∃ front t, Spells name 0 (front ++ [t]) name.length ∧ t.tag = .identifier ∧
    ∀ dot ∈ front.getLast?, dot.isSymbol 0x2e = true

/-- Behind a front, which does not end in a word, `name` ends in the word `last`. -/
structure EndsIn (name last : Bytes) : Prop where
  word : IsWord last
  split : ∃ front, name = front ++ last ∧ ∀ c ∈ front.getLast?, isIdentContinue c = false

theorem afterLastDot_append {front last : Bytes} (h : (0x2e : UInt8) ∉ last) :
    afterLastDot (front ++ last) = afterLastDot front ++ last := by
  have hlast : ∀ c ∈ last.reverse, (c != 0x2e) = true :=
    Dotted.ne_of_mem_part (by simpa using h)
  rw [afterLastDot, List.reverse_append, List.takeWhile_append_of_pos hlast, List.reverse_append,
    List.reverse_reverse]
  rfl

theorem afterLastDot_suffix (name : Bytes) : afterLastDot name <:+ name := by
  have hprefix := List.takeWhile_prefix (l := name.reverse) (p := (· != 0x2e))
  rw [← List.reverse_reverse name, afterLastDot, List.reverse_suffix, List.reverse_reverse]
  exact hprefix

theorem leafName_append {front last : Bytes} (h : IsWord last) :
    ∃ rest, rest <:+ front ∧ leafName (front ++ last) = afterLastDot rest ++ last := by
  have hnormal : ∃ rest, rest <:+ front ∧ normalizeName (front ++ last) = rest ++ last := by
    cases front with
    | nil =>
        obtain ⟨c, more, rfl⟩ := List.exists_cons_of_ne_nil h.ne_nil
        refine ⟨[], List.suffix_rfl, ?_⟩
        have hc : c ≠ 0x2e := fun hc => h.no_dot (hc ▸ List.mem_cons_self)
        exact normalizeName_of_not_absolute (by simp [isAbsolute, hc])
    | cons c front =>
        by_cases hc : c = 0x2e
        · exact ⟨front, List.suffix_cons c front, by rw [hc]; rfl⟩
        · refine ⟨c :: front, List.suffix_rfl, ?_⟩
          exact normalizeName_of_not_absolute (by simp [isAbsolute, hc])
  obtain ⟨rest, hrest, hname⟩ := hnormal
  refine ⟨rest, hrest, ?_⟩
  rw [leafName, hname, afterLastDot_append h.no_dot]

/-- The last byte of a suffix is that of the whole. -/
theorem getLast?_suffix {front rest : Bytes} (h : rest <:+ front) (hne : rest ≠ []) :
    rest.getLast? = front.getLast? := by
  obtain ⟨more, rfl⟩ := h
  cases hl : rest.getLast? with
  | none => exact absurd (List.getLast?_eq_none_iff.mp hl) hne
  | some c => rw [List.getLast?_append, hl, Option.some_or]

/-- What stands behind the last dot is the last word, if it is a word at all. -/
theorem EndsIn.leafName_eq {name last : Bytes} (h : EndsIn name last)
    (hword : IsWord (leafName name)) : leafName name = last := by
  obtain ⟨front, rfl, hfront⟩ := h.split
  obtain ⟨rest, hrest, hleaf⟩ := @leafName_append front last h.word
  have hnil : afterLastDot rest = [] := by
    by_contra hne
    have hsuffix := (afterLastDot_suffix rest).trans hrest
    have hlast := List.getLast?_eq_getLast_of_ne_nil hne
    have hmem := List.getLast_mem hne
    have hstop := hfront _ (by rw [← getLast?_suffix hsuffix hne, hlast]; rfl)
    have hgoes := hword.continues _ (by rw [hleaf]; exact List.mem_append_left _ hmem)
    rw [hgoes] at hstop
    cases hstop
  rw [hleaf, hnil, List.nil_append]

theorem leafName_of_dot {front last : Bytes} (h : IsWord last)
    (hdot : ∀ c ∈ front.getLast?, c = 0x2e) : leafName (front ++ last) = last := by
  obtain ⟨rest, hrest, hleaf⟩ := @leafName_append front last h
  rw [hleaf, afterLastDot]
  by_cases hne : rest = []
  · simp [hne]
  · have hlast := getLast?_suffix hrest hne
    rw [← List.head?_reverse] at hlast
    cases hreverse : rest.reverse with
    | nil => simp
    | cons c more =>
        rw [hreverse, List.head?_cons] at hlast
        rw [hdot c hlast.symm]
        simp

/-- Where the tokens of a front end, no word does, and they spell a text that ends in a dot. -/
theorem Lexer.Spells.dotted {name : Bytes} {front : List Token} {j : Nat} (h : Spells name 0 front j)
    (hdot : ∀ dot ∈ front.getLast?, dot.isSymbol 0x2e = true) :
    NoWordEnds name j ∧ ∀ c ∈ (front.flatMap (·.text)).getLast?, c = 0x2e := by
  rcases List.eq_nil_or_concat front with rfl | ⟨before, dot, rfl⟩
  · obtain rfl : 0 = j := h
    exact ⟨noWordEnds_zero, by simp⟩
  rw [List.concat_eq_append] at h hdot ⊢
  obtain ⟨i, -, hnext, hne, rfl⟩ := spells_append.mp h
  have hsymbol := hdot dot (by simp)
  simp only [Token.isSymbol, Bool.and_eq_true, beq_iff_eq] at hsymbol
  obtain ⟨htext, hend, hbyte⟩ := symbol_of_next hnext hsymbol.1
  rw [hsymbol.2] at htext hbyte
  constructor
  · intro c _ hc
    rw [hend, Nat.add_sub_cancel, hbyte] at hc
    obtain rfl := Option.some.inj hc
    decide
  · simp [htext]

/-- The last word of a name that is read from the source text. -/
theorem IsReference.endsIn {name : Bytes} (h : IsReference name) :
    EndsIn name (leafName (withoutLayout name)) := by
  obtain ⟨front, t, hspells, htag, hdot⟩ := h
  have htokens := hspells.tokens (Nat.lt_succ_of_le (Nat.sub_le _ _))
  obtain ⟨j, hfront, hnext, hne, hend⟩ := spells_append.mp hspells
  obtain ⟨hstop, hspelt⟩ := hfront.dotted hdot
  obtain ⟨hword, hlength, hprefix⟩ := word_of_next hnext htag
  have hend : t.end = name.length := hend
  have hleaf : leafName (withoutLayout name) = t.text := by
    rw [withoutLayout, htokens, List.flatMap_append, List.flatMap_singleton]
    exact leafName_of_dot hword hspelt
  rw [hleaf]
  have htext : t.text = name.drop t.start := by
    refine hprefix.eq_of_length ?_
    rw [List.length_drop]
    omega
  refine ⟨hword, name.take t.start, by rw [htext, List.take_append_drop], fun c hc => ?_⟩
  have hlt : t.start < name.length := hend ▸ (follows_of_next hnext).lt_end hne
  rw [List.getLast?_take] at hc
  by_cases hzero : t.start = 0
  · rw [if_pos hzero] at hc
    cases hc
  · rw [if_neg hzero, List.getElem?_eq_getElem (by omega), Option.some_or] at hc
    refine next_noWordEnds hnext hne hstop c (by omega) ?_
    rw [List.getElem?_eq_getElem (by omega)]
    exact hc

/-- Where the last words of the bytes and of the tokens differ, the former is no word. -/
theorem IsReference.leafName_eq {name : Bytes} (h : IsReference name)
    (hword : IsWord (leafName name)) : leafName name = leafName (withoutLayout name) :=
  h.endsIn.leafName_eq hword

/-! ## The names that the parser reads -/

namespace Parser

variable {file : FileDescriptor} {input : Bytes} {start rounds : Nat} {tokenList front : List Token}
  {t : Token} {s : Parser}

/-- From `start` on these tokens have been read, and the state stands at the token behind them. -/
structure At (input : Bytes) (start : Nat) (tokenList : List Token) (s : Parser) : Prop where
  standing : s.Standing
  input_eq : s.lexer.input = input
  reads : ∃ j, Spells input start tokenList j ∧ Lexer.next ⟨input, j⟩ = .ok (s.current, s.lexer)

/-- The last of the tokens is the one that the state has read last. -/
structure Read (input : Bytes) (start : Nat) (tokenList : List Token) (s : Parser) : Prop where
  standing : s.Standing
  input_eq : s.lexer.input = input
  reads : Spells input start tokenList s.previousEnd

theorem Read.at (h : Read input start tokenList s) : At input start tokenList s := by
  refine ⟨h.standing, h.input_eq, s.previousEnd, h.reads, ?_⟩
  rw [← h.input_eq]
  exact h.standing

theorem Standing.at (h : s.Standing) : At s.lexer.input s.current.start [] s :=
  ⟨h, rfl, s.current.start, rfl, Lexer.next_start h⟩

theorem At.step (h : At input start tokenList s) (hne : s.current.tag ≠ .eof)
    {onError : ParseError → Stop} :
    wp (step onError)
      (fun _ s' => s'.file = s.file ∧ Read input start (tokenList ++ [s.current]) s')
      (fun _ => True) s := by
  refine wp_mono h.standing.step ?_ (fun _ h => h)
  rintro _ s' ⟨hfile, hfollows, hinput, hend⟩
  obtain ⟨j, hspells, hnext⟩ := h.reads
  rw [Lexer.next_lexer hnext] at hnext
  refine ⟨hfile, hfollows.standing, hinput.trans h.input_eq, ?_⟩
  rw [hend]
  exact spells_append.mpr ⟨j, hspells, hnext, hne, rfl⟩

theorem At.consumeSymbol (h : At input start tokenList s) {symbol : UInt8} :
    wp (consumeSymbol symbol)
      (fun consumed s' => s'.file = s.file ∧
        if consumed then s.current.isSymbol symbol = true ∧
          Read input start (tokenList ++ [s.current]) s'
        else s' = s)
      (fun _ => True) s := by
  unfold Parser.consumeSymbol consumeIf
  rw [wp_bind, wp_get, wp_ite]
  constructor
  · intro hsymbol
    have hne : s.current.tag ≠ .eof := by
      intro heof
      simp [Token.isSymbol, heof] at hsymbol
    rw [wp_bind]
    refine wp_mono (h.step hne) ?_ (fun _ h => h)
    rintro _ s' ⟨hfile, hread⟩
    exact ⟨hfile, hsymbol, hread⟩
  · exact fun _ => ⟨rfl, rfl⟩

theorem At.expectIdentifier (h : At input start tokenList s) :
    wp expectIdentifier
      (fun text s' => s'.file = s.file ∧ text = s.current.text ∧ s.current.tag = .identifier ∧
        Read input start (tokenList ++ [s.current]) s')
      (fun _ => True) s := by
  unfold Parser.expectIdentifier expectTag
  rw [wp_bind, wp_get, wp_ite]
  constructor
  · intro htag
    have htag : s.current.tag = .identifier := by simpa using htag
    rw [wp_bind]
    refine wp_mono (h.step (by simp [htag])) ?_ (fun _ h => h)
    rintro _ s' ⟨hfile, hread⟩
    exact ⟨hfile, rfl, htag, hread⟩
  · exact fun _ => trivial

/-- Declared names are words. -/
theorem expectIdentifier_isWord : Gives file expectIdentifier IsWord := by
  refine .of_wp fun s _ hstand => wp_mono hstand.at.expectIdentifier ?_ (fun _ h => h)
  rintro text s' ⟨-, rfl, htag, -⟩
  exact (word_of_next hstand htag).1

/-- The tokens are those of a dotted name so far: a word behind a dot, or behind nothing. -/
def DottedTokens (front : List Token) (t : Token) : Prop :=
  t.tag = .identifier ∧ ∀ dot ∈ front.getLast?, dot.isSymbol 0x2e = true

theorem Read.moreIdentifiers (h : Read input start (front ++ [t]) s) (ht : DottedTokens front t) :
    wp (moreIdentifiers rounds)
      (fun _ s' => s'.file = s.file ∧
        ∃ front t, Read input start (front ++ [t]) s' ∧ DottedTokens front t)
      (fun _ => True) s := by
  induction rounds generalizing s front t with
  | zero => exact trivial
  | succ rounds ih =>
      unfold Parser.moreIdentifiers
      rw [wp_bind]
      refine wp_mono h.at.consumeSymbol ?_ (fun _ h => h)
      rintro consumed s₁ ⟨hfile₁, hread₁⟩
      cases consumed with
      | false =>
          obtain rfl : s₁ = s := hread₁
          exact ⟨rfl, front, t, h, ht⟩
      | true =>
          obtain ⟨hdot, hread₁⟩ := hread₁
          show wp (Parser.expectIdentifier >>= fun _ => Parser.moreIdentifiers rounds) _ _ s₁
          rw [wp_bind]
          refine wp_mono hread₁.at.expectIdentifier ?_ (fun _ h => h)
          rintro _ s₂ ⟨hfile₂, -, htag, hread₂⟩
          refine wp_mono (ih hread₂ ⟨htag, by simpa using hdot⟩) ?_ (fun _ h => h)
          rintro _ s₃ ⟨hfile₃, hread₃⟩
          exact ⟨hfile₃.trans (hfile₂.trans hfile₁), hread₃⟩

/-- What has been read of a name is a name. -/
theorem Read.isReference (h : Read input start (front ++ [t]) s) (ht : DottedTokens front t) :
    IsReference (s.slice start s.previousEnd) := by
  have hpart := h.reads.part (le_refl start)
  obtain ⟨j, hfront, hnext, hne, hend⟩ := spells_append.mp h.reads
  have hf := follows_of_next hnext
  have hle := hfront.le
  have hge := hf.start_ge
  have hlt : t.start < input.length := by
    by_contra hge
    exact hne (hf.eof_iff.mpr (by omega))
  have hstop : s.previousEnd ≤ input.length := hend ▸ hf.end_le (by omega)
  have hslice : s.slice start s.previousEnd = (input.drop start).take (s.previousEnd - start) := by
    rw [slice, h.input_eq]
  have hlength : (s.slice start s.previousEnd).length = s.previousEnd - start := by
    rw [hslice, List.length_take, List.length_drop]
    omega
  rw [Nat.sub_self, List.map_append, ← hslice, ← hlength] at hpart
  refine ⟨_, _, hpart, ht.1, fun dot hdot => ?_⟩
  rw [List.getLast?_map] at hdot
  obtain ⟨d, hd, rfl⟩ := Option.map_eq_some_iff.mp hdot
  exact ht.2 d hd

/-- Type names are references. -/
theorem parseTypeNameSlice_isReference :
    Gives file (parseTypeNameSlice rounds) IsReference := by
  refine .of_wp fun s _ hstand => ?_
  unfold parseTypeNameSlice
  rw [wp_bind, wp_get, wp_bind]
  refine wp_mono hstand.at.consumeSymbol ?_ (fun _ h => h)
  rintro consumed s₁ ⟨-, hread₁⟩
  obtain ⟨front, hat, hdot⟩ : ∃ front, At s.lexer.input s.current.start front s₁ ∧
      ∀ dot ∈ front.getLast?, dot.isSymbol 0x2e = true := by
    cases consumed with
    | false =>
        obtain rfl : s₁ = s := hread₁
        exact ⟨[], hstand.at, by simp⟩
    | true => exact ⟨_, hread₁.2.at, by simpa using hread₁.1⟩
  rw [wp_bind]
  refine wp_mono hat.expectIdentifier ?_ (fun _ h => h)
  rintro _ s₂ ⟨-, -, htag, hread₂⟩
  rw [wp_bind]
  refine wp_mono (hread₂.moreIdentifiers ⟨htag, hdot⟩) ?_ (fun _ h => h)
  rintro _ s₃ ⟨-, front', t, hread₃, ht⟩
  exact hread₃.isReference ht

end Parser

end Pbz
