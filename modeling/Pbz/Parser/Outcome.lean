import Pbz.Parser.Advance

set_option autoImplicit false

/-! # How a run of the parser ends

Each production keeps the parser ready, passes at least the tokens it consumes and stops properly.
It follows that a run over an input without a malformed string or comment behind a matched token
ends with a descriptor or an error value, or at an overflow, and that it has rounds enough.
-/

namespace Pbz

open Program Tokenized

/-! ## Literals -/

theorem map_eq_error {ε α β : Type} {f : α → β} {x : Except ε α} {e : ε} :
    x.map f = .error e ↔ x = .error e := by
  cases x with
  | ok a => simp [Except.map]
  | error e' => simp [Except.map]

/-- The loop of the decoder has rounds enough. -/
theorem decodeString_stop {rounds : Nat} {text : Bytes} (h : text.length ≤ rounds) {stop : Stop}
    (hstop : decodeString rounds text = .error stop) : stop = .overflow ∨ ∃ e, stop = .error e := by
  fun_induction decodeString rounds text generalizing stop with
  | case1 => cases hstop
  | case2 => simp at h
  | case3 rounds c rest hc ih => exact ih (by simpa using h) (map_eq_error.mp hstop)
  | case4 => cases hstop; simp
  | case5 rounds c hc escape rest byte hbyte ih =>
      exact ih (by simp at h; omega) (map_eq_error.mp hstop)
  | case6 => cases hstop; simp
  | case7 rounds c hc escape rest hbyte hx digits hd ih =>
      exact ih (by simp at h ⊢; omega) (map_eq_error.mp hstop)
  | case8 => cases hstop; simp
  | case9 rounds c hc escape rest hbyte hx ho more byte hoctal ih =>
      exact ih (by simp at h ⊢; omega) (map_eq_error.mp hstop)
  | case10 => cases hstop; simp

theorem numberInRange {input : Bytes} {t : Token} {value : Int} (h : Parser.StaysInRange input)
    (ht : Lexer.Lexed input t) (htag : t.tag = .number) (hvalue : parseI64 t.text = some value) :
    -(2 ^ 63 - 1) < value ∧ value < 2 ^ 63 - 1 := by
  have hrange := h t (Lexer.mem_tokens.mpr ht)
  simpa [Token.inRange, htag, hvalue] using hrange

theorem stringInRange {input : Bytes} {t : Token} (h : Parser.StaysInRange input)
    (ht : Lexer.Lexed input t) (htag : t.tag = .stringLiteral) :
    decodeStringLiteral t.text ≠ .error .overflow := by
  have hrange := h t (Lexer.mem_tokens.mpr ht)
  simpa [Token.inRange, htag] using hrange

theorem decodeStringLiteral_proper {σ : Type} [Tokenized σ] {input : Bytes} {s : σ}
    (htag : (Tokenized.current s).tag = .stringLiteral) (hready : Ready input s) (stop : Stop)
    (hstop : decodeStringLiteral (Tokenized.current s).text = .error stop) : Proper input stop := by
  rcases decodeString_stop le_rfl hstop with rfl | ⟨e, rfl⟩
  · exact fun hstays => stringInRange hstays hready.lexed htag hstop
  · trivial

/-! ## Aggregates -/

namespace AggregateOptionParser

variable {input : Bytes} {n eaten rounds : Nat}

theorem steps {onError : ParseError → Stop} : Steps (step onError) onError := by
  intro s
  cases hnext : s.lexer.next with
  | error e =>
      show (step onError) s = _
      simp [step, bind, StateT.bind, get, getThe, MonadStateOf.get, StateT.get, pure, Except.pure,
        Except.bind, hnext, throw, throwThe, MonadExceptOf.throw, StateT.lift]
  | ok pair =>
      refine ⟨{ s with lexer := pair.2, current := pair.1 }, ?_, rfl, rfl⟩
      simp only [step, bind, StateT.bind, get, getThe, MonadStateOf.get, StateT.get, pure,
        Except.pure, Except.bind, hnext]
      rfl

theorem advanceVoid_safe {s : AggregateOptionParser} (hs : s.current.tag ≠ .eof) :
    SafeAt input 4 n advanceVoid anything s :=
  steps.safe hs

theorem expectIdentifier_safe : Safe input 4 n expectIdentifier anything := by
  refine .get fun s => .ite (fun htag => ?_) fun _ => Safe.fail s
  have hne : s.current.tag ≠ .eof := by simp_all
  exact (advanceVoid_safe hne).bind fun _ _ => .pure trivial

theorem moreStrings_safe {joined : Bytes} (hn : n ≤ rounds) :
    Safe input 0 n (moreStrings rounds joined) anything := by
  induction rounds generalizing n joined with
  | zero => exact .zero hn
  | succ rounds ih =>
      refine .get fun s => .ite (fun htag => ?_) fun _ => Safe.pure trivial s
      have hstring : s.current.tag = .stringLiteral := by simpa using htag
      have hne : s.current.tag ≠ .eof := by simp [hstring]
      refine liftStop_bind (decodeStringLiteral_proper hstring) fun part _ => ?_
      exact (advanceVoid_safe hne).bind fun _ _ => ih (by omega)

theorem expectString_safe (hn : n ≤ rounds) : Safe input 4 n (expectString rounds) anything := by
  refine .get fun s => .ite (fun htag => ?_) fun _ => Safe.fail s
  have hstring : s.current.tag = .stringLiteral := by simpa using htag
  have hne : s.current.tag ≠ .eof := by simp [hstring]
  refine liftStop_bind (decodeStringLiteral_proper hstring) fun first _ => ?_
  exact (advanceVoid_safe hne).bind fun _ _ => moreStrings_safe (by omega)

theorem expectBool_safe : Safe input 4 n expectBool anything := by
  refine expectIdentifier_safe.bind fun text _ => ?_
  exact .ite (.pure trivial) (.ite (.pure trivial) .fail)

theorem skipBalanced_safe {opening closing : UInt8} {depth : Nat} (hn : n ≤ rounds) :
    Safe input 4 n (skipBalanced opening closing rounds depth) anything := by
  induction rounds generalizing n depth with
  | zero => exact .zero hn
  | succ rounds ih =>
      refine .get fun s => .ite (fun _ => Safe.fail s) fun htag => ?_
      have hne : s.current.tag ≠ .eof := by simpa using htag
      have hrest (depth : Nat) : Safe input (4 - 4) (n - 4)
          (skipBalanced opening closing rounds depth) anything :=
        (ih (by omega)).mono (by omega) le_rfl
      refine .ite (fun _ => (advanceVoid_safe hne).bind fun _ _ => hrest _) fun _ => ?_
      refine .ite (fun _ => ?_) fun _ => (advanceVoid_safe hne).bind fun _ _ => hrest _
      exact (advanceVoid_safe hne).bind fun _ _ => .ite (.pure trivial) (hrest _)

theorem skipValue_safe (hn : n ≤ rounds) : Safe input 0 n (skipValue rounds) anything := by
  have hskip (opening closing : UInt8) :
      Safe input 0 n (skipBalanced opening closing rounds 0) anything :=
    (skipBalanced_safe hn).mono (by omega) le_rfl
  exact .get fun s => .ite (fun _ => hskip _ _ s) fun _ =>
    .ite (fun _ => hskip _ _ s) fun _ => steps.safe_any s

variable (hreads : Lexer.Reads input 0 input.length)
include hreads

/-- In a text that reads as tokens up to its end no step fails. -/
theorem consumeSymbol_bind {α : Type} {post : α → Prop} {symbol : UInt8} {f : Bool → Read α}
    (htrue : Safe input (eaten - 4) (n - 4) (f true) post)
    (hfalse : Safe input eaten n (f false) post) :
    Safe input eaten n (consumeSymbol symbol >>= f) post := by
  unfold consumeSymbol
  rw [bind_assoc]
  refine .get fun s => ?_
  by_cases hsymbol : s.current.isSymbol symbol = true
  · simp only [hsymbol, if_true, bind_assoc, pure_bind]
    have hne : s.current.tag ≠ .eof := by
      intro heof
      simp [Token.isSymbol, heof] at hsymbol
    refine steps.bind hne ?_ (fun s' _ => htrue s')
    intro hready e hnext
    rw [hready.lexer_eq] at hnext
    have hbefore := Lexer.beforeError_of_lexed hready.lexed hnext
    simp [beforeError_of_reads hreads] at hbefore
  · simp only [hsymbol, Bool.false_eq_true, if_false, pure_bind]
    exact hfalse s

theorem consumeSymbol_ite {α : Type} {post : α → Prop} {symbol : UInt8} {p q : Read α}
    (hp : Safe input (eaten - 4) (n - 4) p post) (hq : Safe input eaten n q post) :
    Safe input eaten n (do if ← consumeSymbol symbol then p else q) post :=
  consumeSymbol_bind hreads (by simpa using hp) (by simpa using hq)

theorem expectSymbol_safe {symbol : UInt8} : Safe input 4 n (expectSymbol symbol) anything :=
  consumeSymbol_ite hreads (.pure trivial) .fail

theorem consumeEither_bind {α : Type} {post : α → Prop} {first second : UInt8} {f : Bool → Read α}
    (htrue : Safe input (eaten - 4) (n - 4) (f true) post)
    (hfalse : Safe input eaten n (f false) post) :
    Safe input eaten n (consumeEither first second >>= f) post := by
  unfold consumeEither
  rw [bind_assoc]
  refine consumeSymbol_bind hreads ?_ ?_
  · simpa using htrue
  · simpa using consumeSymbol_bind hreads htrue hfalse

/-- Whether one of two symbols has been consumed does not matter. -/
theorem consumeEither_then {α : Type} {post : α → Prop} {first second : UInt8} {p : Read α}
    (hp : Safe input eaten n p post) :
    Safe input eaten n (consumeEither first second >>= fun _ => p) post :=
  consumeEither_bind hreads (hp.mono (by omega) (by omega)) hp

theorem consumeSign_bind {α : Type} {post : α → Prop} {f : Bool → Read α}
    (hf : ∀ negative, Safe input eaten n (f negative) post) :
    Safe input eaten n (consumeSign >>= f) post := by
  unfold consumeSign
  rw [bind_assoc]
  have hfewer (negative : Bool) : Safe input (eaten - 4) (n - 4) (f negative) post :=
    (hf negative).mono (by omega) (by omega)
  refine consumeSymbol_bind hreads ?_ ?_
  · simpa using hfewer true
  · simpa using consumeSymbol_bind hreads (f := fun _ => f false) (hfewer false) (hf false)

theorem parseSignedInt32_safe : Safe input 4 n parseSignedInt32 anything := by
  refine consumeSign_bind hreads fun negative => .get fun s => ?_
  refine .ite (fun htag => ?_) fun _ => Safe.fail s
  have hnumber : s.current.tag = .number := by simpa using htag
  have hne : s.current.tag ≠ .eof := by simp [hnumber]
  cases hvalue : parseI64 s.current.text with
  | none => exact Safe.fail s
  | some value =>
      cases negative with
      | true =>
          intro hready
          refine checkedI64_bind (fun hstays => ?_) ?_ hready
          · have hrange := numberInRange hstays hready.lexed hnumber hvalue
            omega
          dsimp only
          cases IntegerType.i32.cast (-value) with
          | none => exact Safe.fail s
          | some value => exact (advanceVoid_safe hne).bind fun _ _ => .pure trivial
      | false =>
          simp only [Bool.false_eq_true, if_false, pure_bind]
          cases IntegerType.i32.cast value with
          | none => exact Safe.fail s
          | some value => exact (advanceVoid_safe hne).bind fun _ _ => .pure trivial

theorem expectEdition_safe : Safe input 4 n expectEdition anything := by
  refine .get fun s => .ite (fun _ => ?_) fun _ => ?_
  · refine (expectIdentifier_safe s).bind fun text _ => ?_
    cases Edition.fromProtoName text with
    | some edition => exact .pure trivial
    | none => exact .fail
  · refine (parseSignedInt32_safe hreads s).bind fun number _ => ?_
    cases Edition.fromInt number with
    | some edition => exact .pure trivial
    | none => exact .fail

/-- The loop over the fields, with one of them read by `field`. -/
theorem fields_safe {α : Type} {field : α → Bytes → Read α} {value : α}
    (hfield : ∀ n, n ≤ rounds → ∀ value name, Safe input 0 n (field value name) anything)
    {more : Nat} (hmore : more ≤ rounds) (hn : n ≤ more) :
    Safe input 0 n (fields field more value) anything := by
  induction more generalizing n value with
  | zero => exact .zero hn
  | succ more ih =>
      refine consumeEither_bind hreads (.pure trivial) ?_
      refine .get fun s => .ite (fun _ => Safe.pure trivial s) fun _ => ?_
      refine (expectIdentifier_safe s).bind fun name _ => ?_
      refine (expectSymbol_safe hreads).bind fun _ _ => ?_
      refine (hfield _ (by omega) value name).bind fun value _ => ?_
      exact consumeEither_then hreads (ih (by omega) (by omega))

theorem extensionDeclarationField_safe (hn : n ≤ rounds) (declaration : ExtensionDeclaration)
    (name : Bytes) :
    Safe input 0 n (extensionDeclarationField rounds declaration name) anything := by
  unfold extensionDeclarationField
  have hstring {f : Bytes → ExtensionDeclaration} :
      Safe input 0 n (expectString rounds >>= fun text => pure (f text)) anything :=
    (expectString_safe hn).bind fun _ _ => .pure trivial
  have hbool {f : Bool → ExtensionDeclaration} :
      Safe input 0 n (expectBool >>= fun value => pure (f value)) anything :=
    expectBool_safe.bind fun _ _ => .pure trivial
  refine .ite ((parseSignedInt32_safe hreads).bind fun _ _ => .pure trivial) ?_
  refine .ite hstring (.ite hstring (.ite hbool (.ite hbool ?_)))
  exact (skipValue_safe hn).bind fun _ _ => .pure trivial

theorem parseExtensionDeclaration_safe :
    Safe input 0 rounds (parseExtensionDeclaration rounds) anything :=
  consumeEither_then hreads
    (fields_safe hreads (fun _ hn => extensionDeclarationField_safe hreads hn) le_rfl le_rfl)

theorem fieldEditionDefaultField_safe (hn : n ≤ rounds) (editionDefault : FieldEditionDefault)
    (name : Bytes) :
    Safe input 0 n (fieldEditionDefaultField rounds editionDefault name) anything := by
  unfold fieldEditionDefaultField
  refine .ite ((expectEdition_safe hreads).bind fun _ _ => .pure trivial) ?_
  refine .ite ((expectString_safe hn).bind fun _ _ => .pure trivial) ?_
  exact (skipValue_safe hn).bind fun _ _ => .pure trivial

theorem parseFieldEditionDefault_safe :
    Safe input 0 rounds (parseFieldEditionDefault rounds) anything :=
  consumeEither_then hreads
    (fields_safe hreads (fun _ hn => fieldEditionDefaultField_safe hreads hn) le_rfl le_rfl)

theorem featureSupportField_safe (hn : n ≤ rounds) (support : FeatureSupport) (name : Bytes) :
    Safe input 0 n (featureSupportField rounds support name) anything := by
  unfold featureSupportField
  have hedition {f : Edition → FeatureSupport} :
      Safe input 0 n (expectEdition >>= fun edition => pure (f edition)) anything :=
    (expectEdition_safe hreads).bind fun _ _ => .pure trivial
  have hstring {f : Bytes → FeatureSupport} :
      Safe input 0 n (expectString rounds >>= fun text => pure (f text)) anything :=
    (expectString_safe hn).bind fun _ _ => .pure trivial
  refine .ite hedition (.ite hedition (.ite hstring (.ite hedition (.ite hstring ?_))))
  exact (skipValue_safe hn).bind fun _ _ => .pure trivial

theorem parseFeatureSupport_safe : Safe input 0 rounds (parseFeatureSupport rounds) anything := by
  refine consumeEither_then hreads ?_
  refine (fields_safe hreads (fun _ hn => featureSupportField_safe hreads hn) le_rfl le_rfl).bind
    fun support _ => ?_
  exact liftError_safe.bind fun _ _ => .pure trivial

omit hreads in
/-- A run over a text that reads as tokens up to its end has rounds enough. -/
theorem run_proper {α : Type} {read : Nat → Read α}
    (hread : Safe input 0 (4 * input.length + 2) (read (4 * input.length + 2)) anything)
    (stop : Stop) (hstop : run read input = .error stop) : Proper input stop := by
  unfold run init at hstop
  cases hnext : Lexer.next { input := input } with
  | error e =>
      rw [hnext] at hstop
      cases hstop
      trivial
  | ok pair =>
      obtain ⟨first, lexer⟩ := pair
      rw [hnext] at hstop
      have hready : Ready input (⟨lexer, first⟩ : AggregateOptionParser) := ready_init hnext
      have hwp := hread _ hready (by have hle := hready.left_le; omega)
      cases hrun : read (4 * input.length + 2) (⟨lexer, first⟩ : AggregateOptionParser) with
      | ok pair => simp [bind, Except.bind, hrun, pure, Except.pure] at hstop
      | error e =>
          have he : e = stop := by simpa [bind, Except.bind, hrun] using hstop
          exact he ▸ halt_of_wp hwp hrun

end AggregateOptionParser

/-! ## Tokens -/

namespace Parser

variable {input : Bytes} {n eaten rounds : Nat} {s : Parser}

theorem steps {onError : ParseError → Stop} : Steps (step onError) onError := by
  intro s
  cases hnext : s.lexer.next with
  | error e =>
      show (step onError) s = _
      simp [step, bind, StateT.bind, get, getThe, MonadStateOf.get, StateT.get, pure, Except.pure,
        Except.bind, hnext, throw, throwThe, MonadExceptOf.throw, StateT.lift]
  | ok pair =>
      refine ⟨{ s with lexer := pair.2, current := pair.1, previousEnd := s.current.end },
        ?_, rfl, rfl⟩
      simp only [step, bind, StateT.bind, get, getThe, MonadStateOf.get, StateT.get, pure,
        Except.pure, Except.bind, hnext]
      rfl

theorem advanceVoid_safe (hs : s.current.tag ≠ .eof) : SafeAt input 4 n advanceVoid anything s :=
  steps.safe hs

/-- `text` is that of a token of the input. -/
def IsToken (input : Bytes) (tag : TokenTag) (text : Bytes) : Prop :=
  ∃ t, Lexer.Lexed input t ∧ t.tag = tag ∧ t.text = text

theorem expectTag_safe {tag : TokenTag} (htag : tag ≠ .eof) :
    Safe input 4 n (expectTag tag) (IsToken input tag) := by
  refine .get fun s => .ite (fun heq hready => ?_) fun _ => Safe.fail s
  have heq : s.current.tag = tag := by simpa using heq
  have htoken : IsToken input tag s.current.text := ⟨_, hready.lexed, heq, rfl⟩
  exact (advanceVoid_safe (heq ▸ htag)).bind (fun _ _ => .pure htoken) hready

theorem expectIdentifier_safe : Safe input 4 n expectIdentifier anything :=
  (expectTag_safe (by decide)).imp fun _ _ => trivial

theorem expectNumber_safe : Safe input 4 n expectNumber (IsToken input .number) :=
  expectTag_safe (by decide)

theorem moreStrings_safe {joined : Bytes} (hn : n ≤ rounds) :
    Safe input 0 n (moreStrings rounds joined) anything := by
  induction rounds generalizing n joined with
  | zero => exact .zero hn
  | succ rounds ih =>
      refine .get fun s => .ite (fun htag => ?_) fun _ => Safe.pure trivial s
      have hstring : s.current.tag = .stringLiteral := by simpa using htag
      have hne : s.current.tag ≠ .eof := by simp [hstring]
      refine liftStop_bind (decodeStringLiteral_proper hstring) fun part _ => ?_
      exact (advanceVoid_safe hne).bind fun _ _ => ih (by omega)

theorem expectString_safe (hn : n ≤ rounds) : Safe input 4 n (expectString rounds) anything := by
  refine .get fun s => .ite (fun htag => ?_) fun _ => Safe.fail s
  have hstring : s.current.tag = .stringLiteral := by simpa using htag
  have hne : s.current.tag ≠ .eof := by simp [hstring]
  refine liftStop_bind (decodeStringLiteral_proper hstring) fun first _ => ?_
  exact (advanceVoid_safe hne).bind fun _ _ => moreStrings_safe (by omega)

theorem modifyFile_safe {change : FileDescriptor → FileDescriptor} :
    Safe input 0 n (modifyFile change) anything :=
  fun _ hs _ => ⟨⟨hs.lexer_eq, hs.lexed⟩, le_rfl, trivial⟩

theorem textFrom_safe {start : Nat} : Safe input 0 n (textFrom start) anything :=
  .get fun s => Safe.pure trivial s

theorem notAtEnd_safe : Safe input 0 n notAtEnd anything :=
  .get fun s => .ite (fun _ => Safe.fail s) fun _ => Safe.pure trivial s

variable (hsafe : AdvancesSafely input)
include hsafe

section Tests

variable {α : Type} {post : α → Prop}

/-- A test that only matched tokens pass. -/
theorem consumeIf_bind {test : Token → Bool}
    (htest : ∀ t, test t = true → t.isMatched = true) {f : Bool → Parse α}
    (htrue : Safe input (eaten - 4) (n - 4) (f true) post)
    (hfalse : Safe input eaten n (f false) post) :
    Safe input eaten n (consumeIf test >>= f) post := by
  unfold consumeIf
  rw [bind_assoc]
  refine .get fun s => ?_
  by_cases htoken : test s.current = true
  · simp only [htoken, if_true, bind_assoc, pure_bind]
    exact steps.matched_bind hsafe (htest _ htoken) htrue
  · simp only [htoken, Bool.false_eq_true, if_false, pure_bind]
    exact hfalse s

theorem consumeSymbol_bind {symbol : UInt8} (hc : symbol ∈ matchedSymbols) {f : Bool → Parse α}
    (htrue : Safe input (eaten - 4) (n - 4) (f true) post)
    (hfalse : Safe input eaten n (f false) post) :
    Safe input eaten n (consumeSymbol symbol >>= f) post :=
  consumeIf_bind hsafe (fun _ => isMatched_of_isSymbol hc) htrue hfalse

theorem matchIdent_bind {text : Bytes} (hw : text ∈ matchedWords) {f : Bool → Parse α}
    (htrue : Safe input (eaten - 4) (n - 4) (f true) post)
    (hfalse : Safe input eaten n (f false) post) :
    Safe input eaten n (matchIdent text >>= f) post :=
  consumeIf_bind hsafe (fun _ => isMatched_of_isIdent hw) htrue hfalse

theorem consumeSymbol_ite {symbol : UInt8} (hc : symbol ∈ matchedSymbols) {p q : Parse α}
    (hp : Safe input (eaten - 4) (n - 4) p post) (hq : Safe input eaten n q post) :
    Safe input eaten n (do if ← consumeSymbol symbol then p else q) post :=
  consumeSymbol_bind hsafe hc (by simpa using hp) (by simpa using hq)

theorem matchIdent_ite {text : Bytes} (hw : text ∈ matchedWords) {p q : Parse α}
    (hp : Safe input (eaten - 4) (n - 4) p post) (hq : Safe input eaten n q post) :
    Safe input eaten n (do if ← matchIdent text then p else q) post :=
  matchIdent_bind hsafe hw (by simpa using hp) (by simpa using hq)

/-- Whether a symbol has been consumed does not matter. -/
theorem consumeSymbol_then {symbol : UInt8} (hc : symbol ∈ matchedSymbols) {p : Parse α}
    (hp : Safe input eaten n p post) :
    Safe input eaten n (consumeSymbol symbol >>= fun _ => p) post :=
  consumeSymbol_bind hsafe hc (hp.mono (by omega) (by omega)) hp

theorem consumeSign_bind {f : Bool → Parse α}
    (hf : ∀ negative, Safe input eaten n (f negative) post) :
    Safe input eaten n (consumeSign >>= f) post := by
  unfold consumeSign
  rw [bind_assoc]
  refine consumeSymbol_bind hsafe (by decide) ?_ ?_
  · simpa using (hf true).mono (by omega) (by omega)
  · simpa using consumeSymbol_then hsafe (by decide) (hf false)

end Tests

theorem expectSymbol_safe {symbol : UInt8} (hc : symbol ∈ matchedSymbols) :
    Safe input 4 n (expectSymbol symbol) anything :=
  consumeSymbol_ite hsafe hc (.pure trivial) .fail

theorem expectIdent_safe {text : Bytes} (hw : text ∈ matchedWords) :
    Safe input 4 n (expectIdent text) anything :=
  matchIdent_ite hsafe hw (.pure trivial) .fail

/-! ## Numbers and names -/

/-- On an input that stays in range `value` is no bound of `i64`. -/
def InRange (input : Bytes) (value : Int) : Prop :=
  StaysInRange input → -(2 ^ 63 - 1) < value ∧ value < 2 ^ 63 - 1

omit hsafe in
theorem IsToken.inRange {text : Bytes} {value : Int} (h : IsToken input .number text)
    (hvalue : parseI64 text = some value) : InRange input value := by
  obtain ⟨t, ht, htag, rfl⟩ := h
  exact fun hstays => numberInRange hstays ht htag hvalue

theorem parseSignedInt64_safe : Safe input 4 n parseSignedInt64 (InRange input) := by
  refine consumeSign_bind hsafe fun negative => expectNumber_safe.bind fun text htext => ?_
  cases hvalue : parseI64 text with
  | none => exact .fail
  | some value =>
      have hrange := htext.inRange hvalue
      have hneg (h : StaysInRange input) : -2 ^ 63 ≤ -value ∧ -value ≤ 2 ^ 63 - 1 := by
        have hbounds := hrange h
        omega
      refine .ite ((checkedI64_safe hneg).imp ?_) (.pure hrange)
      rintro _ rfl h
      have hbounds := hrange h
      omega

theorem parseSignedInt32_safe : Safe input 4 n parseSignedInt32 anything := by
  refine (parseSignedInt64_safe hsafe).bind fun value _ => ?_
  cases IntegerType.i32.cast value with
  | none => exact .fail
  | some value => exact .pure trivial

omit hsafe in
theorem InRange.next {value : Int} (h : InRange input value) (hstays : StaysInRange input) :
    -2 ^ 63 ≤ value + 1 ∧ value + 1 ≤ 2 ^ 63 - 1 := by
  have hbounds := h hstays
  omega

theorem parseRangeEnd_safe : Safe input 4 n parseRangeEnd anything := by
  refine matchIdent_ite hsafe (by decide) (.pure trivial) ?_
  refine (parseSignedInt64_safe hsafe).bind fun inclusive hrange => ?_
  exact (checkedI64_safe hrange.next).bind fun _ _ => .pure trivial

theorem parseFieldNumber_safe : Safe input 4 n parseFieldNumber anything :=
  (parseSignedInt64_safe hsafe).bind fun _ _ => .ite .fail (.ite .fail (.pure trivial))

theorem moreIdentifiers_safe (hn : n ≤ rounds) :
    Safe input 0 n (moreIdentifiers rounds) anything := by
  induction rounds generalizing n with
  | zero => exact .zero hn
  | succ rounds ih =>
      refine consumeSymbol_ite hsafe (by decide) ?_ (.pure trivial)
      exact expectIdentifier_safe.bind fun _ _ => ih (by omega)

theorem parseFullIdent_safe (hn : n ≤ rounds) :
    Safe input 4 n (parseFullIdent rounds) anything := by
  refine .get fun s => (expectIdentifier_safe s).bind fun _ _ => ?_
  exact (moreIdentifiers_safe hsafe (by omega)).bind fun _ _ => textFrom_safe

theorem parseTypeNameSlice_safe (hn : n ≤ rounds) :
    Safe input 4 n (parseTypeNameSlice rounds) anything := by
  refine .get fun s => consumeSymbol_then hsafe (by decide) ?_ s
  refine expectIdentifier_safe.bind fun _ _ => ?_
  exact (moreIdentifiers_safe hsafe (by omega)).bind fun _ _ => textFrom_safe

/-! ## Ranges and reserved names -/

theorem parseRange_safe : Safe input 4 n parseRange anything := by
  refine (parseSignedInt64_safe hsafe).bind fun start hrange => ?_
  refine (checkedI64_safe hrange.next).bind fun next _ => ?_
  refine matchIdent_ite hsafe (by decide) ?_ (.pure trivial)
  exact (parseRangeEnd_safe hsafe).bind fun _ _ => .pure trivial

theorem reservedNames_safe {useIdentifiers : Bool} {names : List Bytes} (hn : n ≤ rounds - 1) :
    Safe input 4 n (reservedNames useIdentifiers rounds names) anything := by
  induction rounds generalizing n names with
  | zero => exact .zero hn
  | succ rounds ih =>
      unfold reservedNames
      have hrest (name : Bytes) : Safe input (4 - 4) (n - 4)
          (do
            if ← consumeSymbol 0x2c then
              let self ← get
              if self.current.tag == (if useIdentifiers then .identifier else .stringLiteral) then
                reservedNames useIdentifiers rounds (names ++ [name])
              else fail .unexpectedToken
            else return names ++ [name])
          anything := by
        refine consumeSymbol_ite hsafe (by decide) ?_ (.pure trivial)
        refine .get fun s => .ite (fun _ => ?_) fun _ => Safe.fail s
        exact (ih (by omega)).mono (by omega) le_rfl s
      cases useIdentifiers with
      | true => exact expectIdentifier_safe.bind fun name _ => hrest name
      | false => exact (expectString_safe (by omega)).bind fun name _ => hrest name

theorem reservedRanges_safe {ranges : List ReservedRange} (hn : n ≤ rounds) :
    Safe input 4 n (reservedRanges rounds ranges) anything := by
  induction rounds generalizing n ranges with
  | zero => exact .zero hn
  | succ rounds ih =>
      refine (parseRange_safe hsafe).bind fun range _ => ?_
      refine consumeSymbol_ite hsafe (by decide) ?_ (.pure trivial)
      exact (ih (by omega)).mono (by omega) le_rfl

theorem parseReserved_safe (hn : n ≤ rounds - 1) :
    Safe input 4 n (parseReserved rounds) anything := by
  refine .get fun s => .ite (fun _ => ?_) fun _ => ?_
  · refine .ite (fun _ => Safe.fail s) fun _ => .ite (fun _ => Safe.fail s) fun _ => ?_
    refine (reservedNames_safe hsafe hn s).bind fun names _ => ?_
    exact (expectSymbol_safe hsafe (by decide)).bind fun _ _ => .pure trivial
  · refine (reservedRanges_safe hsafe (by omega) s).bind fun ranges _ => ?_
    exact (expectSymbol_safe hsafe (by decide)).bind fun _ _ => .pure trivial

/-! ## Labels and kinds -/

omit hsafe in
theorem parseLabel_safe {oneofName : Option Bytes} :
    Safe input 0 n (parseLabel oneofName) anything := by
  refine .get fun s => ?_
  have hlabel {text : Bytes} {label : Cardinality × Bool} (htext : s.current.isIdent text = true) :
      SafeAt input 0 n (advanceVoid >>= fun _ => pure label) anything s := by
    have hne : s.current.tag ≠ .eof := by
      intro heof
      simp [Token.isIdent, heof] at htext
    exact (advanceVoid_safe hne).bind fun _ _ => .pure trivial
  refine .ite (fun h => .ite (fun _ => Safe.fail s) fun _ => hlabel h) fun _ => ?_
  refine .ite (fun h => .ite (fun _ => Safe.fail s) fun _ => ?_) fun _ => ?_
  · exact .ite (fun _ => Safe.fail s) fun _ => hlabel h
  · refine .ite (fun h => .ite (fun _ => Safe.fail s) fun _ => hlabel h) fun _ => ?_
    exact Safe.pure trivial s

theorem parseFieldKind_safe (hn : n ≤ rounds - 1) :
    Safe input 4 n (parseFieldKind rounds) anything := by
  induction rounds generalizing n with
  | zero => exact .zero hn
  | succ rounds ih =>
      refine matchIdent_ite hsafe (by decide) ?_ ?_
      · refine (expectSymbol_safe hsafe (by decide)).bind fun _ _ => ?_
        refine expectIdentifier_safe.bind fun keyName _ => ?_
        cases ScalarType.fromName keyName with
        | none => exact .fail
        | some key =>
            refine .ite .fail ((expectSymbol_safe hsafe (by decide)).bind fun _ _ => ?_)
            refine (ih (by omega)).bind fun valueKind _ => ?_
            refine (expectSymbol_safe hsafe (by decide)).bind fun _ _ => ?_
            exact .ite .fail (.pure trivial)
      · refine (parseTypeNameSlice_safe hsafe (by omega)).bind fun typeName _ => ?_
        cases ScalarType.fromName typeName with
        | some scalar => exact .pure trivial
        | none => exact .pure trivial

/-! ## Statements of the file -/

theorem importKind_safe : Safe input 0 n importKind anything := by
  refine matchIdent_ite hsafe (by decide) (.pure trivial) ?_
  refine matchIdent_ite hsafe (by decide) (.pure trivial) ?_
  exact matchIdent_ite hsafe (by decide) (.pure trivial) (.pure trivial)

theorem parseImport_safe (hn : n ≤ rounds) : Safe input 0 n (parseImport rounds) anything := by
  refine (importKind_safe hsafe).bind fun kind _ => ?_
  refine (expectString_safe (by omega)).bind fun path _ => ?_
  exact (expectSymbol_safe hsafe (by decide)).bind fun _ _ => modifyFile_safe

omit hsafe in
theorem declareSyntax_safe : Safe input 0 n declareSyntax anything := by
  refine .get fun s => .ite (fun _ => Safe.fail s) fun _ => ?_
  exact fun hs _ => ⟨⟨hs.lexer_eq, hs.lexed⟩, le_rfl, trivial⟩

theorem parseSyntax_safe (hn : n ≤ rounds) : Safe input 0 n (parseSyntax rounds) anything := by
  refine declareSyntax_safe.bind fun _ _ => ?_
  refine (expectSymbol_safe hsafe (by decide)).bind fun _ _ => ?_
  refine (expectString_safe (by omega)).bind fun fileSyntax _ => ?_
  have hend {n : Nat} : Safe input 0 n (expectSymbol 0x3b) anything :=
    (expectSymbol_safe hsafe (by decide)).mono (by omega) le_rfl
  have hset {n : Nat} {change : FileDescriptor → FileDescriptor} :
      Safe input 0 n (modifyFile change >>= fun _ => expectSymbol 0x3b) anything :=
    modifyFile_safe.bind fun _ _ => hend
  exact .ite hset (.ite hset .fail)

theorem parseEdition_safe (hn : n ≤ rounds) : Safe input 0 n (parseEdition rounds) anything := by
  refine declareSyntax_safe.bind fun _ _ => ?_
  refine (expectSymbol_safe hsafe (by decide)).bind fun _ _ => ?_
  refine (expectString_safe (by omega)).bind fun editionText _ => ?_
  cases Edition.fromYear editionText with
  | none => exact .fail
  | some edition =>
      refine modifyFile_safe.bind fun _ _ => ?_
      exact (expectSymbol_safe hsafe (by decide)).mono (by omega) le_rfl

omit hsafe

/-! ## Option values -/

/-- The text of an aggregate reads as tokens up to its end, and it stays in range if the input
does. -/
def Lexes (input : Bytes) : OptionValue → Prop
  | .aggregate text =>
      Lexer.Reads text 0 text.length ∧ (StaysInRange input → StaysInRange text)
  | _ => True

/-- A part of the input from the current token on stays in range. -/
theorem staysInRange_part {stop : Nat} (h : StaysInRange input) (hready : Ready input s)
    (hall : Lexer.Reads input s.current.start stop) :
    StaysInRange ((input.drop s.current.start).take (stop - s.current.start)) := by
  have hsource {t : Token} (ht : Lexer.Lexed ((input.drop s.current.start).take
      (stop - s.current.start)) t) (hne : t.tag ≠ .eof) :
      ∃ u, Lexer.Lexed input u ∧ u.tag = t.tag ∧ u.text = t.text := by
    obtain ⟨i, hreads, hnext⟩ := ht
    refine Lexer.lexed_of_part hreads hnext hne hall fun u lexer hu => ?_
    obtain ⟨rfl, -⟩ := Prod.mk.inj (Except.ok.inj (hu.symm.trans hready.reread))
    exact hready.lexed
  intro t ht
  by_cases hne : t.tag = .eof
  · simp [Token.inRange, hne]
  · obtain ⟨u, hu, htag, htext⟩ := hsource (Lexer.mem_tokens.mp ht) hne
    have hrange := h u (Lexer.mem_tokens.mpr hu)
    rwa [Token.inRange, htag, htext] at hrange

/-- The tokens from the one behind the current one up to the closing symbol. -/
theorem balancedEnd_safe {opening closing : UInt8} {depth : Nat} (hn : n ≤ rounds) :
    SafeAt input 4 n (balancedEnd opening closing rounds depth)
      (fun stop => s.current.tag ≠ .eof ∧ Lexer.Reads input s.current.end stop) s := by
  induction rounds generalizing n depth s with
  | zero => exact Safe.zero hn s
  | succ rounds ih =>
      refine .get (.ite (fun _ => Safe.fail s) fun htag => ?_)
      have hne : s.current.tag ≠ .eof := by simpa using htag
      -- one more token in front of those that the rest of the loop passes
      have hrest (depth : Nat) : SafeAt input 4 n
          (advanceVoid >>= fun _ => balancedEnd opening closing rounds depth)
          (fun stop => s.current.tag ≠ .eof ∧ Lexer.Reads input s.current.end stop) s := by
        refine steps.bind hne (fun _ _ _ => trivial) fun s₁ hnext => ?_
        intro hready hleft
        refine wp_mono (ih (n := n - 4) (by omega) hready hleft) ?_ (fun _ hstop => hstop)
        rintro stop s₂ ⟨hready₂, hle, hne₁, hreads⟩
        exact ⟨hready₂, by omega, hne, .token hnext hne₁ hreads⟩
      refine .ite (fun _ => hrest _) fun _ => .ite (fun _ => ?_) fun _ => hrest _
      by_cases hdepth : (depth - 1 == 0) = true
      · simp only [hdepth, if_true]
        exact (advanceVoid_safe hne).bind fun _ _ => .pure ⟨hne, .done _⟩
      · simp only [hdepth, Bool.false_eq_true, if_false]
        exact hrest _

theorem consumeBalancedAggregate_safe (hn : n ≤ rounds) :
    Safe input 4 n (consumeBalancedAggregate rounds) (fun text => Lexes input (.aggregate text)) := by
  refine .get fun s => fun hready hleft => ?_
  refine SafeAt.bind (balancedEnd_safe hn) (fun stop hstop => .pure ?_) hready hleft
  obtain ⟨hne, hreads⟩ := hstop
  have hall : Lexer.Reads input s.current.start stop := .token hready.reread hne hreads
  have hstart : s.current.start < input.length := by
    by_contra hge
    exact hne (hready.follows.eof_iff.mpr (Nat.le_of_not_lt hge))
  have hstop := hall.le_length hstart.le
  have hlexer : s.lexer.input = input := congrArg Lexer.input hready.lexer_eq
  have hpart := hall.part (k := s.current.start) le_rfl
  have hlength : (s.slice s.current.start stop).length = stop - s.current.start := by
    rw [slice, hlexer, List.length_take, List.length_drop]
    omega
  refine ⟨?_, fun hstays => ?_⟩
  · rw [hlength, slice, hlexer]
    simpa using hpart
  · rw [slice, hlexer]
    exact staysInRange_part hstays hready hall

theorem optionName_safe {terminator : UInt8} {parenDepth : Nat} (hn : n ≤ rounds) :
    Safe input 0 n (optionName terminator rounds parenDepth) anything := by
  induction rounds generalizing n parenDepth with
  | zero => exact .zero hn
  | succ rounds ih =>
      refine .get fun s => .ite (fun _ => Safe.fail s) fun htag => ?_
      have hne : s.current.tag ≠ .eof := by simpa using htag
      have hrest (parenDepth : Nat) : SafeAt input 0 n
          (advanceVoid >>= fun _ => optionName terminator rounds parenDepth) anything s :=
        (advanceVoid_safe hne).bind fun _ _ => ih (by omega)
      refine .ite (fun _ => Safe.pure trivial s) fun _ => .ite (fun _ => Safe.fail s) fun _ => ?_
      refine .ite (fun _ => hrest _) fun _ => .ite (fun _ => ?_) fun _ => hrest _
      exact .ite (fun _ => Safe.fail s) fun _ => hrest _

/-! ## The options of descriptors -/

theorem applyFeatureOption_safe {target : Option FeatureSet} {option : FieldOption} :
    Safe input 0 n (applyFeatureOption target option) anything := by
  refine .ite (.pure trivial) (.get fun s => .ite (fun _ => Safe.fail s) fun _ => ?_)
  exact (liftError_safe s).bind fun _ _ => .pure trivial

theorem addFileOption_safe {option : FieldOption} :
    Safe input 0 n (addFileOption option) anything := by
  refine .ite (.get fun s => .ite (fun _ => Safe.fail s) fun _ => ?_) modifyFile_safe
  exact (liftError_safe s).bind fun _ _ => modifyFile_safe

/-- Reading the text of an aggregate once more. -/
theorem aggregate_safe {α : Type} {read : Nat → AggregateOptionParser.Read α}
    (hread : ∀ text, Lexer.Reads text 0 text.length → ∀ rounds,
      Safe text 0 rounds (read rounds) anything)
    {value : OptionValue} (hvalue : Lexes input value) :
    Safe input 0 n
      (liftError (expectAggregate value) >>= fun text =>
        liftStop (AggregateOptionParser.run read text) : Parse α) anything := by
  refine liftError_safe.bind fun text htext => ?_
  cases value with
  | aggregate text' =>
      obtain rfl : text' = text := Except.ok.inj htext
      obtain ⟨hreads, hstays⟩ := hvalue
      refine liftStop_safe fun stop hstop => ?_
      have hproper := AggregateOptionParser.run_proper (hread _ hreads _) stop hstop
      cases stop with
      | overflow => exact fun h => hproper (hstays h)
      | _ => exact hproper
  | _ => cases htext

theorem parseFeatureSupportAggregate_safe {value : OptionValue} (hvalue : Lexes input value) :
    Safe input 0 n (parseFeatureSupportAggregate value) anything :=
  aggregate_safe (fun _ h _ => AggregateOptionParser.parseFeatureSupport_safe h) hvalue

theorem parseFieldEditionDefaultAggregate_safe {value : OptionValue} (hvalue : Lexes input value) :
    Safe input 0 n (parseFieldEditionDefaultAggregate value) anything :=
  aggregate_safe (fun _ h _ => AggregateOptionParser.parseFieldEditionDefault_safe h) hvalue

theorem parseExtensionDeclarationAggregate_safe {value : OptionValue} (hvalue : Lexes input value) :
    Safe input 0 n (parseExtensionDeclarationAggregate value) anything :=
  aggregate_safe (fun _ h _ => AggregateOptionParser.parseExtensionDeclaration_safe h) hvalue

theorem applyNamedFieldOption_safe {fileSyntax : Syntax} {field : FieldDescriptor}
    {option : FieldOption} (hoption : Lexes input option.value) :
    Safe input 0 n (applyNamedFieldOption fileSyntax field option) anything := by
  refine .ite (.ite .fail (.pure trivial)) (.ite (.ite .fail ?_) ?_)
  · cases option.value with
    | string text => exact .pure trivial
    | _ => exact .fail
  refine .ite (.ite .fail (.pure trivial)) (.ite ?_ (.ite ?_ (.pure trivial)))
  · exact (parseFieldEditionDefaultAggregate_safe hoption).bind fun _ _ => .pure trivial
  · exact (parseFeatureSupportAggregate_safe hoption).bind fun _ _ => .pure trivial

theorem applyFieldOption_safe (field : FieldDescriptor) (option : FieldOption)
    (hoption : Lexes input option.value) : Safe input 0 n (applyFieldOption field option) anything := by
  refine .get fun s => (applyNamedFieldOption_safe hoption s).bind fun field _ => ?_
  exact applyFeatureOption_safe.bind fun _ _ => .pure trivial

theorem applyOptions_safe {α : Type} {apply : α → FieldOption → Parse α}
    (happly : ∀ value option, Lexes input option.value → Safe input 0 n (apply value option) anything)
    {options : List FieldOption} (hoptions : ∀ option ∈ options, Lexes input option.value) (value : α) :
    Safe input 0 n (applyOptions apply options value) anything := by
  induction options generalizing value with
  | nil => exact .pure trivial
  | cons option rest ih =>
      refine (happly value option (hoptions option (by simp))).bind fun value _ => ?_
      exact ih (fun o ho => hoptions o (by simp [ho])) value

theorem applyMessageOption_safe {message : MessageDescriptor} {option : FieldOption} :
    Safe input 0 n (applyMessageOption message option) anything :=
  .ite .fail (applyFeatureOption_safe.bind fun _ _ => .pure trivial)

theorem applyEnumValueOption_safe (value : EnumValueDescriptor) (option : FieldOption)
    (hoption : Lexes input option.value) :
    Safe input 0 n (applyEnumValueOption value option) anything := by
  unfold applyEnumValueOption
  have hfeatures {target : Option FeatureSet} {f : Option FeatureSet → EnumValueDescriptor} :
      Safe input 0 n
        (applyFeatureOption target option >>= fun features => pure (f features)) anything :=
    applyFeatureOption_safe.bind fun _ _ => .pure trivial
  by_cases hsupport : (optionLeaf option.name == ascii "feature_support") = true
  · simp only [hsupport, if_true, pure_bind]
    exact (parseFeatureSupportAggregate_safe hoption).bind fun _ _ => hfeatures
  · simp only [hsupport, Bool.false_eq_true, if_false, pure_bind]
    exact hfeatures

theorem applyExtensionRangeOption_safe (range : ExtensionRange) (option : FieldOption)
    (hoption : Lexes input option.value) :
    Safe input 0 n (applyExtensionRangeOption range option) anything := by
  refine .ite ?_ (.ite ?_ (.ite ?_ (.pure trivial)))
  · exact (parseExtensionDeclarationAggregate_safe hoption).bind fun _ _ => .pure trivial
  · cases optionAsIdentifier option.value with
    | none => exact .fail
    | some value => exact .ite (.pure trivial) (.ite (.pure trivial) .fail)
  · refine .get fun s => .ite (fun _ => Safe.fail s) fun _ => ?_
    exact (liftError_safe s).bind fun _ _ => .pure trivial

/-! ## Option assignments -/

variable [FloatConversions]

theorem integerValue_safe {negative : Bool} {text : Bytes} (htext : IsToken input .number text) :
    Safe input 0 n (integerValue negative text) (Lexes input) := by
  unfold integerValue
  cases (if negative then none else parseU64 text) with
  | some value => exact .ite (.pure trivial) (.pure trivial)
  | none =>
      cases hvalue : parseI64 text with
      | some value =>
          have hneg (h : StaysInRange input) : -2 ^ 63 ≤ -value ∧ -value ≤ 2 ^ 63 - 1 := by
            have hbounds := htext.inRange hvalue h
            omega
          exact .ite ((checkedI64_safe hneg).bind fun _ _ => .pure trivial) (.pure trivial)
      | none => exact liftError_safe.bind fun _ _ => .pure trivial

include hsafe

theorem numberValue_safe : Safe input 4 n numberValue (Lexes input) := by
  refine consumeSign_bind hsafe fun negative => .get fun s => .ite (fun htag => ?_) fun _ => ?_
  · have hne : s.current.tag ≠ .eof := by simp_all
    refine (advanceVoid_safe hne).bind fun _ _ => ?_
    exact liftError_safe.bind fun _ _ => .pure trivial
  · refine (expectNumber_safe s).bind fun text htext => .ite ?_ (integerValue_safe htext)
    exact liftError_safe.bind fun _ _ => .pure trivial

theorem parseOptionValue_safe (hn : n ≤ rounds) :
    Safe input 4 n (parseOptionValue rounds) (Lexes input) := by
  refine .get fun s => .ite (fun _ => ?_) fun _ => .ite (fun htag => ?_) fun _ => ?_
  · exact (expectString_safe hn s).bind fun _ _ => .pure trivial
  · have hne : s.current.tag ≠ .eof := by simp_all
    refine (advanceVoid_safe hne).bind fun _ _ => ?_
    exact .ite (.pure trivial) (.ite (.pure trivial) (.pure trivial))
  · refine .ite (fun _ => numberValue_safe hsafe s) fun _ => .ite (fun _ => ?_) fun _ => ?_
    · exact (consumeBalancedAggregate_safe hn s).bind fun text htext => .pure htext
    · exact Safe.fail s

theorem parseOptionAssignment_safe {terminator : UInt8} (hn : n ≤ rounds) :
    Safe input 4 n (parseOptionAssignment terminator rounds) (fun option => Lexes input option.value) := by
  refine .get fun s => (optionName_safe hn s).bind fun _ _ => .get fun s => ?_
  refine (expectSymbol_safe hsafe (by decide) s).bind fun _ _ => ?_
  exact (parseOptionValue_safe hsafe (by omega)).bind fun value hvalue => .pure hvalue

theorem parseOptionAssignmentStatement_safe (hn : n ≤ rounds) :
    Safe input 4 n (parseOptionAssignmentStatement rounds) (fun option => Lexes input option.value) := by
  refine (parseOptionAssignment_safe hsafe hn).bind fun option hoption => ?_
  exact (expectSymbol_safe hsafe (by decide)).bind fun _ _ => .pure hoption

theorem parseOptionList_safe {options : List FieldOption} (hn : n ≤ rounds - 1)
    (hoptions : ∀ option ∈ options, Lexes input option.value) :
    Safe input 4 n (parseOptionList 0x5d rounds options)
      (fun options => ∀ option ∈ options, Lexes input option.value) := by
  induction rounds generalizing n options with
  | zero => exact .zero hn
  | succ rounds ih =>
      refine consumeSymbol_ite hsafe (by decide) (.pure hoptions) ?_
      refine .get fun s => .ite (fun _ => Safe.fail s) fun _ => ?_
      refine (parseOptionAssignment_safe hsafe (by omega) s).bind fun option hoption => ?_
      have hall : ∀ o ∈ options ++ [option], Lexes input o.value := by
        intro o ho
        rcases List.mem_append.mp ho with ho | ho
        · exact hoptions o ho
        · exact List.mem_singleton.mp ho ▸ hoption
      refine consumeSymbol_ite hsafe (by decide) ?_ ?_
      · exact (ih (by omega) hall).mono (by omega) le_rfl
      · exact (expectSymbol_safe hsafe (by decide)).bind fun _ _ => .pure hall

theorem bracketedFieldOptions_safe {field : FieldDescriptor} (hn : n ≤ rounds) :
    Safe input 0 n (bracketedFieldOptions rounds field) anything := by
  refine consumeSymbol_ite hsafe (by decide) ?_ (.pure trivial)
  refine (parseOptionList_safe hsafe (by omega) (by simp)).bind fun options hoptions => ?_
  exact applyOptions_safe applyFieldOption_safe hoptions _

/-! ## Fields -/

theorem extensionRanges_safe {optionedRanges : Nat} {ranges : List ExtensionRange}
    (hn : n ≤ rounds) :
    Safe input 4 n (extensionRanges rounds optionedRanges ranges) anything := by
  induction rounds generalizing n optionedRanges ranges with
  | zero => exact .zero hn
  | succ rounds ih =>
      have hrest {n optionedRanges : Nat} {ranges : List ExtensionRange} (hn : n ≤ rounds) :
          Safe input 0 n (extensionRanges rounds optionedRanges ranges) anything :=
        (ih hn).mono (by omega) le_rfl
      refine (parseRange_safe hsafe).bind fun bounds _ => ?_
      refine consumeSymbol_ite hsafe (by decide) ?_ ?_
      · refine (parseOptionList_safe hsafe (by omega) (by simp)).bind fun options hoptions => ?_
        refine (applyOptions_safe applyExtensionRangeOption_safe hoptions _).bind fun range _ => ?_
        refine consumeSymbol_ite hsafe (by decide) (hrest (by omega)) ?_
        exact .ite (.pure trivial) (.pure trivial)
      · exact consumeSymbol_ite hsafe (by decide) (hrest (by omega)) (.pure trivial)

theorem parseExtensionRanges_safe (hn : n ≤ rounds) :
    Safe input 4 n (parseExtensionRanges rounds) anything := by
  refine (extensionRanges_safe hsafe hn).bind fun ranges _ => ?_
  exact (expectSymbol_safe hsafe (by decide)).bind fun _ _ => .pure trivial

theorem parsePlainField_safe {oneofName : Option Bytes} {cardinality : Cardinality}
    {proto3Optional : Bool} (hn : n ≤ rounds - 1) :
    Safe input 4 n (parsePlainField rounds oneofName cardinality proto3Optional) anything := by
  refine (parseFieldKind_safe hsafe hn).bind fun kind _ => .get fun s => ?_
  refine .ite (fun _ => Safe.fail s) fun _ => .ite (fun _ => Safe.fail s) fun _ => ?_
  refine (expectIdentifier_safe s).bind fun name _ => ?_
  refine (expectSymbol_safe hsafe (by decide)).bind fun _ _ => ?_
  refine (parseFieldNumber_safe hsafe).bind fun number _ => ?_
  refine (bracketedFieldOptions_safe hsafe (by omega)).bind fun field _ => ?_
  exact (expectSymbol_safe hsafe (by decide)).bind fun _ _ => .pure trivial

/-- A field and the body of a group, which holds fields in turn. -/
theorem parseField_groupBody_safe (rounds : Nat) :
    (∀ n oneofName, n ≤ rounds - 2 → Safe input 4 n (parseField rounds oneofName) anything) ∧
    (∀ n cardinality oneofName, n ≤ rounds →
      Safe input 4 n (parseGroupField rounds cardinality oneofName) anything) ∧
    (∀ n nested, n ≤ rounds - 3 → Safe input 4 n (groupBody rounds nested) anything) := by
  induction rounds with
  | zero => exact ⟨fun _ _ hn => .zero hn, fun _ _ _ hn => .zero hn, fun _ _ hn => .zero hn⟩
  | succ rounds ih =>
      obtain ⟨hfield, hgroup, hbody⟩ := ih
      refine ⟨fun n oneofName hn => ?_, fun n cardinality oneofName hn => ?_,
        fun n nested hn => ?_⟩
      · refine parseLabel_safe.bind fun label _ => ?_
        refine matchIdent_ite hsafe (by decide) (.get fun s => ?_) ?_
        · refine .ite (fun _ => Safe.fail s) fun _ => .ite (fun _ => Safe.fail s) fun _ => ?_
          refine .ite (fun _ => Safe.fail s) fun _ => ?_
          exact (hgroup _ _ _ (by omega) s).bind fun ⟨field, nested⟩ _ => .pure trivial
        · exact (parsePlainField_safe hsafe (by omega)).bind fun _ _ => .pure trivial
      · refine .get fun s => (expectIdentifier_safe s).bind fun name _ => .ite .fail ?_
        refine (expectSymbol_safe hsafe (by decide)).bind fun _ _ => ?_
        refine (parseFieldNumber_safe hsafe).bind fun number _ => ?_
        refine (bracketedFieldOptions_safe hsafe (by omega)).bind fun field _ => ?_
        refine (expectSymbol_safe hsafe (by decide)).bind fun _ _ => ?_
        exact (hbody _ _ (by omega)).bind fun _ _ => .pure trivial
      · refine consumeSymbol_ite hsafe (by decide) (.pure trivial) ?_
        refine notAtEnd_safe.bind fun _ _ => ?_
        refine consumeSymbol_ite hsafe (by decide) ?_ ?_
        · exact (hbody _ _ (by omega)).mono (by omega) le_rfl
        · refine (hfield _ _ (by omega)).bind fun declared _ => ?_
          exact (hbody _ _ (by omega)).mono (by omega) le_rfl

theorem parseField_safe {oneofName : Option Bytes} (hn : n ≤ rounds - 2) :
    Safe input 4 n (parseField rounds oneofName) anything :=
  (parseField_groupBody_safe hsafe rounds).1 n oneofName hn

/-! ## Enums and services -/

theorem parseEnumValue_safe (hn : n ≤ rounds) :
    Safe input 4 n (parseEnumValue rounds) anything := by
  refine expectIdentifier_safe.bind fun name _ => ?_
  refine (expectSymbol_safe hsafe (by decide)).bind fun _ _ => ?_
  refine (parseSignedInt32_safe hsafe).bind fun number _ => ?_
  have hrest {n : Nat} {options : List FieldOption}
      (hoptions : ∀ option ∈ options, Lexes input option.value) :
      Safe input 0 n
        (expectSymbol 0x3b >>= fun _ => applyOptions applyEnumValueOption options
          { name := name, number := number, options := options }) anything :=
    (expectSymbol_safe hsafe (by decide)).bind fun _ _ =>
      applyOptions_safe applyEnumValueOption_safe hoptions _
  refine consumeSymbol_bind hsafe (by decide) ?_ ?_
  · simp only [if_true]
    exact (parseOptionList_safe hsafe (by omega) (by simp)).bind fun _ hoptions => hrest hoptions
  · simp only [Bool.false_eq_true, if_false, pure_bind]
    exact hrest (by simp)

theorem enumBody_safe {enumeration : EnumDescriptor} (hn : n ≤ rounds - 1) :
    Safe input 4 n (enumBody rounds enumeration) anything := by
  induction rounds generalizing n enumeration with
  | zero => exact .zero hn
  | succ rounds ih =>
      have hrest {n : Nat} {enumeration : EnumDescriptor} (hn : n ≤ rounds - 1) :
          Safe input 0 n (enumBody rounds enumeration) anything :=
        (ih hn).mono (by omega) le_rfl
      refine consumeSymbol_ite hsafe (by decide) (.pure trivial) ?_
      refine notAtEnd_safe.bind fun _ _ => matchIdent_ite hsafe (by decide) ?_ ?_
      · refine (parseOptionAssignmentStatement_safe hsafe (by omega)).bind fun option _ => ?_
        exact applyFeatureOption_safe.bind fun features _ => hrest (by omega)
      refine matchIdent_ite hsafe (by decide) ?_ (consumeSymbol_ite hsafe (by decide) ?_ ?_)
      · exact (parseReserved_safe hsafe (by omega)).bind fun ⟨ranges, names⟩ _ =>
          hrest (by omega)
      · exact hrest (by omega)
      · exact (parseEnumValue_safe hsafe (by omega)).bind fun value _ => hrest (by omega)

theorem parseEnumAfterKeyword_safe (hn : n ≤ rounds) :
    Safe input 4 n (parseEnumAfterKeyword rounds) anything := by
  refine .get fun s => (expectIdentifier_safe s).bind fun name _ => ?_
  refine (expectSymbol_safe hsafe (by decide)).bind fun _ _ => ?_
  refine (enumBody_safe hsafe (by omega)).bind fun enumeration _ => .get fun s => ?_
  exact (liftError_safe s).bind fun _ _ => .pure trivial

theorem rpcBody_safe {method : MethodDescriptor} (hn : n ≤ rounds) :
    Safe input 4 n (rpcBody rounds method) anything := by
  induction rounds generalizing n method with
  | zero => exact .zero hn
  | succ rounds ih =>
      have hrest {n : Nat} {method : MethodDescriptor} (hn : n ≤ rounds) :
          Safe input 0 n (rpcBody rounds method) anything :=
        (ih hn).mono (by omega) le_rfl
      refine consumeSymbol_ite hsafe (by decide) (.pure trivial) ?_
      refine notAtEnd_safe.bind fun _ _ => matchIdent_ite hsafe (by decide) ?_ ?_
      · refine (parseOptionAssignmentStatement_safe hsafe (by omega)).bind fun option _ => ?_
        exact applyFeatureOption_safe.bind fun features _ => hrest (by omega)
      · exact (expectSymbol_safe hsafe (by decide)).bind fun _ _ => hrest (by omega)

theorem parseRpcAfterKeyword_safe (hn : n ≤ rounds) :
    Safe input 4 n (parseRpcAfterKeyword rounds) anything := by
  have hsymbol {symbol : UInt8} {n : Nat} (hc : symbol ∈ matchedSymbols) :
      Safe input 4 n (expectSymbol symbol) anything := expectSymbol_safe hsafe hc
  refine expectIdentifier_safe.bind fun name _ => (hsymbol (by decide)).bind fun _ _ => ?_
  have htype {α : Type} {n : Nat} {f : Bool → Bytes → Parse α}
      (hf : ∀ streaming name, Safe input 0 n (f streaming name) anything) (hn : n ≤ rounds) :
      Safe input 0 n
        (do
          let streaming ← matchIdent (ascii "stream")
          let name ← parseTypeNameSlice rounds
          f streaming name) anything := by
    refine matchIdent_bind hsafe (by decide) ?_ ?_
    · exact (parseTypeNameSlice_safe hsafe (by omega)).bind fun name _ =>
        (hf _ name).mono (by omega) (by omega)
    · exact (parseTypeNameSlice_safe hsafe (by omega)).bind fun name _ =>
        (hf _ name).mono (by omega) (by omega)
  refine htype (fun clientStreaming inputType => ?_) (by omega)
  refine (hsymbol (by decide)).bind fun _ _ => ?_
  refine (expectIdent_safe hsafe (by decide)).bind fun _ _ => ?_
  refine (hsymbol (by decide)).bind fun _ _ => ?_
  refine htype (fun serverStreaming outputType => ?_) (by omega)
  refine (hsymbol (by decide)).bind fun _ _ => ?_
  refine consumeSymbol_ite hsafe (by decide) ?_ ((hsymbol (by decide)).bind fun _ _ => ?_)
  · refine (rpcBody_safe hsafe (by omega)).bind fun method _ => ?_
    exact consumeSymbol_then hsafe (by decide) (.pure trivial)
  · exact .pure trivial

theorem serviceBody_safe {service : ServiceDescriptor} (hn : n ≤ rounds) :
    Safe input 4 n (serviceBody rounds service) anything := by
  induction rounds generalizing n service with
  | zero => exact .zero hn
  | succ rounds ih =>
      have hrest {n : Nat} {service : ServiceDescriptor} (hn : n ≤ rounds) :
          Safe input 0 n (serviceBody rounds service) anything :=
        (ih hn).mono (by omega) le_rfl
      refine consumeSymbol_ite hsafe (by decide) (.pure trivial) ?_
      refine notAtEnd_safe.bind fun _ _ => matchIdent_ite hsafe (by decide) ?_ ?_
      · refine (parseOptionAssignmentStatement_safe hsafe (by omega)).bind fun option _ => ?_
        exact applyFeatureOption_safe.bind fun features _ => hrest (by omega)
      refine matchIdent_ite hsafe (by decide) ?_ ?_
      · exact (parseRpcAfterKeyword_safe hsafe (by omega)).bind fun method _ => hrest (by omega)
      · exact (expectSymbol_safe hsafe (by decide)).bind fun _ _ => hrest (by omega)

theorem parseServiceAfterKeyword_safe (hn : n ≤ rounds) :
    Safe input 4 n (parseServiceAfterKeyword rounds) anything := by
  refine expectIdentifier_safe.bind fun name _ => ?_
  refine (expectSymbol_safe hsafe (by decide)).bind fun _ _ => ?_
  exact (serviceBody_safe hsafe (by omega)).mono (by omega) le_rfl

/-! ## Messages -/

theorem oneofBody_safe {oneofName : Bytes} {message : MessageDescriptor} (hn : n ≤ rounds - 3) :
    Safe input 4 n (oneofBody oneofName rounds message) anything := by
  induction rounds generalizing n message with
  | zero => exact .zero hn
  | succ rounds ih =>
      have hrest {n : Nat} {message : MessageDescriptor} (hn : n ≤ rounds - 3) :
          Safe input 0 n (oneofBody oneofName rounds message) anything :=
        (ih hn).mono (by omega) le_rfl
      refine consumeSymbol_ite hsafe (by decide) (.pure trivial) ?_
      refine notAtEnd_safe.bind fun _ _ => matchIdent_ite hsafe (by decide) ?_ ?_
      · refine (parseOptionAssignmentStatement_safe hsafe (by omega)).bind fun option _ => ?_
        exact applyFeatureOption_safe.bind fun features _ => hrest (by omega)
      refine consumeSymbol_ite hsafe (by decide) (hrest (by omega)) ?_
      exact (parseField_safe hsafe (by omega)).bind fun declared _ => hrest (by omega)

theorem parseOneof_safe {message : MessageDescriptor} (hn : n ≤ rounds) :
    Safe input 4 n (parseOneof rounds message) anything := by
  refine expectIdentifier_safe.bind fun oneofName _ => ?_
  refine (expectSymbol_safe hsafe (by decide)).bind fun _ _ => ?_
  exact (oneofBody_safe hsafe (by omega)).mono (by omega) le_rfl

theorem extendBody_safe {extendee scope : Bytes} {extensions : List FieldDescriptor}
    {groups : List MessageDescriptor} (hn : n ≤ rounds - 3) :
    Safe input 4 n (extendBody extendee scope rounds extensions groups) anything := by
  induction rounds generalizing n extensions groups with
  | zero => exact .zero hn
  | succ rounds ih =>
      refine consumeSymbol_ite hsafe (by decide) (.pure trivial) ?_
      refine notAtEnd_safe.bind fun _ _ => consumeSymbol_ite hsafe (by decide) ?_ ?_
      · exact (ih (by omega)).mono (by omega) le_rfl
      · refine (parseField_safe hsafe (by omega)).bind fun ⟨field, nested⟩ _ => .ite .fail ?_
        exact (ih (by omega)).mono (by omega) le_rfl

theorem parseExtend_safe {scope : Bytes} (hn : n ≤ rounds) :
    Safe input 4 n (parseExtend rounds scope) anything := by
  refine (parseTypeNameSlice_safe hsafe hn).bind fun extendee _ => ?_
  refine (expectSymbol_safe hsafe (by decide)).bind fun _ _ => ?_
  exact (extendBody_safe hsafe (by omega)).mono (by omega) le_rfl

/-- A message and its body, which holds messages in turn. -/
theorem parseMessage_messageBody_safe (rounds : Nat) :
    (∀ n scope, n ≤ rounds → Safe input 4 n (parseMessageAfterKeyword rounds scope) anything) ∧
    (∀ n scope message, n ≤ rounds - 3 →
      Safe input 4 n (messageBody scope rounds message) anything) := by
  induction rounds with
  | zero => exact ⟨fun _ _ hn => .zero hn, fun _ _ _ hn => .zero hn⟩
  | succ rounds ih =>
      obtain ⟨hmessage, hbody⟩ := ih
      refine ⟨fun n scope hn => ?_, fun n scope message hn => ?_⟩
      · refine .get fun s => (expectIdentifier_safe s).bind fun name _ => ?_
        refine (expectSymbol_safe hsafe (by decide)).bind fun _ _ => ?_
        refine (hbody _ _ _ (by omega)).bind fun message _ => .get fun s => ?_
        exact (liftError_safe s).bind fun _ _ => .pure trivial
      · have hrest {n : Nat} {message : MessageDescriptor} (hn : n ≤ rounds - 3) :
            Safe input 0 n (messageBody scope rounds message) anything :=
          (hbody n scope message hn).mono (by omega) le_rfl
        refine consumeSymbol_ite hsafe (by decide) (.pure trivial) ?_
        refine notAtEnd_safe.bind fun _ _ => matchIdent_ite hsafe (by decide) ?_ ?_
        · refine (parseOptionAssignmentStatement_safe hsafe (by omega)).bind fun option _ => ?_
          exact applyMessageOption_safe.bind fun message _ => hrest (by omega)
        refine matchIdent_ite hsafe (by decide) ?_ ?_
        · exact (hmessage _ _ (by omega)).bind fun nested _ => hrest (by omega)
        refine matchIdent_ite hsafe (by decide) ?_ ?_
        · exact (parseEnumAfterKeyword_safe hsafe (by omega)).bind fun enumeration _ =>
            hrest (by omega)
        refine matchIdent_ite hsafe (by decide) ?_ ?_
        · exact (parseOneof_safe hsafe (by omega)).bind fun message _ => hrest (by omega)
        refine matchIdent_ite hsafe (by decide) ?_ ?_
        · exact (parseExtensionRanges_safe hsafe (by omega)).bind fun ranges _ =>
            hrest (by omega)
        refine matchIdent_ite hsafe (by decide) ?_ ?_
        · exact (parseReserved_safe hsafe (by omega)).bind fun ⟨ranges, names⟩ _ =>
            hrest (by omega)
        refine matchIdent_ite hsafe (by decide) ?_ ?_
        · exact (parseExtend_safe hsafe (by omega)).bind fun ⟨extensions, groups⟩ _ =>
            hrest (by omega)
        refine consumeSymbol_ite hsafe (by decide) (hrest (by omega)) ?_
        exact (parseField_safe hsafe (by omega)).bind fun declared _ => hrest (by omega)

/-! ## The file -/

theorem parseDeclaration_safe (hn : n ≤ rounds) :
    Safe input 4 n (parseDeclaration rounds) anything := by
  have hmessage {n : Nat} (scope : Bytes) (hn : n ≤ rounds) :=
    (parseMessage_messageBody_safe hsafe rounds).1 n scope hn
  have hend {n : Nat} : Safe input 0 n (expectSymbol 0x3b) anything :=
    (expectSymbol_safe hsafe (by decide)).mono (by omega) le_rfl
  refine matchIdent_ite hsafe (by decide) (parseSyntax_safe hsafe (by omega)) ?_
  refine matchIdent_ite hsafe (by decide) (parseEdition_safe hsafe (by omega)) ?_
  refine matchIdent_ite hsafe (by decide) ?_ ?_
  · refine (parseFullIdent_safe hsafe (by omega)).bind fun package _ => ?_
    exact modifyFile_safe.bind fun _ _ => hend
  refine matchIdent_ite hsafe (by decide) (parseImport_safe hsafe (by omega)) ?_
  refine matchIdent_ite hsafe (by decide) ?_ ?_
  · exact (parseOptionAssignmentStatement_safe hsafe (by omega)).bind fun _ _ =>
      addFileOption_safe
  refine matchIdent_ite hsafe (by decide) (.get fun s => ?_) ?_
  · exact (hmessage _ (by omega) s).bind fun _ _ => modifyFile_safe
  refine matchIdent_ite hsafe (by decide) ?_ ?_
  · exact (parseEnumAfterKeyword_safe hsafe (by omega)).bind fun _ _ => modifyFile_safe
  refine matchIdent_ite hsafe (by decide) ?_ ?_
  · exact (parseExtend_safe hsafe (by omega)).bind fun ⟨_, _⟩ _ => modifyFile_safe
  refine matchIdent_ite hsafe (by decide) ?_ (expectSymbol_safe hsafe (by decide))
  exact (parseServiceAfterKeyword_safe hsafe (by omega)).bind fun _ _ => modifyFile_safe

theorem parseFile_safe (hn : n ≤ rounds - 1) : Safe input 0 n (parseFile rounds) anything := by
  induction rounds generalizing n with
  | zero => exact .zero hn
  | succ rounds ih =>
      refine .get fun s => .ite (fun _ => Safe.pure trivial s) fun _ => ?_
      exact (parseDeclaration_safe hsafe (by omega) s).bind fun _ _ => ih (by omega)

omit hsafe in
/-- The loop over the declarations returns at the end of the input only. -/
theorem parseFile_at_end :
    wp (parseFile rounds) (fun _ s' => s'.current.tag = .eof) (fun _ => True) s := by
  induction rounds generalizing s with
  | zero => exact trivial
  | succ rounds ih =>
      unfold parseFile
      rw [wp_bind, wp_get, wp_ite]
      refine ⟨fun heof => by simpa using heof, fun _ => ?_⟩
      rw [wp_bind]
      exact wp_mono wp_true (fun _ _ _ => ih) (fun _ h => h)

omit hsafe in
/-- A run behind its first token: the declarations and the checks of the file. -/
theorem parse_of_next {first : Token} {lexer : Lexer}
    (hnext : Lexer.next { input := input } = .ok (first, lexer)) :
    parse input =
      match parseFile (4 * input.length + 2) { lexer := lexer, current := first } with
      | .error stop => .error stop
      | .ok (_, last) => (finish last.file).mapError .error := by
  unfold parse init
  rw [hnext]
  simp only [bind, Except.bind]
  cases parseFile (4 * input.length + 2) { lexer := lexer, current := first } with
  | error stop => rfl
  | ok pair => rfl

end Parser

namespace Parser

end Parser

end Pbz
