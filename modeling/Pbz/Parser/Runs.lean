import Pbz.Parser.State

set_option autoImplicit false

/-! # Runs of the token readers

What arithmetic in `i64` does with a known value, and what the readers of single tokens do where
the current token is known and the lexer can read on behind it.
-/

namespace Pbz

open Program

/-! ## Arithmetic that is checked -/

/-- A value of `i64`. -/
def FitsI64 (value : Int) : Prop := IntegerType.i64.low ≤ value ∧ value ≤ IntegerType.i64.high

theorem fitsI64_iff {value : Int} : FitsI64 value ↔ -2 ^ 63 ≤ value ∧ value ≤ 2 ^ 63 - 1 := Iff.rfl

theorem checkedI64_of_fits {σ : Type} {value : Int} {s : σ} (h : FitsI64 value) :
    checkedI64 value s = .ok (value, s) := by
  have hcast : IntegerType.i64.cast value = some value := if_pos h
  unfold checkedI64
  rw [hcast]
  rfl

theorem checkedI64_of_not_fits {σ : Type} {value : Int} {s : σ} (h : ¬ FitsI64 value) :
    checkedI64 value s = .error .overflow := by
  have hcast : IntegerType.i64.cast value = none := if_neg h
  unfold checkedI64
  rw [hcast]
  rfl

theorem checkedI64_fits {σ : Type} {value : Int} :
    Returns (checkedI64 value : StateT σ (Except Stop) Int) FitsI64 := by
  intro result s s' h
  by_cases hfits : FitsI64 value
  · rw [checkedI64_of_fits hfits] at h
    cases h
    exact hfits
  · rw [checkedI64_of_not_fits hfits] at h
    exact nomatch h

theorem IntegerType.fits_of_cast {type : IntegerType} {value result : Int}
    (h : type.cast value = some result) : type.low ≤ result ∧ result ≤ type.high := by
  unfold IntegerType.cast at h
  split at h
  · next hfits => exact Option.some.inj h ▸ hfits
  · exact nomatch h

theorem fits_of_parseIntWithSign {type : IntegerType} {negative : Bool} {text : Bytes} {base : Nat}
    {value : Int} (h : parseIntWithSign type negative text base = some value) :
    type.low ≤ value ∧ value ≤ type.high := by
  unfold parseIntWithSign at h
  split at h
  · contradiction
  · dsimp only at h
    generalize (if base == 0 then detectBase text else (base, text)) = announced at h
    split at h
    · contradiction
    · obtain ⟨magnitude, -, hcast⟩ := Option.bind_eq_some_iff.mp h
      exact IntegerType.fits_of_cast hcast

theorem fits_of_parseInt {type : IntegerType} {text : Bytes} {base : Nat} {value : Int}
    (h : parseInt type text base = some value) : type.low ≤ value ∧ value ≤ type.high := by
  unfold parseInt at h
  split at h
  · exact fits_of_parseIntWithSign h
  · exact fits_of_parseIntWithSign h
  · exact fits_of_parseIntWithSign h

theorem fits_of_parseI64 {text : Bytes} {value : Int} (h : parseI64 text = some value) :
    FitsI64 value := by
  unfold parseI64 at h
  split at h
  · exact fits_of_parseInt h
  · exact fits_of_parseInt h

/-! ## Tokens -/

namespace Parser

variable {s s' : Parser}

/-- The current token passes the test, and `s'` is the state behind it. -/
def Takes (test : Token → Bool) (s s' : Parser) : Prop :=
  test s.current = true ∧ advanceVoid s = .ok ((), s')

theorem Takes.isSymbol {symbol : UInt8} (h : Takes (·.isSymbol symbol) s s') :
    s.current.isSymbol symbol = true := h.1

theorem Takes.tag {tag : TokenTag} (h : Takes (·.tag == tag) s s') : s.current.tag = tag :=
  beq_iff_eq.mp h.1

theorem Takes.step {test : Token → Bool} {onError : ParseError → Stop} (h : Takes test s s') :
    Parser.step onError s = .ok ((), s') := by
  have hget : (get : Parse Parser) s = .ok (s, s) := rfl
  have hstep : Parser.step .error s = .ok ((), s') := h.2
  unfold Parser.step at hstep ⊢
  rw [bind_of_ok hget] at hstep ⊢
  cases hnext : s.lexer.next with
  | error e =>
      rw [hnext] at hstep
      exact nomatch hstep
  | ok read =>
      rw [hnext] at hstep
      exact hstep

theorem Takes.consumeIf {test : Token → Bool} (h : Takes test s s') :
    consumeIf test s = .ok (true, s') := by
  have hrun : Parser.consumeIf test s = (if test s.current then do
      Parser.step (fun _ => .unreachable)
      return true
    else return false : Parse Bool) s := rfl
  rw [hrun, if_pos h.1, bind_of_ok h.step]
  rfl

theorem consumeIf_of_false {test : Token → Bool} (h : test s.current = false) :
    consumeIf test s = .ok (false, s) := by
  have hrun : consumeIf test s = (if test s.current then do
      step (fun _ => .unreachable)
      return true
    else return false : Parse Bool) s := rfl
  rw [hrun, if_neg (by rw [h]; exact Bool.false_ne_true)]
  rfl

theorem Takes.consumeSymbol {symbol : UInt8} (h : Takes (·.isSymbol symbol) s s') :
    consumeSymbol symbol s = .ok (true, s') := h.consumeIf

theorem consumeSymbol_of_ne {symbol : UInt8} (h : s.current.isSymbol symbol = false) :
    consumeSymbol symbol s = .ok (false, s) := consumeIf_of_false h

theorem Takes.expectSymbol {symbol : UInt8} (h : Takes (·.isSymbol symbol) s s') :
    expectSymbol symbol s = .ok ((), s') := by
  unfold Parser.expectSymbol
  rw [bind_of_ok h.consumeSymbol]
  rfl

theorem Takes.expectTag {tag : TokenTag} (h : Takes (·.tag == tag) s s') :
    expectTag tag s = .ok (s.current.text, s') := by
  have hrun : Parser.expectTag tag s = (if s.current.tag == tag then do
      advanceVoid
      return s.current.text
    else fail .unexpectedToken : Parse Bytes) s := rfl
  rw [hrun, if_pos h.1, bind_of_ok h.2]
  rfl

/-- A token with another tag is no symbol. -/
theorem isSymbol_of_tag_ne {token : Token} {symbol : UInt8} (h : token.tag ≠ .symbol) :
    token.isSymbol symbol = false := by
  unfold Token.isSymbol
  rw [beq_eq_false_iff_ne.mpr h, Bool.false_and]

theorem tag_of_isSymbol {token : Token} {symbol : UInt8} (h : token.isSymbol symbol = true) :
    token.tag = .symbol ∧ token.symbol = symbol := by
  obtain ⟨htag, hsymbol⟩ := Bool.and_eq_true_iff.mp h
  exact ⟨beq_iff_eq.mp htag, beq_iff_eq.mp hsymbol⟩

theorem isSymbol_of_ne {token : Token} {symbol other : UInt8} (h : token.isSymbol symbol = true)
    (hne : symbol ≠ other) : token.isSymbol other = false := by
  unfold Token.isSymbol
  rw [(tag_of_isSymbol h).2, beq_eq_false_iff_ne.mpr hne, Bool.and_false]

end Parser

end Pbz
