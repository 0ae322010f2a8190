import Mathlib.Data.Nat.Digits.Defs
import Mathlib.Tactic.Ring

set_option autoImplicit false

/-! # Digits in two bases

A list of digits, the most significant one first, as a number. Two lists of digits of one length
that write one number are the same list; so a program that changes from one base to another is
right as soon as it keeps the number and the count of the digits. Numbers of one length are ordered
as their digits are, lexicographically.
-/

namespace Pbz

/-- The number that digits write, the most significant one first. -/
def bigEndian (base : Nat) (digits : List Nat) : Nat := Nat.ofDigits base digits.reverse

@[simp] theorem bigEndian_nil (base : Nat) : bigEndian base [] = 0 := rfl

theorem bigEndian_append (base : Nat) (high low : List Nat) :
    bigEndian base (high ++ low)
      = bigEndian base high * base ^ low.length + bigEndian base low := by
  unfold bigEndian
  rw [List.reverse_append, Nat.ofDigits_append, List.length_reverse]
  ring

@[simp] theorem bigEndian_singleton (base digit : Nat) : bigEndian base [digit] = digit :=
  Nat.ofDigits_singleton

theorem bigEndian_cons (base digit : Nat) (digits : List Nat) :
    bigEndian base (digit :: digits)
      = digit * base ^ digits.length + bigEndian base digits := by
  rw [← List.singleton_append, bigEndian_append, bigEndian_singleton]

/-- One more digit behind the others. -/
theorem bigEndian_concat (base : Nat) (digits : List Nat) (digit : Nat) :
    bigEndian base (digits ++ [digit]) = bigEndian base digits * base + digit := by
  rw [bigEndian_append, bigEndian_singleton, List.length_singleton, pow_one]

/-- The digits are determined by their number and their count. -/
theorem bigEndian_injective {base : Nat} (hbase : 1 < base) {digits others : List Nat}
    (hlength : digits.length = others.length) (hdigits : ∀ d ∈ digits, d < base)
    (hothers : ∀ d ∈ others, d < base) (h : bigEndian base digits = bigEndian base others) :
    digits = others := by
  have hreverse : digits.reverse = others.reverse :=
    Nat.ofDigits_inj_of_len_eq hbase (by simpa using hlength)
      (fun d hd => hdigits d (List.mem_reverse.mp hd))
      (fun d hd => hothers d (List.mem_reverse.mp hd)) h
  exact List.reverse_inj.mp hreverse

/-! ## Order -/

/-- Behind fronts of one length, the rests decide only where the fronts are equal. -/
theorem append_lt_append_iff {α : Type} [LT α] {front other rest more : List α}
    (hlength : front.length = other.length) :
    front ++ rest < other ++ more ↔ front < other ∨ front = other ∧ rest < more := by
  induction front generalizing other with
  | nil =>
      have hother : other = [] := List.length_eq_zero_iff.mp hlength.symm
      subst hother
      simp
  | cons x front ih =>
      cases other with
      | nil => cases hlength
      | cons y other =>
          rw [List.cons_append, List.cons_append, List.cons_lt_cons_iff, List.cons_lt_cons_iff,
            ih (Nat.succ.inj hlength), List.cons.injEq]
          tauto

theorem bigEndian_lt_pow {base : Nat} (hbase : 1 < base) {digits : List Nat}
    (hdigits : ∀ d ∈ digits, d < base) : bigEndian base digits < base ^ digits.length := by
  rw [← List.length_reverse]
  exact Nat.ofDigits_lt_base_pow_length hbase (fun d hd => hdigits d (List.mem_reverse.mp hd))

/-- Numbers of one count of digits are ordered as their digits are, lexicographically. -/
theorem bigEndian_lt_iff {base : Nat} (hbase : 1 < base) {digits others : List Nat}
    (hlength : digits.length = others.length) (hdigits : ∀ d ∈ digits, d < base)
    (hothers : ∀ d ∈ others, d < base) :
    bigEndian base digits < bigEndian base others ↔ digits < others := by
  induction digits generalizing others with
  | nil =>
      have hother : others = [] := List.length_eq_zero_iff.mp hlength.symm
      subst hother
      simp
  | cons x digits ih =>
      cases others with
      | nil => cases hlength
      | cons y others =>
          have htail : digits.length = others.length := Nat.succ.inj hlength
          obtain ⟨hx, hdigits⟩ := List.forall_mem_cons.mp hdigits
          obtain ⟨hy, hothers⟩ := List.forall_mem_cons.mp hothers
          have hlow := bigEndian_lt_pow hbase hdigits
          have hlow' := bigEndian_lt_pow hbase hothers
          rw [bigEndian_cons, bigEndian_cons, List.cons_lt_cons_iff, ← ih htail hdigits hothers,
            ← htail]
          rw [← htail] at hlow'
          -- a larger first digit outweighs all the others
          have hweight {small large : Nat} (h : small < large) :
              small * base ^ digits.length + base ^ digits.length
                ≤ large * base ^ digits.length := by
            rw [← Nat.succ_mul]
            exact Nat.mul_le_mul_right _ h
          rcases Nat.lt_trichotomy x y with hlt | rfl | hgt
          · have := hweight hlt
            simp only [hlt, true_or, iff_true]
            omega
          · simp
          · have := hweight hgt
            simp only [Nat.lt_asymm hgt, Nat.ne_of_gt hgt, false_or, false_and, iff_false]
            omega

/-! ## From one base to another -/

/-- Digits of `width` bits regrouped into digits of `size` bits: the digits `taken` in so far write
what is written out, followed by `left` bits that make up the number `rest`. -/
structure Regrouped (width size : Nat) (taken written : List Nat) (rest left : Nat) : Prop where
  count : width * taken.length = size * written.length + left
  number : bigEndian (2 ^ width) taken = bigEndian (2 ^ size) written * 2 ^ left + rest
  fits : rest < 2 ^ left

namespace Regrouped

variable {width size : Nat} {taken written : List Nat} {rest left : Nat}

theorem start : Regrouped width size [] [] 0 0 := ⟨rfl, rfl, Nat.one_pos⟩

/-- One digit more is taken in. -/
theorem take (h : Regrouped width size taken written rest left) {digit : Nat}
    (hdigit : digit < 2 ^ width) :
    Regrouped width size (taken ++ [digit]) written (rest * 2 ^ width + digit) (left + width) where
  count := by
    have := h.count
    rw [List.length_append, List.length_singleton, Nat.mul_add]
    omega
  number := by
    rw [bigEndian_concat, h.number, Nat.pow_add]
    ring
  fits := by
    rw [Nat.pow_add]
    calc rest * 2 ^ width + digit < rest * 2 ^ width + 2 ^ width := by omega
      _ = (rest + 1) * 2 ^ width := by ring
      _ ≤ 2 ^ left * 2 ^ width := Nat.mul_le_mul_right _ h.fits

/-- The bits on top of the last `less` ones are written out. -/
theorem write {less : Nat} (h : Regrouped width size taken written rest (less + size)) :
    Regrouped width size taken (written ++ [rest / 2 ^ less]) (rest % 2 ^ less) less where
  count := by
    have := h.count
    rw [List.length_append, List.length_singleton, Nat.mul_add]
    omega
  number := by
    rw [bigEndian_concat, h.number, Nat.pow_add]
    have hrest := Nat.div_add_mod rest (2 ^ less)
    calc bigEndian (2 ^ size) written * (2 ^ less * 2 ^ size) + rest
        = bigEndian (2 ^ size) written * (2 ^ less * 2 ^ size)
            + (2 ^ less * (rest / 2 ^ less) + rest % 2 ^ less) := by rw [hrest]
      _ = _ := by ring
  fits := Nat.mod_lt _ (Nat.two_pow_pos less)

/-- Digits that come out even, followed by others. -/
theorem append (h : Regrouped width size taken written 0 0) {more others : List Nat}
    (hmore : Regrouped width size more others rest left) :
    Regrouped width size (taken ++ more) (written ++ others) rest left where
  count := by
    have hcount := h.count
    have hothers := hmore.count
    simp only [List.length_append, Nat.mul_add]
    omega
  number := by
    have hnumber : bigEndian (2 ^ width) taken = bigEndian (2 ^ size) written := by
      simpa using h.number
    have hpower : (2 ^ width) ^ more.length = (2 ^ size) ^ others.length * 2 ^ left := by
      rw [← Nat.pow_mul, ← Nat.pow_mul, ← Nat.pow_add, hmore.count]
    rw [bigEndian_append, bigEndian_append, hnumber, hpower, hmore.number]
    ring
  fits := hmore.fits

/-- Two ways to regroup the same digits that leave fewer bits than a digit has write the same. -/
theorem unique {others : List Nat} {more remaining : Nat} (hsize : 0 < size)
    (h : Regrouped width size taken written rest left) (hleft : left < size)
    (hothers : Regrouped width size taken others more remaining) (hremaining : remaining < size)
    (hwritten : ∀ d ∈ written, d < 2 ^ size) (hbounds : ∀ d ∈ others, d < 2 ^ size) :
    written = others := by
  have hcount : size * written.length + left = size * others.length + remaining :=
    h.count.symm.trans hothers.count
  have hlength : written.length = others.length := by
    have hdiv := congrArg (· / size) hcount
    simpa [Nat.mul_add_div hsize, Nat.div_eq_of_lt hleft, Nat.div_eq_of_lt hremaining] using hdiv
  have hbits : left = remaining := by
    rw [hlength] at hcount
    omega
  subst hbits
  have hnumber := h.number.symm.trans hothers.number
  have hhigh := congrArg (· / 2 ^ left) hnumber
  have htop : bigEndian (2 ^ size) written = bigEndian (2 ^ size) others := by
    simpa [Nat.mul_comm _ (2 ^ left), Nat.mul_add_div (Nat.two_pow_pos left),
      Nat.div_eq_of_lt h.fits, Nat.div_eq_of_lt hothers.fits] using hhigh
  exact bigEndian_injective (Nat.one_lt_two_pow (by omega)) hlength hwritten hbounds htop

end Regrouped

end Pbz
