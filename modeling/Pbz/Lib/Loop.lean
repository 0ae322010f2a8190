import Mathlib.Tactic

set_option autoImplicit false

/-! # Loops that consume a list

A decoder loop reads its input from the front, keeps a state, and ends by itself, by an error
or because the input is used up. `Loop.run` is such a loop: `body` looks at the state and the
remaining input and says how the pass ended. The state is returned also when a pass fails, so
that what a failed run leaves behind can be talked about.

A body is `Consuming` when every pass that continues has used at least one element; then
`run_eq` is the loop's unfolding equation and `run_induction` its induction principle.
-/

namespace Loop

variable {α σ ε : Type}

/-- How one pass of a loop ended: the loop is over, it goes on, or it failed. -/
inductive Step (α σ ε : Type) where
  | done (s : σ) (rest : List α)
  | next (s : σ) (rest : List α)
  | fail (s : σ) (e : ε)

/-- The state after a pass. -/
def Step.state : Step α σ ε → σ
  | .done s _ => s
  | .next s _ => s
  | .fail s _ => s

/-- A pass with another view of its state. -/
def Step.map {τ : Type} (f : σ → τ) : Step α σ ε → Step α τ ε
  | .done s rest => .done (f s) rest
  | .next s rest => .next (f s) rest
  | .fail s e => .fail (f s) e

/-- At most `n` passes of `body`. -/
def iterate (body : σ → List α → Step α σ ε) : Nat → σ → List α → σ × Except ε (List α)
  | 0, s, rest => (s, .ok rest)
  | n + 1, s, rest =>
      match body s rest with
      | .done s' rest' => (s', .ok rest')
      | .fail s' e => (s', .error e)
      | .next s' rest' => iterate body n s' rest'

/-- The loop: one pass for each element of the input, and a last one to see its end. -/
def run (body : σ → List α → Step α σ ε) (s : σ) (input : List α) : σ × Except ε (List α) :=
  iterate body (input.length + 1) s input

/-- Every pass that continues uses at least one element. -/
def Consuming (body : σ → List α → Step α σ ε) : Prop :=
  ∀ s xs s' xs', body s xs = .next s' xs' → xs'.length < xs.length

/-- The outcome of a pass does not depend on what follows the input it looked at. -/
def Extends (body : σ → List α → Step α σ ε) : Prop :=
  ∀ s xs s' xs' ys, body s xs = .next s' xs' → body s (xs ++ ys) = .next s' (xs' ++ ys)

/-! ## Unfolding -/

theorem iterate_succ (body : σ → List α → Step α σ ε) (n : Nat) (s : σ) (xs : List α) :
    iterate body (n + 1) s xs = match body s xs with
      | .done s' rest => (s', .ok rest)
      | .fail s' e => (s', .error e)
      | .next s' rest => iterate body n s' rest := rfl

theorem run_eq_iterate (body : σ → List α → Step α σ ε) (s : σ) (xs : List α) :
    run body s xs = iterate body (xs.length + 1) s xs := rfl

theorem iterate_stable {body : σ → List α → Step α σ ε} (hc : Consuming body) :
    ∀ (n m : Nat) (s : σ) (xs : List α), xs.length < n → xs.length < m →
      iterate body n s xs = iterate body m s xs := by
  intro n
  induction n with
  | zero => intro m s xs h; omega
  | succ n ih =>
      intro m s xs hn hm
      cases m with
      | zero => omega
      | succ m =>
          rw [iterate_succ, iterate_succ]
          cases hb : body s xs with
          | done s' r => rfl
          | fail s' e => rfl
          | next s' r =>
              have hlt := hc _ _ _ _ hb
              exact ih m s' r (by omega) (by omega)

/-- The unfolding equation of a consuming loop. -/
theorem run_eq {body : σ → List α → Step α σ ε} (hc : Consuming body) (s : σ) (xs : List α) :
    run body s xs = match body s xs with
      | .done s' rest => (s', .ok rest)
      | .fail s' e => (s', .error e)
      | .next s' rest => run body s' rest := by
  rw [run_eq_iterate, iterate_succ]
  cases hb : body s xs with
  | done s' r => rfl
  | fail s' e => rfl
  | next s' r =>
      have hlt := hc _ _ _ _ hb
      exact iterate_stable hc _ _ _ _ (by omega) (by omega)

theorem run_of_done {body : σ → List α → Step α σ ε} {s s' : σ} {xs r : List α}
    (h : body s xs = .done s' r) : run body s xs = (s', .ok r) := by
  rw [run_eq_iterate, iterate_succ, h]

theorem run_of_fail {body : σ → List α → Step α σ ε} {s s' : σ} {xs : List α} {e : ε}
    (h : body s xs = .fail s' e) : run body s xs = (s', .error e) := by
  rw [run_eq_iterate, iterate_succ, h]

theorem run_of_next {body : σ → List α → Step α σ ε} (hc : Consuming body) {s s' : σ}
    {xs r : List α} (h : body s xs = .next s' r) : run body s xs = run body s' r := by
  rw [run_eq hc, h]

/-! ## Rules -/

/-- A property of the state that every pass keeps holds after the loop, however it ends. -/
theorem run_invariant {body : σ → List α → Step α σ ε} (I : σ → Prop)
    (h : ∀ s xs, I s → I (body s xs).state) (s : σ) (xs : List α) (hs : I s) :
    I (run body s xs).1 := by
  have key : ∀ (n : Nat) (s : σ) (xs : List α), I s → I (iterate body n s xs).1 := by
    intro n
    induction n with
    | zero => intro s xs hs; exact hs
    | succ n ih =>
        intro s xs hs
        have hstep := h s xs hs
        rw [iterate_succ]
        cases hb : body s xs with
        | done s' r => rw [hb] at hstep; exact hstep
        | fail s' e => rw [hb] at hstep; exact hstep
        | next s' r => rw [hb] at hstep; exact ih s' r hstep
  exact key _ s xs hs

/-- Induction along the passes of a consuming loop. -/
theorem run_induction {body : σ → List α → Step α σ ε} (hc : Consuming body)
    (P : σ → List α → σ × Except ε (List α) → Prop)
    (done : ∀ s xs s' r, body s xs = .done s' r → P s xs (s', .ok r))
    (fail : ∀ s xs s' e, body s xs = .fail s' e → P s xs (s', .error e))
    (next : ∀ s xs s' r, body s xs = .next s' r → P s' r (run body s' r) →
      P s xs (run body s' r))
    (s : σ) (xs : List α) : P s xs (run body s xs) := by
  induction hn : xs.length using Nat.strong_induction_on generalizing s xs with
  | _ n ih =>
      cases hb : body s xs with
      | done s' r => rw [run_of_done hb]; exact done s xs s' r hb
      | fail s' e => rw [run_of_fail hb]; exact fail s xs s' e hb
      | next s' r =>
          have hlt := hc _ _ _ _ hb
          rw [run_of_next hc hb]
          exact next s xs s' r hb (ih r.length (by omega) s' r rfl)

/-- Two loops whose passes agree through a view of the state agree as a whole. -/
theorem run_map {τ : Type} {body : σ → List α → Step α σ ε} {body' : τ → List α → Step α τ ε}
    (f : σ → τ) (h : ∀ s xs, body' (f s) xs = (body s xs).map f) (s : σ) (xs : List α) :
    run body' (f s) xs = (f (run body s xs).1, (run body s xs).2) := by
  have key : ∀ (n : Nat) (s : σ) (xs : List α),
      iterate body' n (f s) xs = (f (iterate body n s xs).1, (iterate body n s xs).2) := by
    intro n
    induction n with
    | zero => intro s xs; rfl
    | succ n ih =>
        intro s xs
        rw [iterate_succ, iterate_succ, h]
        cases hb : body s xs with
        | done s' r => rfl
        | fail s' e => rfl
        | next s' r => exact ih s' r
  exact key _ s xs

/-- Two loops whose passes agree on inputs up to a length agree on these inputs. -/
theorem run_congr {body body' : σ → List α → Step α σ ε} {n : Nat} (hc : Consuming body)
    (h : ∀ s xs, xs.length ≤ n → body s xs = body' s xs) (s : σ) (xs : List α)
    (hn : xs.length ≤ n) : run body s xs = run body' s xs := by
  have key : ∀ (rounds : Nat) (s : σ) (xs : List α), xs.length ≤ n →
      iterate body rounds s xs = iterate body' rounds s xs := by
    intro rounds
    induction rounds with
    | zero => intro s xs _; rfl
    | succ rounds ih =>
        intro s xs hn
        rw [iterate_succ, iterate_succ, ← h s xs hn]
        cases hb : body s xs with
        | done s' r => rfl
        | fail s' e => rfl
        | next s' r =>
            have hlt := hc _ _ _ _ hb
            exact ih s' r (by omega)
  exact key _ s xs hn

/-- What a successful loop leaves is no longer than what it was given. -/
theorem run_length_le {body : σ → List α → Step α σ ε} (hc : Consuming body)
    (hd : ∀ s xs s' r, body s xs = .done s' r → r.length ≤ xs.length)
    (s : σ) (xs : List α) {s' : σ} {r : List α} (h : run body s xs = (s', .ok r)) :
    r.length ≤ xs.length := by
  have key := run_induction hc
    (fun _ xs res => ∀ s' r, res = (s', .ok r) → r.length ≤ xs.length)
    (by
      intro s xs t r hb s' r' he
      simp only [Prod.mk.injEq, Except.ok.injEq] at he
      rw [← he.2]
      exact hd s xs t r hb)
    (by intro s xs t e _ s' r' he; simp at he)
    (by
      intro s xs t r hb ih s' r' he
      have h1 := ih s' r' he
      have h2 := hc _ _ _ _ hb
      omega)
    s xs
  exact key s' r h

/-- Input after the part a loop has read is left alone. -/
theorem run_extend {body : σ → List α → Step α σ ε} (hc : Consuming body) (he : Extends body)
    (hd : ∀ s xs s' r ys, body s xs = .done s' r → body s (xs ++ ys) = .done s' (r ++ ys))
    (s : σ) (xs : List α) {s' : σ} {r : List α} (h : run body s xs = (s', .ok r))
    (ys : List α) : run body s (xs ++ ys) = (s', .ok (r ++ ys)) := by
  have key := run_induction hc
    (fun s xs res => ∀ s' r, res = (s', .ok r) → run body s (xs ++ ys) = (s', .ok (r ++ ys)))
    (by
      intro s xs t r hb s' r' hr
      simp only [Prod.mk.injEq, Except.ok.injEq] at hr
      rw [← hr.1, ← hr.2]
      exact run_of_done (hd s xs t r ys hb))
    (by intro s xs t e _ s' r' hr; simp at hr)
    (by
      intro s xs t r hb ih s' r' hr
      rw [run_of_next hc (he s xs t r ys hb)]
      exact ih s' r' hr)
    s xs
  exact key s' r h

/-- A loop that ends only at the end of its input can be run on the two parts of an input one
after the other. -/
theorem run_append {body : σ → List α → Step α σ ε} (hc : Consuming body) (he : Extends body)
    (hd : ∀ s xs s' r, body s xs = .done s' r → s' = s ∧ xs = [] ∧ r = [])
    (s : σ) (xs : List α) {s' : σ} {r : List α} (h : run body s xs = (s', .ok r))
    (ys : List α) : run body s (xs ++ ys) = run body s' ys := by
  have key := run_induction hc
    (fun s xs res => ∀ s' r, res = (s', .ok r) → run body s (xs ++ ys) = run body s' ys)
    (by
      intro s xs t r hb s' r' hr
      obtain ⟨rfl, rfl, rfl⟩ := hd s xs t r hb
      simp only [Prod.mk.injEq, Except.ok.injEq] at hr
      rw [← hr.1, List.nil_append])
    (by intro s xs t e _ s' r' hr; simp at hr)
    (by
      intro s xs t r hb ih s' r' hr
      rw [run_of_next hc (he s xs t r ys hb)]
      exact ih s' r' hr)
    s xs
  exact key s' r h


/-! ## States of a run -/

/-- The states and inputs in front of the passes of a run. -/
inductive Reaches (body : σ → List α → Step α σ ε) : σ → List α → σ → List α → Prop
  | here (s : σ) (xs : List α) : Reaches body s xs s xs
  | later {s s' t : σ} {xs xs' ys : List α} (h : body s xs = .next s' xs')
      (hr : Reaches body s' xs' t ys) : Reaches body s xs t ys

theorem reaches_of_next {body : σ → List α → Step α σ ε} {s s' : σ} {xs xs' : List α}
    (h : body s xs = .next s' xs') {P : σ → List α → Prop} :
    (∀ t ys, Reaches body s xs t ys → P t ys)
      ↔ P s xs ∧ ∀ t ys, Reaches body s' xs' t ys → P t ys := by
  constructor
  · exact fun hall => ⟨hall s xs (.here s xs), fun t ys hr => hall t ys (.later h hr)⟩
  · rintro ⟨hs, hrest⟩ t ys hr
    cases hr with
    | here => exact hs
    | later h' hr =>
        rw [h] at h'
        cases h'
        exact hrest t ys hr

theorem reaches_of_last {body : σ → List α → Step α σ ε} {s : σ} {xs : List α}
    (h : ∀ s' xs', body s xs ≠ .next s' xs') {P : σ → List α → Prop} :
    (∀ t ys, Reaches body s xs t ys → P t ys) ↔ P s xs := by
  constructor
  · exact fun hall => hall s xs (.here s xs)
  · intro hs t ys hr
    cases hr with
    | here => exact hs
    | later h' _ => exact absurd h' (h _ _)

/-- A pass with another view of its state and of its error. -/
def Step.view {τ ε' : Type} (f : σ → τ) (g : ε → ε') : Step α σ ε → Step α τ ε'
  | .done s rest => .done (f s) rest
  | .next s rest => .next (f s) rest
  | .fail s e => .fail (f s) (g e)

/-- Two loops whose passes agree through a view of the state and of the error agree as a whole. -/
theorem run_view {τ ε' : Type} {body : σ → List α → Step α σ ε}
    {body' : τ → List α → Step α τ ε'} {f : σ → τ} {g : ε → ε'}
    (h : ∀ s xs, body' (f s) xs = (body s xs).view f g) (s : σ) (xs : List α) :
    run body' (f s) xs = (f (run body s xs).1, (run body s xs).2.mapError g) := by
  have key : ∀ (n : Nat) (s : σ) (xs : List α), iterate body' n (f s) xs
      = (f (iterate body n s xs).1, (iterate body n s xs).2.mapError g) := by
    intro n
    induction n with
    | zero => intro s xs; rfl
    | succ n ih =>
        intro s xs
        rw [iterate_succ, iterate_succ, h]
        cases hb : body s xs with
        | done s' r => rfl
        | fail s' e => rfl
        | next s' r => exact ih s' r
  exact key _ s xs

/-! ## A loop that stops early -/

/-- The passes of two loops agree through a view of the state, as long as the state is good. Where
it becomes bad, the second loop is over. -/
inductive AgreeUntil {τ : Type} (f : σ → τ) (good : σ → Prop) (stopped : τ → Prop) :
    Step α σ ε → Step α τ ε → Prop
  | fail {s : σ} {e : ε} (h : good s) : AgreeUntil f good stopped (.fail s e) (.fail (f s) e)
  | done {s : σ} {rest : List α} (h : good s) :
      AgreeUntil f good stopped (.done s rest) (.done (f s) rest)
  | next {s : σ} {rest : List α} (h : good s) :
      AgreeUntil f good stopped (.next s rest) (.next (f s) rest)
  | stop {s : σ} {t : τ} {rest : List α} (h : ¬ good s) (ht : stopped t) :
      AgreeUntil f good stopped (.next s rest) (.done t rest)

/-- What is good at the end was good all along. -/
theorem good_of_run {body : σ → List α → Step α σ ε} {good : σ → Prop}
    (hback : ∀ s xs, good (body s xs).state → good s) {s : σ} {xs : List α}
    (h : good (run body s xs).1) : good s := by
  by_contra hbad
  exact run_invariant (fun s => ¬ good s) (fun s xs hs hgood => hs (hback s xs hgood)) s xs hbad h

/-- A loop that stops early ends as the other one does if that stays good, and has stopped if
not, whatever follows in the input. -/
theorem run_until {τ : Type} {body : σ → List α → Step α σ ε} {body' : τ → List α → Step α τ ε}
    {f : σ → τ} {good : σ → Prop} {stopped : τ → Prop} (hc : Consuming body)
    (hc' : Consuming body') (hback : ∀ s xs, good (body s xs).state → good s)
    (h : ∀ s xs, good s → AgreeUntil f good stopped (body s xs) (body' (f s) xs))
    (s : σ) (xs : List α) (hs : good s) :
    (good (run body s xs).1 →
        run body' (f s) xs = (f (run body s xs).1, (run body s xs).2)) ∧
      (¬ good (run body s xs).1 → ∃ t rest, stopped t ∧ run body' (f s) xs = (t, .ok rest)) := by
  refine run_induction hc
    (fun s xs res => good s →
      (good res.1 → run body' (f s) xs = (f res.1, res.2)) ∧
        (¬ good res.1 → ∃ t rest, stopped t ∧ run body' (f s) xs = (t, .ok rest)))
    ?done ?fail ?next s xs hs
  case done =>
    intro s xs s' rest hb hs
    have hagree := h s xs hs
    rw [hb] at hagree
    generalize hb' : body' (f s) xs = step at hagree
    cases hagree with
    | done hgood => exact ⟨fun _ => run_of_done hb', fun hbad => absurd hgood hbad⟩
  case fail =>
    intro s xs s' e hb hs
    have hagree := h s xs hs
    rw [hb] at hagree
    generalize hb' : body' (f s) xs = step at hagree
    cases hagree with
    | fail hgood => exact ⟨fun _ => run_of_fail hb', fun hbad => absurd hgood hbad⟩
  case next =>
    intro s xs s' rest hb ih hs
    have hagree := h s xs hs
    rw [hb] at hagree
    generalize hb' : body' (f s) xs = step at hagree
    cases hagree with
    | next hgood =>
        rw [run_of_next hc' hb']
        exact ih hgood
    | stop hbad hstopped =>
        constructor
        · intro hgood
          exact absurd (good_of_run hback hgood) hbad
        · intro _
          exact ⟨_, _, hstopped, run_of_done hb'⟩

end Loop
