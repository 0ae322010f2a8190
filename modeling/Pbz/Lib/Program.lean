import Mathlib.Tactic

set_option autoImplicit false

/-! # Programs with a state that may stop

A program reads and writes a state and returns a value, or it stops. `wp p post halt s` says that
`p`, started in `s`, either returns a value and a state that `post` holds of, or stops for a
reason that `halt` holds of.
-/

namespace Program

variable {σ ε α β : Type}

def wp (p : StateT σ (Except ε) α) (post : α → σ → Prop) (halt : ε → Prop) (s : σ) : Prop :=
  match p s with
  | .ok (a, s') => post a s'
  | .error e => halt e

variable {post : α → σ → Prop} {halt : ε → Prop} {s : σ}

@[simp] theorem wp_pure {a : α} :
    wp (pure a : StateT σ (Except ε) α) post halt s ↔ post a s := Iff.rfl

@[simp] theorem wp_bind {p : StateT σ (Except ε) β} {f : β → StateT σ (Except ε) α} :
    wp (p >>= f) post halt s ↔ wp p (fun b s' => wp (f b) post halt s') halt s := by
  unfold wp
  show (match StateT.bind p f s with | .ok (a, s') => post a s' | .error e => halt e) ↔ _
  unfold StateT.bind
  cases h : p s with
  | error e => rfl
  | ok pair => rfl

@[simp] theorem wp_throw {e : ε} :
    wp (throw e : StateT σ (Except ε) α) post halt s ↔ halt e := Iff.rfl

@[simp] theorem wp_get {post : σ → σ → Prop} :
    wp (get : StateT σ (Except ε) σ) post halt s ↔ post s s := Iff.rfl

@[simp] theorem wp_set {s' : σ} {post : PUnit → σ → Prop} :
    wp (set s' : StateT σ (Except ε) PUnit) post halt s ↔ post ⟨⟩ s' := Iff.rfl

@[simp] theorem wp_modify {f : σ → σ} {post : PUnit → σ → Prop} :
    wp (modify f : StateT σ (Except ε) PUnit) post halt s ↔ post ⟨⟩ (f s) := Iff.rfl

@[simp] theorem wp_ite {c : Prop} [Decidable c] {p q : StateT σ (Except ε) α} :
    wp (if c then p else q) post halt s ↔ (c → wp p post halt s) ∧ (¬ c → wp q post halt s) := by
  by_cases h : c
  · simp [h]
  · simp [h]

theorem wp_mono {p : StateT σ (Except ε) α} {post' : α → σ → Prop} {halt' : ε → Prop}
    (h : wp p post halt s) (hpost : ∀ a s', post a s' → post' a s')
    (hhalt : ∀ e, halt e → halt' e) : wp p post' halt' s := by
  unfold wp at h ⊢
  cases hp : p s with
  | error e => exact hhalt e (by simpa [hp] using h)
  | ok pair => exact hpost _ _ (by simpa [hp] using h)

/-- Two specifications of one program. -/
theorem wp_and {p : StateT σ (Except ε) α} {post' : α → σ → Prop} (h : wp p post halt s)
    (h' : wp p post' halt s) : wp p (fun a s' => post a s' ∧ post' a s') halt s := by
  unfold wp at *
  cases hrun : p s with
  | error e =>
      rw [hrun] at h
      exact h
  | ok result =>
      rw [hrun] at h h'
      exact ⟨h, h'⟩

theorem wp_true {p : StateT σ (Except ε) α} : wp p (fun _ _ => True) (fun _ => True) s := by
  unfold wp
  cases p s with
  | error e => exact trivial
  | ok pair => exact trivial

/-- What a program that returned has established. -/
theorem post_of_wp {p : StateT σ (Except ε) α} {a : α} {s' : σ} (h : wp p post halt s)
    (hp : p s = .ok (a, s')) : post a s' := by
  simpa [wp, hp] using h

theorem halt_of_wp {p : StateT σ (Except ε) α} {e : ε} (h : wp p post halt s)
    (hp : p s = .error e) : halt e := by
  simpa [wp, hp] using h

/-! ## Single runs -/

theorem bind_of_ok {p : StateT σ (Except ε) β} {f : β → StateT σ (Except ε) α} {b : β} {s' : σ}
    (h : p s = .ok (b, s')) : (p >>= f) s = f b s' := by
  show StateT.bind p f s = _
  unfold StateT.bind
  rw [h]
  rfl

theorem bind_of_error {p : StateT σ (Except ε) β} {f : β → StateT σ (Except ε) α} {e : ε}
    (h : p s = .error e) : (p >>= f) s = .error e := by
  show StateT.bind p f s = _
  unfold StateT.bind
  rw [h]
  rfl

/-- Two sequences agree where their first parts do. -/
theorem bind_congr_run {p q : StateT σ (Except ε) β} {f : β → StateT σ (Except ε) α} {t : σ}
    (h : p s = q t) : (p >>= f) s = (q >>= f) t := by
  cases hq : q t with
  | error e => rw [bind_of_error (h.trans hq), bind_of_error hq]
  | ok run => rw [bind_of_ok (b := run.1) (h.trans hq), bind_of_ok hq]

/-- A sequence that returned has run both of its parts. -/
theorem ok_of_bind {p : StateT σ (Except ε) β} {f : β → StateT σ (Except ε) α} {a : α} {s'' : σ}
    (h : (p >>= f) s = .ok (a, s'')) : ∃ b s', p s = .ok (b, s') ∧ f b s' = .ok (a, s'') := by
  cases hp : p s with
  | error e =>
      rw [bind_of_error hp] at h
      exact nomatch h
  | ok run => exact ⟨run.1, run.2, rfl, by rw [← h, bind_of_ok hp]⟩

/-! ## Values -/

/-- Whatever `p` returns, from any state, satisfies `post`. -/
def Returns (p : StateT σ (Except ε) α) (post : α → Prop) : Prop :=
  ∀ a s s', p s = .ok (a, s') → post a

section Returns

variable {p q : StateT σ (Except ε) α} {post : α → Prop} {mid : β → Prop}
  {first : StateT σ (Except ε) β} {f : β → StateT σ (Except ε) α}

theorem Returns.any : Returns p (fun _ => True) := fun _ _ _ _ => trivial

theorem Returns.pure {a : α} (h : post a) : Returns (Pure.pure a : StateT σ (Except ε) α) post := by
  intro a' s s' hrun
  cases hrun
  exact h

theorem Returns.throw {e : ε} : Returns (MonadExcept.throw e : StateT σ (Except ε) α) post :=
  fun _ _ _ hrun => nomatch hrun

theorem Returns.bind (hfirst : Returns first mid) (hf : ∀ b, mid b → Returns (f b) post) :
    Returns (first >>= f) post := by
  intro a s s'' hrun
  obtain ⟨b, s', hfirst', hrest⟩ := ok_of_bind hrun
  exact hf b (hfirst b s s' hfirst') a s' s'' hrest

/-- The value of the first part does not matter. -/
theorem Returns.skip (hf : ∀ b, Returns (f b) post) : Returns (first >>= f) post :=
  Returns.any.bind fun b _ => hf b

theorem Returns.ite {c : Prop} [Decidable c] (hp : Returns p post) (hq : Returns q post) :
    Returns (if c then p else q) post := by
  split
  · exact hp
  · exact hq

theorem Returns.imp {post' : α → Prop} (h : Returns p post) (himp : ∀ a, post a → post' a) :
    Returns p post' :=
  fun a s s' hrun => himp a (h a s s' hrun)

end Returns

end Program
