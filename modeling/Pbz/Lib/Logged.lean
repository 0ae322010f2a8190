import Pbz.Lib.Program

set_option autoImplicit false

/-! # Programs with a log

The log of a program outlives a stop, unlike its state. A discipline says how the log may change
in a program that returns and how in one that stops; `Follows d p q` says that `p` does what the
program `q` does, which has no log, and keeps the discipline `d`.
-/

abbrev Logged (τ σ ε α : Type) := StateT σ (ExceptT ε (StateM τ)) α

namespace Logged

open Program

variable {τ σ ε α β : Type}

def run (p : Logged τ σ ε α) (s : σ) (log : τ) : Except ε (α × σ) × τ := p s log

/-- A program that leaves the log alone. -/
instance : MonadLift (StateT σ (Except ε)) (Logged τ σ ε) where
  monadLift p := fun s log => (p s, log)

/-- Change the log, and return what `act` reads from it. -/
def note (act : τ → α × τ) : Logged τ σ ε α := fun s log => (.ok ((act log).1, s), (act log).2)

/-- Where `p` stops, the log is changed before the stop is passed on. -/
def onStop (cleanup : ε → τ → τ) (p : Logged τ σ ε α) : Logged τ σ ε α := fun s log =>
  match run p s log with
  | (.ok result, log) => (.ok result, log)
  | (.error e, log) => (.error e, cleanup e log)

section Runs

variable {p : Logged τ σ ε β} {f : β → Logged τ σ ε α} {cleanup : ε → τ → τ} {s s' : σ}
  {log log' : τ}

theorem run_bind_of_ok {b : β} (h : run p s log = (.ok (b, s'), log')) :
    run (p >>= f) s log = run (f b) s' log' := by
  have hrun : p s log = (.ok (b, s'), log') := h
  simp only [run, bind, StateT.bind, ExceptT.bind, ExceptT.mk, hrun]
  rfl

theorem run_bind_of_error {e : ε} (h : run p s log = (.error e, log')) :
    run (p >>= f) s log = (.error e, log') := by
  have hrun : p s log = (.error e, log') := h
  simp only [run, bind, StateT.bind, ExceptT.bind, ExceptT.mk, hrun]
  rfl

theorem run_note_bind {act : τ → β × τ} :
    run (note act >>= f) s log = run (f (act log).1) s (act log).2 := rfl

theorem run_onStop_of_ok {result : β × σ} (h : run p s log = (.ok result, log')) :
    run (onStop cleanup p) s log = (.ok result, log') := by
  unfold run onStop
  rw [h]

theorem run_onStop_of_error {e : ε} (h : run p s log = (.error e, log')) :
    run (onStop cleanup p) s log = (.error e, cleanup e log') := by
  unfold run onStop
  rw [h]

end Runs

/-! ## Disciplines -/

structure Discipline (τ ε : Type) where
  returns : τ → τ → Prop
  stops : ε → τ → τ → Prop
  returns_refl : ∀ log, returns log log
  returns_trans : ∀ {log₁ log₂ log₃}, returns log₁ log₂ → returns log₂ log₃ → returns log₁ log₃
  stops_refl : ∀ e log, stops e log log
  stops_of_returns : ∀ {e log₁ log₂ log₃}, returns log₁ log₂ → stops e log₂ log₃ → stops e log₁ log₃

/-- What the log has become where a program has ended as `outcome` says. -/
structure Discipline.Ends (d : Discipline τ ε) (outcome : Except ε α) (log log' : τ) : Prop where
  returns : ∀ a, outcome = .ok a → d.returns log log'
  stops : ∀ e, outcome = .error e → d.stops e log log'

variable {d : Discipline τ ε}

theorem Discipline.ends_ok {a : α} {log log' : τ} (h : d.returns log log') :
    d.Ends (.ok a : Except ε α) log log' :=
  ⟨fun _ _ => h, fun _ he => nomatch he⟩

theorem Discipline.ends_error {e : ε} {log log' : τ} (h : d.stops e log log') :
    d.Ends (.error e : Except ε α) log log' := by
  refine ⟨fun _ ha => (nomatch ha), fun e' he => ?_⟩
  cases he
  exact h

theorem Discipline.ends_refl (outcome : Except ε α) (log : τ) : d.Ends outcome log log :=
  ⟨fun _ _ => d.returns_refl log, fun e _ => d.stops_refl e log⟩

/-- A part that returned, and the rest. -/
theorem Discipline.Ends.trans {outcome : Except ε α} {log₁ log₂ log₃ : τ}
    (h : d.returns log₁ log₂) (hrest : d.Ends outcome log₂ log₃) : d.Ends outcome log₁ log₃ :=
  ⟨fun a ha => d.returns_trans h (hrest.returns a ha),
    fun e he => d.stops_of_returns h (hrest.stops e he)⟩

/-- In the state `s` the program `p` does what `q` does and keeps the discipline. -/
def FollowsAt (d : Discipline τ ε) (p : Logged τ σ ε α) (q : StateT σ (Except ε) α) (s : σ) : Prop :=
  ∀ log, ∃ log', run p s log = (q s, log') ∧ d.Ends (q s) log log'

def Follows (d : Discipline τ ε) (p : Logged τ σ ε α) (q : StateT σ (Except ε) α) : Prop :=
  ∀ s, FollowsAt d p q s

section Rules

variable {p p' : Logged τ σ ε α} {q q' : StateT σ (Except ε) α} {first : Logged τ σ ε β}
  {first' : StateT σ (Except ε) β} {f : β → Logged τ σ ε α} {g : β → StateT σ (Except ε) α} {s : σ}

/-- Only the run in the state matters. -/
theorem FollowsAt.congr (h : FollowsAt d p q' s) (hq : q s = q' s) : FollowsAt d p q s := by
  unfold FollowsAt
  rw [hq]
  exact h

theorem FollowsAt.bind (hfirst : FollowsAt d first first' s)
    (hf : ∀ b s', first' s = .ok (b, s') → FollowsAt d (f b) (g b) s') :
    FollowsAt d (first >>= f) (first' >>= g) s := by
  intro log
  obtain ⟨log', hrun, hends⟩ := hfirst log
  cases hresult : first' s with
  | error e =>
      rw [hresult] at hrun hends
      rw [bind_of_error hresult]
      exact ⟨log', run_bind_of_error hrun, Discipline.ends_error (hends.stops e rfl)⟩
  | ok result =>
      obtain ⟨b, s'⟩ := result
      rw [hresult] at hrun hends
      rw [bind_of_ok hresult]
      obtain ⟨log'', hrest, hends'⟩ := hf b s' hresult log'
      exact ⟨log'', (run_bind_of_ok hrun).trans hrest, hends'.trans (hends.returns _ rfl)⟩

theorem Follows.bind (hfirst : Follows d first first') (hf : ∀ b, Follows d (f b) (g b)) :
    Follows d (first >>= f) (first' >>= g) :=
  fun s => (hfirst s).bind fun b s' _ => hf b s'

theorem Follows.plain : Follows d (liftM q) q :=
  fun _ log => ⟨log, rfl, Discipline.ends_refl _ log⟩

/-- Behind a part that leaves the log alone. -/
theorem Follows.behind (hf : ∀ b, Follows d (f b) (g b)) :
    Follows d (liftM first' >>= f) (first' >>= g) :=
  Follows.plain.bind hf

theorem Follows.pure {a : α} :
    Follows d (Pure.pure a : Logged τ σ ε α) (Pure.pure a : StateT σ (Except ε) α) :=
  fun _ log => ⟨log, rfl, Discipline.ends_refl _ log⟩

theorem Follows.throw {e : ε} :
    Follows d (MonadExcept.throw e : Logged τ σ ε α)
      (MonadExcept.throw e : StateT σ (Except ε) α) :=
  fun _ log => ⟨log, rfl, Discipline.ends_refl _ log⟩

theorem Follows.get {f : σ → Logged τ σ ε α} {g : σ → StateT σ (Except ε) α}
    (h : ∀ s, FollowsAt d (f s) (g s) s) :
    Follows d (MonadState.get >>= f) (MonadState.get >>= g) :=
  fun s log => h s log

/-- Only the program with the log looks at the state. -/
theorem FollowsAt.get {f : σ → Logged τ σ ε α} (h : FollowsAt d (f s) q s) :
    FollowsAt d (MonadState.get >>= f) q s :=
  fun log => h log

theorem FollowsAt.ite {c : Prop} [Decidable c] (hp : c → FollowsAt d p q s)
    (hp' : ¬ c → FollowsAt d p' q' s) :
    FollowsAt d (if c then p else p') (if c then q else q') s := by
  split
  · next hc => exact hp hc
  · next hc => exact hp' hc

theorem Follows.ite {c : Prop} [Decidable c] (hp : Follows d p q) (hp' : Follows d p' q') :
    Follows d (if c then p else p') (if c then q else q') :=
  fun s => .ite (fun _ => hp s) (fun _ => hp' s)

/-- A note in the log is invisible in the run. -/
theorem FollowsAt.note {act : τ → β × τ} (hact : ∀ log, d.returns log (act log).2)
    (hf : ∀ b, FollowsAt d (f b) q s) : FollowsAt d (Logged.note act >>= f) q s := by
  intro log
  obtain ⟨log', hrun, hends⟩ := hf (act log).1 (act log).2
  exact ⟨log', hrun, hends.trans (hact log)⟩

theorem Follows.note {act : τ → β × τ} (hact : ∀ log, d.returns log (act log).2)
    (hf : ∀ b, Follows d (f b) q) : Follows d (Logged.note act >>= f) q :=
  fun s => .note hact fun b => hf b s

end Rules

end Logged
