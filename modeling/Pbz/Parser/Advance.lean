import Pbz.Parser.Scanning
import Pbz.Parser.ValidateFile

set_option autoImplicit false

/-! # The parser advances

`consumeSymbol` and `matchIdent` take the lexer not to fail behind a token they match. This holds
of an input whose last token in front of a malformed string or comment is none that they are
asked for. What a production does to the tokens is then a matter of the rules below: it keeps the
parser `Ready`, it never goes back, and it stops for no other reason than an error value or an
arithmetic overflow.
-/

namespace Pbz

open Program

namespace Lexer

/-- The token in front of the first place where the lexer fails, if it does so behind a token;
`last` is the token read so far. -/
def beforeError : Nat → Option Token → Lexer → Option Token
  | 0, _, _ => none
  | rounds + 1, last, lexer =>
      match lexer.next with
      | .error _ => last
      | .ok (t, lexer) => if t.tag == .eof then none else beforeError rounds (some t) lexer

/-- The tokens in front of the first place where the lexer fails. -/
def tokens : Nat → Lexer → List Token
  | 0, _ => []
  | rounds + 1, lexer =>
      match lexer.next with
      | .error _ => []
      | .ok (t, lexer) => t :: if t.tag == .eof then [] else tokens rounds lexer

/-- `t` is one of the tokens that the input reads as. -/
def Lexed (input : Bytes) (t : Token) : Prop :=
  ∃ i, Reads input 0 i ∧ next ⟨input, i⟩ = .ok (t, ⟨input, t.end⟩)

/-- The input reads as tokens up to its end. -/
def ReadsAll (input : Bytes) : Prop := ∃ t, Lexed input t ∧ t.tag = .eof

variable {input : Bytes} {t : Token} {i j : Nat}

theorem next_lexer {lexer : Lexer} (h : next ⟨input, i⟩ = .ok (t, lexer)) :
    lexer = ⟨input, t.end⟩ := by
  obtain ⟨k, -, -, hlexer⟩ := next_eq_ok.mp h
  exact hlexer

theorem Reads.append_token {lexer : Lexer} (h : Reads input i j)
    (hnext : next ⟨input, j⟩ = .ok (t, lexer)) (ht : t.tag ≠ .eof) : Reads input i t.end := by
  induction h with
  | done i => exact .token hnext ht (.done _)
  | token hfirst hne rest ih => exact .token hfirst hne (ih hnext)

theorem Lexed.next {u : Token} {lexer : Lexer} (h : Lexed input t) (ht : t.tag ≠ .eof)
    (hnext : Lexer.next ⟨input, t.end⟩ = .ok (u, lexer)) : Lexed input u := by
  obtain ⟨i, hreads, ht'⟩ := h
  refine ⟨t.end, hreads.append_token ht' ht, ?_⟩
  rw [hnext, next_lexer hnext]

/-- The search for the failing place follows the tokens. -/
theorem beforeError_reads (h : Reads input i j) (hj : j ≤ input.length) :
    ∀ last rounds, input.length - i < rounds →
      ∃ last' rounds', input.length - j < rounds' ∧
        beforeError rounds last ⟨input, i⟩ = beforeError rounds' last' ⟨input, j⟩ := by
  induction h with
  | done i => exact fun last rounds hr => ⟨last, rounds, hr, rfl⟩
  | @token i stop t lexer h ht rest ih =>
      intro last rounds hr
      have hf := follows_of_next h
      have hge := hf.start_ge
      have hlt := hf.lt_end ht
      have hle := rest.le
      cases rounds with
      | zero => omega
      | succ rounds =>
          obtain ⟨last', rounds', hr', heq⟩ := ih hj (some t) rounds (by omega)
          refine ⟨last', rounds', hr', ?_⟩
          rw [← heq, beforeError, h, next_lexer h]
          simp [ht]

theorem next_at_end (h : input.length ≤ i) :
    next ⟨input, i⟩ = .ok (⟨.eof, i, i, [], 0⟩, ⟨input, i⟩) := by
  have hdrop : input.drop i = [] := List.drop_eq_nil_iff.mpr h
  refine next_eq_ok.mpr ⟨0, ?_, ?_, rfl⟩
  · rw [hdrop]
    rfl
  · rw [Nat.add_zero, hdrop]
    rfl

theorem Reads.le_length (h : Reads input i j) (hi : i ≤ input.length) : j ≤ input.length := by
  induction h with
  | done i => exact hi
  | token h ht rest ih => exact ih ((follows_of_next h).end_le hi)

theorem beforeError_of_lexed {e : ParseError} (h : Lexed input t)
    (herror : next ⟨input, t.end⟩ = .error e) :
    beforeError (input.length + 1) none ⟨input, 0⟩ = some t := by
  obtain ⟨i, hreads, hnext⟩ := h
  have hf := follows_of_next hnext
  have hi : i ≤ input.length := hreads.le_length (Nat.zero_le _)
  have hlt : t.end < input.length := by
    by_contra hge
    rw [next_at_end (by omega)] at herror
    cases herror
  have ht : t.tag ≠ .eof := fun heof => by
    have hend := hf.end_eof heof
    have hlen := hf.eof_iff.mp heof
    omega
  obtain ⟨last, rounds, hr, heq⟩ :=
    beforeError_reads hreads hi none (input.length + 1) (Nat.lt_succ_of_le (Nat.sub_le _ _))
  have hstart := hf.lt_end ht
  have hge := hf.start_ge
  obtain ⟨rounds, rfl⟩ : ∃ n, rounds = n + 2 := ⟨rounds - 2, by omega⟩
  rw [heq, beforeError, hnext]
  simp [ht, beforeError, herror]

theorem mem_tokens_of_reads {lexer : Lexer} (h : Reads input i j)
    (hnext : next ⟨input, j⟩ = .ok (t, lexer)) :
    ∀ rounds, input.length - i < rounds → t ∈ tokens rounds ⟨input, i⟩ := by
  induction h with
  | done i =>
      intro rounds hr
      obtain ⟨rounds, rfl⟩ : ∃ k, rounds = k + 1 := ⟨rounds - 1, by omega⟩
      simp [tokens, hnext]
  | @token i stop u lexer h hu rest ih =>
      intro rounds hr
      obtain ⟨rounds, rfl⟩ : ∃ k, rounds = k + 1 := ⟨rounds - 1, by omega⟩
      have hf := follows_of_next h
      have hge := hf.start_ge
      have hlt := hf.lt_end hu
      have hlen : u.start < input.length := by
        by_contra hle
        exact hu (hf.eof_iff.mpr (by omega))
      have hrest := ih hnext rounds (by omega)
      simp [tokens, h, hu, next_lexer h, hrest]

theorem lexed_of_mem_tokens {rounds : Nat}
    (hfirst : ∀ u lexer, next ⟨input, i⟩ = .ok (u, lexer) → Lexed input u)
    (ht : t ∈ tokens rounds ⟨input, i⟩) : Lexed input t := by
  induction rounds generalizing i with
  | zero => simp [tokens] at ht
  | succ rounds ih =>
      cases hnext : next ⟨input, i⟩ with
      | error e => simp [tokens, hnext] at ht
      | ok pair =>
          obtain ⟨u, lexer⟩ := pair
          have hu := hfirst u lexer hnext
          simp only [tokens, hnext, List.mem_cons] at ht
          rcases ht with rfl | ht
          · exact hu
          by_cases heof : u.tag = .eof
          · simp [heof] at ht
          · rw [next_lexer hnext] at ht
            simp only [heof, beq_iff_eq, if_false] at ht
            exact ih (fun v lexer hv => hu.next heof hv) ht

theorem mem_tokens : t ∈ tokens (input.length + 1) ⟨input, 0⟩ ↔ Lexed input t := by
  constructor
  · refine lexed_of_mem_tokens fun u lexer hu => ⟨0, .done 0, ?_⟩
    rw [hu, next_lexer hu]
  · rintro ⟨i, hreads, hnext⟩
    exact mem_tokens_of_reads hreads hnext _ (by omega)

/-- The tokens of a part of the input between two token bounds are tokens of the input. -/
theorem lexed_of_part {k a stop : Nat} {u : Token} {lexer : Lexer}
    (hreads : Reads ((input.drop k).take (stop - k)) a i)
    (hu : next ⟨(input.drop k).take (stop - k), i⟩ = .ok (u, lexer)) (hne : u.tag ≠ .eof)
    (hall : Reads input (k + a) stop)
    (hfirst : ∀ t lexer, next ⟨input, k + a⟩ = .ok (t, lexer) → Lexed input t) :
    ∃ t, Lexed input t ∧ t.tag = u.tag ∧ t.text = u.text := by
  generalize hpart : (input.drop k).take (stop - k) = part at hreads hu
  -- the token that the part reads at `a` is the one that the input reads at `k + a`
  have hsame {a : Nat} {v : Token} {lexer : Lexer} (hv : next ⟨part, a⟩ = .ok (v, lexer))
      (hne : v.tag ≠ .eof) (hall : Reads input (k + a) stop) :
      ∃ t, next ⟨input, k + a⟩ = .ok (t, ⟨input, t.end⟩) ∧ t.tag ≠ .eof ∧ v = moved t (t.start - k) ∧
        k + v.end = t.end ∧ Reads input t.end stop := by
    generalize hstart : k + a = start at hall
    cases hall with
    | done =>
        have hlength : part.length ≤ a := by
          rw [← hpart, List.length_take]
          omega
        rw [next_at_end hlength] at hv
        cases hv
        exact absurd rfl hne
    | @token _ _ t lexer' h ht rest =>
        subst hstart
        have hnext := next_part h ht rest.le
        have hf := follows_of_next h
        have hge := hf.start_ge
        have hlt := hf.lt_end ht
        rw [hpart, hv] at hnext
        obtain ⟨rfl, -⟩ := Prod.mk.inj (Except.ok.inj hnext)
        rw [next_lexer h] at h
        refine ⟨t, h, ht, rfl, ?_, rest⟩
        show k + (t.start - k + (t.end - t.start)) = t.end
        omega
  induction hreads with
  | done a =>
      obtain ⟨t, hnext, -, rfl, -, -⟩ := hsame hu hne hall
      exact ⟨t, hfirst t _ hnext, rfl, rfl⟩
  | @token a i v lexer hv hv' rest ih =>
      obtain ⟨t, hnext, ht, -, hend, hrest⟩ := hsame hv hv' hall
      rw [← hend] at hrest
      refine ih hrest (fun t' lexer' ht' => ?_) hu
      rw [hend] at ht'
      exact (hfirst t _ hnext).next ht ht'

end Lexer

/-! ## The state between two tokens -/

/-- The signs and words that `consumeSymbol` and `matchIdent` are asked for. -/
def matchedSymbols : Bytes := ascii "-+.=;],[<>{}()"

def matchedWords : List Bytes :=
  [ascii "syntax", ascii "edition", ascii "package", ascii "import", ascii "public", ascii "weak",
    ascii "option", ascii "message", ascii "enum", ascii "oneof", ascii "extensions",
    ascii "reserved", ascii "extend", ascii "service", ascii "rpc", ascii "stream",
    ascii "returns", ascii "group", ascii "map", ascii "to", ascii "max"]

def Token.isMatched (token : Token) : Bool :=
  (token.tag == .symbol && matchedSymbols.contains token.symbol)
    || (token.tag == .identifier && matchedWords.contains token.text)

/-- The input has no malformed string or comment behind a token that is matched. -/
def Parser.AdvancesSafely (input : Bytes) : Prop :=
  ∀ t ∈ Lexer.beforeError (input.length + 1) none ⟨input, 0⟩, t.isMatched = false

/-- A number between the bounds of `i64`, or a string whose octal escapes are bytes. -/
def Token.inRange (token : Token) : Bool :=
  match token.tag with
  | .number =>
      (parseI64 token.text).all (fun value => -(2 ^ 63 - 1) < value && value < 2 ^ 63 - 1)
  | .stringLiteral => decodeStringLiteral token.text != .error .overflow
  | _ => true

/-- The numbers and the strings of the input stay in range. -/
def Parser.StaysInRange (input : Bytes) : Prop :=
  ∀ t ∈ Lexer.tokens (input.length + 1) ⟨input, 0⟩, t.inRange = true

/-- A state that holds the lexer and the token in front of it. -/
class Tokenized (σ : Type) where
  lexer : σ → Lexer
  current : σ → Token

instance : Tokenized Parser := ⟨(·.lexer), (·.current)⟩

instance : Tokenized AggregateOptionParser := ⟨(·.lexer), (·.current)⟩

namespace Tokenized

open Pbz.Parser (AdvancesSafely StaysInRange)

variable {σ : Type} [Tokenized σ] {input : Bytes} {s s' : σ}

/-- The state stands at a token of the input. -/
structure Ready (input : Bytes) (s : σ) : Prop where
  lexer_eq : lexer s = ⟨input, (current s).end⟩
  lexed : Lexer.Lexed input (current s)

/-- Four rounds for each byte from the current token on. -/
def left (s : σ) : Nat := 4 * ((lexer s).input.length - (current s).start)

/-- The ways to stop that are left: with an error value, or at an overflow that the input asks
for. -/
def Proper (input : Bytes) : Stop → Prop
  | .error _ => True
  | .overflow => ¬ StaysInRange input
  | .unreachable | .fuel => False

theorem Ready.reread (h : Ready input s) :
    Lexer.next ⟨input, (current s).start⟩ = .ok (current s, ⟨input, (current s).end⟩) := by
  obtain ⟨i, -, hnext⟩ := h.lexed
  exact Lexer.next_start hnext

theorem Ready.follows (h : Ready input s) : Lexer.Follows input (current s).start (current s) :=
  Lexer.follows_of_next h.reread

/-- Behind the current token the next one is read. -/
theorem Ready.next (h : Ready input s) (hs : (current s).tag ≠ .eof)
    (hnext : (lexer s).next = .ok (current s', lexer s')) :
    Ready input s' ∧ left s' + 4 ≤ left s := by
  rw [h.lexer_eq] at hnext
  have hlexer := Lexer.next_lexer hnext
  have hf := Lexer.follows_of_next hnext
  have hge := hf.start_ge
  have hlt := h.follows.lt_end hs
  have hlen : (current s).start < input.length := by
    by_contra hle
    exact hs (h.follows.eof_iff.mpr (by omega))
  refine ⟨⟨hlexer, h.lexed.next hs hnext⟩, ?_⟩
  unfold left
  rw [h.lexer_eq, hlexer]
  show 4 * (input.length - (current s').start) + 4 ≤ 4 * (input.length - (current s).start)
  omega

/-- At the first token of the input. -/
theorem ready_init (h : Lexer.next { input := input } = .ok (current s, lexer s)) :
    Ready input s := by
  have hlexer := Lexer.next_lexer h
  exact ⟨hlexer, 0, .done 0, by rw [h, hlexer]⟩

theorem Ready.left_le (h : Ready input s) : left s ≤ 4 * input.length := by
  unfold left
  rw [h.lexer_eq]
  show 4 * (input.length - (current s).start) ≤ 4 * input.length
  omega

/-! ## Safe programs -/

section Rules

variable {α β : Type}

/-- From `s`, with fewer than `n` rounds left, `p` passes `eaten` rounds at least and returns a
value with `post`, or it stops properly. -/
def SafeAt (input : Bytes) (eaten n : Nat) (p : StateT σ (Except Stop) α) (post : α → Prop)
    (s : σ) : Prop :=
  Ready input s → left s < n →
    wp p (fun a s' => Ready input s' ∧ left s' + eaten ≤ left s ∧ post a) (Proper input) s

def Safe (input : Bytes) (eaten n : Nat) (p : StateT σ (Except Stop) α) (post : α → Prop) : Prop :=
  ∀ s, SafeAt input eaten n p post s

/-- Any value will do. -/
def anything (_ : α) : Prop := True

variable {eaten n first : Nat} {post : α → Prop} {mid : β → Prop}

theorem Safe.mono {p : StateT σ (Except Stop) α} (h : Safe input eaten n p post)
    {eaten' n' : Nat} (he : eaten' ≤ eaten) (hn : n' ≤ n) : Safe input eaten' n' p post := by
  intro s hs hleft
  refine wp_mono (h s hs (by omega)) ?_ (fun _ hstop => hstop)
  rintro a s' ⟨hready, hle, hpost⟩
  exact ⟨hready, by omega, hpost⟩

theorem Safe.imp {p : StateT σ (Except Stop) α} {post' : α → Prop} (h : Safe input eaten n p post)
    (himp : ∀ a, post a → post' a) : Safe input eaten n p post' := by
  intro s hs hleft
  refine wp_mono (h s hs hleft) ?_ (fun _ hstop => hstop)
  rintro a s' ⟨hready, hle, hpost⟩
  exact ⟨hready, hle, himp a hpost⟩

/-- What `p` has passed the program behind it need not pass any more, and it needs fewer rounds. -/
theorem SafeAt.bind {p : StateT σ (Except Stop) β} {f : β → StateT σ (Except Stop) α}
    (hp : SafeAt input first n p mid s)
    (hf : ∀ b, mid b → Safe input (eaten - first) (n - first) (f b) post) :
    SafeAt input eaten n (p >>= f) post s := by
  intro hs hleft
  rw [wp_bind]
  refine wp_mono (hp hs hleft) ?_ (fun _ hstop => hstop)
  rintro b s₁ ⟨hready, hle, hmid⟩
  refine wp_mono (hf b hmid s₁ hready (by omega)) ?_ (fun _ hstop => hstop)
  rintro a s₂ ⟨hready₂, hle₂, hpost⟩
  exact ⟨hready₂, by omega, hpost⟩

theorem Safe.bind {p : StateT σ (Except Stop) β} {f : β → StateT σ (Except Stop) α}
    (hp : Safe input first n p mid)
    (hf : ∀ b, mid b → Safe input (eaten - first) (n - first) (f b) post) :
    Safe input eaten n (p >>= f) post :=
  fun s => (hp s).bind hf

theorem Safe.pure {a : α} (h : post a) :
    Safe input 0 n (Pure.pure a : StateT σ (Except Stop) α) post :=
  fun _ hs _ => ⟨hs, le_rfl, h⟩

theorem Safe.fail {e : ParseError} :
    Safe input eaten n (Pbz.fail e : StateT σ (Except Stop) α) post :=
  fun _ _ _ => trivial

/-- No state has fewer than no rounds left. -/
theorem Safe.zero {p : StateT σ (Except Stop) α} (hn : n ≤ 0) : Safe input eaten n p post :=
  fun _ _ hleft => absurd (hleft.trans_le hn) (Nat.not_lt_zero _)

theorem SafeAt.get {f : σ → StateT σ (Except Stop) α} (h : SafeAt input eaten n (f s) post s) :
    SafeAt input eaten n (MonadState.get >>= f) post s := by
  intro hs hleft
  rw [wp_bind, wp_get]
  exact h hs hleft

theorem Safe.get {f : σ → StateT σ (Except Stop) α}
    (h : ∀ s, SafeAt input eaten n (f s) post s) :
    Safe input eaten n (MonadState.get >>= f) post :=
  fun s => .get (h s)

theorem SafeAt.ite {c : Prop} [Decidable c] {p q : StateT σ (Except Stop) α}
    (hp : c → SafeAt input eaten n p post s) (hq : ¬ c → SafeAt input eaten n q post s) :
    SafeAt input eaten n (if c then p else q) post s := by
  intro hs hleft
  rw [wp_ite]
  exact ⟨fun hc => hp hc hs hleft, fun hc => hq hc hs hleft⟩

theorem Safe.ite {c : Prop} [Decidable c] {p q : StateT σ (Except Stop) α}
    (hp : Safe input eaten n p post) (hq : Safe input eaten n q post) :
    Safe input eaten n (if c then p else q) post :=
  fun s => .ite (fun _ => hp s) (fun _ => hq s)

theorem liftError_safe {x : Except ParseError α} :
    Safe (σ := σ) input 0 n (liftError x) (fun a => x = .ok a) := by
  cases x with
  | ok a => exact .pure rfl
  | error e => exact .fail

theorem liftStop_safe {x : Except Stop α} (hx : ∀ stop, x = .error stop → Proper input stop) :
    Safe (σ := σ) input 0 n (liftStop x) anything := by
  cases x with
  | ok a => exact .pure trivial
  | error stop => exact fun _ _ _ => hx stop rfl

theorem liftStop_bind {x : Except Stop β} {f : β → StateT σ (Except Stop) α}
    (hx : Ready input s → ∀ stop, x = .error stop → Proper input stop)
    (hf : ∀ b, x = .ok b → SafeAt input eaten n (f b) post s) :
    SafeAt input eaten n (liftStop x >>= f) post s := by
  cases x with
  | ok b => exact hf b rfl
  | error stop => exact fun hs _ => hx hs stop rfl

/-- Arithmetic stays in range on an input that does. -/
theorem checkedI64_bind {value : Int} {f : Int → StateT σ (Except Stop) α}
    (hvalue : StaysInRange input → -2 ^ 63 ≤ value ∧ value ≤ 2 ^ 63 - 1)
    (hf : SafeAt input eaten n (f value) post s) :
    SafeAt input eaten n (checkedI64 value >>= f) post s := by
  by_cases hrange : -2 ^ 63 ≤ value ∧ value ≤ 2 ^ 63 - 1
  · have hcast : IntegerType.i64.cast value = some value := if_pos hrange
    unfold checkedI64
    rw [hcast]
    exact hf
  · have hcast : IntegerType.i64.cast value = none := if_neg hrange
    unfold checkedI64
    rw [hcast]
    exact fun _ _ hstays => hrange (hvalue hstays)

theorem checkedI64_safe {value : Int}
    (hvalue : StaysInRange input → -2 ^ 63 ≤ value ∧ value ≤ 2 ^ 63 - 1) :
    Safe (σ := σ) input 0 n (checkedI64 value) (fun v => v = value) := by
  intro s
  rw [← bind_pure (checkedI64 value)]
  exact checkedI64_bind hvalue (Safe.pure rfl s)

end Rules

/-! ## Single tokens -/

section Tokens

variable {α : Type} {eaten n : Nat} {post : α → Prop}

/-- `p` reads the token behind the current one; `onError` says what an error of the lexer
becomes. -/
def Steps (p : StateT σ (Except Stop) Unit) (onError : ParseError → Stop) : Prop :=
  ∀ s, match (lexer s).next with
    | .error e => p s = .error (onError e)
    | .ok (token, next) => ∃ s', p s = .ok ((), s') ∧ current s' = token ∧ lexer s' = next

theorem Steps.wp_ok {p : StateT σ (Except Stop) Unit} {onError : ParseError → Stop}
    (h : Steps p onError) {t : Token} {next : Lexer} (hnext : (lexer s).next = .ok (t, next)) :
    wp p (fun _ s' => current s' = t ∧ lexer s' = next) (Proper input) s := by
  have hs := h s
  rw [hnext] at hs
  obtain ⟨s', hp, hcurrent, hlexer⟩ := hs
  unfold wp
  rw [hp]
  exact ⟨hcurrent, hlexer⟩

theorem Steps.wp_error {p : StateT σ (Except Stop) Unit} {onError : ParseError → Stop}
    (h : Steps p onError) {e : ParseError} (hnext : (lexer s).next = .error e)
    (hproper : Proper input (onError e)) {post : Unit → σ → Prop} : wp p post (Proper input) s := by
  have hs := h s
  rw [hnext] at hs
  unfold wp
  rw [hs]
  exact hproper

/-- The token read from behind the current one becomes the current one. -/
theorem Steps.bind {p : StateT σ (Except Stop) Unit} {onError : ParseError → Stop}
    (h : Steps p onError) {f : Unit → StateT σ (Except Stop) α} (hs : (current s).tag ≠ .eof)
    (herror : Ready input s → ∀ e, (lexer s).next = .error e → Proper input (onError e))
    (hf : ∀ s', Lexer.next ⟨input, (current s).end⟩ = .ok (current s', lexer s') →
      SafeAt input (eaten - 4) (n - 4) (f ()) post s') :
    SafeAt input eaten n (p >>= f) post s := by
  intro hready hleft
  rw [wp_bind]
  cases hnext : (lexer s).next with
  | error e => exact h.wp_error hnext (herror hready e hnext)
  | ok pair =>
      obtain ⟨t, next⟩ := pair
      refine wp_mono (h.wp_ok hnext) ?_ (fun _ hstop => hstop)
      rintro _ s₁ ⟨rfl, rfl⟩
      obtain ⟨hready₁, hle₁⟩ := hready.next hs hnext
      rw [hready.lexer_eq] at hnext
      refine wp_mono (hf s₁ hnext hready₁ (by omega)) ?_ (fun _ hstop => hstop)
      rintro a s₂ ⟨hready₂, hle₂, hpost⟩
      exact ⟨hready₂, by omega, hpost⟩

theorem Steps.safe {p : StateT σ (Except Stop) Unit} (h : Steps p .error)
    (hs : (current s).tag ≠ .eof) : SafeAt input 4 n p anything s := by
  intro hready hleft
  cases hnext : (lexer s).next with
  | error e => exact h.wp_error hnext trivial
  | ok pair =>
      obtain ⟨t, next⟩ := pair
      refine wp_mono (h.wp_ok hnext) ?_ (fun _ hstop => hstop)
      rintro _ s₁ ⟨rfl, rfl⟩
      obtain ⟨hready₁, hle₁⟩ := hready.next hs hnext
      exact ⟨hready₁, hle₁, trivial⟩

/-- At the end of the input a step reads the end once more. -/
theorem Steps.safe_any {p : StateT σ (Except Stop) Unit} (h : Steps p .error) :
    Safe input 0 n p anything := by
  intro s
  by_cases hs : (current s).tag = .eof
  · intro hready hleft
    have hend : (lexer s).next = .ok (current s, lexer s) := by
      rw [hready.lexer_eq, hready.follows.end_eof hs, hready.reread, hready.follows.end_eof hs]
    refine wp_mono (h.wp_ok hend) ?_ (fun _ hstop => hstop)
    rintro _ s₁ ⟨hcurrent, hlexer⟩
    refine ⟨⟨?_, ?_⟩, ?_, trivial⟩
    · rw [hlexer, hcurrent]
      exact hready.lexer_eq
    · rw [hcurrent]
      exact hready.lexed
    · unfold left
      rw [hlexer, hcurrent]
      exact le_rfl
  · intro hready hleft
    refine wp_mono (h.safe hs hready hleft) ?_ (fun _ hstop => hstop)
    rintro _ s₁ ⟨hready₁, hle₁, -⟩
    exact ⟨hready₁, by omega, trivial⟩

theorem tag_ne_eof_of_isMatched {t : Token} (h : t.isMatched = true) : t.tag ≠ .eof := by
  intro heof
  simp [Token.isMatched, heof] at h

/-- Behind a token that is matched the lexer does not fail. -/
theorem Steps.matched_bind {p : StateT σ (Except Stop) Unit}
    (h : Steps p (fun _ => .unreachable)) (hsafe : AdvancesSafely input)
    {f : Unit → StateT σ (Except Stop) α} (hs : (current s).isMatched = true)
    (hf : Safe input (eaten - 4) (n - 4) (f ()) post) :
    SafeAt input eaten n (p >>= f) post s := by
  refine h.bind (tag_ne_eof_of_isMatched hs) ?_ (fun s' _ => hf s')
  intro hready e hnext
  rw [hready.lexer_eq] at hnext
  have hbefore := Lexer.beforeError_of_lexed hready.lexed hnext
  exact absurd hs (by simp [hsafe _ hbefore])

theorem isMatched_of_isSymbol {symbol : UInt8} (hc : symbol ∈ matchedSymbols) {t : Token}
    (h : t.isSymbol symbol = true) : t.isMatched = true := by
  simp only [Token.isSymbol, Bool.and_eq_true, beq_iff_eq] at h
  simp [Token.isMatched, h.1, h.2, hc]

theorem isMatched_of_isIdent {text : Bytes} (hw : text ∈ matchedWords) {t : Token}
    (h : t.isIdent text = true) : t.isMatched = true := by
  simp only [Token.isIdent, Bool.and_eq_true, beq_iff_eq] at h
  simp [Token.isMatched, h.1, h.2, hw]

end Tokens

/-- A text that reads as tokens up to its end has no malformed string or comment. -/
theorem beforeError_of_reads {text : Bytes} (h : Lexer.Reads text 0 text.length) :
    Lexer.beforeError (text.length + 1) none ⟨text, 0⟩ = none := by
  obtain ⟨last, rounds, hr, heq⟩ :=
    Lexer.beforeError_reads h le_rfl none (text.length + 1) (by omega)
  obtain ⟨rounds, rfl⟩ : ∃ k, rounds = k + 1 := ⟨rounds - 1, by omega⟩
  rw [heq, Lexer.beforeError, Lexer.next_at_end le_rfl]
  simp

end Tokenized

end Pbz
