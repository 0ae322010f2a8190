import Pbz.Parser.Advance

set_option autoImplicit false

/-! # Productions that leave the file alone

Most productions only read tokens: they return with the file descriptor that they were given, and
at a token of the input. `Frames` is a class, so that instance resolution follows the shape of a
production.
-/

namespace Pbz

namespace Parser

open Program

variable {α β : Type}

/-- The current token is the one behind the token that has been read last. -/
def Standing (s : Parser) : Prop :=
  Lexer.next ⟨s.lexer.input, s.previousEnd⟩ = .ok (s.current, s.lexer)

/-- What every production keeps: a state stands at a token, and a syntax or an edition that has been
declared stays declared. -/
structure Follows (s s' : Parser) : Prop where
  standing : s'.Standing
  declared : s.sawSyntaxOrEdition = true → s'.sawSyntaxOrEdition = true

theorem Follows.trans {s₁ s₂ s₃ : Parser} (h : Follows s₁ s₂) (h' : Follows s₂ s₃) :
    Follows s₁ s₃ :=
  ⟨h'.standing, fun hdeclared => h'.declared (h.declared hdeclared)⟩

theorem Standing.follows {s : Parser} (h : s.Standing) : Follows s s := ⟨h, id⟩

/-- If `p` returns, the file is the one it was, and the state still stands at a token. -/
class Frames (p : Parse α) : Prop where
  frame : ∀ s, s.Standing →
    wp p (fun _ s' => s'.file = s.file ∧ Follows s s') (fun _ => True) s

/-- On a state that stands at a token and has this file `p` returns, if it does so, in such a state
and with a value with `post`. -/
def Gives (file : FileDescriptor) (p : Parse α) (post : α → Prop) : Prop :=
  ∀ s, s.file = file → s.Standing →
    wp p (fun a s' => s'.file = file ∧ Follows s s' ∧ post a) (fun _ => True) s

/-- From a state that stands at a token and has this file `p` returns, if it does so, at a token
and with a file that `post` holds of. -/
def Changes (file : FileDescriptor) (p : Parse Unit) (post : FileDescriptor → Prop) : Prop :=
  ∀ s, s.file = file → s.Standing →
    wp p (fun _ s' => Follows s s' ∧ post s'.file) (fun _ => True) s

section Rules

variable {file : FileDescriptor} {p q : Parse α} {post : α → Prop} {first : Parse β}
  {f : β → Parse α} {mid : β → Prop}

theorem Gives.bind (hfirst : Gives file first mid) (hf : ∀ b, mid b → Gives file (f b) post) :
    Gives file (first >>= f) post := by
  intro s hs hstand
  rw [wp_bind]
  refine wp_mono (hfirst s hs hstand) ?_ (fun _ h => h)
  rintro b s₁ ⟨hs₁, hfollows, hmid⟩
  refine wp_mono (hf b hmid s₁ hs₁ hfollows.standing) ?_ (fun _ h => h)
  rintro a s₂ ⟨hs₂, hfollows₂, hpost⟩
  exact ⟨hs₂, hfollows.trans hfollows₂, hpost⟩

theorem Gives.of_frames [h : Frames p] : Gives file p (fun _ => True) := by
  rintro s rfl hstand
  exact wp_mono (h.frame s hstand) (fun _ _ hs => ⟨hs.1, hs.2, trivial⟩) (fun _ h => h)

/-- What is known of the value of a production that only reads tokens. -/
theorem Gives.of_wp [h : Frames p]
    (hpost : ∀ s, s.file = file → s.Standing → wp p (fun a _ => post a) (fun _ => True) s) :
    Gives file p post := by
  rintro s rfl hstand
  refine wp_mono (wp_and (h.frame s hstand) (hpost s rfl hstand)) ?_ (fun _ h => h)
  rintro a s' ⟨⟨hfile, hfollows⟩, ha⟩
  exact ⟨hfile, hfollows, ha⟩

/-- The value of a production that only reads tokens does not matter. -/
theorem Gives.skip [Frames first] (hf : ∀ b, Gives file (f b) post) :
    Gives file (first >>= f) post :=
  Gives.of_frames.bind fun b _ => hf b

theorem Gives.get {f : Parser → Parse α} (hf : ∀ s, s.file = file → Gives file (f s) post) :
    Gives file (MonadState.get >>= f) post :=
  fun s hs hstand => hf s hs s hs hstand

theorem Gives.pure {a : α} (h : post a) : Gives file (Pure.pure a : Parse α) post :=
  fun _ hs hstand => ⟨hs, hstand.follows, h⟩

theorem Gives.fail {e : ParseError} : Gives file (Pbz.fail e : Parse α) post :=
  fun _ _ _ => trivial

theorem Gives.fuel : Gives file (throw .fuel : Parse α) post := fun _ _ _ => trivial

theorem Gives.ite {c : Prop} [Decidable c] (hp : Gives file p post) (hq : Gives file q post) :
    Gives file (if c then p else q) post := by
  split
  · exact hp
  · exact hq

/-- The branches may use which one they are. -/
theorem Gives.ite_cases {c : Prop} [Decidable c] (hp : c → Gives file p post)
    (hq : ¬ c → Gives file q post) : Gives file (if c then p else q) post := by
  split
  · exact hp ‹_›
  · exact hq ‹_›

theorem Gives.imp {post' : α → Prop} (h : Gives file p post) (himp : ∀ a, post a → post' a) :
    Gives file p post' :=
  fun s hs hstand => wp_mono (h s hs hstand)
    (fun a _ hpost => ⟨hpost.1, hpost.2.1, himp a hpost.2.2⟩) (fun _ h => h)

theorem Gives.liftError {x : Except ParseError α} :
    Gives file (Pbz.liftError x) (fun a => x = .ok a) := by
  cases x with
  | ok a => exact .pure rfl
  | error e => exact .fail

end Rules

section Changes

variable {file : FileDescriptor} {p q : Parse Unit} {post : FileDescriptor → Prop}
  {first : Parse β} {f : β → Parse Unit} {mid : β → Prop} {change : FileDescriptor → FileDescriptor}

theorem Changes.bind (hfirst : Gives file first mid) (hf : ∀ b, mid b → Changes file (f b) post) :
    Changes file (first >>= f) post := by
  intro s hs hstand
  rw [wp_bind]
  refine wp_mono (hfirst s hs hstand) ?_ (fun _ h => h)
  rintro b s₁ ⟨hs₁, hfollows, hmid⟩
  refine wp_mono (hf b hmid s₁ hs₁ hfollows.standing) ?_ (fun _ h => h)
  rintro a s₂ ⟨hfollows₂, hpost⟩
  exact ⟨hfollows.trans hfollows₂, hpost⟩

theorem Changes.skip [Frames first] (hf : ∀ b, Changes file (f b) post) :
    Changes file (first >>= f) post :=
  .bind .of_frames fun b _ => hf b

theorem Changes.get {f : Parser → Parse Unit} (hf : ∀ s, s.file = file → Changes file (f s) post) :
    Changes file (MonadState.get >>= f) post :=
  fun s hs hstand => hf s hs s hs hstand

theorem Changes.ite {c : Prop} [Decidable c] (hp : Changes file p post)
    (hq : Changes file q post) : Changes file (if c then p else q) post := by
  split
  · exact hp
  · exact hq

theorem Changes.fail {e : ParseError} : Changes file (Pbz.fail e) post := fun _ _ _ => trivial

theorem Changes.modify (h : post (change file)) : Changes file (modifyFile change) post := by
  rintro s rfl hstand
  exact ⟨⟨hstand, id⟩, h⟩

theorem Changes.modify_skip [h : Frames p] (hpost : post (change file)) :
    Changes file (modifyFile change >>= fun _ => p) post := by
  rintro s rfl hstand
  rw [wp_bind]
  show wp p (fun _ s' => Follows s s' ∧ post s'.file) (fun _ => True)
    { s with file := change s.file }
  refine wp_mono (h.frame _ hstand) ?_ (fun _ h => h)
  rintro a s' ⟨hfile, hfollows⟩
  refine ⟨⟨hfollows.standing, hfollows.declared⟩, ?_⟩
  rw [hfile]
  exact hpost

end Changes

/-! ## Programs -/

section Instances

variable {p q : Parse α} {first : Parse β} {f : β → Parse α} {c : Prop} [Decidable c]

theorem Gives.frames (h : ∀ file, Gives file p (fun _ => True)) : Frames p :=
  ⟨fun s hstand => wp_mono (h s.file s rfl hstand) (fun _ _ hs => ⟨hs.1, hs.2.1⟩) (fun _ h => h)⟩

instance {a : α} : Frames (pure a : Parse α) := ⟨fun _ hstand => ⟨rfl, hstand.follows⟩⟩

instance : Frames (get : Parse Parser) := ⟨fun _ hstand => ⟨rfl, hstand.follows⟩⟩

instance [Frames first] [∀ b, Frames (f b)] : Frames (first >>= f) :=
  Gives.frames fun _ => .skip fun _ => .of_frames

instance [Frames p] [Frames q] : Frames (if c then p else q) := by
  split
  · infer_instance
  · infer_instance

instance {stop : Stop} : Frames (throw stop : Parse α) := ⟨fun _ _ => trivial⟩

instance {e : ParseError} : Frames (fail e : Parse α) := ⟨fun _ _ => trivial⟩

instance {x : Except ParseError α} : Frames (liftError x : Parse α) := by
  unfold liftError
  split
  · infer_instance
  · infer_instance

instance {x : Except Stop α} : Frames (liftStop x : Parse α) := by
  unfold liftStop
  split
  · infer_instance
  · infer_instance

instance {value : Int} : Frames (checkedI64 value : Parse Int) := by
  unfold checkedI64
  split
  · infer_instance
  · infer_instance

/-- Where the lexer stands behind the current token. -/
theorem Standing.lexer_eq {s : Parser} (h : s.Standing) :
    s.lexer = ⟨s.lexer.input, s.current.end⟩ :=
  Lexer.next_lexer h

/-- A step reads the token behind the current one. -/
theorem Standing.step {s : Parser} (h : s.Standing) {onError : ParseError → Stop} :
    wp (step onError)
      (fun _ s' => s'.file = s.file ∧ Follows s s' ∧ s'.lexer.input = s.lexer.input ∧
        s'.previousEnd = s.current.end) (fun _ => True) s := by
  unfold Parser.step
  rw [wp_bind, wp_get]
  cases hnext : s.lexer.next with
  | error e => exact trivial
  | ok pair =>
      rw [h.lexer_eq] at hnext
      have hinput : pair.2.input = s.lexer.input := by rw [Lexer.next_lexer hnext]
      refine ⟨rfl, ⟨?_, id⟩, hinput, rfl⟩
      show Lexer.next ⟨pair.2.input, s.current.end⟩ = .ok (pair.1, pair.2)
      rw [hinput]
      exact hnext

instance {onError : ParseError → Stop} : Frames (step onError) :=
  ⟨fun _ hstand => wp_mono hstand.step (fun _ _ hs => ⟨hs.1, hs.2.1⟩) (fun _ h => h)⟩

end Instances

/-! ## Tokens, numbers and names -/

variable {rounds : Nat}

instance : Frames advanceVoid := inferInstanceAs (Frames (step .error))

instance {test : Token → Bool} : Frames (consumeIf test) := by
  unfold consumeIf
  infer_instance

instance {symbol : UInt8} : Frames (consumeSymbol symbol) := by
  unfold consumeSymbol
  infer_instance

instance {text : Bytes} : Frames (matchIdent text) := by
  unfold matchIdent
  infer_instance

instance {symbol : UInt8} : Frames (expectSymbol symbol) := by
  unfold expectSymbol
  infer_instance

instance {text : Bytes} : Frames (expectIdent text) := by
  unfold expectIdent
  infer_instance

instance {tag : TokenTag} : Frames (expectTag tag) := by
  unfold expectTag
  infer_instance

instance : Frames expectIdentifier := inferInstanceAs (Frames (expectTag _))

instance : Frames expectNumber := inferInstanceAs (Frames (expectTag _))

instance {joined : Bytes} : Frames (moreStrings rounds joined) := by
  induction rounds generalizing joined with
  | zero =>
      unfold moreStrings
      infer_instance
  | succ rounds ih =>
      unfold moreStrings
      infer_instance

instance : Frames (expectString rounds) := by
  unfold expectString
  infer_instance

instance : Frames consumeSign := by
  unfold consumeSign
  infer_instance

instance : Frames parseSignedInt64 := by
  unfold parseSignedInt64
  refine Gives.frames fun _ => .skip fun _ => .skip fun text => ?_
  cases parseI64 text with
  | none => exact .of_frames
  | some value => exact .of_frames

instance : Frames parseSignedInt32 := by
  unfold parseSignedInt32
  refine Gives.frames fun _ => .skip fun value => ?_
  cases IntegerType.i32.cast value with
  | none => exact .of_frames
  | some value => exact .of_frames

instance : Frames parseRangeEnd := by
  unfold parseRangeEnd
  infer_instance

instance : Frames parseFieldNumber := by
  unfold parseFieldNumber
  infer_instance

instance : Frames (moreIdentifiers rounds) := by
  induction rounds with
  | zero =>
      unfold moreIdentifiers
      infer_instance
  | succ rounds ih =>
      unfold moreIdentifiers
      infer_instance

instance {start : Nat} : Frames (textFrom start) := by
  unfold textFrom
  infer_instance

instance : Frames (parseFullIdent rounds) := by
  unfold parseFullIdent
  infer_instance

instance : Frames (parseTypeNameSlice rounds) := by
  unfold parseTypeNameSlice
  infer_instance

/-! ## Ranges and reserved names -/

instance : Frames notAtEnd := by
  unfold notAtEnd
  infer_instance

instance : Frames parseRange := by
  unfold parseRange parseRangeBound
  infer_instance

instance {useIdentifiers : Bool} {names : List Bytes} :
    Frames (reservedNames useIdentifiers rounds names) := by
  induction rounds generalizing names with
  | zero =>
      unfold reservedNames
      infer_instance
  | succ rounds ih =>
      unfold reservedNames
      infer_instance

instance {ranges : List ReservedRange} : Frames (reservedRanges rounds ranges) := by
  induction rounds generalizing ranges with
  | zero =>
      unfold reservedRanges
      infer_instance
  | succ rounds ih =>
      unfold reservedRanges
      exact Gives.frames fun _ => .skip fun (start, stop) => .of_frames

instance : Frames (parseReserved rounds) := by
  unfold parseReserved
  infer_instance

/-! ## Options -/

instance {opening closing : UInt8} {depth : Nat} :
    Frames (balancedEnd opening closing rounds depth) := by
  induction rounds generalizing depth with
  | zero =>
      unfold balancedEnd
      infer_instance
  | succ rounds ih =>
      unfold balancedEnd
      infer_instance

instance : Frames (consumeBalancedAggregate rounds) := by
  unfold consumeBalancedAggregate
  infer_instance

instance {terminator : UInt8} {parenDepth : Nat} :
    Frames (optionName terminator rounds parenDepth) := by
  induction rounds generalizing parenDepth with
  | zero =>
      unfold optionName
      infer_instance
  | succ rounds ih =>
      unfold optionName
      infer_instance

instance {target : Option FeatureSet} {option : FieldOption} :
    Frames (applyFeatureOption target option) := by
  unfold applyFeatureOption
  infer_instance

instance {value : OptionValue} : Frames (parseFeatureSupportAggregate value) := by
  unfold parseFeatureSupportAggregate
  infer_instance

instance {value : OptionValue} : Frames (parseFieldEditionDefaultAggregate value) := by
  unfold parseFieldEditionDefaultAggregate
  infer_instance

instance {value : OptionValue} : Frames (parseExtensionDeclarationAggregate value) := by
  unfold parseExtensionDeclarationAggregate
  infer_instance

instance {α : Type} {apply : α → FieldOption → Parse α} [∀ value option, Frames (apply value option)]
    {options : List FieldOption} {value : α} : Frames (applyOptions apply options value) := by
  induction options generalizing value with
  | nil =>
      unfold applyOptions
      infer_instance
  | cons option rest ih =>
      unfold applyOptions
      infer_instance

instance {value : EnumValueDescriptor} {option : FieldOption} :
    Frames (applyEnumValueOption value option) := by
  unfold applyEnumValueOption
  infer_instance

instance {range : ExtensionRange} {option : FieldOption} :
    Frames (applyExtensionRangeOption range option) := by
  unfold applyExtensionRangeOption
  split
  · infer_instance
  · split
    · split
      · infer_instance
      · infer_instance
    · infer_instance

instance {fileSyntax : Syntax} {field : FieldDescriptor} {option : FieldOption} :
    Frames (applyNamedFieldOption fileSyntax field option) := by
  unfold applyNamedFieldOption
  cases option.value with
  | string text => infer_instance
  | _ => infer_instance

instance {field : FieldDescriptor} {option : FieldOption} :
    Frames (applyFieldOption field option) := by
  unfold applyFieldOption
  infer_instance

instance {message : MessageDescriptor} {option : FieldOption} :
    Frames (applyMessageOption message option) := by
  unfold applyMessageOption
  infer_instance

instance {oneofName : Option Bytes} : Frames (parseLabel oneofName) := by
  unfold parseLabel
  infer_instance

instance : Frames (parseFieldKind rounds) := by
  induction rounds with
  | zero =>
      unfold parseFieldKind
      infer_instance
  | succ rounds ih =>
      unfold parseFieldKind
      refine Gives.frames fun _ => .skip fun isMap => .ite ?_ ?_
      · refine .skip fun _ => .skip fun keyName => ?_
        cases ScalarType.fromName keyName with
        | none => exact .of_frames
        | some key => exact .of_frames
      · refine .skip fun typeName => ?_
        cases ScalarType.fromName typeName with
        | none => exact .of_frames
        | some scalar => exact .of_frames

/-! ## Statements of the file -/

/-- A matched word has been the current token. -/
theorem wp_matchIdent {text : Bytes} {p q : Parse α} {post : α → Parser → Prop} {s : Parser}
    (hs : s.Standing)
    (hp : s.current.isIdent text = true → ∀ s', s'.file = s.file → Follows s s' →
      wp p post (fun _ => True) s')
    (hq : wp q post (fun _ => True) s) :
    wp (do if ← matchIdent text then p else q) post (fun _ => True) s := by
  unfold matchIdent consumeIf
  rw [bind_assoc, wp_bind, wp_get]
  by_cases htoken : s.current.isIdent text = true
  · simp only [htoken, if_true, bind_assoc, pure_bind]
    rw [wp_bind]
    exact wp_mono (Frames.frame s hs) (fun _ s' hs' => hp htoken s' hs'.1 hs'.2) (fun _ h => h)
  · simp only [htoken, Bool.false_eq_true, if_false, pure_bind]
    exact hq

instance : Frames importKind := by
  unfold importKind
  infer_instance

instance : Frames declareSyntax := by
  unfold declareSyntax
  refine ⟨fun s hs => ?_⟩
  rw [wp_bind, wp_get, wp_ite]
  exact ⟨fun _ => trivial, fun _ => ⟨rfl, hs, fun _ => rfl⟩⟩

/-! ## Option values, fields and enums -/

variable [FloatConversions]

instance {negative : Bool} {text : Bytes} : Frames (integerValue negative text) := by
  unfold integerValue
  cases (if negative then none else parseU64 text) with
  | some value => infer_instance
  | none =>
      cases parseI64 text with
      | some value => infer_instance
      | none => infer_instance

instance : Frames numberValue := by
  unfold numberValue
  infer_instance

instance : Frames (parseOptionValue rounds) := by
  unfold parseOptionValue
  infer_instance

instance {terminator : UInt8} : Frames (parseOptionAssignment terminator rounds) := by
  unfold parseOptionAssignment
  infer_instance

instance : Frames (parseOptionAssignmentStatement rounds) := by
  unfold parseOptionAssignmentStatement
  infer_instance

instance {endSymbol : UInt8} {options : List FieldOption} :
    Frames (parseOptionList endSymbol rounds options) := by
  induction rounds generalizing options with
  | zero =>
      unfold parseOptionList
      infer_instance
  | succ rounds ih =>
      unfold parseOptionList
      infer_instance

instance {field : FieldDescriptor} : Frames (bracketedFieldOptions rounds field) := by
  unfold bracketedFieldOptions parseFieldOptions
  infer_instance

instance {oneofName : Option Bytes} {cardinality : Cardinality} {proto3Optional : Bool} :
    Frames (parsePlainField rounds oneofName cardinality proto3Optional) := by
  unfold parsePlainField
  infer_instance

instance {optionedRanges : Nat} {ranges : List ExtensionRange} :
    Frames (extensionRanges rounds optionedRanges ranges) := by
  induction rounds generalizing optionedRanges ranges with
  | zero =>
      unfold extensionRanges
      infer_instance
  | succ rounds ih =>
      unfold extensionRanges
      exact Gives.frames fun _ => .skip fun (start, stop) => .of_frames

instance : Frames (parseExtensionRanges rounds) := by
  unfold parseExtensionRanges
  infer_instance

instance : Frames (parseEnumValue rounds) := by
  unfold parseEnumValue
  infer_instance

instance {enumeration : EnumDescriptor} : Frames (enumBody rounds enumeration) := by
  induction rounds generalizing enumeration with
  | zero =>
      unfold enumBody
      infer_instance
  | succ rounds ih =>
      unfold enumBody
      refine Gives.frames fun _ => .skip fun isEnd => .ite .of_frames (.skip fun _ => ?_)
      refine .skip fun isOption => .ite .of_frames (.skip fun isReserved => .ite ?_ .of_frames)
      exact .skip fun (ranges, names) => .of_frames

/-! ## Services -/

instance {method : MethodDescriptor} : Frames (rpcBody rounds method) := by
  induction rounds generalizing method with
  | zero =>
      unfold rpcBody
      infer_instance
  | succ rounds ih =>
      unfold rpcBody
      infer_instance

instance : Frames (parseRpcAfterKeyword rounds) := by
  unfold parseRpcAfterKeyword
  refine Gives.frames fun _ => .skip fun name => .skip fun _ => .skip fun clientStreaming => ?_
  refine .skip fun inputType => .skip fun _ => .skip fun _ => .skip fun _ => ?_
  exact .skip fun serverStreaming => .skip fun outputType => .skip fun _ => .of_frames

instance {service : ServiceDescriptor} : Frames (serviceBody rounds service) := by
  induction rounds generalizing service with
  | zero =>
      unfold serviceBody
      infer_instance
  | succ rounds ih =>
      unfold serviceBody
      exact Gives.frames fun _ => .skip fun isEnd => .ite .of_frames (.skip fun _ => .of_frames)

instance : Frames (parseServiceAfterKeyword rounds) := by
  unfold parseServiceAfterKeyword
  infer_instance

end Parser

end Pbz
