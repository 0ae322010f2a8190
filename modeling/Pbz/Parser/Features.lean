import Pbz.Lib.Settings
import Pbz.Parser.Everywhere

set_option autoImplicit false

/-! # Features

An element of an editions file keeps a whole set of features, made of the defaults and of the
features that its own options set. A field that has such a set is read by it alone, any other one by
the set of the file: neither looks at the oneof and the messages around the field.
-/

namespace Pbz

open Settings

/-! ## Single features -/

/-- A member of a feature set, the option that sets it and what the values of the option are. -/
structure Feature (α : Type) where
  name : Bytes
  values : List (String × α)
  get : FeatureSet → α

namespace Feature

variable {α : Type}

def named (feature : Feature α) (ident : Bytes) : Option α :=
  (feature.values.find? (fun value => eqlIgnoreCase ident (ascii value.1))).map Prod.snd

/-- What an option sets the feature to, if it is one of this feature. -/
def sets (feature : Feature α) (option : FieldOption) : Option α :=
  if Parser.isFeatureOption option.name && optionLeaf option.name == feature.name then
    (optionAsIdentifier option.value).bind feature.named
  else none

def editionDefault (feature : Feature α) : α := feature.get (FeatureSet.defaults .editions)

/-- What the nearest of some levels sets, and the default of the edition if none does. -/
def nearest (feature : Feature α) (levels : List (List FieldOption)) : α :=
  (Settings.nearest feature.sets levels).getD feature.editionDefault

def fieldPresence : Feature FieldPresence :=
  { name := ascii "field_presence"
    values := [("EXPLICIT", .explicit), ("IMPLICIT", .implicit), ("LEGACY_REQUIRED", .legacyRequired)]
    get := (·.fieldPresence) }

def repeatedFieldEncoding : Feature RepeatedFieldEncoding :=
  { name := ascii "repeated_field_encoding"
    values := [("PACKED", .packedEncoding), ("EXPANDED", .expanded)]
    get := (·.repeatedFieldEncoding) }

def utf8Validation : Feature Utf8Validation :=
  { name := ascii "utf8_validation"
    values := [("NONE", .none), ("VERIFY", .verify)]
    get := (·.utf8Validation) }

def messageEncoding : Feature MessageEncoding :=
  { name := ascii "message_encoding"
    values := [("LENGTH_PREFIXED", .lengthPrefixed), ("DELIMITED", .delimited)]
    get := (·.messageEncoding) }

end Feature

namespace Parser

open Program

/-- What a feature option does to a set of features. -/
def applyFeature (features : FeatureSet) (option : FieldOption) : Except ParseError FeatureSet :=
  if isFeatureOption option.name then applyFeatureOptionValue features option else .ok features

/-- `setFeature` is what the names and values of the feature say. -/
def Feature.Follows {α : Type} (feature : Feature α) : Prop :=
  ∀ (features : FeatureSet) leaf ident, ∀ result ∈ features.setFeature leaf ident,
    feature.get result
      = (if leaf == feature.name then feature.named ident else none).getD (feature.get features)

/-- An option leaves the features of other names. -/
structure KeepsOthers (leaf : Bytes) (features result : FeatureSet) : Prop where
  fieldPresence : leaf ≠ ascii "field_presence" → result.fieldPresence = features.fieldPresence
  repeatedFieldEncoding : leaf ≠ ascii "repeated_field_encoding" →
    result.repeatedFieldEncoding = features.repeatedFieldEncoding
  utf8Validation : leaf ≠ ascii "utf8_validation" → result.utf8Validation = features.utf8Validation
  messageEncoding : leaf ≠ ascii "message_encoding" →
    result.messageEncoding = features.messageEncoding

/-- What holds of the value of either branch, if it has one. -/
theorem forall_mem_ite {α : Type} {P : α → Prop} {c : Prop} [Decidable c] {p q : Option α}
    (hp : c → ∀ a ∈ p, P a) (hq : ¬ c → ∀ a ∈ q, P a) : ∀ a ∈ (if c then p else q), P a := by
  split
  · next hc => exact hp hc
  · next hc => exact hq hc

theorem setFeature_keepsOthers (features : FeatureSet) (leaf ident : Bytes) :
    ∀ result ∈ features.setFeature leaf ident, KeepsOthers leaf features result := by
  unfold FeatureSet.setFeature
  dsimp only
  repeat' refine forall_mem_ite (fun _ => ?_) (fun _ => ?_)
  all_goals
    intro result hresult
    cases hresult
  -- an option of the four features has the name of the one that it sets
  all_goals constructor <;> intro hleaf
  all_goals first | rfl | simp_all

/-- A feature is followed if the options of its name set it as its values say, and the others leave
it. -/
theorem Feature.follows_of {α : Type} {feature : Feature α}
    (hset : ∀ (features : FeatureSet) ident, ∀ result ∈ features.setFeature feature.name ident,
      feature.get result = (feature.named ident).getD (feature.get features))
    (hkeeps : ∀ leaf features result, KeepsOthers leaf features result → leaf ≠ feature.name →
      feature.get result = feature.get features) : Feature.Follows feature := by
  intro features leaf ident result hresult
  by_cases hleaf : leaf = feature.name
  · subst hleaf
    rw [if_pos (beq_self_eq_true _)]
    exact hset features ident result hresult
  · rw [if_neg (by simpa using hleaf), Option.getD_none]
    have hkept := setFeature_keepsOthers features leaf ident result hresult
    exact hkeeps leaf features result hkept hleaf

/-- The values of a feature, tried one after the other. -/
theorem named_cons {α : Type} {name : Bytes} {get : FeatureSet → α} {text : String} {value : α}
    {rest : List (String × α)} {ident : Bytes} :
    Feature.named ⟨name, (text, value) :: rest, get⟩ ident
      = if eqlIgnoreCase ident (ascii text) then some value
        else Feature.named ⟨name, rest, get⟩ ident := by
  unfold Feature.named
  rw [List.find?_cons]
  cases eqlIgnoreCase ident (ascii text) <;> rfl

theorem fieldPresence_follows : Feature.Follows Feature.fieldPresence := by
  refine Feature.follows_of (fun features ident => ?_) (fun _ _ _ h => h.fieldPresence)
  simp only [FeatureSet.setFeature, Feature.fieldPresence, named_cons, beq_self_eq_true, if_true]
  split
  · simp
  split
  · simp
  split
  · simp
  · simp

theorem repeatedFieldEncoding_follows : Feature.Follows Feature.repeatedFieldEncoding := by
  refine Feature.follows_of (fun features ident => ?_) (fun _ _ _ h => h.repeatedFieldEncoding)
  simp +decide only [FeatureSet.setFeature, Feature.repeatedFieldEncoding, named_cons, if_true,
    if_false]
  split
  · simp
  split
  · simp
  · simp

theorem utf8Validation_follows : Feature.Follows Feature.utf8Validation := by
  refine Feature.follows_of (fun features ident => ?_) (fun _ _ _ h => h.utf8Validation)
  simp +decide only [FeatureSet.setFeature, Feature.utf8Validation, named_cons, if_true, if_false]
  split
  · simp
  split
  · simp
  · simp

theorem messageEncoding_follows : Feature.Follows Feature.messageEncoding := by
  refine Feature.follows_of (fun features ident => ?_) (fun _ _ _ h => h.messageEncoding)
  simp +decide only [FeatureSet.setFeature, Feature.messageEncoding, named_cons, if_true, if_false]
  split
  · simp
  split
  · simp
  · simp

theorem governs_of_follows {α : Type} {feature : Feature α} (h : Feature.Follows feature) :
    Governs applyFeature feature.get feature.sets := by
  intro features option result hrun
  unfold applyFeature at hrun
  unfold Feature.sets
  by_cases hfeature : isFeatureOption option.name = true
  · rw [if_pos hfeature, applyFeatureOptionValue] at hrun
    cases hident : optionAsIdentifier option.value with
    | none => simp [hident] at hrun
    | some ident =>
        cases hset : features.setFeature (optionLeaf option.name) ident with
        | none => simp [hident, hset] at hrun
        | some changed =>
            obtain rfl : changed = result := by simpa [hident, hset] using hrun
            rw [h features _ ident changed hset, hfeature, Bool.true_and, Option.bind_some]
  · rw [if_neg hfeature] at hrun
    cases hrun
    simp [hfeature]

/-! ## What an element keeps of its options -/

theorem foldlM_applyFeature_append {options : List FieldOption} {option : FieldOption}
    {features features' : FeatureSet}
    (h : options.foldlM applyFeature features = .ok features') :
    (options ++ [option]).foldlM applyFeature features = applyFeature features' option := by
  rw [List.foldlM_append, h]
  show List.foldlM applyFeature features' [option] = _
  rw [List.foldlM_cons]
  cases applyFeature features' option <;> rfl

/-- The features of an element are what its options set, and there are none without such options. -/
structure SetBy (options : List FieldOption) (features : Option FeatureSet) : Prop where
  isSome : features.isSome = options.any (fun option => isFeatureOption option.name)
  value : options.foldlM applyFeature (FeatureSet.defaults .editions)
    = .ok (features.getD (FeatureSet.defaults .editions))

/-- The packing that the options of a field ask for: the last one of either name counts. -/
def packedBy (packed : Option Bool) (option : FieldOption) : Option Bool :=
  let leaf := optionLeaf option.name
  if leaf == ascii "packed" then optionAsBool option.value
  else if leaf == ascii "repeated_field_encoding" then
    match optionAsIdentifier option.value with
    | some ident =>
        if eqlIgnoreCase ident (ascii "PACKED") then some true
        else if eqlIgnoreCase ident (ascii "EXPANDED") then some false
        else packed
    | none => packed
  else packed

def packedSetting (options : List FieldOption) : Option Bool := options.foldl packedBy none

/-- What a field keeps of its options. -/
structure FieldFeatures (field : FieldDescriptor) : Prop where
  features : SetBy field.options field.features
  packed : field.packedOverride = packedSetting field.options

theorem SetBy.nil : SetBy [] none := ⟨rfl, rfl⟩

variable {file : FileDescriptor} {options : List FieldOption} {features : Option FeatureSet}
  {option : FieldOption} {field : FieldDescriptor}

theorem SetBy.applyFeatureOption (h : SetBy options features) :
    Gives file (applyFeatureOption features option) (SetBy (options ++ [option])) := by
  unfold Parser.applyFeatureOption
  have hany : (options ++ [option]).any (fun option => isFeatureOption option.name)
      = (features.isSome || isFeatureOption option.name) := by
    rw [List.any_append, ← h.isSome]
    simp
  have hrun := @foldlM_applyFeature_append _ option _ _ h.value
  by_cases hfeature : isFeatureOption option.name = true
  · rw [if_neg (by simp [hfeature])]
    refine .get fun s _ => ?_
    by_cases hkind : s.file.fileSyntax = .editions
    · rw [if_neg (by simp [hkind]), hkind]
      refine Gives.liftError.bind fun changed hchanged => .pure ⟨?_, ?_⟩
      · rw [hany, hfeature, Bool.or_true]
        rfl
      · rw [hrun, applyFeature, if_pos hfeature, hchanged]
        rfl
    · rw [if_pos (by simp [hkind])]
      exact .fail
  · rw [if_pos (by simp [hfeature])]
    refine .pure ⟨?_, ?_⟩
    · rw [hany]
      simp [hfeature]
    · rw [hrun, applyFeature, if_neg hfeature]

/-- What an option with a member of its own changes besides. -/
theorem applyNamedFieldOption_gives {fileSyntax : Syntax} :
    Gives file (applyNamedFieldOption fileSyntax field option) (fun result =>
      result.options = field.options ∧ result.features = field.features ∧
        result.packedOverride = if optionLeaf option.name == ascii "packed" then
          optionAsBool option.value else field.packedOverride) := by
  have hname {name : String} {value : OptionValue}
      (h : (optionLeaf option.name == ascii name) = true)
      (hne : (ascii name == ascii "packed") = false) :
      field.packedOverride = if optionLeaf option.name == ascii "packed" then
        optionAsBool value else field.packedOverride := by
    rw [beq_iff_eq.mp h, hne]
    rfl
  refine .ite_cases (fun h => .ite .fail (.pure ⟨rfl, rfl, hname h (by decide)⟩)) fun _ => ?_
  refine .ite_cases (fun h => .ite .fail ?_) fun _ => ?_
  · cases option.value with
    | string text => exact .pure ⟨rfl, rfl, hname h (by decide)⟩
    | _ => exact .fail
  refine .ite_cases (fun h => .ite .fail (.pure ⟨rfl, rfl, (if_pos h).symm⟩)) fun hother => ?_
  have hkept : field.packedOverride = if optionLeaf option.name == ascii "packed" then
      optionAsBool option.value else field.packedOverride := (if_neg hother).symm
  refine .ite (.skip fun editionDefault => .pure ⟨rfl, rfl, hkept⟩) ?_
  exact .ite (.skip fun support => .pure ⟨rfl, rfl, hkept⟩) (.pure ⟨rfl, rfl, hkept⟩)

/-- Options applied so far, of a field that has all its options from the start. -/
structure Applied (all done : List FieldOption) (field : FieldDescriptor) : Prop where
  options : field.options = all
  features : SetBy done field.features
  packed : field.packedOverride = packedSetting done

theorem Applied.applyFieldOption {all done : List FieldOption} (h : Applied all done field) :
    Gives file (applyFieldOption field option) (Applied all (done ++ [option])) := by
  refine .get fun s _ => applyNamedFieldOption_gives.bind fun named hnamed => ?_
  obtain ⟨hoptions, hfeatures, hpacked⟩ := hnamed
  rw [hfeatures]
  refine h.features.applyFeatureOption.bind fun features hset => .pure ⟨?_, hset, ?_⟩
  · exact hoptions.trans h.options
  · show encodingOverride named option = _
    rw [packedSetting, List.foldl_append, ← packedSetting, ← h.packed]
    show _ = packedBy field.packedOverride option
    unfold encodingOverride packedBy
    by_cases hname : optionLeaf option.name = ascii "packed"
    · have hleaf : (ascii "packed" == ascii "repeated_field_encoding") = false := by decide
      simp only [hpacked, hname, hleaf, beq_self_eq_true, if_true, Bool.false_eq_true, if_false]
    · have hother : (optionLeaf option.name == ascii "packed") = false := by simpa using hname
      simp only [hother, Bool.false_eq_true, if_false] at hpacked ⊢
      exact hpacked ▸ rfl

theorem applyOptions_applied {all rest done : List FieldOption} (h : Applied all done field) :
    Gives file (applyOptions applyFieldOption rest field) (Applied all (done ++ rest)) := by
  induction rest generalizing field done with
  | nil =>
      rw [List.append_nil]
      exact .pure h
  | cons option rest ih =>
      refine h.applyFieldOption.bind fun field h => ?_
      rw [← List.singleton_append, ← List.append_assoc]
      exact ih h

variable [FloatConversions] {rounds : Nat}

theorem bracketedFieldOptions_features (hoptions : field.options = [])
    (hfeatures : field.features = none) (hpacked : field.packedOverride = none) :
    Gives file (bracketedFieldOptions rounds field) FieldFeatures := by
  refine .skip fun brackets => .ite (.skip fun options => ?_) (.pure ⟨?_, ?_⟩)
  · have hstart : Applied options [] { field with options := options } :=
      ⟨rfl, by rw [show ({ field with options := options } : FieldDescriptor).features = none from hfeatures]; exact .nil, hpacked⟩
    refine (applyOptions_applied hstart).imp fun result h => ?_
    rw [List.nil_append] at h
    exact ⟨h.options ▸ h.features, h.options ▸ h.packed⟩
  · rw [hoptions, hfeatures]
    exact .nil
  · rw [hoptions]
    exact hpacked

/-- The features of enums and messages are not those of fields. -/
theorem features_establishes :
    Establishes (fun _ => True) FieldFeatures (fun _ => True) (fun _ => True) where
  kind _ _ := .of_frames
  groupKind _ := trivial
  field _ _ _ _ _ _ _ _ _ _ := bracketedFieldOptions_features rfl rfl rfl
  extension _ _ _ h := ⟨h.features, h.packed⟩
  enumeration _ _ := parseEnumAfterKeyword_gives.imp fun _ _ => trivial
  name _ _ := trivial
  option _ _ _ _ := .of_frames
  oneof _ _ _ := trivial
  oneofOption _ _ _ _ := .of_frames
  body _ _ _ _ _ _ _ _ _ := trivial

/-! ## The features of the file -/

/-- The options of a file and its features. Feature options are those of an editions file only, and
its features are what they set. -/
structure FileFeatures (s : Parser) : Prop where
  declared : s.file.fileSyntax = .editions → s.sawSyntaxOrEdition = true
  plain : s.file.fileSyntax ≠ .editions →
    ∀ option ∈ s.file.options, isFeatureOption option.name = false
  set : s.file.fileSyntax = .editions →
    s.file.options.foldlM applyFeature (FeatureSet.defaults .editions) = .ok s.file.features

/-- The file keeps its syntax, its options and its features. -/
structure SameOptions (file file' : FileDescriptor) : Prop where
  fileSyntax : file'.fileSyntax = file.fileSyntax
  options : file'.options = file.options
  features : file'.features = file.features

variable {s s' : Parser}

omit [FloatConversions] in
theorem FileFeatures.congr (h : FileFeatures s) (hfollows : Follows s s')
    (hsame : SameOptions s.file s'.file) : FileFeatures s' := by
  obtain ⟨hkind, hoptions, hfeatures⟩ := hsame
  refine ⟨?_, ?_, ?_⟩
  · rw [hkind]
    exact fun hedition => hfollows.declared (h.declared hedition)
  · rw [hkind, hoptions]
    exact h.plain
  · rw [hkind, hoptions, hfeatures]
    exact h.set

omit [FloatConversions] in
/-- Options that are no feature options leave the defaults. -/
theorem foldlM_applyFeature_plain {options : List FieldOption} {features : FeatureSet}
    (h : ∀ option ∈ options, isFeatureOption option.name = false) :
    options.foldlM applyFeature features = .ok features := by
  induction options with
  | nil => rfl
  | cons option rest ih =>
      rw [List.forall_mem_cons] at h
      rw [List.foldlM_cons, applyFeature, if_neg (by simp [h.1])]
      exact ih h.2

omit [FloatConversions] in
/-- White space is taken off the ends only. -/
theorem isPrefixOf_trimSpace {name : Bytes} (h : (ascii "features.").isPrefixOf name = true) :
    isFeatureOption name = true := by
  obtain ⟨rest, rfl⟩ := List.isPrefixOf_iff_prefix.mp h
  refine List.isPrefixOf_iff_prefix.mpr ?_
  unfold trimSpace
  dsimp only
  have hfront : (ascii "features." ++ rest).dropWhile (fun b =>
      b == 0x20 || b == 0x09 || b == 0x0d || b == 0x0a) = ascii "features." ++ rest := rfl
  have hback : (ascii "features.").reverse.dropWhile (fun b =>
      b == 0x20 || b == 0x09 || b == 0x0d || b == 0x0a) = (ascii "features.").reverse := rfl
  rw [hfront, List.reverse_append, List.dropWhile_append, hback]
  split
  · rw [List.reverse_reverse]
  · rw [List.reverse_append, List.reverse_reverse]
    exact List.prefix_append _ _

omit [FloatConversions] in
/-- An option that is added to the file is the last of its options. -/
theorem addFileOption_features (h : FileFeatures s) :
    wp (addFileOption option) (fun _ s' => FileFeatures s') (fun _ => True) s := by
  unfold addFileOption
  by_cases hfeature : isFeatureOption option.name = true
  · rw [if_pos hfeature, wp_bind, wp_get]
    by_cases hkind : s.file.fileSyntax = .editions
    · rw [if_neg (by simp [hkind]), wp_bind]
      cases hvalue : applyFeatureOptionValue s.file.features option with
      | error e => exact trivial
      | ok features =>
          refine ⟨h.declared, fun hplain => absurd hkind hplain, fun _ => ?_⟩
          show List.foldlM applyFeature _ (s.file.options ++ [option]) = .ok features
          rw [foldlM_applyFeature_append (h.set hkind), applyFeature, if_pos hfeature]
          exact hvalue
    · rw [if_pos (by simp [hkind])]
      exact trivial
  · have hkept : s.file.addOption option
        = { s.file with options := s.file.options ++ [option] } := by
      have hprefix : (ascii "features.").isPrefixOf option.name = false := by
        by_contra hprefix
        exact hfeature (isPrefixOf_trimSpace (by simpa using hprefix))
      rw [FileDescriptor.addOption, hprefix]
      rfl
    rw [if_neg hfeature]
    show FileFeatures { s with file := s.file.addOption option }
    rw [hkept]
    refine ⟨h.declared, fun hkind => ?_, fun hkind => ?_⟩
    · refine List.forall_mem_append.mpr ⟨h.plain hkind, ?_⟩
      simpa using hfeature
    · show List.foldlM applyFeature _ (s.file.options ++ [option]) = .ok s.file.features
      rw [foldlM_applyFeature_append (h.set hkind), applyFeature, if_neg hfeature]

omit [FloatConversions] in
theorem wp_declareSyntax {post : Unit → Parser → Prop}
    (h : s.sawSyntaxOrEdition = false → post () { s with sawSyntaxOrEdition := true }) :
    wp declareSyntax post (fun _ => True) s := by
  unfold declareSyntax
  rw [wp_bind, wp_get]
  cases hsaw : s.sawSyntaxOrEdition with
  | true => exact trivial
  | false => exact h hsaw

omit [FloatConversions] in
theorem parseSyntax_features (h : FileFeatures s) (hstand : s.Standing) :
    wp (parseSyntax rounds) (fun _ s' => FileFeatures s') (fun _ => True) s := by
  unfold parseSyntax
  rw [wp_bind]
  refine wp_declareSyntax fun hsaw => ?_
  have hkind : s.file.fileSyntax ≠ .editions := fun hedition => by
    rw [h.declared hedition] at hsaw
    cases hsaw
  have hset {fileSyntax : Syntax} (hne : fileSyntax ≠ .editions) : Changes s.file
      (modifyFile (·.setSyntax fileSyntax) >>= fun _ => expectSymbol 0x3b)
      (fun file => file.fileSyntax ≠ .editions ∧ file.options = s.file.options) :=
    .modify_skip ⟨hne, rfl⟩
  refine wp_mono ((?_ : Changes s.file _ (fun file => file.fileSyntax ≠ .editions ∧
    file.options = s.file.options))
    { s with sawSyntaxOrEdition := true } rfl hstand) ?_ (fun _ h => h)
  · refine .skip fun _ => .skip fun fileSyntax => ?_
    exact .ite (hset (by decide)) (.ite (hset (by decide)) .fail)
  rintro _ s' ⟨-, hne, hoptions⟩
  refine ⟨fun hedition => absurd hedition hne, fun _ => ?_, fun hedition => absurd hedition hne⟩
  rw [hoptions]
  exact h.plain hkind

omit [FloatConversions] in
theorem parseEdition_features (h : FileFeatures s) (hstand : s.Standing) :
    wp (parseEdition rounds) (fun _ s' => FileFeatures s') (fun _ => True) s := by
  unfold parseEdition
  rw [wp_bind]
  refine wp_declareSyntax fun hsaw => ?_
  have hkind : s.file.fileSyntax ≠ .editions := fun hedition => by
    rw [h.declared hedition] at hsaw
    cases hsaw
  refine wp_mono ((?_ : Changes s.file _ (fun file => file.fileSyntax = .editions ∧
    file.options = s.file.options ∧ file.features = FeatureSet.defaults .editions))
    { s with sawSyntaxOrEdition := true } rfl hstand) ?_ (fun _ h => h)
  · refine .skip fun _ => .skip fun editionText => ?_
    cases Edition.fromYear editionText with
    | none => exact .fail
    | some edition => exact .modify_skip ⟨rfl, rfl, rfl⟩
  rintro _ s' ⟨hfollows, hedition, hoptions, hfeatures⟩
  refine ⟨fun _ => hfollows.declared rfl, fun hne => absurd hedition hne, fun _ => ?_⟩
  rw [hoptions, hfeatures]
  exact foldlM_applyFeature_plain (h.plain hkind)

omit [FloatConversions] in
/-- A program behind a matched word that does not touch the options. -/
theorem Changes.wp_features {p : Parse Unit} (hp : Changes s.file p (SameOptions s.file))
    (h : FileFeatures s) (s' : Parser) (hfile : s'.file = s.file) (hfollows : Follows s s') :
    wp p (fun _ s' => FileFeatures s') (fun _ => True) s' :=
  wp_mono (hp s' hfile hfollows.standing)
    (fun _ _ hs => h.congr (hfollows.trans hs.1) hs.2) (fun _ h => h)

/-- A declaration is an option of the file, its syntax, or nothing of the kind. -/
theorem parseDeclaration_features (h : FileFeatures s) (hstand : s.Standing) :
    wp (parseDeclaration rounds) (fun _ s' => FileFeatures s') (fun _ => True) s := by
  have hhere (s' : Parser) (hfile : s'.file = s.file) (hfollows : Follows s s') :
      FileFeatures s' := h.congr hfollows (hfile ▸ ⟨rfl, rfl, rfl⟩)
  refine wp_matchIdent hstand (fun _ s' hfile hfollows => ?_)
    (wp_matchIdent hstand (fun _ s' hfile hfollows => ?_) ?_)
  · exact parseSyntax_features (hhere s' hfile hfollows) hfollows.standing
  · exact parseEdition_features (hhere s' hfile hfollows) hfollows.standing
  refine wp_matchIdent hstand (fun _ => ?_) (wp_matchIdent hstand (fun _ => ?_) ?_)
  · exact Changes.wp_features (.skip fun package => .modify_skip ⟨rfl, rfl, rfl⟩) h
  · exact Changes.wp_features
      (.skip fun _ => .skip fun _ => .skip fun _ => .modify ⟨rfl, rfl, rfl⟩) h
  refine wp_matchIdent hstand (fun _ s' hfile hfollows => ?_)
    (wp_matchIdent hstand (fun _ => ?_) ?_)
  · rw [wp_bind]
    refine wp_mono (Frames.frame s' hfollows.standing) ?_ (fun _ h => h)
    rintro option s'' ⟨hfile', hfollows'⟩
    exact addFileOption_features
      (hhere s'' (hfile'.trans hfile) (hfollows.trans hfollows'))
  · refine Changes.wp_features (.get fun s₁ _ => ?_) h
    exact .bind ((features_establishes.parseMessage_messageBody rounds).1 _)
      fun message _ => .modify ⟨rfl, rfl, rfl⟩
  refine wp_matchIdent hstand (fun _ => ?_) (wp_matchIdent hstand (fun _ => ?_) ?_)
  · exact Changes.wp_features
      (.bind parseEnumAfterKeyword_gives fun _ _ => .modify ⟨rfl, rfl, rfl⟩) h
  · exact Changes.wp_features
      (.bind features_establishes.parseExtend fun _ _ => .modify ⟨rfl, rfl, rfl⟩) h
  refine wp_matchIdent hstand (fun _ => ?_) ?_
  · exact Changes.wp_features (.skip fun service => .modify ⟨rfl, rfl, rfl⟩) h
  · refine wp_mono (Frames.frame s hstand) ?_ (fun _ h => h)
    rintro _ s' ⟨hfile, hfollows⟩
    exact hhere s' hfile hfollows

variable {input : Bytes}

theorem Reached.fileFeatures (hs : Reached input rounds s) : FileFeatures s := by
  induction hs with
  | start hstart => exact ⟨by simp, by simp, by simp⟩
  | declaration hs hne hrun ih =>
      have hfile := post_of_wp (parseDeclaration_features ih hs.standing) hrun
      exact hfile

end Parser

end Pbz
