import Pbz.Descriptor.Checks
import Pbz.Descriptor.Options
import Pbz.Dynamic.Value
import Pbz.Lib.Closest

set_option autoImplicit false

/-! # Feature defaults

A `FeatureSetDefaults` message lists the default features by the edition that introduced them.
Encoding and decoding check that the editions ascend, and `defaultsForEdition` relies on it: it
stops at the first entry above the edition it is asked for.
-/

namespace Pbz

structure FeatureSetEditionDefault where
  edition : Edition := .unknown
  overridableFeatures : Option FeatureSet := none
  fixedFeatures : Option FeatureSet := none
  deriving DecidableEq, Repr

structure FeatureSetDefaults where
  defaults : List FeatureSetEditionDefault := []
  minimumEdition : Option Edition := none
  maximumEdition : Option Edition := none
  deriving DecidableEq, Repr

namespace FeatureSetDefaults

def defaultsForEdition (self : FeatureSetDefaults) (edition : Edition) :
    Option FeatureSetEditionDefault :=
  if edition = .unknown then none
  else if self.minimumEdition.any (fun minimum => edition.number < minimum.number) then none
  else if self.maximumEdition.any (fun maximum => edition.number > maximum.number) then none
  else closestEntry edition.number none self.defaults
where
  /-- The loop over the entries. -/
  closestEntry (requested : Int) (closest : Option FeatureSetEditionDefault) :
      List FeatureSetEditionDefault → Option FeatureSetEditionDefault
    | [] => closest
    | entry :: rest =>
        if entry.edition = .unknown ∨ entry.edition.number > requested then closest
        else closestEntry requested (some entry) rest

end FeatureSetDefaults

namespace Descriptor

/-! ## The check -/

/-- The loop of `validateFeatureSetDefaults`. -/
def validateEntries (previous : Option Edition) : List FeatureSetEditionDefault → Except Error Unit
  | [] => .ok ()
  | entry :: rest => do
      refuse (entry.edition == .unknown)
      refuse (previous.any (fun previous => entry.edition.number ≤ previous.number))
      validateEntries (some entry.edition) rest

def validateFeatureSetDefaults (defaults : FeatureSetDefaults) : Except Error Unit := do
  validateEntries none defaults.defaults
  match defaults.minimumEdition, defaults.maximumEdition with
  | some minimum, some maximum => do
      refuse (minimum == .unknown)
      refuse (maximum == .unknown)
      refuse (minimum.number > maximum.number)
  | some minimum, none => refuse (minimum == .unknown)
  | none, some maximum => refuse (maximum == .unknown)
  | none, none => .ok ()

/-! ## Encoding -/

/-- What a writer appends, its error among those of encoding. -/
def writing (written : Except Pbz.Error Bytes) : Except Error Bytes := written.mapError .wire

def writeInt32 (number : Nat) (value : BitVec 32) : Except Error Bytes :=
  writing ((writeTag number .varint).map (· ++ writeVarintInt32 value))

/-- `@intFromEnum` -/
def editionNumber (edition : Edition) : BitVec 32 := .ofInt 32 edition.number

/-- The numbers that `writeFeatureSet` writes, by the field. -/
def featureNumbers (features : FeatureSet) : List (Nat × BitVec 32) :=
  [(1, match features.fieldPresence with
      | .explicit => 1
      | .implicit => 2
      | .legacyRequired => 3),
    (2, match features.enumType with
      | .open => 1
      | .closed => 2),
    (3, match features.repeatedFieldEncoding with
      | .packedEncoding => 1
      | .expanded => 2),
    (4, match features.utf8Validation with
      | .verify => 2
      | .none => 3),
    (5, match features.messageEncoding with
      | .lengthPrefixed => 1
      | .delimited => 2),
    (6, match features.jsonFormat with
      | .allow => 1
      | .legacyBestEffort => 2),
    (7, match features.enforceNamingStyle with
      | .style2024 => 1
      | .styleLegacy => 2
      | .style2026 => 3),
    (8, match features.defaultSymbolVisibility with
      | .exportAll => 1
      | .exportTopLevel => 2
      | .localAll => 3
      | .strict => 4),
    (9, match features.enforceProtoLimits with
      | .legacyNoExplicitLimits => 1
      | .protoLimits2026 => 2)]

/-- The writes in a row. -/
def writeAll {α : Type} (write : α → Except Error Bytes) : List α → Except Error Bytes
  | [] => .ok []
  | x :: rest => do return (← write x) ++ (← writeAll write rest)

def writeFeatureSet (features : FeatureSet) (fieldNumber : Nat) : Except Error Bytes := do
  let payload ← writeAll (fun field => writeInt32 field.1 field.2) (featureNumbers features)
  writing (writeMessage fieldNumber payload)

/-- A field that is written if it is there. -/
def writeOptional {α : Type} (write : α → Except Error Bytes) : Option α → Except Error Bytes
  | none => .ok []
  | some x => write x

/-- The edition of an entry is not written if it is unknown. -/
def writeEdition (edition : Edition) : Except Error Bytes :=
  if edition = .unknown then .ok [] else writeInt32 3 (editionNumber edition)

def writeFeatureSetEditionDefault (entry : FeatureSetEditionDefault) (fieldNumber : Nat) :
    Except Error Bytes := do
  let edition ← writeEdition entry.edition
  let overridable ← writeOptional (fun features => writeFeatureSet features 4)
    entry.overridableFeatures
  let fixed ← writeOptional (fun features => writeFeatureSet features 5) entry.fixedFeatures
  writing (writeMessage fieldNumber (edition ++ overridable ++ fixed))

def writeFeatureSetDefaults (defaults : FeatureSetDefaults) : Except Error Bytes := do
  validateFeatureSetDefaults defaults
  let entries ← writeAll (fun entry => writeFeatureSetEditionDefault entry 1) defaults.defaults
  let minimum ← writeOptional (fun edition => writeInt32 4 (editionNumber edition))
    defaults.minimumEdition
  let maximum ← writeOptional (fun edition => writeInt32 5 (editionNumber edition))
    defaults.maximumEdition
  return entries ++ minimum ++ maximum

def encodeFeatureSetDefaults (defaults : FeatureSetDefaults) : Except Error Bytes :=
  writeFeatureSetDefaults defaults

/-! ## Decoding -/

def editionDefaultFields : List (Nat × Known FeatureSetEditionDefault) :=
  [(3, .int32 fun entry number => do return { entry with edition := ← editionFromInt number }),
    (4, featureSetField fun entry features => { entry with overridableFeatures := some features }),
    (5, featureSetField fun entry features => { entry with fixedFeatures := some features })]

def decodeFeatureSetEditionDefault (bytes : Bytes) : Reading FeatureSetEditionDefault :=
  (decodeFields .featureSetEditionDefault editionDefaultFields {} bytes).andThen fun entry => do
    refuse (entry.edition == .unknown)
    return entry

def featureDefaultsFields : List (Nat × Known FeatureSetDefaults) :=
  [(1, .message (nested decodeFeatureSetEditionDefault fun defaults entry =>
      .ok { defaults with defaults := defaults.defaults ++ [entry] })),
    (4, .int32 fun defaults number => do
      return { defaults with minimumEdition := some (← editionFromInt number) }),
    (5, .int32 fun defaults number => do
      return { defaults with maximumEdition := some (← editionFromInt number) })]

def decodeFeatureSetDefaults (bytes : Bytes) : Reading FeatureSetDefaults :=
  (decodeFields .featureSetDefaults featureDefaultsFields {} bytes).andThen fun defaults => do
    validateFeatureSetDefaults defaults
    return defaults

/-! ## Written fields are read -/

section

variable {σ α : Type} {type : DescriptorType} {known : List (Nat × Known σ)}

/-- Over these bytes, whatever follows, the decode loop goes from the one state to the other. -/
def Passes (type : DescriptorType) (known : List (Nat × Known σ)) (state : σ) (bytes : Bytes)
    (state' : σ) : Prop :=
  ∀ log rest, ∃ log', Loop.run (fieldPass type known) (state, log) (bytes ++ rest)
    = Loop.run (fieldPass type known) (state', log') rest

theorem Passes.nil (state : σ) : Passes type known state [] state := fun log _ => ⟨log, rfl⟩

theorem Passes.append {state state' : σ} (middle : σ) {bytes bytes' : Bytes}
    (hfirst : Passes type known state bytes middle)
    (hsecond : Passes type known middle bytes' state') :
    Passes type known state (bytes ++ bytes') state' := by
  intro log rest
  obtain ⟨log', hrun⟩ := hfirst log (bytes' ++ rest)
  obtain ⟨log'', hrun'⟩ := hsecond log' rest
  exact ⟨log'', by rw [List.append_assoc, hrun, hrun']⟩

/-- A loop over bytes that it passes ends in the state that it has come to. -/
theorem decodeFields_of_passes {init state : σ} {bytes : Bytes}
    (h : Passes type known init bytes state) :
    ∃ log, decodeFields type known init bytes = .ok (state, log) := by
  obtain ⟨log, hrun⟩ := h [.message bytes] []
  rw [List.append_nil] at hrun
  have hend : Loop.run (fieldPass type known) (state, log) [] = ((state, log), .ok []) :=
    Loop.run_of_done (by rw [fieldPass, nextTag_nil])
  exact ⟨log, by rw [decodeFields, hrun, hend]⟩

/-- One field: its tag is read, and the value as the field that the loop knows. -/
theorem Passes.field {state state' : σ} {number : Nat} {wireType : WireType} {payload : Bytes}
    {field : Known σ} (log : Log) (hnumber : ValidNumber number)
    (hknown : known.lookup number = some field)
    (hread : ∀ rest, field.read wireType state (payload ++ rest) = .ok ((state', log), rest)) :
    Passes type known state (writeVarint (number * 8 + wireType.toNat) ++ payload) state' := by
  intro before rest
  refine ⟨before ++ .field type number wireType :: log,
    Loop.run_of_next (fieldPass_consuming type known) ?_⟩
  rw [List.append_assoc, fieldPass, nextTag_tag hnumber]
  simp only [hknown, hread]

/-- A written integer is stored. -/
theorem Passes.int32 {state state' : σ} {number : Nat} {value : BitVec 32} {bytes : Bytes}
    {store : σ → BitVec 32 → Except Error σ} (hnumber : ValidNumber number)
    (hknown : known.lookup number = some (.int32 store)) (hstore : store state value = .ok state')
    (hbytes : writeInt32 number value = .ok bytes) : Passes type known state bytes state' := by
  rw [writeInt32, writeTag_eq hnumber] at hbytes
  rw [← Except.ok.inj hbytes]
  refine Passes.field [] hnumber hknown fun rest => ?_
  obtain ⟨raw, hraw, hvalue⟩ : ∃ raw, readVarint (writeVarintInt32 value ++ rest) = .ok (raw, rest)
      ∧ BitVec.ofNat 32 raw = value := by
    have hread := readInt32_writeVarintInt32 value rest
    rw [readInt32] at hread
    cases hr : readVarint (writeVarintInt32 value ++ rest) with
    | error e =>
        rw [hr] at hread
        cases hread
    | ok read =>
        rw [hr] at hread
        simp only [ReadResult.map, Except.ok.injEq, Prod.mk.injEq] at hread
        exact ⟨read.1, by rw [← hread.2], hread.1⟩
  simp only [Known.int32, Known.read, reading, hraw, bind, Except.bind, pure, Except.pure, hvalue,
    hstore]

/-- A written message is decoded. -/
theorem Passes.message {state state' : σ} {number : Nat} {payload bytes : Bytes} (log : Log)
    {decode : σ → Bytes → Reading σ} (hnumber : ValidNumber number)
    (hknown : known.lookup number = some (.message decode)) (hlength : payload.length < 2 ^ 64)
    (hdecode : decode state payload = .ok (state', log))
    (hbytes : writing (writeMessage number payload) = .ok bytes) :
    Passes type known state bytes state' := by
  rw [writeMessage, writeBytes, writeTag_eq hnumber] at hbytes
  rw [← Except.ok.inj hbytes]
  refine Passes.field log hnumber hknown fun rest => ?_
  simp only [Known.read, reading, readBytes_lengthPrefixed hlength, bind, Except.bind, pure,
    Except.pure, hdecode]

/-- Written elements are stored one after the other. -/
theorem Passes.all {write : α → Except Error Bytes} {next : σ → α → σ} {xs : List α}
    {state state' : σ} {bytes : Bytes}
    (hstep : ∀ x ∈ xs, ∀ state written, write x = .ok written →
      Passes type known state written (next state x))
    (hfold : xs.foldl next state = state') (hbytes : writeAll write xs = .ok bytes) :
    Passes type known state bytes state' := by
  subst hfold
  induction xs generalizing state bytes with
  | nil =>
      rw [← Except.ok.inj hbytes]
      exact .nil state
  | cons x rest ih =>
      obtain ⟨written, hwritten, hbytes⟩ := Check.of_bind_eq_ok hbytes
      obtain ⟨others, hothers, hbytes⟩ := Check.of_bind_eq_ok hbytes
      rw [← Except.ok.inj hbytes]
      exact .append _ (hstep x List.mem_cons_self state written hwritten)
        (ih (fun y hy => hstep y (List.mem_cons_of_mem _ hy)) hothers)

/-- A field that is there is stored, one that is not leaves the state. -/
theorem Passes.optional {write : α → Except Error Bytes} {x? : Option α} {next : α → σ}
    {state state' : σ} {bytes : Bytes}
    (hstep : ∀ x written, write x = .ok written → Passes type known state written (next x))
    (hnext : x?.elim state next = state') (hbytes : writeOptional write x? = .ok bytes) :
    Passes type known state bytes state' := by
  subst hnext
  cases x? with
  | none =>
      rw [← Except.ok.inj hbytes]
      exact .nil state
  | some x => exact hstep x bytes hbytes

end

/-! ## Lengths -/

theorem writeVarint_length_le_ten {v : Nat} (h : v < 2 ^ 64) : (writeVarint v).length ≤ 10 := by
  by_cases h0 : v = 0
  · subst h0
    decide
  · have hlog : Nat.log2 v < 64 := (Nat.log2_lt h0).mpr h
    rw [writeVarint, varintLadder_length 9 v (by omega) (by omega)]
    omega

theorem writeInt32_length {number : Nat} {value : BitVec 32} {bytes : Bytes}
    (hnumber : ValidNumber number) (h : writeInt32 number value = .ok bytes) :
    bytes.length ≤ 15 := by
  rw [writeInt32, writeTag_eq hnumber] at h
  have htag := writeVarint_length_le_five (tag_lt hnumber .varint)
  have hvalue : (writeVarintInt32 value).length ≤ 10 := writeVarint_length_le_ten (BitVec.isLt _)
  rw [← Except.ok.inj h, List.length_append]
  omega

theorem writeAll_length {α : Type} {write : α → Except Error Bytes} {size : Nat} {xs : List α}
    {bytes : Bytes}
    (hwrite : ∀ x ∈ xs, ∀ written, write x = .ok written → written.length ≤ size)
    (h : writeAll write xs = .ok bytes) : bytes.length ≤ size * xs.length := by
  induction xs generalizing bytes with
  | nil =>
      rw [← Except.ok.inj h]
      exact Nat.zero_le _
  | cons x rest ih =>
      obtain ⟨written, hwritten, h⟩ := Check.of_bind_eq_ok h
      obtain ⟨others, hothers, h⟩ := Check.of_bind_eq_ok h
      have hx := hwrite x List.mem_cons_self written hwritten
      have hrest := ih (fun y hy => hwrite y (List.mem_cons_of_mem _ hy)) hothers
      rw [← Except.ok.inj h, List.length_append, List.length_cons, Nat.mul_succ]
      omega

theorem writeMessage_length {number : Nat} {payload bytes : Bytes} (hnumber : ValidNumber number)
    (hlength : payload.length < 2 ^ 64) (h : writing (writeMessage number payload) = .ok bytes) :
    bytes.length ≤ 15 + payload.length := by
  rw [writeMessage, writeBytes, writeTag_eq hnumber] at h
  have htag := writeVarint_length_le_five (tag_lt hnumber .lengthDelimited)
  have hprefix := writeVarint_length_le_ten hlength
  rw [← Except.ok.inj h, List.length_append, lengthPrefixed, List.length_append]
  omega

theorem writeOptional_length {α : Type} {write : α → Except Error Bytes} {size : Nat}
    {x? : Option α} {bytes : Bytes} (hwrite : ∀ x written, write x = .ok written →
      written.length ≤ size) (h : writeOptional write x? = .ok bytes) : bytes.length ≤ size := by
  cases x? with
  | none =>
      rw [← Except.ok.inj h]
      exact Nat.zero_le _
  | some x => exact hwrite x bytes h

/-! ## A feature set is read back -/

theorem featureNumbers_valid (features : FeatureSet) :
    ∀ field ∈ featureNumbers features, ValidNumber field.1 := by
  have hnumbers : (featureNumbers features).map Prod.fst = [1, 2, 3, 4, 5, 6, 7, 8, 9] := rfl
  intro field hfield
  have hmem : field.1 ∈ [1, 2, 3, 4, 5, 6, 7, 8, 9] := by
    rw [← hnumbers]
    exact List.mem_map_of_mem hfield
  have hvalid : ∀ number ∈ [1, 2, 3, 4, 5, 6, 7, 8, 9], ValidNumber number := by decide
  exact hvalid field.1 hmem

/-- The feature of this number as in another feature set. -/
def takeFeature (features state : FeatureSet) (number : Nat) : FeatureSet :=
  match number with
  | 1 => { state with fieldPresence := features.fieldPresence }
  | 2 => { state with enumType := features.enumType }
  | 3 => { state with repeatedFieldEncoding := features.repeatedFieldEncoding }
  | 4 => { state with utf8Validation := features.utf8Validation }
  | 5 => { state with messageEncoding := features.messageEncoding }
  | 6 => { state with jsonFormat := features.jsonFormat }
  | 7 => { state with enforceNamingStyle := features.enforceNamingStyle }
  | 8 => { state with defaultSymbolVisibility := features.defaultSymbolVisibility }
  | _ => { state with enforceProtoLimits := features.enforceProtoLimits }

theorem decodeFeatureSet_payload {features : FeatureSet} {payload : Bytes}
    (h : writeAll (fun field => writeInt32 field.1 field.2) (featureNumbers features)
      = .ok payload) :
    ∃ log, decodeFeatureSet payload = .ok (features, log) := by
  have hfold : (featureNumbers features).foldl
      (fun state field => takeFeature features state field.1) {} = features := by
    cases features
    rfl
  refine decodeFields_of_passes
    (Passes.all (fun field hfield state written hwritten => ?_) hfold h)
  have hnumber := featureNumbers_valid features field hfield
  simp only [featureNumbers, List.mem_cons, List.not_mem_nil, or_false] at hfield
  rcases hfield with rfl | rfl | rfl | rfl | rfl | rfl | rfl | rfl | rfl
  · refine Passes.int32 hnumber rfl ?_ hwritten
    cases hfeature : features.fieldPresence <;> simp [takeFeature, List.lookup_cons, hfeature]
  · refine Passes.int32 hnumber rfl ?_ hwritten
    cases hfeature : features.enumType <;> simp [takeFeature, List.lookup_cons, hfeature]
  · refine Passes.int32 hnumber rfl ?_ hwritten
    cases hfeature : features.repeatedFieldEncoding <;> simp [takeFeature, List.lookup_cons, hfeature]
  · refine Passes.int32 hnumber rfl ?_ hwritten
    cases hfeature : features.utf8Validation <;> simp [takeFeature, List.lookup_cons, hfeature]
  · refine Passes.int32 hnumber rfl ?_ hwritten
    cases hfeature : features.messageEncoding <;> simp [takeFeature, List.lookup_cons, hfeature]
  · refine Passes.int32 hnumber rfl ?_ hwritten
    cases hfeature : features.jsonFormat <;> simp [takeFeature, List.lookup_cons, hfeature]
  · refine Passes.int32 hnumber rfl ?_ hwritten
    cases hfeature : features.enforceNamingStyle <;> simp [takeFeature, List.lookup_cons, hfeature]
  · refine Passes.int32 hnumber rfl ?_ hwritten
    cases hfeature : features.defaultSymbolVisibility <;> simp [takeFeature, List.lookup_cons, hfeature]
  · refine Passes.int32 hnumber rfl ?_ hwritten
    cases hfeature : features.enforceProtoLimits <;> simp [takeFeature, List.lookup_cons, hfeature]

theorem featurePayload_length {features : FeatureSet} {payload : Bytes}
    (h : writeAll (fun field => writeInt32 field.1 field.2) (featureNumbers features)
      = .ok payload) : payload.length ≤ 15 * 9 :=
  writeAll_length (fun field hfield _ hwritten =>
    writeInt32_length (featureNumbers_valid features field hfield) hwritten) h

theorem writeFeatureSet_length {features : FeatureSet} {fieldNumber : Nat} {bytes : Bytes}
    (hnumber : ValidNumber fieldNumber) (h : writeFeatureSet features fieldNumber = .ok bytes) :
    bytes.length ≤ 150 := by
  obtain ⟨payload, hpayload, h⟩ := Check.of_bind_eq_ok h
  have hlength := featurePayload_length hpayload
  have hmessage := writeMessage_length hnumber (by omega) h
  omega

/-- A written feature set is decoded and stored. -/
theorem Passes.featureSet {σ : Type} {type : DescriptorType} {known : List (Nat × Known σ)}
    {state : σ} {number : Nat} {features : FeatureSet} {bytes : Bytes}
    {set : σ → FeatureSet → σ} (hnumber : ValidNumber number)
    (hknown : known.lookup number = some (featureSetField set))
    (hbytes : writeFeatureSet features number = .ok bytes) :
    Passes type known state bytes (set state features) := by
  obtain ⟨payload, hpayload, hbytes⟩ := Check.of_bind_eq_ok hbytes
  have hlength := featurePayload_length hpayload
  obtain ⟨log, hdecode⟩ := decodeFeatureSet_payload hpayload
  refine Passes.message log hnumber hknown (by omega) ?_ hbytes
  simp only [nested, Reading.andThen, hdecode]

/-! ## The defaults are read back -/

theorem editionFromInt_editionNumber (edition : Edition) :
    editionFromInt (editionNumber edition) = .ok edition := by
  cases edition <;> decide

/-- A written edition is stored. -/
theorem Passes.edition {σ : Type} {type : DescriptorType} {known : List (Nat × Known σ)}
    {state : σ} {number : Nat} {edition : Edition} {bytes : Bytes} {set : σ → Edition → σ}
    (hnumber : ValidNumber number)
    (hknown : known.lookup number
      = some (.int32 fun state number => do return set state (← editionFromInt number)))
    (hbytes : writeInt32 number (editionNumber edition) = .ok bytes) :
    Passes type known state bytes (set state edition) := by
  refine .int32 hnumber hknown ?_ hbytes
  rw [editionFromInt_editionNumber]
  rfl

/-- A written entry is decoded, whatever message it stands in. -/
theorem decodeEntry_payload {entry : FeatureSetEditionDefault} {number : Nat} {bytes : Bytes}
    (hedition : entry.edition ≠ .unknown)
    (h : writeFeatureSetEditionDefault entry number = .ok bytes) :
    ∃ payload log, payload.length < 2 ^ 64 ∧ writing (writeMessage number payload) = .ok bytes
      ∧ decodeFeatureSetEditionDefault payload = .ok (entry, log) := by
  obtain ⟨edition, hwritten, h⟩ := Check.of_bind_eq_ok h
  obtain ⟨overridable, hoverridable, h⟩ := Check.of_bind_eq_ok h
  obtain ⟨fixed, hfixed, h⟩ := Check.of_bind_eq_ok h
  rw [writeEdition, if_neg hedition] at hwritten
  have hlength : (edition ++ overridable ++ fixed).length < 2 ^ 64 := by
    have h3 := writeInt32_length (by decide) hwritten
    have h4 := writeOptional_length
      (fun _ _ hfeatures => writeFeatureSet_length (by decide) hfeatures) hoverridable
    have h5 := writeOptional_length
      (fun _ _ hfeatures => writeFeatureSet_length (by decide) hfeatures) hfixed
    rw [List.length_append, List.length_append]
    omega
  have hpasses : Passes .featureSetEditionDefault editionDefaultFields {}
      (edition ++ overridable ++ fixed) entry := by
    refine Passes.append { entry with fixedFeatures := none }
      (Passes.append { edition := entry.edition } ?_ ?_) ?_
    · exact @Passes.edition FeatureSetEditionDefault _ _ _ 3 _ _
        (fun entry edition => { entry with edition }) (by decide) rfl hwritten
    · refine .optional (fun features written hfeatures => .featureSet (by decide) rfl hfeatures)
        ?_ hoverridable
      cases entry.overridableFeatures <;> rfl
    · refine .optional (fun features written hfeatures => .featureSet (by decide) rfl hfeatures)
        ?_ hfixed
      cases entry with
      | mk edition overridable fixed => cases fixed <;> rfl
  obtain ⟨log, hdecode⟩ := decodeFields_of_passes hpasses
  refine ⟨_, log, hlength, h, ?_⟩
  rw [decodeFeatureSetEditionDefault, hdecode]
  simp [Reading.andThen, refuse, Check.reject, hedition]

theorem appendEntries_eq (defaults : FeatureSetDefaults)
    (entries : List FeatureSetEditionDefault) :
    entries.foldl (fun defaults entry =>
        { defaults with defaults := defaults.defaults ++ [entry] }) defaults
      = { defaults with defaults := defaults.defaults ++ entries } := by
  induction entries generalizing defaults with
  | nil => rw [List.foldl_nil, List.append_nil]
  | cons entry rest ih =>
      rw [List.foldl_cons, ih, List.append_assoc]
      rfl

/-- What the loop of the check says of the entries. -/
theorem of_validateEntries {previous : Option Edition} {entries : List FeatureSetEditionDefault}
    (h : validateEntries previous entries = .ok ()) :
    (∀ entry ∈ entries, entry.edition ≠ .unknown)
      ∧ (∀ edition, previous = some edition →
          ∀ entry ∈ entries, edition.number < entry.edition.number)
      ∧ Closest.Ascending (fun entry => entry.edition.number) entries := by
  induction entries generalizing previous with
  | nil => exact ⟨by simp, by simp, List.Pairwise.nil⟩
  | cons entry rest ih =>
      simp only [validateEntries, refuse, Check.bind_eq_ok, Check.reject_eq_ok] at h
      obtain ⟨hknown, hprevious, hrest⟩ := h
      obtain ⟨hothers, habove, hascending⟩ := ih hrest
      have hknown : entry.edition ≠ .unknown := by simpa using hknown
      refine ⟨List.forall_mem_cons.mpr ⟨hknown, hothers⟩, ?_,
        List.pairwise_cons.mpr ⟨habove _ rfl, hascending⟩⟩
      rintro edition rfl
      have hfirst : edition.number < entry.edition.number := by simpa using hprevious
      exact List.forall_mem_cons.mpr
        ⟨hfirst, fun other hother => hfirst.trans (habove _ rfl other hother)⟩

theorem decodeFeatureSetDefaults_encodeFeatureSetDefaults {defaults : FeatureSetDefaults}
    {bytes : Bytes} (h : encodeFeatureSetDefaults defaults = .ok bytes) :
    ∃ log, decodeFeatureSetDefaults bytes = .ok (defaults, log) := by
  obtain ⟨⟨⟩, hvalid, h⟩ := Check.of_bind_eq_ok h
  obtain ⟨entries, hentries, h⟩ := Check.of_bind_eq_ok h
  obtain ⟨minimum, hminimum, h⟩ := Check.of_bind_eq_ok h
  obtain ⟨maximum, hmaximum, h⟩ := Check.of_bind_eq_ok h
  rw [← Except.ok.inj h]
  have hknown : ∀ entry ∈ defaults.defaults, entry.edition ≠ .unknown := by
    obtain ⟨⟨⟩, hloop, -⟩ := Check.of_bind_eq_ok hvalid
    exact (of_validateEntries hloop).1
  have hpasses : Passes .featureSetDefaults featureDefaultsFields {} (entries ++ minimum ++ maximum)
      defaults := by
    refine .append { defaults with maximumEdition := none }
      (.append { defaults := defaults.defaults } ?_ ?_) ?_
    · refine .all (fun entry hentry state written hwritten => ?_)
        (appendEntries_eq {} defaults.defaults) hentries
      obtain ⟨payload, log, hlength, hmessage, hdecode⟩ :=
        decodeEntry_payload (hknown entry hentry) hwritten
      refine .message log (by decide) rfl hlength ?_ hmessage
      simp only [nested, Reading.andThen, hdecode]
    · refine .optional (fun edition written hwritten => .edition (by decide) rfl hwritten)
        ?_ hminimum
      cases defaults.minimumEdition <;> rfl
    · refine .optional (fun edition written hwritten => .edition (by decide) rfl hwritten)
        ?_ hmaximum
      cases defaults with
      | mk defaults minimum maximum => cases maximum <;> rfl
  obtain ⟨log, hdecode⟩ := decodeFields_of_passes hpasses
  refine ⟨log, ?_⟩
  rw [decodeFeatureSetDefaults, hdecode]
  simp only [Reading.andThen, hvalid, bind, Except.bind, pure, Except.pure]

end Descriptor

/-! ## The entry for an edition -/

namespace FeatureSetDefaults

/-- The edition is within the bounds that there are. -/
def InBounds (self : FeatureSetDefaults) (edition : Edition) : Prop :=
  (∀ minimum ∈ self.minimumEdition, minimum.number ≤ edition.number)
    ∧ ∀ maximum ∈ self.maximumEdition, edition.number ≤ maximum.number

end FeatureSetDefaults

namespace Descriptor

theorem number_pos {edition : Edition} (h : edition ≠ .unknown) : 0 < edition.number := by
  cases edition with
  | unknown => exact absurd rfl h
  | _ => decide

/-- No entry is of the unknown edition, so the loop stops at keys above the bound alone. -/
theorem closestEntry_eq {entries : List FeatureSetEditionDefault}
    (h : ∀ entry ∈ entries, entry.edition ≠ .unknown) (requested : Int)
    (closest : Option FeatureSetEditionDefault) :
    FeatureSetDefaults.defaultsForEdition.closestEntry requested closest entries
      = Closest.closestFrom (fun entry => entry.edition.number) requested closest entries := by
  induction entries generalizing closest with
  | nil => rfl
  | cons entry rest ih =>
      obtain ⟨hentry, hrest⟩ := List.forall_mem_cons.mp h
      rw [FeatureSetDefaults.defaultsForEdition.closestEntry, Closest.closestFrom, ih hrest]
      simp only [hentry, false_or, gt_iff_lt]

/-- Within the bounds the loop decides. -/
theorem defaultsForEdition_of_inBounds {defaults : FeatureSetDefaults} {edition : Edition}
    (hentries : ∀ entry ∈ defaults.defaults, entry.edition ≠ .unknown)
    (hknown : edition ≠ .unknown) (hbounds : defaults.InBounds edition) :
    defaults.defaultsForEdition edition
      = Closest.closestFrom (fun entry => entry.edition.number) edition.number none
          defaults.defaults := by
  have hminimum : ¬ defaults.minimumEdition.any
      (fun minimum => edition.number < minimum.number) = true := by
    rw [Option.any_eq_true]
    rintro ⟨minimum, hmem, hlt⟩
    exact absurd (of_decide_eq_true hlt) (not_lt.mpr (hbounds.1 minimum hmem))
  have hmaximum : ¬ defaults.maximumEdition.any
      (fun maximum => edition.number > maximum.number) = true := by
    rw [Option.any_eq_true]
    rintro ⟨maximum, hmem, hlt⟩
    exact absurd (of_decide_eq_true hlt) (not_lt.mpr (hbounds.2 maximum hmem))
  rw [FeatureSetDefaults.defaultsForEdition, if_neg hknown, if_neg hminimum, if_neg hmaximum,
    closestEntry_eq hentries]

/-- Outside of them there is no entry. -/
theorem defaultsForEdition_of_not_inBounds {defaults : FeatureSetDefaults} {edition : Edition}
    (hbounds : ¬ defaults.InBounds edition) : defaults.defaultsForEdition edition = none := by
  unfold FeatureSetDefaults.defaultsForEdition
  split
  · rfl
  · split
    · rfl
    · next hminimum =>
      split
      · rfl
      · next hmaximum =>
        rw [Option.any_eq_true] at hminimum hmaximum
        refine absurd ⟨fun minimum hmem => ?_, fun maximum hmem => ?_⟩ hbounds
        · by_contra hlt
          exact hminimum ⟨minimum, hmem, decide_eq_true (not_le.mp hlt)⟩
        · by_contra hlt
          exact hmaximum ⟨maximum, hmem, decide_eq_true (not_le.mp hlt)⟩

/-- Encoded defaults are read back, and the entry for an edition is the one of the greatest
edition not above it: there is none outside the bounds, and none below the first entry. -/
theorem featureSetDefaults_exact {defaults : FeatureSetDefaults} {bytes : Bytes}
    (h : encodeFeatureSetDefaults defaults = .ok bytes) :
    (∃ log, decodeFeatureSetDefaults bytes = .ok (defaults, log)) ∧ ∀ edition,
      (∀ entry, defaults.defaultsForEdition edition = some entry ↔
        defaults.InBounds edition ∧
          Closest.IsClosest (fun entry => entry.edition.number) edition.number
            defaults.defaults entry) ∧
      (defaults.defaultsForEdition edition = none ↔
        ¬ defaults.InBounds edition ∨
          ∀ entry ∈ defaults.defaults, edition.number < entry.edition.number) := by
  refine ⟨decodeFeatureSetDefaults_encodeFeatureSetDefaults h, fun edition => ?_⟩
  obtain ⟨⟨⟩, hvalid, -⟩ := Check.of_bind_eq_ok h
  obtain ⟨⟨⟩, hloop, -⟩ := Check.of_bind_eq_ok hvalid
  obtain ⟨hentries, -, hascending⟩ := of_validateEntries hloop
  by_cases hbounds : defaults.InBounds edition
  · by_cases hknown : edition = .unknown
    · -- every entry is above the unknown edition
      subst hknown
      have habove : ∀ entry ∈ defaults.defaults,
          Edition.unknown.number < entry.edition.number :=
        fun entry hentry => number_pos (hentries entry hentry)
      have hnone : defaults.defaultsForEdition .unknown = none := by
        rw [FeatureSetDefaults.defaultsForEdition, if_pos rfl]
      refine ⟨fun entry => ⟨fun hsome => by simp [hnone] at hsome, ?_⟩,
        ⟨fun _ => .inr habove, fun _ => hnone⟩⟩
      rintro ⟨-, hmem, hle, -⟩
      exact absurd hle (not_le.mpr (habove entry hmem))
    · have heq := defaultsForEdition_of_inBounds hentries hknown hbounds
      refine ⟨fun entry => ?_, ?_⟩
      · rw [heq, Closest.closestFrom_eq_some_iff hascending, and_iff_right hbounds]
      · rw [heq, Closest.closestFrom_eq_none_iff hascending, or_iff_right (not_not.mpr hbounds)]
  · have hnone := defaultsForEdition_of_not_inBounds hbounds
    refine ⟨fun entry => ⟨fun hsome => by simp [hnone] at hsome, fun hin => ?_⟩,
      ⟨fun _ => .inl hbounds, fun _ => hnone⟩⟩
    exact absurd hin.1 hbounds

/-- Defaults from 998 on, for two editions, the second with overridable features. -/
abbrev twoDefaults : FeatureSetDefaults where
  defaults := [{ edition := .legacy }, { edition := .edition2023, overridableFeatures := some {} }]
  minimumEdition := some .proto2

abbrev twoDefaultsBytes : Bytes :=
  [10, 3, 24, 132, 7, 10, 23, 24, 232, 7, 34, 18, 8, 1, 16, 1, 24, 1, 32, 2, 40, 1, 48, 1, 56, 2,
    64, 1, 72, 1, 32, 230, 7]

theorem featureSetDefaults_exact_two :
    (∃ log, decodeFeatureSetDefaults twoDefaultsBytes = .ok (twoDefaults, log)) ∧
      (twoDefaults.defaultsForEdition .edition2024 = some twoDefaults.defaults[1] ↔
        twoDefaults.InBounds .edition2024 ∧
          Closest.IsClosest (fun entry => entry.edition.number) Edition.edition2024.number
            twoDefaults.defaults twoDefaults.defaults[1]) :=
  have h : encodeFeatureSetDefaults twoDefaults = .ok twoDefaultsBytes := by decide
  ⟨(featureSetDefaults_exact h).1, ((featureSetDefaults_exact h).2 .edition2024).1 _⟩

example : twoDefaults.defaultsForEdition .edition2024 = some twoDefaults.defaults[1] := by
  decide

end Descriptor

end Pbz
