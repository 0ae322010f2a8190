import Pbz.Codegen.EmittedDecode

set_option autoImplicit false

/-! # What emitted decoders read

The actions for an input do not depend on the struct, nor those for the front of an input on what
is behind it. So `decode` of two inputs in a row carries out the actions for both
(`Reads.append`).
-/

namespace Pbz

namespace Codegen

variable {file : FileDescriptor} {field : FieldDescriptor}

/-! ## Bounds -/

theorem readScalarField_bounded (file : FileDescriptor) (field : FieldDescriptor)
    (scalar : ScalarType) : Bounded (readScalarField file field scalar) := by
  have hlike := decodeScalarLike_bounded (.scalar scalar)
  cases scalar with
  | string =>
      constructor
      · intro input value rest h
        exact Nat.le_of_lt (readScalarField_consumes file field .string _ _ _ h)
      · intro input value rest ys h
        simp only [readScalarField] at h ⊢
        cases hread : readBytes input with
        | error e => rw [hread] at h; cases h
        | ok pair =>
            rw [hread] at h
            rw [readBytes_local _ _ _ ys hread]
            simp only at h ⊢
            split at h
            · cases h
            · next hvalid =>
              cases h
              rw [if_neg hvalid]
  | bytes => exact readBytes_bounded.map _
  | _ => exact hlike

theorem readOne_bounded (file : FileDescriptor) (field : FieldDescriptor) :
    Bounded (readOne file field) := by
  have hkind : ∀ kind, field.kind = kind → Bounded (readOne file field) := by
    intro kind hkind
    unfold readOne
    cases kind with
    | scalar scalar => rw [hkind]; exact readScalarField_bounded file field scalar
    | enumeration name => rw [hkind]; exact readInt32_bounded.map _
    | _ => rw [hkind]; exact error_bounded _
  exact hkind _ rfl

theorem readGroupBytes_bounded (levels number : Nat) : Bounded (readGroupBytes levels number) := by
  constructor
  · intro input payload rest h
    unfold readGroupBytes at h
    cases hskip : skipGroup levels number input with
    | error e => rw [hskip] at h; cases h
    | ok left =>
        rw [hskip] at h
        cases h
        exact skipGroup_shrinks _ _ _ _ hskip
  · intro input payload rest ys h
    unfold readGroupBytes at h ⊢
    cases hskip : skipGroup levels number input with
    | error e => rw [hskip] at h; cases h
    | ok left =>
        rw [hskip] at h
        rw [skipGroup_local _ _ _ _ ys hskip]
        cases h
        simp only [List.length_append, Nat.add_sub_add_right]
        rw [List.take_append_of_le_length (by omega)]

theorem readMessagePayload_bounded (file : FileDescriptor) (field : FieldDescriptor)
    (levels : Nat) : Bounded (readMessagePayload file field levels) := by
  unfold readMessagePayload
  split
  · exact readGroupBytes_bounded levels field.number
  · exact readBytes_bounded

theorem skipRead_eq_ok {levels : Nat} {tag : Tag} {input rest : Bytes} {u : Unit} :
    skipRead levels tag input = .ok (u, rest) ↔ skipValue levels tag input = .ok rest := by
  unfold skipRead
  cases skipValue levels tag input with
  | error e => simp
  | ok left => simp

theorem skipRead_bounded (levels : Nat) (tag : Tag) : Bounded (skipRead levels tag) := by
  constructor
  · intro input u rest h
    exact skipValue_shrinks _ _ _ _ (skipRead_eq_ok.mp h)
  · intro input u rest ys h
    exact skipRead_eq_ok.mpr (skipValue_local _ _ _ _ ys (skipRead_eq_ok.mp h))

/-! ## One field -/

/-- A reading leaves no more than it was given, and does not look behind what it used. -/
def BoundedRead (read : Bytes → Bytes → Except Error (MemberAction × Bytes)) : Prop :=
  ∀ input rest action rest', read input rest = .ok (action, rest') →
    rest'.length ≤ rest.length ∧
      ∀ ys, read (input ++ ys) (rest ++ ys) = .ok (action, rest' ++ ys)

theorem reading_eq_ok {α : Type} {read : Bytes → ReadResult α}
    {make : α → Bytes → Except Error MemberAction} {input rest rest' : Bytes}
    {action : MemberAction} :
    reading read make input rest = .ok (action, rest') ↔
      ∃ found, read rest = .ok (found, rest') ∧ make found (consumed input rest') = .ok action := by
  unfold reading
  cases read rest with
  | error e => simp
  | ok pair =>
      obtain ⟨found, left⟩ := pair
      cases hmake : make found (consumed input left) with
      | error e =>
          simp only [hmake, Except.ok.injEq, Prod.mk.injEq, reduceCtorEq, false_iff, not_exists,
            not_and]
          rintro _ ⟨rfl, rfl⟩ hok
          rw [hmake] at hok
          cases hok
      | ok made =>
          simp only [hmake, Except.ok.injEq, Prod.mk.injEq]
          constructor
          · rintro ⟨rfl, rfl⟩
            exact ⟨found, ⟨rfl, rfl⟩, hmake⟩
          · rintro ⟨_, ⟨rfl, rfl⟩, hok⟩
            rw [hmake] at hok
            cases hok
            exact ⟨rfl, rfl⟩

theorem reading_bounded {α : Type} {read : Bytes → ReadResult α} (h : Bounded read)
    (make : α → Bytes → Except Error MemberAction) : BoundedRead (reading read make) := by
  intro input rest action rest' hread
  obtain ⟨found, hfound, hmake⟩ := reading_eq_ok.mp hread
  refine ⟨h.shrinks _ _ _ hfound, fun ys => reading_eq_ok.mpr ⟨found, h.isLocal _ _ _ ys hfound, ?_⟩⟩
  rw [consumed_append]
  exact hmake

theorem readPlain_bounded (file : FileDescriptor) (field : FieldDescriptor) (isPacked : Bool) :
    BoundedRead (readPlain file field isPacked) := by
  unfold readPlain
  cases isPacked with
  | true => simpa only [if_true] using reading_bounded readBytes_bounded _
  | false =>
      simpa only [Bool.false_eq_true, if_false] using reading_bounded (readOne_bounded file field) _

theorem readClosedEnum_bounded (file : FileDescriptor) (field : FieldDescriptor) (name : Bytes)
    (isPacked : Bool) : BoundedRead (readClosedEnum file field name isPacked) := by
  unfold readClosedEnum
  cases isPacked with
  | true => simpa only [if_true] using reading_bounded readBytes_bounded _
  | false => simpa only [Bool.false_eq_true, if_false] using reading_bounded readInt32_bounded _

theorem readUnknownField_bounded (below : List EmittedDecoder) (tag : Tag) :
    BoundedRead (readUnknownField below tag) :=
  reading_bounded (skipRead_bounded below.length tag) _

section

variable {explicitDefault : FieldKind → OptionValue → Option Value} {s : GeneratedStruct}
  {below : List EmittedDecoder}

theorem readField_bounded (field : FieldDescriptor) (tag : Tag) :
    BoundedRead (readField explicitDefault s below field tag) := by
  have hkind : ∀ kind, field.kind = kind →
      BoundedRead (readField explicitDefault s below field tag) := by
    intro kind hkind
    unfold readField
    cases kind with
    | scalar scalar => rw [hkind]; exact readPlain_bounded _ _ _
    | enumeration name =>
        rw [hkind]
        simp only
        split
        · exact readClosedEnum_bounded _ _ _ _
        · exact readPlain_bounded _ _ _
    | message name | group name =>
        rw [hkind]
        exact reading_bounded (readMessagePayload_bounded _ _ _) _
    | map key value => rw [hkind]; exact reading_bounded readBytes_bounded _
  exact hkind _ rfl

theorem map_some_eq_ok {r : Except Error (MemberAction × Bytes)} {action : MemberAction}
    {rest : Bytes} : r.map some = .ok (some (action, rest)) ↔ r = .ok (action, rest) := by
  cases r with
  | error e => simp [Except.map]
  | ok pair => simp [Except.map]

/-- What is read leaves less than there was, and is read in front of anything. -/
theorem readMember_some {input rest : Bytes} {action : MemberAction}
    (h : readMember explicitDefault s below input = .ok (some (action, rest))) :
    rest.length < input.length ∧ ∀ ys,
      readMember explicitDefault s below (input ++ ys) = .ok (some (action, rest ++ ys)) := by
  unfold readMember at h ⊢
  split at h
  · next hfast =>
    simp only [hfast, if_true]
    unfold readMemberByRawTag at h ⊢
    split at h
    · cases h
    · next hempty =>
      cases htag : readRawTag input with
      | error e => rw [htag] at h; cases h
      | ok pair =>
          obtain ⟨rawTag, behind⟩ := pair
          have htag' : readVarint input = .ok (rawTag, behind) := by rw [← readRawTag_eq, htag]
          have hshort := readVarint_consumes _ _ _ htag'
          have hempty' : ∀ ys, (input ++ ys).isEmpty = false := by
            intro ys
            cases input with
            | nil => exact (hempty rfl).elim
            | cons first others => rfl
          rw [htag] at h
          simp only [readRawTag_eq, hempty', readVarint_local _ _ _ _ htag', Bool.false_eq_true,
            if_false] at h ⊢
          cases hswitch : switchCase s.message (rawTagCase s.file) rawTag with
          | some found =>
              rw [hswitch] at h
              obtain ⟨hle, hlocal⟩ := readPlain_bounded _ _ _ _ _ _ _ (map_some_eq_ok.mp h)
              exact ⟨by omega, fun ys => map_some_eq_ok.mpr (hlocal ys)⟩
          | none =>
              rw [hswitch] at h
              cases hdecode : Tag.decode rawTag with
              | error e => simp [hdecode] at h
              | ok tag =>
                  simp only [hdecode] at h ⊢
                  obtain ⟨hle, hlocal⟩ := readUnknownField_bounded _ _ _ _ _ _ (map_some_eq_ok.mp h)
                  exact ⟨by omega, fun ys => map_some_eq_ok.mpr (hlocal ys)⟩
  · next hslow =>
    simp only [hslow, Bool.false_eq_true, if_false]
    unfold readMemberByNumber at h ⊢
    cases htag : nextTag input with
    | error e => rw [htag] at h; cases h
    | ok next =>
        cases next with
        | none => rw [htag] at h; cases h
        | some pair =>
            obtain ⟨tag, behind⟩ := pair
            have hshort := nextTag_length htag
            rw [htag] at h
            simp only [nextTag_local _ htag] at h ⊢
            cases hfind : s.message.findFieldByNumber tag.number with
            | some field =>
                simp only [hfind] at h ⊢
                obtain ⟨hle, hlocal⟩ := readField_bounded _ _ _ _ _ _ (map_some_eq_ok.mp h)
                exact ⟨by omega, fun ys => map_some_eq_ok.mpr (hlocal ys)⟩
            | none =>
                simp only [hfind] at h ⊢
                obtain ⟨hle, hlocal⟩ := readUnknownField_bounded _ _ _ _ _ _ (map_some_eq_ok.mp h)
                exact ⟨by omega, fun ys => map_some_eq_ok.mpr (hlocal ys)⟩

theorem readMember_nil : readMember explicitDefault s below [] = .ok none := by
  unfold readMember
  split <;> rfl

theorem map_some_ne_none {r : Except Error (MemberAction × Bytes)} : r.map some ≠ .ok none := by
  cases r with
  | error e => intro h; cases h
  | ok pair => intro h; cases h

/-- There is a field to read as long as there is any input. -/
theorem readMember_none {input : Bytes}
    (h : readMember explicitDefault s below input = .ok none) : input = [] := by
  unfold readMember at h
  split at h
  · unfold readMemberByRawTag at h
    split at h
    · next hempty => exact List.isEmpty_iff.mp hempty
    · split at h
      · cases h
      · split at h
        · exact (map_some_ne_none h).elim
        · split at h
          · cases h
          · exact (map_some_ne_none h).elim
  · unfold readMemberByNumber at h
    split at h
    · cases h
    · next htag => exact nextTag_none htag
    · split at h
      · exact (map_some_ne_none h).elim
      · exact (map_some_ne_none h).elim

/-! ## A whole input -/

/-- The actions for an input. -/
inductive Reads (explicitDefault : FieldKind → OptionValue → Option Value) (s : GeneratedStruct)
    (below : List EmittedDecoder) : Bytes → List MemberAction → Prop where
  | nil : Reads explicitDefault s below [] []
  | cons {input rest : Bytes} {action : MemberAction} {actions : List MemberAction} :
      readMember explicitDefault s below input = .ok (some (action, rest)) →
      Reads explicitDefault s below rest actions →
      Reads explicitDefault s below input (action :: actions)

/-- Two inputs in a row. -/
theorem Reads.append {a b : Bytes} {first second : List MemberAction}
    (ha : Reads explicitDefault s below a first) (hb : Reads explicitDefault s below b second) :
    Reads explicitDefault s below (a ++ b) (first ++ second) := by
  induction ha with
  | nil => exact hb
  | cons hread _ ih => exact .cons ((readMember_some hread).2 b) ih

/-- An input has one list of actions. -/
theorem Reads.unique {input : Bytes} {first second : List MemberAction}
    (hfirst : Reads explicitDefault s below input first)
    (hsecond : Reads explicitDefault s below input second) : first = second := by
  induction hfirst generalizing second with
  | nil =>
      cases hsecond with
      | nil => rfl
      | cons hread _ => rw [readMember_nil] at hread; cases hread
  | cons hread _ ih =>
      cases hsecond with
      | nil => rw [readMember_nil] at hread; cases hread
      | cons hread' hrest =>
          rw [hread] at hread'
          cases hread'
          rw [ih hrest]

end

end Codegen

/-- Carry out actions one after the other. -/
def EmittedMessage.actAll (s : GeneratedStruct) :
    EmittedMessage → List MemberAction → Except Error EmittedMessage
  | self, [] => .ok self
  | self, action :: rest =>
      match self.act s action with
      | .error e => .error e
      | .ok self => self.actAll s rest

namespace EmittedMessage

variable {s : GeneratedStruct} {self final : EmittedMessage} {action : MemberAction}
  {actions more : List MemberAction}

theorem actAll_cons_eq_ok : self.actAll s (action :: actions) = .ok final ↔
    ∃ next, self.act s action = .ok next ∧ next.actAll s actions = .ok final := by
  rw [actAll]
  cases self.act s action with
  | error e => simp
  | ok next => simp

theorem actAll_append_eq_ok : self.actAll s (actions ++ more) = .ok final ↔
    ∃ next, self.actAll s actions = .ok next ∧ next.actAll s more = .ok final := by
  induction actions generalizing self with
  | nil => simp [actAll]
  | cons action rest ih =>
      simp only [List.cons_append, actAll_cons_eq_ok, ih]
      constructor
      · rintro ⟨next, hact, last, hrest, hmore⟩
        exact ⟨last, ⟨next, hact, hrest⟩, hmore⟩
      · rintro ⟨last, ⟨next, hact, hrest⟩, hmore⟩
        exact ⟨next, hact, last, hrest, hmore⟩

end EmittedMessage

namespace Codegen

variable {explicitDefault : FieldKind → OptionValue → Option Value} {s : GeneratedStruct}
  {below : List EmittedDecoder} {self final : EmittedMessage} {input : Bytes}

theorem decodeMemberPass_consuming :
    Loop.Consuming (decodeMemberPass explicitDefault s below) := by
  intro self input self' rest hpass
  unfold decodeMemberPass at hpass
  split at hpass
  · cases hpass
  · cases hpass
  · next hread =>
    split at hpass
    · cases hpass
    · cases hpass
      exact (readMember_some hread).1

/-- A run of the loop carries out the actions for its input. -/
theorem run_decodeMemberPass : (∃ rest, Loop.run (decodeMemberPass explicitDefault s below) self input
      = (final, .ok rest)) ↔
    ∃ actions, Reads explicitDefault s below input actions ∧ self.actAll s actions = .ok final := by
  induction hn : input.length using Nat.strong_induction_on generalizing self input with
  | _ n ih =>
      cases hread : readMember explicitDefault s below input with
      | error e =>
          have hpass : decodeMemberPass explicitDefault s below self input = .fail self e := by
            rw [decodeMemberPass, hread]
          rw [Loop.run_of_fail hpass]
          constructor
          · rintro ⟨rest, h⟩
            cases h
          · rintro ⟨actions, hreads, -⟩
            cases hreads with
            | nil => rw [readMember_nil] at hread; cases hread
            | cons hread' _ => rw [hread] at hread'; cases hread'
      | ok next =>
          cases next with
          | none =>
              have hpass : decodeMemberPass explicitDefault s below self input = .done self input := by
                rw [decodeMemberPass, hread]
              obtain rfl := readMember_none hread
              rw [Loop.run_of_done hpass]
              constructor
              · rintro ⟨rest, h⟩
                cases h
                exact ⟨[], .nil, rfl⟩
              · rintro ⟨actions, hreads, hact⟩
                obtain rfl := Reads.unique hreads .nil
                cases hact
                exact ⟨[], rfl⟩
          | some pair =>
              obtain ⟨action, rest⟩ := pair
              have hlt := (readMember_some hread).1
              cases hact : self.act s action with
              | error e =>
                  have hpass : decodeMemberPass explicitDefault s below self input
                      = .fail self e := by
                    rw [decodeMemberPass, hread]
                    simp only [hact]
                  rw [Loop.run_of_fail hpass]
                  constructor
                  · rintro ⟨rest', h⟩
                    cases h
                  · rintro ⟨actions, hreads, hall⟩
                    cases hreads with
                    | nil => rw [readMember_nil] at hread; cases hread
                    | cons hread' hrest =>
                        rw [hread] at hread'
                        cases hread'
                        obtain ⟨next, hnext, -⟩ := EmittedMessage.actAll_cons_eq_ok.mp hall
                        rw [hact] at hnext
                        cases hnext
              | ok next =>
                  have hpass : decodeMemberPass explicitDefault s below self input
                      = .next next rest := by
                    rw [decodeMemberPass, hread]
                    simp only [hact]
                  rw [Loop.run_of_next decodeMemberPass_consuming hpass,
                    ih rest.length (by omega) rfl]
                  constructor
                  · rintro ⟨actions, hreads, hall⟩
                    exact ⟨action :: actions, .cons hread hreads,
                      EmittedMessage.actAll_cons_eq_ok.mpr ⟨next, hact, hall⟩⟩
                  · rintro ⟨actions, hreads, hall⟩
                    cases hreads with
                    | nil => rw [readMember_nil] at hread; cases hread
                    | cons hread' hrest =>
                        rw [hread] at hread'
                        cases hread'
                        obtain ⟨next', hnext, hall⟩ := EmittedMessage.actAll_cons_eq_ok.mp hall
                        rw [hact] at hnext
                        cases hnext
                        exact ⟨_, hrest, hall⟩

/-- `decode` carries out the actions for its input. -/
theorem decodeFromReader_eq_ok : decodeFromReader explicitDefault below s input = .ok final ↔
    ∃ actions, Reads explicitDefault s below input actions ∧
      (initMessage explicitDefault s).actAll s actions = .ok final := by
  rw [← run_decodeMemberPass, decodeFromReader]
  generalize Loop.run (decodeMemberPass explicitDefault s below) (initMessage explicitDefault s) input
    = result
  obtain ⟨found, outcome⟩ := result
  cases outcome with
  | error e => simp
  | ok rest => simp

end Codegen

end Pbz
