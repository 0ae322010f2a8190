import Pbz.Dynamic.Reading

set_option autoImplicit false

/-! # What a pass uses of its input

A reading that goes on leaves less than it was given and does not depend on the bytes after those
it used. A loop of such passes can be unfolded (`decodeStream_consuming`) and split between two
parts of its input.
-/

namespace Pbz

/-! ## Values -/

/-- A read that leaves no more than it was given and does not look further. -/
structure Bounded {α : Type} (p : Bytes → ReadResult α) : Prop where
  shrinks : ∀ bs v rest, p bs = .ok (v, rest) → rest.length ≤ bs.length
  isLocal : Local p

theorem Bounded.of_consumes {α : Type} {p : Bytes → ReadResult α} (hc : Consumes p)
    (hl : Local p) : Bounded p :=
  ⟨fun bs v rest h => Nat.le_of_lt (hc bs v rest h), hl⟩

theorem readResult_map_ok {α β : Type} {f : α → β} {r : ReadResult α} {v : β} {rest : Bytes}
    (h : r.map f = .ok (v, rest)) : ∃ a, r = .ok (a, rest) ∧ f a = v := by
  cases r with
  | error e => simp [ReadResult.map] at h
  | ok p =>
      simp only [ReadResult.map, Except.ok.injEq, Prod.mk.injEq] at h
      exact ⟨p.1, by rw [← h.2], h.1⟩

theorem Bounded.map {α β : Type} {p : Bytes → ReadResult α} (h : Bounded p) (f : α → β) :
    Bounded (fun bs => (p bs).map f) := by
  constructor
  · intro bs v rest hr
    obtain ⟨a, ha, -⟩ := readResult_map_ok hr
    exact h.shrinks bs a rest ha
  · intro bs v rest ys hr
    obtain ⟨a, ha, hv⟩ := readResult_map_ok hr
    simp only [h.isLocal bs a rest ys ha, ReadResult.map, hv]

theorem readVarint_bounded : Bounded readVarint :=
  .of_consumes readVarint_consumes readVarint_local

theorem readBytes_bounded : Bounded readBytes :=
  .of_consumes readBytes_consumes readBytes_local

theorem readRawLittle_bounded (n : Nat) : Bounded (readRawLittle n) :=
  ⟨fun bs v rest h => by have := readRawLittle_length h; omega, readRawLittle_local n⟩

theorem error_bounded {α : Type} (e : Error) :
    Bounded (fun _ => (.error e : ReadResult α)) :=
  ⟨fun _ _ _ h => by simp at h, fun _ _ _ _ h => by simp at h⟩

theorem readInt32_bounded : Bounded readInt32 := readVarint_bounded.map _

theorem decodeScalarLike_bounded (kind : FieldKind) : Bounded (decodeScalarLike kind) := by
  have hv := fun f : Nat → Value => readVarint_bounded.map f
  have hi := fun f : BitVec 32 → Value => readInt32_bounded.map f
  have hr := fun n => fun f : Nat → Value => (readRawLittle_bounded n).map f
  cases kind with
  | scalar scalar =>
      cases scalar <;>
        first
        | exact hv _
        | exact hi _
        | exact hr _ _
        | exact error_bounded _
  | enumeration name => exact hi _
  | _ => exact error_bounded _

/-- What the codec below reads of a group: it leaves no more than it was given and does not look
behind the group. -/
def GroupBounded (nested : Option StreamDecoder) : Prop :=
  ∀ stream, nested = some stream → ∀ file message number input message' rest,
    stream file message (some number) input = (message', .ok rest) →
      rest.length ≤ input.length
        ∧ ∀ ys, stream file message (some number) (input ++ ys) = (message', .ok (rest ++ ys))

section

variable {registry : Option Registry} {nested : Option StreamDecoder}

/-- A payload that is read whole before it is looked at. -/
theorem bounded_of_payload {α : Type} {p : Bytes → ReadResult α}
    {f : Bytes → Except Error α}
    (h : ∀ bs, p bs = match readBytes bs with
      | .error e => .error e
      | .ok (payload, rest) => match f payload with
        | .error e => .error e
        | .ok v => .ok (v, rest)) : Bounded p := by
  have key : ∀ bs v rest, p bs = .ok (v, rest) →
      ∃ payload, readBytes bs = .ok (payload, rest) ∧ f payload = .ok v := by
    intro bs v rest hr
    rw [h] at hr
    cases hb : readBytes bs with
    | error e => rw [hb] at hr; simp at hr
    | ok q =>
        obtain ⟨payload, r⟩ := q
        rw [hb] at hr
        simp only at hr
        cases hf : f payload with
        | error e => rw [hf] at hr; simp at hr
        | ok w =>
            rw [hf] at hr
            simp only [Except.ok.injEq, Prod.mk.injEq] at hr
            exact ⟨payload, by rw [hr.2], by rw [← hr.1]; exact hf⟩
  constructor
  · intro bs v rest hr
    obtain ⟨payload, hb, -⟩ := key bs v rest hr
    exact readBytes_bounded.shrinks _ _ _ hb
  · intro bs v rest ys hr
    obtain ⟨payload, hb, hf⟩ := key bs v rest hr
    rw [h, readBytes_local _ _ _ ys hb]
    simp only [hf]

theorem decodeValue_packable {file : FileDescriptor} {current : MessageDescriptor}
    {field : FieldDescriptor} {scalar : ScalarType} (h : scalar.packable = true) :
    decodeValue registry nested file current field (.scalar scalar)
      = decodeScalarLike (.scalar scalar) := by
  cases scalar with
  | string => simp [ScalarType.packable] at h
  | bytes => simp [ScalarType.packable] at h
  | _ => rfl

theorem decodeValue_enumeration {file : FileDescriptor} {current : MessageDescriptor}
    {field : FieldDescriptor} {name : Bytes} :
    decodeValue registry nested file current field (.enumeration name)
      = decodeScalarLike (.enumeration name) := rfl

theorem decodeValue_bounded (file : FileDescriptor) (current : MessageDescriptor)
    (field : FieldDescriptor) (kind : FieldKind) :
    Bounded (decodeValue registry nested file current field kind) := by
  cases kind with
  | scalar scalar =>
      cases scalar with
      | string =>
          exact bounded_of_payload (f := fun payload =>
            (decodeStringValue file field payload).map Value.string) (fun bs => by
              rw [decodeValue]
              cases readBytes bs with
              | error e => rfl
              | ok q => simp only; cases decodeStringValue file field q.1 <;> rfl)
      | bytes => exact readBytes_bounded.map _
      | _ => rw [decodeValue_packable rfl]; exact decodeScalarLike_bounded _
  | enumeration name => rw [decodeValue_enumeration]; exact decodeScalarLike_bounded _
  | message name =>
      exact bounded_of_payload (f := fun payload =>
        nested.elim (.error .recursionLimitExceeded)
          (fun stream => decodeMessagePayload registry stream file current name payload))
          (fun bs => by
            rw [decodeValue]
            cases readBytes bs with
            | error e => rfl
            | ok q =>
                cases nested with
                | none => rfl
                | some stream =>
                    simp only [Option.elim_some]
                    cases decodeMessagePayload registry stream file current name q.1 <;> rfl)
  | _ => exact error_bounded _

theorem decodeGroupBody_bounded (hg : GroupBounded nested) (file : FileDescriptor)
    (current : MessageDescriptor) (number : Nat) (name : Bytes) :
    Bounded (decodeGroupBody registry nested file current number name) := by
  have key : ∀ bs m rest, decodeGroupBody registry nested file current number name bs = .ok (m, rest) →
      rest.length ≤ bs.length ∧ ∀ ys, decodeGroupBody registry nested file current number name (bs ++ ys)
        = .ok (m, rest ++ ys) := by
    intro bs m rest hr
    simp only [decodeGroupBody] at hr ⊢
    cases hres : resolveMessageDescriptorWithRegistry file registry current name with
    | none => rw [hres] at hr; simp at hr
    | some descriptor =>
        rw [hres] at hr
        cases hn : nested with
        | none => rw [hn] at hr; simp at hr
        | some stream =>
            rw [hn] at hr
            simp only at hr ⊢
            rcases hs : stream (messageDefiningFile file registry descriptor) (.init descriptor)
              (some number) bs with ⟨m', _ | r⟩
            · rw [hs] at hr; simp at hr
            · rw [hs] at hr
              simp only [Except.ok.injEq, Prod.mk.injEq] at hr
              obtain ⟨hle, happ⟩ := hg stream hn _ _ _ _ _ _ hs
              refine ⟨by rw [← hr.2]; exact hle, fun ys => ?_⟩
              rw [happ ys]
              simp only [hr.1, hr.2]
  exact ⟨fun bs m rest h => (key bs m rest h).1, fun bs m rest ys h => (key bs m rest h).2 ys⟩

end

/-! ## Readings -/

/-- A reading of the bytes after a tag (the second argument; the first one starts with the tag)
that leaves no more than it was given and does not look further. -/
def BoundedReading (g : Bytes → Bytes → Reading) : Prop :=
  ∀ input rest after, (g input rest).ending = .next after →
    after.length ≤ rest.length
      ∧ ∀ ys, g (input ++ ys) (rest ++ ys)
        = { actions := (g input rest).actions, ending := .next (after ++ ys) }

theorem failed_bounded (e : Error) : BoundedReading (fun _ _ => .failed e) := by
  intro input rest after h
  simp [Reading.failed] at h

theorem ofValue_bounded (field : FieldDescriptor) {p : Bytes → ReadResult Value}
    (hp : Bounded p) : BoundedReading (fun _ rest => .ofValue field (p rest)) := by
  intro input rest after h
  simp only [Reading.ofValue] at h ⊢
  cases hr : p rest with
  | error e => rw [hr] at h; simp [Reading.failed] at h
  | ok q =>
      obtain ⟨v, r⟩ := q
      rw [hr] at h
      simp only [Ending.next.injEq] at h
      subst h
      exact ⟨hp.shrinks _ _ _ hr, fun ys => by rw [hp.isLocal _ _ _ ys hr]⟩

theorem ofPacked_bounded (packed : Bytes → List Action × Except Error Bytes) :
    BoundedReading (fun _ rest => .ofPacked rest packed) := by
  intro input rest after h
  simp only [Reading.ofPacked] at h ⊢
  cases hr : readBytes rest with
  | error e => rw [hr] at h; simp [Reading.failed] at h
  | ok q =>
      obtain ⟨payload, r⟩ := q
      rw [hr] at h
      simp only at h ⊢
      rcases hp : packed payload with ⟨actions, _ | r'⟩
      · rw [hp] at h; simp at h
      · rw [hp] at h
        simp only [Ending.next.injEq] at h
        subst h
        exact ⟨readBytes_bounded.shrinks _ _ _ hr, fun ys => by
          rw [readBytes_local _ _ _ ys hr]; simp only [hp]⟩

theorem ite_bounded {g h : Bytes → Bytes → Reading} (c : Prop) [Decidable c]
    (hg : BoundedReading g) (hh : BoundedReading h) :
    BoundedReading (fun input rest => if c then g input rest else h input rest) := by
  intro input rest after hnext
  by_cases hc : c
  · simp only [if_pos hc] at hnext ⊢
    exact hg input rest after hnext
  · simp only [if_neg hc] at hnext ⊢
    exact hh input rest after hnext

section

variable {registry : Option Registry} {nested : Option StreamDecoder}
variable {nestedEntry : Option MapEntryDecoder}

theorem readMapField_bounded (file : FileDescriptor) (current : MessageDescriptor)
    (field : FieldDescriptor) (keyType : ScalarType) (valueKind : FieldKind) (tag : Tag) :
    BoundedReading (readMapField nestedEntry file current field keyType valueKind tag) := by
  refine ite_bounded _ (failed_bounded _) ?_
  intro input rest after h
  simp only at h ⊢
  cases hr : readBytes rest with
  | error e => rw [hr] at h; simp [Reading.failed] at h
  | ok q =>
      obtain ⟨payload, r⟩ := q
      rw [hr] at h
      cases nestedEntry with
      | none => simp [Reading.failed] at h
      | some decodeEntry =>
          simp only at h ⊢
          have hle := readBytes_bounded.shrinks _ _ _ hr
          have happ := fun ys => readBytes_local _ _ _ ys hr
          cases hd : decodeEntry file current field keyType valueKind payload with
          | error e => rw [hd] at h; simp [Reading.failed] at h
          | ok value =>
              rw [hd] at h
              cases value with
              | none =>
                  simp only [Ending.next.injEq] at h
                  subst h
                  exact ⟨hle, fun ys => by rw [happ ys]; simp only [hd, consumed_append]⟩
              | some value =>
                  simp only [Ending.next.injEq] at h
                  subst h
                  exact ⟨hle, fun ys => by rw [happ ys]; simp only [hd]⟩

theorem readEnumField_bounded (fieldFile : FileDescriptor) (field : FieldDescriptor)
    (enumeration : EnumDescriptor) (tag : Tag) :
    BoundedReading (readEnumField registry fieldFile field enumeration tag) := by
  refine ite_bounded _ (ofPacked_bounded _) (ite_bounded _ (failed_bounded _) ?_)
  intro input rest after h
  simp only at h ⊢
  cases hr : readInt32 rest with
  | error e => rw [hr] at h; simp [Reading.failed] at h
  | ok q =>
      obtain ⟨value, r⟩ := q
      rw [hr] at h
      simp only at h ⊢
      have hle := readInt32_bounded.shrinks _ _ _ hr
      have happ := fun ys => readInt32_bounded.isLocal _ _ _ ys hr
      split at h
      · next hc =>
        simp only [Ending.next.injEq] at h
        subst h
        refine ⟨hle, fun ys => ?_⟩
        rw [happ ys]
        simp only [if_pos hc, consumed_append]
      · next hc =>
        simp only [Ending.next.injEq] at h
        subst h
        refine ⟨hle, fun ys => ?_⟩
        rw [happ ys]
        simp only [if_neg hc]

theorem readOtherField_bounded (fieldFile : FileDescriptor) (current : MessageDescriptor)
    (field : FieldDescriptor) (tag : Tag) :
    BoundedReading (fun _ rest =>
      readOtherField registry nested fieldFile current field tag rest) := by
  refine ite_bounded _ ?_ (ite_bounded _ (failed_bounded _)
    (ofValue_bounded field (decodeValue_bounded _ _ _ _)))
  cases field.kind with
  | scalar scalar => exact ite_bounded _ (ofPacked_bounded _) (ofPacked_bounded _)
  | _ => exact ofPacked_bounded _

theorem readKnownField_bounded (hg : GroupBounded nested) (file : FileDescriptor)
    (current : MessageDescriptor) (field : FieldDescriptor) (tag : Tag) :
    BoundedReading (readKnownField registry nested nestedEntry file current field tag) := by
  refine ite_bounded _ (ite_bounded _ (failed_bounded _) (ofValue_bounded field ?_)) ?_
  · unfold decodeDelimitedMessageValue
    cases field.kind with
    | message name => exact (decodeGroupBody_bounded hg _ _ _ _).map _
    | _ => exact error_bounded _
  · have hgroup : Bounded (decodeGroupValue registry nested file current field) := by
      unfold decodeGroupValue
      cases field.kind with
      | group name => exact (decodeGroupBody_bounded hg _ _ _ _).map _
      | _ => exact error_bounded _
    cases field.kind with
    | group name => exact ite_bounded _ (failed_bounded _) (ofValue_bounded field hgroup)
    | map keyType valueKind => exact readMapField_bounded _ _ _ _ _ _
    | scalar scalar => exact readOtherField_bounded _ _ _ _
    | message name =>
        dsimp only
        cases registryEnumDescriptor (fieldDefiningFile file registry field) registry current
            (.message name) with
        | none => exact readOtherField_bounded _ _ _ _
        | some enumeration => exact readEnumField_bounded _ _ _ _
    | enumeration name =>
        dsimp only
        cases registryEnumDescriptor (fieldDefiningFile file registry field) registry current
            (.enumeration name) with
        | none => exact readOtherField_bounded _ _ _ _
        | some enumeration => exact readEnumField_bounded _ _ _ _

/-! ## Message set items -/

/-- What a pass over a message set item that goes on has read. -/
theorem messageSetItemPass_next {levels : Nat} {item item' : MessageSetItem} {input rest : Bytes}
    (h : messageSetItemPass levels item input = .next item' rest) :
    rest.length < input.length
      ∧ ∀ ys, messageSetItemPass levels item (input ++ ys) = .next item' (rest ++ ys) := by
  rw [messageSetItemPass] at h
  cases ht : nextTag input with
  | error e => rw [ht] at h; simp at h
  | ok next =>
      rw [ht] at h
      cases next with
      | none => simp at h
      | some p =>
          obtain ⟨tag, r⟩ := p
          have hlt := nextTag_length ht
          have hcont : ∀ ys, nextTag (input ++ ys) = .ok (some (tag, r ++ ys)) :=
            fun ys => nextTag_local ys ht
          simp only [messageSetItemPass, hcont] at h ⊢
          split at h
          · split at h <;> simp at h
          · next hend =>
            simp only [if_neg hend]
            split at h
            · next h2 =>
              simp only [if_pos h2]
              split at h
              · simp at h
              · next hw =>
                simp only [if_neg hw]
                cases hv : readVarint r with
                | error e => rw [hv] at h; simp at h
                | ok q =>
                    rw [hv] at h
                    simp only at h
                    split at h
                    · simp at h
                    · next hraw =>
                      simp only [Loop.Step.next.injEq] at h
                      have hle := readVarint_bounded.shrinks _ _ _ hv
                      refine ⟨by rw [← h.2]; omega, fun ys => ?_⟩
                      rw [readVarint_local _ _ _ ys hv]
                      simp only [if_neg hraw, h.1, h.2]
            · next h2 =>
              simp only [if_neg h2]
              split at h
              · next h3 =>
                simp only [if_pos h3]
                split at h
                · simp at h
                · next hw =>
                  simp only [if_neg hw]
                  cases hv : readBytes r with
                  | error e => rw [hv] at h; simp at h
                  | ok q =>
                      rw [hv] at h
                      simp only [Loop.Step.next.injEq] at h
                      have hle := readBytes_bounded.shrinks _ _ _ hv
                      refine ⟨by rw [← h.2]; omega, fun ys => ?_⟩
                      rw [readBytes_local _ _ _ ys hv]
                      simp only [h.1, h.2]
              · next h3 =>
                simp only [if_neg h3]
                cases hv : skipValue levels tag r with
                | error e => rw [hv] at h; simp at h
                | ok q =>
                    rw [hv] at h
                    simp only [Loop.Step.next.injEq] at h
                    have hle := skipValue_shrinks levels tag _ _ hv
                    refine ⟨by rw [← h.2]; omega, fun ys => ?_⟩
                    rw [skipValue_local levels tag _ _ ys hv]
                    simp only [h.1, h.2]

/-- What the pass that ends a message set item has read. -/
theorem messageSetItemPass_consuming (levels : Nat) :
    Loop.Consuming (messageSetItemPass levels) :=
  fun _ _ _ _ h => (messageSetItemPass_next h).1

theorem messageSetItemPass_done {levels : Nat} {item item' : MessageSetItem} {input rest : Bytes}
    (h : messageSetItemPass levels item input = .done item' rest) :
    rest.length < input.length
      ∧ ∀ ys, messageSetItemPass levels item (input ++ ys) = .done item' (rest ++ ys) := by
  rw [messageSetItemPass] at h
  cases ht : nextTag input with
  | error e => rw [ht] at h; simp at h
  | ok next =>
      rw [ht] at h
      cases next with
      | none => simp at h
      | some p =>
          obtain ⟨tag, r⟩ := p
          have hlt := nextTag_length ht
          simp only at h
          split at h
          · next hend =>
            split at h
            · simp at h
            · next hn =>
              simp only [Loop.Step.done.injEq] at h
              refine ⟨by rw [← h.2]; exact hlt, fun ys => ?_⟩
              rw [messageSetItemPass, nextTag_local ys ht]
              simp only [if_pos hend, if_neg hn, h.1, h.2]
          · split at h
            · split at h
              · simp at h
              · split at h
                · simp at h
                · split at h <;> simp at h
            · split at h
              · split at h
                · simp at h
                · split at h <;> simp at h
              · split at h <;> simp at h

theorem readMessageSetItem_bounded (levels : Nat) (file : FileDescriptor)
    (current : MessageDescriptor) :
    BoundedReading (fun _ rest => readMessageSetItem registry nested levels file current rest) := by
  intro input rest after h
  have hc := messageSetItemPass_consuming levels
  have he : Loop.Extends (messageSetItemPass levels) :=
    fun s xs s' xs' ys hb => (messageSetItemPass_next hb).2 ys
  simp only [readMessageSetItem] at h ⊢
  rcases hrun : Loop.run (messageSetItemPass levels) {} rest with ⟨item, _ | r⟩
  · rw [hrun] at h; simp [Reading.failed] at h
  · have hle := Loop.run_length_le hc
      (fun s xs s' r hb => Nat.le_of_lt (messageSetItemPass_done hb).1) _ _ hrun
    have happ := fun ys => Loop.run_extend hc he
      (fun s xs s' r ys hb => (messageSetItemPass_done hb).2 ys) _ _ hrun ys
    rw [hrun] at h
    obtain ⟨typeId, payload⟩ := item
    cases typeId with
    | none =>
        simp only [Ending.next.injEq] at h
        subst h
        exact ⟨hle, fun ys => by rw [happ ys]⟩
    | some number =>
        cases payload with
        | none =>
            simp only [Ending.next.injEq] at h
            subst h
            exact ⟨hle, fun ys => by rw [happ ys]⟩
        | some payload =>
            simp only at h ⊢
            cases hp : readMessageSetPayload registry nested file current number payload with
            | error e => rw [hp] at h; simp [Reading.failed] at h
            | ok action =>
                rw [hp] at h
                simp only [Ending.next.injEq] at h
                subst h
                exact ⟨hle, fun ys => by rw [happ ys]; simp only [hp]⟩

end

/-! ## Streams -/

section

variable {registry : Option Registry}

/-- What a pass that goes on has read, on a reader whose groups are bounded. -/
theorem readFieldAt_next {levels : Nat} (hg : GroupBounded (nestedStream registry levels))
    {file : FileDescriptor} {endGroup : Option Nat} {current : MessageDescriptor}
    {input after : Bytes}
    (h : (readFieldAt registry levels file endGroup current input).ending = .next after) :
    after.length < input.length
      ∧ ∀ ys, readFieldAt registry levels file endGroup current (input ++ ys)
        = { actions := (readFieldAt registry levels file endGroup current input).actions,
            ending := .next (after ++ ys) } := by
  simp only [readFieldAt, readField] at h ⊢
  cases ht : nextTag input with
  | error e => rw [ht] at h; simp [Reading.failed] at h
  | ok next =>
      rw [ht] at h
      cases next with
      | none => simp only at h; split at h <;> simp [Reading.failed] at h
      | some p =>
          obtain ⟨tag, r⟩ := p
          have hlt := nextTag_length ht
          have hcont : ∀ ys, nextTag (input ++ ys) = .ok (some (tag, r ++ ys)) :=
            fun ys => nextTag_local ys ht
          simp only [hcont] at h ⊢
          split at h
          · split at h
            · split at h <;> simp [Reading.failed] at h
            · simp [Reading.failed] at h
          · next hend =>
            simp only [if_neg hend]
            split at h
            · next hset =>
              simp only [if_pos hset]
              cases levels with
              | zero => simp [nestedReadItem, Reading.failed] at h
              | succ levels =>
                  obtain ⟨hle, happ⟩ := @readMessageSetItem_bounded registry
                    (nestedStream registry levels) levels file current input r after h
                  exact ⟨by omega, happ⟩
            · next hset =>
              simp only [if_neg hset]
              cases hf : fieldForNumber registry current tag.number with
              | none =>
                  rw [hf] at h
                  simp only at h ⊢
                  cases hs : skipValue levels tag r with
                  | error e => rw [hs] at h; simp [Reading.failed] at h
                  | ok q =>
                      rw [hs] at h
                      simp only [Ending.next.injEq] at h
                      subst h
                      have hle := skipValue_shrinks levels tag _ _ hs
                      refine ⟨by omega, fun ys => ?_⟩
                      rw [skipValue_local levels tag _ _ ys hs]
                      simp only [consumed_append]
              | some field =>
                  rw [hf] at h
                  simp only at h ⊢
                  obtain ⟨hle, happ⟩ := @readKnownField_bounded registry _
                    (nestedMapEntry registry levels) hg file current field tag input r after h
                  exact ⟨by omega, happ⟩

/-- No reader of a field ends a stream. -/
def Reading.GoesOn (reading : Reading) : Prop := ∀ rest, reading.ending ≠ .done rest

theorem Reading.GoesOn.failed {e : Error} : (Reading.failed e).GoesOn := nofun

theorem Reading.GoesOn.next {actions : List Action} {rest : Bytes} :
    Reading.GoesOn { actions, ending := .next rest } := nofun

theorem Reading.GoesOn.ofValue {field : FieldDescriptor} {read : ReadResult Value} :
    (Reading.ofValue field read).GoesOn := by
  cases read with
  | error e => exact .failed
  | ok result => exact .next

theorem Reading.GoesOn.ofPacked {input : Bytes}
    {packed : Bytes → List Action × Except Error Bytes} : (Reading.ofPacked input packed).GoesOn := by
  rw [Reading.ofPacked]
  split
  · exact .failed
  · split
    · intro _ h
      cases h
    · exact .next

section

variable {file : FileDescriptor} {current : MessageDescriptor} {field : FieldDescriptor} {tag : Tag}
  {input rest : Bytes}

theorem readMapField_goesOn {nestedEntry : Option MapEntryDecoder} {keyType : ScalarType}
    {valueKind : FieldKind} :
    (readMapField nestedEntry file current field keyType valueKind tag input rest).GoesOn := by
  rw [readMapField]
  split
  · exact .failed
  · split
    · exact .failed
    · split
      · exact .failed
      · split
        · exact .failed
        · exact .next
        · exact .next

theorem readEnumField_goesOn {enumeration : EnumDescriptor} :
    (readEnumField registry file field enumeration tag input rest).GoesOn := by
  rw [readEnumField]
  split
  · exact .ofPacked
  · split
    · exact .failed
    · split
      · exact .failed
      · split
        · exact .next
        · exact .next

variable {nested : Option StreamDecoder}

theorem readOtherField_goesOn :
    (readOtherField registry nested file current field tag rest).GoesOn := by
  rw [readOtherField]
  split
  · split
    · split
      · exact .ofPacked
      · exact .ofPacked
    · exact .ofPacked
  · split
    · exact .failed
    · exact .ofValue

theorem readKnownField_goesOn {nestedEntry : Option MapEntryDecoder} :
    (readKnownField registry nested nestedEntry file current field tag input rest).GoesOn := by
  rw [readKnownField]
  split
  · split
    · exact .failed
    · exact .ofValue
  · split
    · split
      · exact .failed
      · exact .ofValue
    · exact readMapField_goesOn
    · split
      · exact readEnumField_goesOn
      · exact readOtherField_goesOn

theorem readMessageSetItem_goesOn {levels : Nat} :
    (readMessageSetItem registry nested levels file current input).GoesOn := by
  rw [readMessageSetItem]
  split
  · exact .failed
  · split
    · exact .failed
    · exact .next
  · exact .next

end

/-- The pass that ends a stream: at the end of the input, or with the end tag of its group. -/
theorem readFieldAt_done {levels : Nat} {file : FileDescriptor} {endGroup : Option Nat}
    {current : MessageDescriptor} {input after : Bytes}
    (h : (readFieldAt registry levels file endGroup current input).ending = .done after) :
    (readFieldAt registry levels file endGroup current input).actions = []
      ∧ ((endGroup = none ∧ input = [] ∧ after = [])
        ∨ ∃ number, endGroup = some number
            ∧ nextTag input = .ok (some ({ number, wireType := .endGroup }, after))) := by
  simp only [readFieldAt, readField] at h ⊢
  cases ht : nextTag input with
  | error e =>
      rw [ht] at h
      exact absurd h (Reading.GoesOn.failed _)
  | ok next =>
      rw [ht] at h
      cases next with
      | none =>
          have hnil := nextTag_none ht
          simp only at h ⊢
          split at h
          · exact absurd h (Reading.GoesOn.failed _)
          · next hg =>
            simp only [Ending.done.injEq] at h
            simp only [if_neg hg, true_and]
            refine Or.inl ⟨?_, hnil, by rw [← h, hnil]⟩
            cases endGroup with
            | none => rfl
            | some n => simp at hg
      | some p =>
          obtain ⟨tag, r⟩ := p
          simp only at h ⊢
          split at h
          · next hend =>
            cases endGroup with
            | none => exact absurd h (Reading.GoesOn.failed _)
            | some expected =>
                simp only at h
                split at h
                · exact absurd h (Reading.GoesOn.failed _)
                · next hn =>
                  simp only [Ending.done.injEq] at h
                  simp only [if_pos hend, if_neg hn, true_and]
                  refine Or.inr ⟨expected, rfl, ?_⟩
                  have htag : tag = { number := expected, wireType := .endGroup } := by
                    cases tag
                    simp only [not_not] at hn hend
                    simp only [hn, hend]
                  rw [htag, h]
          · -- a tag other than an end tag: an item or a field is read
            exfalso
            split at h
            · cases levels with
              | zero => exact Reading.GoesOn.failed _ h
              | succ levels => exact readMessageSetItem_goesOn _ h
            · split at h
              · split at h
                · exact Reading.GoesOn.failed _ h
                · exact Reading.GoesOn.next _ h
              · exact readKnownField_goesOn _ h

section

variable {levels : Nat} {file : FileDescriptor} {endGroup : Option Nat}
variable {current : MessageDescriptor}

theorem readPass_next {actions actions' : List Action} {input rest : Bytes}
    (h : readPass registry levels file endGroup current actions input = .next actions' rest) :
    (readFieldAt registry levels file endGroup current input).ending = .next rest
      ∧ actions' = actions ++ (readFieldAt registry levels file endGroup current input).actions := by
  rw [readPass] at h
  split at h
  · simp at h
  · next r hr =>
    simp only [Loop.Step.next.injEq] at h
    exact ⟨by rw [hr, h.2], h.1.symm⟩
  · simp at h

theorem readPass_done {actions actions' : List Action} {input rest : Bytes}
    (h : readPass registry levels file endGroup current actions input = .done actions' rest) :
    (readFieldAt registry levels file endGroup current input).ending = .done rest
      ∧ actions' = actions ++ (readFieldAt registry levels file endGroup current input).actions := by
  rw [readPass] at h
  split at h
  · next r hr =>
    simp only [Loop.Step.done.injEq] at h
    exact ⟨by rw [hr, h.2], h.1.symm⟩
  · simp at h
  · simp at h

variable (hg : GroupBounded (nestedStream registry levels))
include hg

theorem readPass_consuming : Loop.Consuming (readPass registry levels file endGroup current) :=
  fun _ _ _ _ h => (readFieldAt_next hg (readPass_next h).1).1

theorem readPass_extends : Loop.Extends (readPass registry levels file endGroup current) := by
  intro actions xs actions' xs' ys h
  obtain ⟨hnext, ha⟩ := readPass_next h
  have happ := (readFieldAt_next hg hnext).2 ys
  rw [readPass, happ]
  simp only [ha]

end

/-- The end tag of a group is found wherever the input goes on. -/
theorem readPass_done_group {levels : Nat} {file : FileDescriptor} {number : Nat}
    {current : MessageDescriptor} {actions actions' : List Action} {input rest : Bytes}
    (h : readPass registry levels file (some number) current actions input = .done actions' rest) :
    rest.length < input.length ∧ ∀ ys,
      readPass registry levels file (some number) current actions (input ++ ys)
        = .done actions' (rest ++ ys) := by
  obtain ⟨hdone, ha⟩ := readPass_done h
  obtain ⟨hnil, ⟨hno, -, -⟩ | ⟨n, hn, ht⟩⟩ := readFieldAt_done hdone
  · simp at hno
  · simp only [Option.some.injEq] at hn
    subst hn
    refine ⟨nextTag_length ht, fun ys => ?_⟩
    rw [readPass, readFieldAt, readField, nextTag_local ys ht]
    simp only [ne_eq, not_true_eq_false, if_false, if_true, ha, hnil]

/-- The codec below reads its groups without looking behind them, at every level. -/
theorem nestedStream_groupBounded (levels : Nat) :
    GroupBounded (nestedStream registry levels) := by
  induction levels with
  | zero => intro stream h; simp [nestedStream] at h
  | succ levels ih =>
      intro stream hs file message number input message' rest h
      rw [nestedStream_succ, Option.some.injEq] at hs
      subst hs
      rw [decodeStream_eq, Prod.mk.injEq] at h
      have hrun : readStream registry levels file (some number) message.descriptor input
          = ((readStream registry levels file (some number) message.descriptor input).1,
              .ok rest) := Prod.ext rfl h.2
      refine ⟨Loop.run_length_le (readPass_consuming ih)
        (fun s xs s' r hb => Nat.le_of_lt (readPass_done_group hb).1) _ _ hrun, fun ys => ?_⟩
      have happ : readStream registry levels file (some number) message.descriptor (input ++ ys)
          = ((readStream registry levels file (some number) message.descriptor input).1,
              .ok (rest ++ ys)) :=
        Loop.run_extend (readPass_consuming ih) (readPass_extends ih)
          (fun s xs s' r ys hb => (readPass_done_group hb).2 ys) _ _ hrun ys
      rw [decodeStream_eq, happ, h.1]

/-- A stream reads one field and goes on behind it. -/
theorem decodeStream_of_next {levels : Nat} {file : FileDescriptor} {endGroup : Option Nat}
    {message : DynamicMessage} {input rest : Bytes} {actions : List Action}
    (h : readFieldAt registry levels file endGroup message.descriptor input
      = { actions, ending := .next rest }) :
    decodeStream registry levels file message endGroup input
      = decodeStream registry levels file (message.actAll actions) endGroup rest := by
  have hpass : ∀ (m : DynamicMessage) (xs : Bytes),
      decodePass registry levels (nestedStream registry levels) (nestedMapEntry registry levels)
          (nestedMessageSetItem registry levels) file endGroup m xs
        = (readFieldAt registry levels file endGroup m.descriptor xs).into m :=
    fun m xs => decodePass_eq _ _ _ _ (nestedReadItem_agrees registry levels) _ _ _ _
  have hc : Loop.Consuming (decodePass registry levels (nestedStream registry levels)
      (nestedMapEntry registry levels) (nestedMessageSetItem registry levels) file endGroup) := by
    intro m xs m' xs' hb
    rw [hpass, Reading.into] at hb
    split at hb
    · simp at hb
    · next r hr =>
      simp only [Loop.Step.next.injEq] at hb
      rw [← hb.2]
      exact (readFieldAt_next (nestedStream_groupBounded levels) hr).1
    · simp at hb
  exact Loop.run_of_next hc (by rw [hpass, h]; rfl)

/-- A stream that ends at the end of its input reads the two parts of an input one after the
other. -/
theorem readStream_append {levels : Nat} {file : FileDescriptor} {current : MessageDescriptor}
    {a b rest : Bytes} {actions : List Action}
    (h : readStream registry levels file none current a = (actions, .ok rest)) :
    readStream registry levels file none current (a ++ b)
      = (actions ++ (readStream registry levels file none current b).1,
          (readStream registry levels file none current b).2) := by
  have hg := @nestedStream_groupBounded registry levels
  have happ : Loop.run (readPass registry levels file none current) [] (a ++ b)
      = Loop.run (readPass registry levels file none current) actions b := by
    refine Loop.run_append (readPass_consuming hg) (readPass_extends hg) ?_ _ _ h b
    intro s xs s' r hb
    obtain ⟨hdone, ha⟩ := readPass_done hb
    obtain ⟨hnil, ⟨-, hxs, hr⟩ | ⟨n, hn, -⟩⟩ := readFieldAt_done hdone
    · rw [hnil, List.append_nil] at ha
      exact ⟨ha, hxs, hr⟩
    · simp at hn
  have hshift : ∀ (s : List Action) (xs : Bytes),
      readPass registry levels file none current (actions ++ s) xs
        = (readPass registry levels file none current s xs).map (actions ++ ·) := by
    intro s xs
    rw [readPass, readPass]
    split <;> simp only [Loop.Step.map, List.append_assoc]
  have hmap := Loop.run_map (actions ++ ·) hshift [] b
  rw [List.append_nil] at hmap
  rw [readStream, happ, hmap]
  rfl

end

end Pbz
