import Pbz.Codegen.EncodedSize

set_option autoImplicit false

/-! # Encoding into a capacity

`writeToAssumeCapacity` writes what `writeTo` does, if the list has the capacity for it. Otherwise
it writes behind the capacity, or, where it calls a writer that lets the list grow, moves the list.
-/

namespace Pbz

namespace Writer

def room (w : Writer) : Nat := w.buffer.room

def contents (w : Writer) : Bytes := w.buffer.contents

/-- What can happen to a list that has too little room for the data. -/
inductive Overran (w : Writer) (data : Bytes) : Except EncodeFault Writer → Prop where
  | outOfBounds : Overran w data (.error .outOfBounds)
  | grown {w' : Writer} (moved : w'.moved = true) (contents : w'.contents = w.contents ++ data) :
      Overran w data (.ok w')

theorem Overran.append {w w' : Writer} {data more : Bytes} {result : Except EncodeFault Writer}
    (h : Overran w' more result) (hcontents : w'.contents = w.contents ++ data) :
    Overran w (data ++ more) result := by
  cases h with
  | outOfBounds => exact .outOfBounds
  | grown hmoved hmore =>
      exact .grown hmoved (by rw [hmore, hcontents, List.append_assoc])

/-- A writer appends this data, in place where there is room for it. -/
structure Appends (run : Writer → Except EncodeFault Writer) (data : Bytes) : Prop where
  fits : ∀ w, data.length ≤ w.room → run w = w.appendSliceAssumeCapacity data
  overruns : ∀ w, w.moved = true ∨ w.room < data.length → Overran w data (run w)

section

variable {w : Writer} {data : Bytes}

theorem appendSliceAssumeCapacity_of_fits (h : data.length ≤ w.room) :
    ∃ w', w.appendSliceAssumeCapacity data = .ok w' ∧ w'.contents = w.contents ++ data
      ∧ w'.room = w.room - data.length ∧ w'.moved = w.moved := by
  rw [room] at h
  have htotal := w.buffer.used_add_room
  obtain ⟨b, hpush, hcontents, hused, hsize⟩ := FilledBuffer.pushAll_of_fits
    (show w.buffer.used + data.length ≤ w.buffer.size by omega)
  refine ⟨{ w with buffer := b }, ?_, hcontents, ?_, rfl⟩
  · rw [appendSliceAssumeCapacity, FilledBuffer.pushAllOr, hpush]
    rfl
  · show b.size - b.used = w.buffer.size - w.buffer.used - data.length
    omega

theorem appendSliceAssumeCapacity_of_overrun (h : w.room < data.length) :
    w.appendSliceAssumeCapacity data = .error .outOfBounds := by
  rw [room] at h
  have htotal := w.buffer.used_add_room
  rw [appendSliceAssumeCapacity, FilledBuffer.pushAllOr,
    FilledBuffer.pushAll_of_overrun (by omega)]
  rfl

theorem appendSliceAssumeCapacity_append (w : Writer) (data more : Bytes) :
    w.appendSliceAssumeCapacity (data ++ more)
      = w.appendSliceAssumeCapacity data >>= appendSliceAssumeCapacity more := by
  rw [appendSliceAssumeCapacity, appendSliceAssumeCapacity, FilledBuffer.pushAllOr,
    FilledBuffer.pushAllOr, FilledBuffer.pushAll_append]
  cases w.buffer.pushAll data with
  | none => rfl
  | some b => rfl

end

namespace Appends

variable {run next : Writer → Except EncodeFault Writer} {data more : Bytes}

theorem appendSliceAssumeCapacity (data : Bytes) :
    Appends (Writer.appendSliceAssumeCapacity data) data where
  fits := fun _ _ => rfl
  overruns := fun w hw => by
    by_cases hroom : data.length ≤ w.room
    · have hmoved : w.moved = true := hw.resolve_right (by omega)
      obtain ⟨w', happend, hcontents, -, hsame⟩ := appendSliceAssumeCapacity_of_fits hroom
      rw [happend]
      exact .grown (hsame.trans hmoved) hcontents
    · rw [appendSliceAssumeCapacity_of_overrun (by omega)]
      exact .outOfBounds

/-- A list that may grow moves instead. -/
theorem appendSlice (spare : Nat → Nat) (data : Bytes) :
    Appends (fun w => .ok (w.appendSlice spare data)) data where
  fits := fun w hroom => by
    rw [room] at hroom
    have htotal := w.buffer.used_add_room
    obtain ⟨b, hpush, -⟩ := FilledBuffer.pushAll_of_fits
      (show w.buffer.used + data.length ≤ w.buffer.size by omega)
    rw [Writer.appendSlice, Writer.appendSliceAssumeCapacity, FilledBuffer.pushAllOr, hpush]
    rfl
  overruns := fun w hw => by
    rw [room] at hw
    have htotal := w.buffer.used_add_room
    by_cases hroom : w.buffer.used + data.length ≤ w.buffer.size
    · have hmoved : w.moved = true := hw.resolve_right (by omega)
      obtain ⟨b, hpush, hcontents, -⟩ := FilledBuffer.pushAll_of_fits hroom
      rw [Writer.appendSlice, hpush]
      exact .grown hmoved hcontents
    · rw [Writer.appendSlice, FilledBuffer.pushAll_of_overrun (by omega)]
      refine .grown rfl ?_
      show (w.buffer.contents ++ data ++ _).take (w.buffer.used + data.length) = _
      rw [← w.buffer.length_contents, ← List.length_append, List.take_left]
      rfl

theorem none_written : Appends (fun w => .ok w) [] where
  fits := fun _ _ => rfl
  overruns := fun w hw => by
    have hmoved : w.moved = true := hw.resolve_right (Nat.not_lt_zero _)
    exact .grown hmoved (List.append_nil _).symm

theorem congr (h : Appends run data) (hrun : ∀ w, next w = run w) : Appends next data := by
  rw [show next = run from funext hrun]
  exact h

/-- Two writers in a row. -/
theorem andThen (h : Appends run data) (h' : Appends next more) :
    Appends (fun w => run w >>= next) (data ++ more) where
  fits := fun w hroom => by
    rw [List.length_append] at hroom
    have hfirst : data.length ≤ w.room := by omega
    obtain ⟨w', happend, -, hroom', -⟩ := appendSliceAssumeCapacity_of_fits hfirst
    rw [appendSliceAssumeCapacity_append, h.fits w hfirst, happend]
    exact h'.fits w' (by omega)
  overruns := fun w hw => by
    -- Once the list has moved, it has moved for the second writer, too.
    have hmoves : Overran w data (run w) → Overran w (data ++ more) (run w >>= next) := by
      intro hrun
      cases hresult : run w with
      | error fault =>
          rw [hresult] at hrun
          cases hrun
          exact .outOfBounds
      | ok w' =>
          rw [hresult] at hrun
          obtain _ | ⟨hmoved, hcontents⟩ := hrun
          exact (h'.overruns w' (.inl hmoved)).append hcontents
    by_cases hfirst : w.moved = true ∨ w.room < data.length
    · exact hmoves (h.overruns w hfirst)
    · rw [not_or] at hfirst
      have hfits : data.length ≤ w.room := Nat.le_of_not_lt hfirst.2
      have hmore := hw.resolve_left hfirst.1
      rw [List.length_append] at hmore
      obtain ⟨w', happend, hcontents, hroom, -⟩ := appendSliceAssumeCapacity_of_fits hfits
      rw [h.fits w hfits, happend]
      exact (h'.overruns w' (.inr (by omega))).append hcontents

end Appends

end Writer

/-! ## Commands -/

/-- `writeToAssumeCapacity` appends what `writeTo` writes. An error comes back, too, if there is
room for what is written in front of it. -/
structure EncodeMethods.AppendsWritten (m : EncodeMethods) (spec : EncodeSpec) : Prop
    extends m.HasSize spec where
  appends : spec.inRange = true → ∀ bytes, m.writeTo = .ok bytes →
    Writer.Appends m.writeToAssumeCapacity bytes
  fails : spec.inRange = true → ∀ e, m.writeTo = .error e → ∀ w : Writer,
    spec.size + spec.endTags ≤ w.room → m.writeToAssumeCapacity w = .error (.error e)

namespace Codegen

theorem tagAssumeCapacity_eq {number : Nat} {wt : WireType} {tag : Bytes}
    (h : writeTag number wt = .ok tag) (w : Writer) :
    tagAssumeCapacity number wt w = w.appendSliceAssumeCapacity tag := by
  rw [writeTag] at h
  split at h
  · cases h
  · next raw hraw =>
    cases h
    rw [Tag.encode] at hraw
    split at hraw
    · cases hraw
    · cases hraw
      rfl

theorem keptAssumeCapacity_appends {form : KeptForm} {number : Nat} {bytes data : Bytes}
    (h : keptBytes form number bytes = .ok data) :
    Writer.Appends (keptAssumeCapacity form number bytes) data := by
  cases form with
  | lengthPrefixed =>
      rw [keptBytes, writeMessage, writeBytes] at h
      split at h
      · cases h
      · next tag htag =>
        cases h
        exact ((Writer.Appends.appendSliceAssumeCapacity tag).congr (tagAssumeCapacity_eq htag)).andThen
          (.appendSliceAssumeCapacity (lengthPrefixed bytes))
  | delimited | group =>
      obtain ⟨start, hstart, h⟩ := Check.of_bind_eq_ok h
      obtain ⟨body, hbody, h⟩ := Check.of_bind_eq_ok h
      obtain ⟨stop, hstop, h⟩ := Check.of_bind_eq_ok h
      cases hbody
      cases h
      rw [List.append_assoc]
      exact ((Writer.Appends.appendSliceAssumeCapacity start).congr (tagAssumeCapacity_eq hstart)).andThen
        ((Writer.Appends.appendSliceAssumeCapacity bytes).andThen
          ((Writer.Appends.appendSliceAssumeCapacity stop).congr (tagAssumeCapacity_eq hstop)))

/-- A command appends what it writes. -/
theorem commandAssumeCapacity_appends (spare : Nat → Nat) {command : Command EncodeMethods}
    {command' : Command EncodeSpec}
    (h : Command.Related EncodeMethods.AppendsWritten command command')
    (hrange : commandInRange command' = true) {data : Bytes}
    (hdata : commandBytes command = .ok data) :
    Writer.Appends (commandAssumeCapacity spare command) data := by
  cases h with
  | check valid =>
      rw [commandBytes] at hdata
      split at hdata
      · next hvalid =>
        cases hdata
        exact Writer.Appends.none_written.congr (fun w => by rw [commandAssumeCapacity, if_pos hvalid])
      · cases hdata
  | tag number wt =>
      exact (Writer.Appends.appendSliceAssumeCapacity data).congr (tagAssumeCapacity_eq hdata)
  | varint value =>
      cases hdata
      exact .appendSliceAssumeCapacity _
  | slice bytes =>
      cases hdata
      exact .appendSliceAssumeCapacity _
  | payload kind value =>
      refine (Writer.Appends.appendSliceAssumeCapacity data).congr (fun w => ?_)
      rw [commandAssumeCapacity, show encodeScalarPayload kind value = .ok data from hdata]
      rfl
  | packed number kind hkind values =>
      obtain ⟨tag, htag, hdata⟩ := Check.of_bind_eq_ok hdata
      obtain ⟨payloads, hpayloads, hdata⟩ := Check.of_bind_eq_ok hdata
      cases hdata
      rw [List.append_assoc]
      refine (((Writer.Appends.appendSliceAssumeCapacity tag).congr (tagAssumeCapacity_eq htag)).andThen
        ((Writer.Appends.appendSliceAssumeCapacity _).andThen
          (.appendSliceAssumeCapacity payloads))).congr (fun w => ?_)
      rw [commandAssumeCapacity, hpayloads]
      rfl
  | kept grows form number bytes =>
      cases grows with
      | false => exact keptAssumeCapacity_appends hdata
      | true =>
          refine (Writer.Appends.appendSlice spare data).congr (fun w => ?_)
          rw [commandAssumeCapacity, show keptBytes form number bytes = .ok data from hdata]
          rfl
  | body delimited hmessage => exact hmessage.appends hrange data hdata

/-- A command that writes nothing but an error fails with it. -/
theorem commandAssumeCapacity_fails (spare : Nat → Nat) {command : Command EncodeMethods}
    {command' : Command EncodeSpec}
    (h : Command.Related EncodeMethods.AppendsWritten command command')
    (hrange : commandInRange command' = true) {e : Error}
    (herror : commandBytes command = .error e) {w : Writer}
    (hroom : commandSize EncodeSpec.size command' + commandEndTags command' ≤ w.room) :
    commandAssumeCapacity spare command w = .error (.error e) := by
  cases h with
  | check valid =>
      rw [commandBytes] at herror
      split at herror
      · cases herror
      · next hvalid =>
        cases herror
        rw [commandAssumeCapacity, if_neg hvalid]
  | tag number wt =>
      rw [commandBytes, writeTag_eq (of_decide_eq_true hrange)] at herror
      cases herror
  | varint value => cases herror
  | slice bytes => cases herror
  | payload kind value =>
      rw [commandAssumeCapacity, show encodeScalarPayload kind value = .error e from herror]
      rfl
  | packed number kind hkind values =>
      simp only [commandInRange, Bool.and_eq_true, decide_eq_true_eq] at hrange
      obtain ⟨⟨hnumber, hlength⟩, -⟩ := hrange
      have htag := writeTag_eq hnumber .lengthDelimited
      have hwidth := length_writeTag hnumber htag
      have hvarint := writeVarint_length hlength
      rw [commandBytes, packedBytes, htag] at herror
      -- Only the elements can be refused, and there is room for all in front of them.
      have hpayloads : encodePayloads (encodeScalarPayload kind) values = .error e := by
        cases hvalues : encodePayloads (encodeScalarPayload kind) values with
        | error e' =>
            rw [hvalues] at herror
            cases herror
            rfl
        | ok payloads =>
            rw [hvalues] at herror
            cases herror
      simp only [commandSize] at hroom
      obtain ⟨w₁, htagged, -, hroom₁, -⟩ := Writer.appendSliceAssumeCapacity_of_fits
        (show (writeVarint (number * 8 + WireType.lengthDelimited.toNat)).length ≤ w.room by omega)
      obtain ⟨w₂, hprefixed, -, -, -⟩ := Writer.appendSliceAssumeCapacity_of_fits
        (show (writeVarint (packedLength kind values)).length ≤ w₁.room by omega)
      rw [commandAssumeCapacity, tagAssumeCapacity_eq htag, htagged]
      show (w₁.appendSliceAssumeCapacity (writeVarint (packedLength kind values)) >>= _) = _
      rw [hprefixed, hpayloads]
      rfl
  | kept grows form number bytes =>
      simp only [commandInRange, Bool.and_eq_true, decide_eq_true_eq] at hrange
      cases form with
      | lengthPrefixed =>
          rw [commandBytes, keptBytes, writeMessage, writeBytes_ok hrange.1] at herror
          cases herror
      | delimited | group =>
          rw [commandBytes, keptBytes, writeGroup_ok hrange.1] at herror
          cases herror
  | body delimited hmessage => exact hmessage.fails hrange e herror w hroom

/-! ## Programs -/

theorem programAssumeCapacity_appends (spare : Nat → Nat) {program : List (Command EncodeMethods)}
    {program' : List (Command EncodeSpec)}
    (h : ProgramRelated EncodeMethods.AppendsWritten program program')
    (hrange : program'.all commandInRange = true) {bytes : Bytes}
    (hbytes : programBytes program = .ok bytes) :
    Writer.Appends (programAssumeCapacity spare program) bytes := by
  induction h generalizing bytes with
  | nil =>
      cases hbytes
      exact .none_written
  | cons hcommand _ ih =>
      rw [List.all_cons, Bool.and_eq_true] at hrange
      obtain ⟨first, hfirst, hbytes⟩ := Check.of_bind_eq_ok hbytes
      obtain ⟨others, hothers, hbytes⟩ := Check.of_bind_eq_ok hbytes
      cases hbytes
      exact (commandAssumeCapacity_appends spare hcommand hrange.1 hfirst).andThen
        (ih hrange.2 hothers)

/-- The first error of a program. -/
theorem programAssumeCapacity_fails (spare : Nat → Nat) {program : List (Command EncodeMethods)}
    {program' : List (Command EncodeSpec)}
    (h : ProgramRelated EncodeMethods.AppendsWritten program program')
    (hrange : program'.all commandInRange = true) {e : Error}
    (herror : programBytes program = .error e) {w : Writer}
    (hroom : programSize EncodeSpec.size program' + (program'.map commandEndTags).sum ≤ w.room) :
    programAssumeCapacity spare program w = .error (.error e) := by
  induction h generalizing w with
  | nil => cases herror
  | @cons command command' program program' hcommand _ ih =>
      rw [List.all_cons, Bool.and_eq_true] at hrange
      rw [programSize_cons, List.map_cons, List.sum_cons] at hroom
      rw [programBytes] at herror
      rw [programAssumeCapacity]
      cases hfirst : commandBytes command with
      | error e' =>
          rw [hfirst] at herror
          cases herror
          rw [commandAssumeCapacity_fails spare hcommand hrange.1 hfirst (by omega)]
          rfl
      | ok first =>
          have hlength := length_commandBytes (hcommand.mono fun _ _ h => h.toHasSize) hrange.1 hfirst
          obtain ⟨w', happend, -, hroom', -⟩ :=
            Writer.appendSliceAssumeCapacity_of_fits (show first.length ≤ w.room by omega)
          have hothers : programBytes program = .error e := by
            rw [hfirst] at herror
            cases hprogram : programBytes program with
            | error e' =>
                rw [hprogram] at herror
                cases herror
                rfl
            | ok others =>
                rw [hprogram] at herror
                cases herror
          rw [(commandAssumeCapacity_appends spare hcommand hrange.1 hfirst).fits w (by omega), happend]
          exact ih hrange.2 hothers (by omega)

theorem encodeMethods_appendsWritten_of_program (spare : Nat → Nat) {t : GeneratedStruct}
    {layer : Layer (GeneratedStruct → EncodeMethods)}
    {layer' : Layer (GeneratedStruct → EncodeSpec)}
    (h : ProgramRelated EncodeMethods.AppendsWritten
      (writeProgram EncodeMethods.encodedSize t layer) (writeProgram EncodeSpec.size t layer')) :
    EncodeMethods.AppendsWritten (encodeMethods spare layer t) (encodeSpec layer' t) := by
  refine
    { toHasSize := encodeMethods_hasSize_of_program spare (h.mono fun _ _ hm => hm.toHasSize)
      appends := fun hrange bytes hbytes => programAssumeCapacity_appends spare h hrange hbytes
      fails := fun hrange e herror w hroom => ?_ }
  refine programAssumeCapacity_fails spare h hrange herror ?_
  rw [programSize_writeProgram]
  exact hroom

theorem encodeMethods_appendsWritten (spare : Nat → Nat) :
    RelatedByLayer (ByStruct EncodeMethods.AppendsWritten) (encodeMethods spare) encodeSpec :=
  fun _ _ h t => encodeMethods_appendsWritten_of_program spare (writeProgram_related
    (fun (m : EncodeMethods) (m' : EncodeSpec) (hm : m.AppendsWritten m') => hm.size) t h)

end Codegen

/-! ## `encode` and `encodeInto` -/

namespace EmittedMessage

variable (spare : Nat → Nat) (s : GeneratedStruct) (self : EmittedMessage)

theorem methods_appendsWritten : (self.methods spare s).AppendsWritten (self.encodeSpec s) :=
  fold_related (Codegen.encodeMethods_appendsWritten spare) self s

/-- `encodedSize` is what the value needs. -/
theorem encodedSize_eq : self.encodedSize spare s = (self.encodeSpec s).size :=
  (self.methods_appendsWritten spare s).size

/-- A list that was given so many cells. -/
theorem room_ofCells (cells : Bytes) : (Writer.ofCells cells).room = cells.length := rfl

section

variable {spare s self} {bytes : Bytes} (hrange : (self.encodeSpec s).inRange = true)

include hrange

theorem writeToAssumeCapacity_of_fits {cells : Bytes} (h : self.writeTo spare s = .ok bytes)
    (hfits : bytes.length ≤ cells.length) :
    ∃ w, (self.methods spare s).writeToAssumeCapacity (.ofCells cells) = .ok w
      ∧ w.buffer.contents = bytes ∧ w.moved = false := by
  have happends := (self.methods_appendsWritten spare s).appends hrange bytes h
  obtain ⟨w, happend, hcontents, -, hmoved⟩ := Writer.appendSliceAssumeCapacity_of_fits
    (show bytes.length ≤ (Writer.ofCells cells).room by rw [room_ofCells]; exact hfits)
  exact ⟨w, by rw [happends.fits (.ofCells cells) hfits, happend], hcontents, hmoved⟩

theorem length_of_writeTo (h : self.writeTo spare s = .ok bytes) :
    bytes.length + (self.encodeSpec s).lengths
      = self.encodedSize spare s + (self.encodeSpec s).endTags := by
  rw [encodedSize_eq]
  exact (self.methods_appendsWritten spare s).length hrange bytes h

theorem encode_of_fits (h : self.writeTo spare s = .ok bytes)
    (hfits : bytes.length ≤ self.encodedSize spare s + spare (self.encodedSize spare s)) :
    self.encode spare s = .ok bytes := by
  obtain ⟨w, hwrite, hcontents, -⟩ := writeToAssumeCapacity_of_fits hrange h
    (show bytes.length ≤ (List.replicate (self.encodedSize spare s
      + spare (self.encodedSize spare s)) (0 : UInt8)).length by
        rw [List.length_replicate]; exact hfits)
  rw [encode, hwrite]
  exact congrArg Except.ok hcontents

theorem encodeInto_of_fits (h : self.writeTo spare s = .ok bytes) {buffer : Bytes}
    (hbuffer : self.encodedSize spare s ≤ buffer.length)
    (hfits : bytes.length ≤ self.encodedSize spare s) :
    self.encodeInto spare s buffer = .ok bytes := by
  obtain ⟨w, hwrite, hcontents, hmoved⟩ := writeToAssumeCapacity_of_fits hrange h
    (show bytes.length ≤ (buffer.take (self.encodedSize spare s)).length by
      rw [List.length_take, Nat.min_eq_left hbuffer]; exact hfits)
  rw [encodeInto, if_neg (Nat.not_lt.mpr hbuffer), hwrite]
  show (Codegen.inPlace w).map FilledBuffer.contents = _
  rw [Codegen.inPlace, hmoved]
  exact congrArg Except.ok hcontents

/-- A buffer of `encodedSize` bytes is large enough if not more is written for end tags than
`encodedSize` counts for length prefixes. Otherwise the encoder writes behind the buffer, or leaves
it. -/
theorem encodeInto_of_writeTo (h : self.writeTo spare s = .ok bytes) {buffer : Bytes}
    (hbuffer : self.encodedSize spare s ≤ buffer.length) :
    ((self.encodeSpec s).endTags ≤ (self.encodeSpec s).lengths →
      self.encodeInto spare s buffer = .ok bytes)
    ∧ ((self.encodeSpec s).lengths < (self.encodeSpec s).endTags →
      self.encodeInto spare s buffer = .error .outOfBounds
        ∨ self.encodeInto spare s buffer = .error .moved) := by
  have hlength := length_of_writeTo hrange h
  constructor
  · exact fun hle => encodeInto_of_fits hrange h hbuffer (by omega)
  · intro hlt
    have hoverran := ((self.methods_appendsWritten spare s).appends hrange bytes h).overruns
      (.ofCells (buffer.take (self.encodedSize spare s)))
      (.inr (by rw [room_ofCells, List.length_take]; omega))
    rw [encodeInto, if_neg (Nat.not_lt.mpr hbuffer)]
    cases hresult : (self.methods spare s).writeToAssumeCapacity
        (.ofCells (buffer.take (self.encodedSize spare s))) with
    | error fault =>
        rw [hresult] at hoverran
        cases hoverran
        exact .inl rfl
    | ok w =>
        rw [hresult] at hoverran
        obtain _ | ⟨hmoved, -⟩ := hoverran
        right
        show (Codegen.inPlace w).map FilledBuffer.contents = _
        rw [Codegen.inPlace, hmoved]
        rfl

/-- `encode` returns what `writeTo` writes, or writes behind the capacity of its list. -/
theorem encode_of_writeTo (h : self.writeTo spare s = .ok bytes) :
    self.encode spare s = .ok bytes ∨ self.encode spare s = .error .outOfBounds := by
  by_cases hfits : bytes.length ≤ self.encodedSize spare s + spare (self.encodedSize spare s)
  · exact .inl (encode_of_fits hrange h hfits)
  · have hoverran := ((self.methods_appendsWritten spare s).appends hrange bytes h).overruns
      (.ofCells (List.replicate (self.encodedSize spare s + spare (self.encodedSize spare s)) 0))
      (.inr (by rw [room_ofCells, List.length_replicate]; omega))
    rw [encode]
    cases hresult : (self.methods spare s).writeToAssumeCapacity
        (.ofCells (List.replicate (self.encodedSize spare s
          + spare (self.encodedSize spare s)) 0)) with
    | error fault =>
        rw [hresult] at hoverran
        cases hoverran
        exact .inr rfl
    | ok w =>
        rw [hresult] at hoverran
        obtain _ | ⟨-, hcontents⟩ := hoverran
        exact .inl (congrArg Except.ok hcontents)

/-- Without messages between tags both return the bytes or the error of `writeTo`. -/
theorem encode_eq_writeTo (hplain : (self.encodeSpec s).endTags = 0) :
    self.encode spare s = (self.writeTo spare s).mapError .error
      ∧ ∀ buffer : Bytes, self.encodeInto spare s buffer =
        if buffer.length < self.encodedSize spare s then .error .noSpaceLeft
        else (self.writeTo spare s).mapError .error := by
  have hsize := self.encodedSize_eq spare s
  cases hwrite : self.writeTo spare s with
  | error e =>
      have hfails := (self.methods_appendsWritten spare s).fails hrange e hwrite
      constructor
      · rw [encode, hfails _ (by rw [room_ofCells, List.length_replicate]; omega)]
        rfl
      · intro buffer
        rw [encodeInto]
        split
        · rfl
        · rw [hfails _ (by rw [room_ofCells, List.length_take]; omega)]
          rfl
  | ok bytes =>
      have hlength := length_of_writeTo hrange hwrite
      constructor
      · exact encode_of_fits hrange hwrite (by omega)
      · intro buffer
        split
        · next hshort => rw [encodeInto, if_pos hshort]
        · next hlong =>
          exact encodeInto_of_fits hrange hwrite (Nat.le_of_not_lt hlong) (by omega)

end

/-- The two bytes of the end tag take more than the one of the length. -/
theorem encodeInto_of_writeTo_cart :
    (Codegen.cart (some [8, 5]) []).encodeInto (fun _ => 0) Codegen.cartStruct [0, 0, 0, 0, 0]
        = .error .outOfBounds
      ∨ (Codegen.cart (some [8, 5]) []).encodeInto (fun _ => 0) Codegen.cartStruct [0, 0, 0, 0, 0]
        = .error .moved :=
  (encodeInto_of_writeTo (by decide)
    (show (Codegen.cart (some [8, 5]) []).writeTo (fun _ => 0) Codegen.cartStruct
      = .ok [131, 1, 8, 5, 132, 1] by decide) (by decide)).2 (by decide)

theorem encode_of_writeTo_cart :
    (Codegen.cart (some [8, 5]) []).encode (fun _ => 0) Codegen.cartStruct
        = .ok [131, 1, 8, 5, 132, 1]
      ∨ (Codegen.cart (some [8, 5]) []).encode (fun _ => 0) Codegen.cartStruct
        = .error .outOfBounds :=
  encode_of_writeTo (by decide) (by decide)

theorem encode_eq_writeTo_cart :
    (Codegen.cart none [3, 4]).encode (fun _ => 0) Codegen.cartStruct = .ok [10, 2, 3, 4] :=
  (@encode_eq_writeTo (fun _ => 0) Codegen.cartStruct (Codegen.cart none [3, 4]) (by decide)
    (by decide)).1

end EmittedMessage

end Pbz
