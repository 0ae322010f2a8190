import Pbz.Wire.StatefulReader

set_option autoImplicit false

/-! # The bytes of a group

`Reader.readGroupBytes` returns the bytes between a start tag and the end tag that matches it. It
finds the first byte of the end tag by going back, from the index behind the tag, the size that a
written tag has. The reader also accepts longer end tags; of such a tag the first bytes are then
returned as bytes of the group.
-/

namespace Pbz

namespace Wire

open Finding

namespace Reader

variable {self : Reader}

/-! ## The two loops over a group -/

/-- What `readGroupBytes` returns at the end tag, with the reader behind it. -/
def groupSlice (start number : Nat) (behind : Reader) : Except Error Bytes :=
  (tagSize number .endGroup).map (fun size =>
    (behind.input.take (behind.index - size)).drop start)

/-- The loop of `readGroupBytes` is the one of `skipGroup`, save for what it returns. -/
theorem readGroupBytesLoop_eq (start fuel number : Nat) (self : Reader) :
    readGroupBytesLoop start fuel number self
      = (skipGroupLoop fuel number self).map (fun outcome =>
          (outcome.1.bind (fun _ => groupSlice start number outcome.2), outcome.2)) := by
  induction fuel generalizing self with
  | zero => rfl
  | succ fuel ih =>
      unfold readGroupBytesLoop skipGroupLoop
      dsimp only
      cases self.nextTag with
      | mk next after =>
          cases next with
          | error e => rfl
          | ok next =>
              cases next with
              | none => rfl
              | some tag =>
                  dsimp only
                  by_cases hend : tag.wireType = .endGroup
                  · rw [if_pos hend, if_pos hend]
                    by_cases hnumber : tag.number = number
                    · rw [if_neg (not_not.mpr hnumber), if_neg (not_not.mpr hnumber), hend, hnumber]
                      rfl
                    · rw [if_pos hnumber, if_pos hnumber]
                      rfl
                  · rw [if_neg hend, if_neg hend]
                    cases skipValue fuel tag after with
                    | none => rfl
                    | some outcome =>
                        obtain ⟨skipped, behind⟩ := outcome
                        cases skipped with
                        | error e => rfl
                        | ok _ => exact ih behind

theorem readGroupBytes_eq (fuel number : Nat) (self : Reader) :
    readGroupBytes fuel number self
      = (skipGroup fuel number self).map (fun outcome =>
          (outcome.1.bind (fun _ => groupSlice self.index number outcome.2), outcome.2)) := by
  unfold readGroupBytes skipGroup inRecursion
  cases self.enterRecursion with
  | error e => rfl
  | ok entered =>
      dsimp only
      rw [readGroupBytesLoop_eq, Option.map_map, Option.map_map]
      rfl

/-! ## The parts of a group -/

/-- The bytes behind a start tag: the fields of the group, the end tag that matches it, and what is
behind that. -/
structure GroupParts (reader : Reader) (number : Nat) (body endTag rest : Bytes) : Prop where
  remaining_eq : reader.remaining = body ++ endTag ++ rest
  entered : 0 < reader.levels
  isFields : IsFields (reader.levels - 1) body
  isTag : IsTag endTag { number, wireType := .endGroup }

/-- The group is extracted: the bytes in front of the end tag are returned, the reader is behind
it, and the bytes can be read again as fields up to their end. -/
structure ExtractsExactly (reader after : Reader) (body endTag slice : Bytes) : Prop where
  slice_eq : slice = body
  index_eq : after.index = reader.index + body.length + endTag.length
  reread : ∃ nested last, reader.nested slice = .ok nested
    ∧ Returns (fun fuel => skipFields fuel nested) (some (.ok (), last)) ∧ last.eof = true

/-- Fields in front of an end tag end in one place only: each tag and each value is read in one way,
and an end tag has no value. -/
theorem isFields_unique {levels number : Nat} {body body' endTag endTag' rest rest' : Bytes}
    (hbody : IsFields levels body) (htag : IsTag endTag { number, wireType := .endGroup })
    (hbody' : IsFields levels body') (htag' : IsTag endTag' { number, wireType := .endGroup })
    (h : body ++ (endTag ++ rest) = body' ++ (endTag' ++ rest')) :
    body = body' ∧ endTag = endTag' := by
  -- two tags in front of the same bytes
  have hsame : ∀ {first second behind behind' : Bytes} {tag tag' : Tag}, IsTag first tag →
      IsTag second tag' → first ++ behind = second ++ behind' → tag = tag' ∧ behind = behind' := by
    intro first second behind behind' tag tag' hfirst hsecond heq
    have hread := hfirst.nextTag_append behind
    rw [heq, hsecond.nextTag_append behind'] at hread
    simpa [eq_comm] using hread
  unfold IsFields at hbody hbody'
  induction hbody generalizing body' with
  | nil =>
      cases hbody' with
      | nil =>
          obtain ⟨-, rfl⟩ := hsame htag htag' h
          exact ⟨rfl, List.append_cancel_right h⟩
      | cons hfield hvalue _ =>
          rw [List.nil_append, List.append_assoc] at h
          obtain ⟨rfl, -⟩ := hsame htag hfield h
          exact (endGroup_ne_of_isValue hvalue rfl).elim
  | @cons tag tagBytes value fields hfield hvalue _ ih =>
      cases hbody' with
      | nil =>
          rw [List.nil_append, List.append_assoc] at h
          obtain ⟨rfl, -⟩ := hsame hfield htag' h
          exact (endGroup_ne_of_isValue hvalue rfl).elim
      | @cons tag' tagBytes' value' fields' hfield' hvalue' hfields' =>
          simp only [List.append_assoc] at h
          obtain ⟨rfl, hbehind⟩ := hsame hfield hfield' h
          have hskip := (skipValue_skips levels tag).append hvalue (fields ++ (endTag ++ rest))
          rw [hbehind, (skipValue_skips levels tag).append hvalue'] at hskip
          have hrest := (Except.ok.inj hskip).symm
          obtain ⟨rfl, rfl⟩ := ih hfields' hrest
          have hend : rest = rest' := by
            have := List.append_cancel_left hrest
            exact List.append_cancel_left this
          subst hend
          have hvalues := List.append_cancel_right hbehind
          subst hvalues
          exact ⟨by rw [List.append_cancel_right h], rfl⟩

theorem GroupParts.unique {number : Nat} {body body' endTag endTag' rest rest' : Bytes}
    (h : GroupParts self number body endTag rest)
    (h' : GroupParts self number body' endTag' rest') : body = body' ∧ endTag = endTag' := by
  have heq := h.remaining_eq.symm.trans h'.remaining_eq
  rw [List.append_assoc, List.append_assoc] at heq
  exact isFields_unique h.isFields h.isTag h'.isFields h'.isTag heq

/-! ## Reading fields again -/

/-- Well-formed fields are read one after the other up to their end. -/
theorem skipFields_of_isFields {levels : Nat} {bytes : Bytes} (h : IsFields levels bytes)
    {reader : Reader} (hlevels : reader.levels = levels) (hbytes : reader.remaining = bytes) :
    ∃ last, Returns (fun fuel => skipFields fuel reader) (some (.ok (), last))
      ∧ last.eof = true := by
  unfold IsFields at h
  induction h generalizing reader with
  | nil =>
      have heof : reader.eof = true := reader.eof_iff.mpr hbytes
      refine ⟨reader, .succ (.of_forall fun fuel => ?_), heof⟩
      simp only [skipFields, nextTag, if_pos heof]
  | @cons tag tagBytes value rest htag hvalue _ ih =>
      obtain ⟨hresult, hmoved⟩ := reader.nextTag_reads
      rw [hbytes, htag.nextTag_append] at hresult
      cases hread : reader.nextTag with
      | mk next after =>
          rw [hread] at hresult hmoved
          cases next with
          | error e => cases hresult
          | ok next =>
              cases next with
              | none => cases hresult
              | some read =>
                  simp only [Except.map, Option.map_some, Except.ok.injEq, Option.some.injEq,
                    Prod.mk.injEq] at hresult
                  obtain ⟨rfl, hafter⟩ := hresult
                  have hlevelsAfter := hmoved.levels_eq.trans hlevels
                  obtain ⟨⟨skipped, behind⟩, hreturns, hskip⟩ := after.skipValue_reads read
                  have hlist := hskip.result
                  rw [hafter, hlevelsAfter, (skipValue_skips levels read).append hvalue] at hlist
                  cases skipped with
                  | error e => cases hlist
                  | ok _ =>
                      have hbehind : behind.remaining = rest := Except.ok.inj hlist
                      obtain ⟨last, hagain, heof⟩ :=
                        ih (hskip.moved.levels_eq.trans hlevelsAfter) hbehind
                      refine ⟨last, .succ ((hreturns.and hagain).mono fun fuel hfuel => ?_), heof⟩
                      obtain ⟨hvalue, hloop⟩ := hfuel
                      have hvalue : skipValue fuel read after = some (.ok (), behind) := hvalue
                      simp only [skipFields, hread, hvalue]
                      exact hloop

theorem nested_of_levels (input : Bytes) (h : 0 < self.levels) :
    ∃ nested, self.nested input = .ok nested ∧ nested.levels = self.levels - 1
      ∧ nested.remaining = input := by
  rw [levels] at h
  refine ⟨{ init input with recursionDepth := self.recursionDepth + 1,
                            recursionLimit := self.recursionLimit }, ?_, ?_, rfl⟩
  · rw [nested, if_neg (by omega)]
  · rw [levels, levels]
    show self.recursionLimit - (self.recursionDepth + 1) = _
    omega

/-! ## The size of the end tag -/

theorem varintValue_lt (bytes : Bytes) : varintValue bytes < 2 ^ (7 * bytes.length) := by
  induction bytes with
  | nil => exact Nat.one_pos
  | cons byte rest ih =>
      have hpow : 2 ^ (7 * (rest.length + 1)) = 0x80 * 2 ^ (7 * rest.length) := by
        rw [show 7 * (rest.length + 1) = 7 * rest.length + 7 by omega, Nat.pow_add, Nat.mul_comm]
      rw [varintValue, List.length_cons, hpow]
      omega

/-- No varint of a value is shorter than the one that is written. -/
theorem encodedVarintSize_le {bytes : Bytes} {value : Nat} (h : IsVarint bytes value) :
    encodedVarintSize value ≤ bytes.length := by
  have hlt : value < 2 ^ (7 * bytes.length) := h.value_eq ▸ varintValue_lt bytes
  have hpos := h.length_pos
  by_cases hzero : value = 0
  · subst hzero
    exact hpos
  · have hfits : value < 2 ^ (7 * (9 + 1)) := Nat.lt_trans h.fits (by decide)
    have hlog : value.log2 < 7 * bytes.length := (Nat.log2_lt hzero).mpr hlt
    rw [← writeVarint_length h.fits, writeVarint, varintLadder_length 9 value hfits (by omega)]
    omega

/-! ## What is extracted -/

theorem tagSize_of_isTag {number : Nat} {endTag : Bytes}
    (h : IsTag endTag { number, wireType := .endGroup }) :
    ∃ size, tagSize number .endGroup = .ok size ∧ size ≤ endTag.length := by
  have hvarint := h.isVarint
  have hne : ¬ number = 0 := Nat.ne_of_gt h.validNumber.1
  refine ⟨_, ?_, encodedVarintSize_le hvarint⟩
  rw [tagSize, Tag.encode, if_neg hne]
  rfl

/-- The parts of the group that `readGroupBytes` accepts, where the reader ends, and the slice that
it returns. -/
theorem readGroupBytes_parts {after : Reader} {number : Nat} {slice : Bytes}
    (h : Returns (fun fuel => self.readGroupBytes fuel number) (some (.ok slice, after))) :
    ∃ body endTag size, GroupParts self number body endTag after.remaining
      ∧ after.index = self.index + body.length + endTag.length
      ∧ tagSize number .endGroup = .ok size ∧ size ≤ endTag.length
      ∧ slice = (body ++ endTag ++ after.remaining).take
          (body.length + endTag.length - size) := by
  obtain ⟨⟨result, behind⟩, hreturns, hreads⟩ := skipGroup_reads number self
  have hread : Returns (fun fuel => self.readGroupBytes fuel number)
      (some (result.bind (fun _ => groupSlice self.index number behind), behind)) := by
    refine hreturns.mono fun fuel hfuel => ?_
    have hfuel : skipGroup fuel number self = some (result, behind) := hfuel
    simp only [readGroupBytes_eq, hfuel, Option.map_some]
  have hsame := hread.unique h
  simp only [Option.some.injEq, Prod.mk.injEq] at hsame
  obtain ⟨hslice, rfl⟩ := hsame
  cases result with
  | error e => cases hslice
  | ok _ =>
      have hlist : Pbz.skipGroup self.levels number self.remaining = .ok behind.remaining :=
        hreads.result.symm
      obtain ⟨bytes, hremaining, hgroup⟩ := (skipGroup_skips _ _ _ _).mp hlist
      cases hlevels : self.levels with
      | zero => rw [hlevels] at hgroup; exact hgroup.elim
      | succ levels =>
          rw [hlevels] at hgroup
          obtain ⟨body, endTag, rfl, hbody, htag⟩ := hgroup
          obtain ⟨size, hsize, hle⟩ := tagSize_of_isTag htag
          have hendPos := htag.isVarint.length_pos
          -- the positions, from the lengths of what is behind them
          have hinput : behind.input = self.input := hreads.moved.input_eq
          have hlength := congrArg List.length hremaining
          simp only [remaining, hinput, List.length_drop, List.length_append] at hlength
          have hwithin : behind.index ≤ behind.input.length := hreads.moved.within (by omega)
          rw [hinput] at hwithin
          have hindex : behind.index = self.index + body.length + endTag.length := by omega
          refine ⟨body, endTag, size, ⟨hremaining, by omega, ?_, htag⟩, hindex, hsize, hle, ?_⟩
          · rw [hlevels, Nat.add_sub_cancel]
            exact hbody
          · have htake : groupSlice self.index number behind = .ok slice := hslice
            rw [groupSlice, hsize, hinput] at htake
            have hused : behind.index - size - self.index = body.length + endTag.length - size := by
              omega
            calc slice
                = (self.input.take (behind.index - size)).drop self.index :=
                  (Except.ok.inj htake).symm
              _ = self.remaining.take (body.length + endTag.length - size) := by
                  rw [List.drop_take, hused, remaining]
              _ = _ := by rw [hremaining]

/-- A group is extracted exactly if and only if the end tag that matches is as long as a tag that is
written, which is the shortest varint of its value. -/
theorem readGroupBytes_exact_iff {self after : Reader} {number : Nat} {slice : Bytes}
    (h : Returns (fun fuel => self.readGroupBytes fuel number) (some (.ok slice, after))) :
    ∃ body endTag, GroupParts self number body endTag after.remaining
      ∧ (∀ body' endTag' rest', GroupParts self number body' endTag' rest' →
        body = body' ∧ endTag = endTag')
      ∧ (ExtractsExactly self after body endTag slice
        ↔ tagSize number .endGroup = .ok endTag.length) := by
  obtain ⟨body, endTag, size, hparts, hindex, hsize, hle, rfl⟩ := readGroupBytes_parts h
  refine ⟨body, endTag, hparts, fun _ _ _ hother => hparts.unique hother, ?_⟩
  rw [hsize, Except.ok.injEq]
  constructor
  · rintro ⟨hslice, -, -⟩
    have hlength := congrArg List.length hslice
    rw [List.length_take, List.length_append, List.length_append] at hlength
    omega
  · intro heq
    have hslice : (body ++ endTag ++ after.remaining).take (body.length + endTag.length - size)
        = body := by
      rw [heq, Nat.add_sub_cancel, List.append_assoc, List.take_left]
    rw [hslice]
    obtain ⟨nested, hnested, hlevels, hbody⟩ := nested_of_levels body hparts.entered
    obtain ⟨last, hreturns, heof⟩ := skipFields_of_isFields hparts.isFields hlevels hbody
    exact ⟨rfl, hindex, nested, last, hnested, hreturns, heof⟩

/-- A group of number 1 without fields, behind which another byte stands. -/
theorem readGroupBytes_exact_iff_empty :
    ∃ body endTag, GroupParts (init [0x0c, 0x2a]) 1 body endTag [0x2a]
      ∧ (∀ body' endTag' rest', GroupParts (init [0x0c, 0x2a]) 1 body' endTag' rest' →
        body = body' ∧ endTag = endTag')
      ∧ (ExtractsExactly (init [0x0c, 0x2a]) { init [0x0c, 0x2a] with index := 1 } body endTag []
        ↔ tagSize 1 .endGroup = .ok endTag.length) := by
  have haccepted : Returns (fun fuel => (init [0x0c, 0x2a]).readGroupBytes fuel 1)
      (some (.ok [], { init [0x0c, 0x2a] with index := 1 })) :=
    .succ (.of_forall fun fuel => rfl)
  exact readGroupBytes_exact_iff haccepted

/-- The end tag of group 1 in two bytes: the first of them is returned as the body of the group. -/
theorem overlong_end_not_exact :
    ¬ ∀ (self after : Reader) (number : Nat) (slice : Bytes),
      Returns (fun fuel => self.readGroupBytes fuel number) (some (.ok slice, after)) →
      ∃ body endTag, GroupParts self number body endTag after.remaining
        ∧ ExtractsExactly self after body endTag slice := by
  intro hclaim
  obtain ⟨body, endTag, hparts, hexact⟩ := hclaim (init [0x8c, 0x00])
    { init [0x8c, 0x00] with index := 2 } 1 [0x8c] (.succ (.of_forall fun fuel => rfl))
  obtain rfl := hexact.slice_eq
  have hbytes : ([0x8c, 0x00] : Bytes) = [0x8c] ++ endTag ++ [] := hparts.remaining_eq
  obtain rfl : [0x00] = endTag := by simpa using hbytes
  have hvalue := hparts.isTag.isVarint.value_eq
  cases hvalue

end Reader

end Wire

end Pbz
