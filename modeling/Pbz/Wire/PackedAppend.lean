import Pbz.Lib.ArrayList
import Pbz.Wire.PackedIterators

set_option autoImplicit false

/-! # Appending the values of a packed payload

The decoders of `wire.zig` that append a packed payload to a list. Memory is reserved first, one
element for each byte or, where that is more than the list has room for, one for each varint; then
the varints are read and written without a check. `none` is a write outside of the memory. A
request for memory of `n` elements is granted if `memory n`.
-/

namespace Pbz

namespace Wire

inductive AppendError where
  | outOfMemory
  | wire (e : Error)

abbrev AppendOutcome (α : Type) := Option (Except AppendError Unit × ArrayList α)

/-! ## The decoders -/

/-- The loop of `countPackedVarints`. Each read moves the index on, so the length of the payload
bounds the rounds. -/
def countFrom (payload : Bytes) : Nat → Nat → Except Error Nat
  | 0, _ => .ok 0
  | rounds + 1, index =>
      if index < payload.length then
        match readVarintAt payload index with
        | (.error e, _) => .error e
        | (.ok _, index) => (countFrom payload rounds index).map (· + 1)
      else .ok 0

def countPackedVarints (payload : Bytes) : Except Error Nat := countFrom payload payload.length 0

section

variable {α : Type} (read : Bytes → Nat → Except Error α × Nat)

/-- The loop that appends without a check. -/
def appendFrom (payload : Bytes) : Nat → Nat → ArrayList α → AppendOutcome α
  | 0, _, list => some (.ok (), list)
  | rounds + 1, index, list =>
      if index < payload.length then
        match read payload index with
        | (.error e, _) => some (.error (.wire e), list)
        | (.ok value, index) =>
            match list.push value with
            | none => none
            | some list => appendFrom payload rounds index list
      else some (.ok (), list)

/-- The loop that fills the cells of a slice. -/
def fillFrom (payload : Bytes) : Nat → Nat → Except Error (List α)
  | 0, _ => .ok []
  | cells + 1, index =>
      match read payload index with
      | (.error e, _) => .error e
      | (.ok value, index) => (fillFrom payload cells index).map (value :: ·)

variable (growth : ArrayList.Growth) (memory : Nat → Bool)

/-- The room that is asked for in front of the loop. -/
def requiredCapacity (list : ArrayList α) (payload : Bytes) : Except Error Nat :=
  if list.capacity ≠ 0 ∧ list.capacity - list.items.length < payload.length then
    countPackedVarints payload
  else .ok payload.length

def appendReserved (required : Except Error Nat) (list : ArrayList α) (payload : Bytes) :
    AppendOutcome α :=
  match required with
  | .error e => some (.error (.wire e), list)
  | .ok required =>
      match list.reserve growth memory required with
      | none => some (.error .outOfMemory, list)
      | some list => appendFrom read payload payload.length 0 list

/-- The path for a list without memory: a slice of the right size becomes the list. -/
def appendFresh (list : ArrayList α) (payload : Bytes) : AppendOutcome α :=
  match countPackedVarints payload with
  | .error e => some (.error (.wire e), list)
  | .ok count =>
      if memory count then
        match fillFrom read payload count 0 with
        | .error e => some (.error (.wire e), list)
        | .ok out => some (.ok (), .ofSlice out)
      else some (.error .outOfMemory, list)

/-- The decoders for all types but `int32` and `bool`. -/
def appendPackedVarints (list : ArrayList α) (payload : Bytes) : AppendOutcome α :=
  if payload.isEmpty then some (.ok (), list)
  else if list.items.isEmpty ∧ list.capacity = 0 then appendFresh read memory list payload
  else appendReserved read growth memory (requiredCapacity list payload) list payload

end

section

variable (growth : ArrayList.Growth) (memory : Nat → Bool)

def appendPackedInt32 (list : ArrayList (BitVec 32)) (payload : Bytes) :
    AppendOutcome (BitVec 32) :=
  appendReserved readInt32At growth memory (requiredCapacity list payload) list payload

def appendPackedInt64 (list : ArrayList (BitVec 64)) (payload : Bytes) :
    AppendOutcome (BitVec 64) :=
  appendPackedVarints readVarintAt growth memory list payload

def appendPackedUInt32 (list : ArrayList (BitVec 32)) (payload : Bytes) :
    AppendOutcome (BitVec 32) :=
  appendPackedVarints (fun payload index => mapValue (BitVec.setWidth 32) (readVarintAt payload index))
    growth memory list payload

def appendPackedUInt64 (list : ArrayList (BitVec 64)) (payload : Bytes) :
    AppendOutcome (BitVec 64) :=
  appendPackedVarints readVarintAt growth memory list payload

def appendPackedSInt32 (list : ArrayList (BitVec 32)) (payload : Bytes) :
    AppendOutcome (BitVec 32) :=
  appendPackedVarints (fun payload index =>
    mapValue (fun value => zigZagDecode32 (value.setWidth 32)) (readVarintAt payload index))
    growth memory list payload

def appendPackedSInt64 (list : ArrayList (BitVec 64)) (payload : Bytes) :
    AppendOutcome (BitVec 64) :=
  appendPackedVarints (fun payload index => mapValue zigZagDecode64 (readVarintAt payload index))
    growth memory list payload

/-- The loop over the vectors of the payload, and the rest behind the last whole one. -/
def vectorsSingleByte (vectorLen : Nat) : Nat → Bytes → Bool
  | 0, rest => rest.all (· < 0x80)
  | rounds + 1, rest =>
      if vectorLen ≤ rest.length then
        if (rest.take vectorLen).any (· ≥ 0x80) then false
        else vectorsSingleByte vectorLen rounds (rest.drop vectorLen)
      else rest.all (· < 0x80)

/-- `vectorLen` is what `std.simd.suggestVectorLength` says for the machine, and 0 for nothing. -/
def packedVarintPayloadAllSingleByte (vectorLen : Nat) (payload : Bytes) : Bool :=
  if vectorLen ≥ 8 then vectorsSingleByte vectorLen payload.length payload
  else payload.all (· < 0x80)

def readPackedBoolAt (payload : Bytes) (index : Nat) : Except Error Bool × Nat :=
  mapValue (fun value => value != 0) (readVarintAt payload index)

def appendPackedBool (vectorLen : Nat) (list : ArrayList Bool) (payload : Bytes) :
    AppendOutcome Bool :=
  if payload.isEmpty then some (.ok (), list)
  else if packedVarintPayloadAllSingleByte vectorLen payload then
    match list.reserve growth memory payload.length with
    | none => some (.error .outOfMemory, list)
    | some list => (list.pushSlice (payload.map (· != 0))).map ((.ok (), ·))
  else if list.items.isEmpty ∧ list.capacity = 0 then
    appendFresh readPackedBoolAt memory list payload
  else appendReserved readPackedBoolAt growth memory (.ok payload.length) list payload

end

/-! ## What they append -/

/-- What a decoder returns for a payload with these values, and the items it leaves: all values,
or, where a varint is malformed, its error, with the values in front of it or without. -/
inductive Appended {α : Type} (f : BitVec 64 → α) (memory : Nat → Bool) (items : List α)
    (values : List (BitVec 64)) : Option Error → Except AppendError Unit → List α → Prop
  | all : Appended f memory items values none (.ok ()) (items ++ values.map f)
  | stopped (e : Error) :
      Appended f memory items values (some e) (.error (.wire e)) (items ++ values.map f)
  | rejected (e : Error) : Appended f memory items values (some e) (.error (.wire e)) items
  | outOfMemory {ending : Option Error} {n : Nat} (h : memory n = false) :
      Appended f memory items values ending (.error .outOfMemory) items

/-- On every list and payload the decoder writes inside of the reserved memory, and appends the
values of the payload. -/
def AppendsValues {α : Type} (append : ArrayList α → Bytes → AppendOutcome α) (f : BitVec 64 → α)
    (memory : Nat → Bool) : Prop :=
  ∀ (list : ArrayList α) (payload : Bytes) (values : List (BitVec 64)) (ending : Option Error),
    PayloadValues payload values ending →
      ∃ result after, append list payload = some (result, after)
        ∧ Appended f memory list.items values ending result after.items

theorem PayloadValues.length_le {bytes : Bytes} {values : List (BitVec 64)} {ending : Option Error}
    (h : PayloadValues bytes values ending) : values.length ≤ bytes.length := by
  induction h with
  | nil => exact le_rfl
  | cons hvalue _ ih =>
      have hpos := hvalue.length_pos
      simp only [List.length_cons, List.length_append]
      omega
  | malformed => simp

/-- The varints of a payload are counted, unless one of them is malformed. -/
theorem countFrom_eq {payload bytes : Bytes} {values : List (BitVec 64)} {ending : Option Error}
    (h : PayloadValues bytes values ending) {rounds index : Nat} (hrounds : bytes.length ≤ rounds)
    (hbytes : payload.drop index = bytes) :
    (ending = none → countFrom payload rounds index = .ok values.length)
      ∧ ∀ e, ending = some e → countFrom payload rounds index = .error e := by
  induction h generalizing rounds index with
  | nil =>
      have hend : ¬ index < payload.length := by
        have hdrop := List.drop_eq_nil_iff.mp hbytes
        omega
      refine ⟨fun _ => ?_, fun e he => (by cases he)⟩
      cases rounds with
      | zero => rfl
      | succ rounds => rw [countFrom, if_neg hend]; rfl
  | cons hvalue _ ih =>
      obtain ⟨hin, hat, hrest⟩ := readsThrough_readVarintAt.value hvalue hbytes
      have hpos := hvalue.length_pos
      rw [List.length_append] at hrounds
      obtain ⟨rounds, rfl⟩ : ∃ k, rounds = k + 1 := ⟨rounds - 1, by omega⟩
      obtain ⟨hok, herror⟩ := ih (by omega : _ ≤ rounds) hrest
      refine ⟨fun he => ?_, fun e he => ?_⟩
      · rw [countFrom, if_pos hin, hat]
        exact congrArg (Except.map (· + 1)) (hok he)
      · rw [countFrom, if_pos hin, hat]
        exact congrArg (Except.map (· + 1)) (herror e he)
  | @malformed bytes e hne hread =>
      obtain ⟨hin, hat⟩ := readsThrough_readVarintAt.malformed hne hread hbytes
      have hpos := List.length_pos_iff.mpr hne
      obtain ⟨rounds, rfl⟩ : ∃ k, rounds = k + 1 := ⟨rounds - 1, by omega⟩
      refine ⟨fun he => (by cases he), fun e' he => ?_⟩
      obtain rfl : e = e' := Option.some.inj he
      rw [countFrom, if_pos hin, hat]

theorem countPackedVarints_eq {payload : Bytes} {values : List (BitVec 64)}
    (h : PayloadValues payload values none) : countPackedVarints payload = .ok values.length :=
  (countFrom_eq h le_rfl rfl).1 rfl

theorem countPackedVarints_error {payload : Bytes} {values : List (BitVec 64)} {e : Error}
    (h : PayloadValues payload values (some e)) : countPackedVarints payload = .error e :=
  (countFrom_eq h le_rfl rfl).2 e rfl

section

variable {α : Type} {read : Bytes → Nat → Except Error α × Nat} {f : BitVec 64 → α}
  {growth : ArrayList.Growth} {memory : Nat → Bool} {list : ArrayList α} {payload : Bytes}
  {values : List (BitVec 64)} {ending : Option Error}

/-- With room for all values the loop appends them, up to a malformed varint. -/
theorem appendFrom_appends (hread : ReadsThrough read f) {bytes : Bytes}
    (h : PayloadValues bytes values ending) {rounds index : Nat} (hrounds : bytes.length ≤ rounds)
    (hbytes : payload.drop index = bytes) (hroom : values.length ≤ list.unused) :
    ∃ result after, appendFrom read payload rounds index list = some (result, after)
      ∧ after.items = list.items ++ values.map f
      ∧ (ending = none → result = .ok ())
      ∧ ∀ e, ending = some e → result = .error (.wire e) := by
  induction h generalizing rounds index list with
  | nil =>
      have hend : ¬ index < payload.length := by
        have hdrop := List.drop_eq_nil_iff.mp hbytes
        omega
      refine ⟨.ok (), list, ?_, by simp, fun _ => rfl, fun e he => (by cases he)⟩
      cases rounds with
      | zero => rfl
      | succ rounds => rw [appendFrom, if_neg hend]
  | @cons first rest value values ending hvalue _ ih =>
      obtain ⟨hin, hat, hrest⟩ := hread.value hvalue hbytes
      have hpos := hvalue.length_pos
      rw [List.length_append] at hrounds
      rw [List.length_cons] at hroom
      obtain ⟨rounds, rfl⟩ : ∃ k, rounds = k + 1 := ⟨rounds - 1, by omega⟩
      obtain ⟨pushed, hpush, hitems, hunused⟩ :=
        ArrayList.push_of_unused (by omega : 0 < list.unused) (f (BitVec.ofNat 64 value))
      obtain ⟨result, after, hloop, hafter, hending⟩ :=
        @ih pushed rounds _ (by omega) hrest (by omega)
      refine ⟨result, after, ?_, ?_, hending⟩
      · rw [appendFrom, if_pos hin, hat]
        simp only [hpush]
        exact hloop
      · rw [hafter, hitems, List.append_assoc]
        rfl
  | @malformed bytes e hne herror =>
      obtain ⟨hin, hat⟩ := hread.malformed hne herror hbytes
      have hpos := List.length_pos_iff.mpr hne
      obtain ⟨rounds, rfl⟩ : ∃ k, rounds = k + 1 := ⟨rounds - 1, by omega⟩
      refine ⟨.error (.wire e), list, by rw [appendFrom, if_pos hin, hat], by simp,
        fun he => (by cases he), fun e' he => ?_⟩
      rw [Option.some.inj he]

/-- The cells of a slice, one for each varint, are all filled. -/
theorem fillFrom_eq (hread : ReadsThrough read f) {bytes : Bytes} {values : List (BitVec 64)}
    (h : PayloadValues bytes values none) {index : Nat} (hbytes : payload.drop index = bytes) :
    fillFrom read payload values.length index = .ok (values.map f) := by
  generalize hending : none = ending at h
  induction h generalizing index with
  | nil => rfl
  | cons hvalue _ ih =>
      obtain ⟨-, hat, hrest⟩ := hread.value hvalue hbytes
      rw [List.length_cons, fillFrom, hat]
      exact congrArg (Except.map _) (ih hrest hending)
  | malformed => cases hending

theorem appendFresh_appends (hread : ReadsThrough read f) (h : PayloadValues payload values ending)
    (hempty : list.items = []) :
    ∃ result after, appendFresh read memory list payload = some (result, after)
      ∧ Appended f memory list.items values ending result after.items := by
  cases ending with
  | some e =>
      refine ⟨_, list, ?_, .rejected e⟩
      rw [appendFresh, countPackedVarints_error h]
  | none =>
      rw [appendFresh, countPackedVarints_eq h]
      cases hmemory : memory values.length with
      | false => exact ⟨_, list, by simp [hmemory], .outOfMemory hmemory⟩
      | true =>
          have hfill := fillFrom_eq hread h (rfl : payload.drop 0 = payload)
          refine ⟨.ok (), .ofSlice (values.map f), by simp [hmemory, hfill], ?_⟩
          have hall : Appended f memory list.items values none (.ok ()) _ := .all
          rw [hempty, List.nil_append] at hall
          rwa [hempty]

/-- What is reserved is enough for the values. -/
theorem appendReserved_appends (hread : ReadsThrough read f)
    (h : PayloadValues payload values ending) {required : Except Error Nat}
    (hrequired : ∀ n, required = .ok n → values.length ≤ n)
    (herror : ∀ e, required = .error e → ending = some e) :
    ∃ result after, appendReserved read growth memory required list payload = some (result, after)
      ∧ Appended f memory list.items values ending result after.items := by
  cases required with
  | error e =>
      rw [herror e rfl]
      exact ⟨_, list, rfl, .rejected e⟩
  | ok n =>
      unfold appendReserved
      rcases list.reserve_cases growth memory n with
        ⟨reserved, hreserve, hitems, hroom⟩ | ⟨hreserve, m, hmemory⟩
      · obtain ⟨result, after, hloop, hafter, hok, hstop⟩ :=
          appendFrom_appends hread h le_rfl (rfl : payload.drop 0 = payload)
            ((hrequired n rfl).trans hroom)
        refine ⟨result, after, by simp only [hreserve]; exact hloop, ?_⟩
        rw [hafter, hitems]
        cases ending with
        | none => rw [hok rfl]; exact .all
        | some e => rw [hstop e rfl]; exact .stopped e
      · exact ⟨_, list, by simp only [hreserve], .outOfMemory hmemory⟩

/-- The number of the varints is asked for, or that of the bytes. -/
theorem requiredCapacity_enough (list : ArrayList α) (h : PayloadValues payload values ending) :
    (∀ n, requiredCapacity list payload = .ok n → values.length ≤ n)
      ∧ ∀ e, requiredCapacity list payload = .error e → ending = some e := by
  unfold requiredCapacity
  split
  · cases ending with
    | none =>
        rw [countPackedVarints_eq h]
        exact ⟨fun n hn => (Except.ok.inj hn).le, fun e he => (by cases he)⟩
    | some e =>
        rw [countPackedVarints_error h]
        exact ⟨fun n hn => (by cases hn), fun e' he => by rw [Except.error.inj he]⟩
  · exact ⟨fun n hn => (Except.ok.inj hn) ▸ h.length_le, fun e he => (by cases he)⟩

theorem values_of_nil (h : PayloadValues [] values ending) : values = [] ∧ ending = none := by
  generalize hbytes : ([] : Bytes) = bytes at h
  cases h with
  | nil => exact ⟨rfl, rfl⟩
  | cons hvalue _ =>
      have hpos := hvalue.length_pos
      have hlength := congrArg List.length hbytes
      rw [List.length_append, List.length_nil] at hlength
      omega
  | malformed hne _ => exact absurd hbytes.symm hne

theorem nothing_appended (h : PayloadValues [] values ending) :
    Appended f memory list.items values ending (.ok ()) list.items := by
  obtain ⟨rfl, rfl⟩ := values_of_nil h
  have hall : Appended f memory list.items [] none (.ok ()) _ := .all
  rwa [List.map_nil, List.append_nil] at hall

theorem appendPackedVarints_appends (hread : ReadsThrough read f) :
    AppendsValues (appendPackedVarints read growth memory) f memory := by
  intro list payload values ending h
  unfold appendPackedVarints
  cases payload with
  | nil => exact ⟨_, list, rfl, nothing_appended h⟩
  | cons byte rest =>
      rw [if_neg (by simp)]
      by_cases hfresh : list.items.isEmpty ∧ list.capacity = 0
      · rw [if_pos hfresh]
        exact appendFresh_appends hread h (by simpa using hfresh.1)
      · rw [if_neg hfresh]
        obtain ⟨hrequired, herror⟩ := requiredCapacity_enough list h
        exact appendReserved_appends hread h hrequired herror

end

/-! ## Bytes that are varints of their own -/

theorem vectorsSingleByte_eq (vectorLen rounds : Nat) (rest : Bytes) :
    vectorsSingleByte vectorLen rounds rest = rest.all (· < 0x80) := by
  induction rounds generalizing rest with
  | zero => rfl
  | succ rounds ih =>
      rw [vectorsSingleByte]
      split
      · have hsplit : rest.all (· < 0x80)
            = ((rest.take vectorLen).all (· < 0x80) && (rest.drop vectorLen).all (· < 0x80)) := by
          rw [← List.all_append, List.take_append_drop]
        have hany : (rest.take vectorLen).any (· ≥ 0x80)
            = !(rest.take vectorLen).all (· < 0x80) := by
          rw [List.not_all_eq_any_not]
          congr 1
          funext byte
          rw [← decide_not]
          exact decide_eq_decide.mpr UInt8.not_lt.symm
        rw [hsplit, hany, ih]
        cases (rest.take vectorLen).all (· < 0x80) with
        | true => rfl
        | false => rfl
      · rfl

theorem allSingleByte_eq (vectorLen : Nat) (payload : Bytes) :
    packedVarintPayloadAllSingleByte vectorLen payload = payload.all (· < 0x80) := by
  unfold packedVarintPayloadAllSingleByte
  split
  · exact vectorsSingleByte_eq vectorLen payload.length payload
  · rfl

/-- Bytes without a continuation bit are the values. -/
theorem values_of_singleBytes {payload : Bytes} {values : List (BitVec 64)} {ending : Option Error}
    (h : PayloadValues payload values ending) (hall : payload.all (· < 0x80) = true) :
    ending = none ∧ values.map (· != 0) = payload.map (· != 0) := by
  induction h with
  | nil => exact ⟨rfl, rfl⟩
  | @cons bytes rest value values ending hvalue _ ih =>
      rw [List.all_append, Bool.and_eq_true] at hall
      obtain ⟨hending, hrest⟩ := ih hall.2
      refine ⟨hending, ?_⟩
      cases bytes with
      | nil => exact absurd hvalue.length_pos (by simp)
      | cons byte more =>
          have hsmall : byte.toNat < 0x80 := by
            have hlt : byte < 0x80 := by simpa using (List.all_eq_true.mp hall.1) byte (by simp)
            exact hlt
          obtain rfl : more = [] := (terminated_cons_of_lt hsmall).mp hvalue.terminated
          have hvalueEq : value = byte.toNat := by
            rw [← hvalue.value_eq, varintValue, varintValue, Nat.mod_eq_of_lt hsmall]
            omega
          have hzero : (BitVec.ofNat 64 value != 0) = (byte != 0) := by
            rw [Bool.eq_iff_iff, bne_iff_ne, bne_iff_ne, ne_eq, ne_eq, not_iff_not, hvalueEq,
              ← BitVec.toNat_inj, ← UInt8.toNat_inj, BitVec.toNat_ofNat,
              Nat.mod_eq_of_lt (by omega)]
            rfl
          rw [List.map_cons, hzero, hrest]
          rfl
  | @malformed bytes e hne herror =>
      cases bytes with
      | nil => exact absurd rfl hne
      | cons byte more =>
          have hsmall : byte.toNat < 0x80 := by
            have hlt : byte < 0x80 := by simpa using (List.all_eq_true.mp hall) byte (by simp)
            exact hlt
          rw [readVarint, readLadder, if_pos hsmall] at herror
          cases herror

theorem appendPackedBool_appends {growth : ArrayList.Growth} {memory : Nat → Bool}
    (vectorLen : Nat) :
    AppendsValues (appendPackedBool growth memory vectorLen) (· != 0) memory := by
  intro list payload values ending h
  have hread : ReadsThrough readPackedBoolAt (· != 0) := fun _ _ => rfl
  unfold appendPackedBool
  cases payload with
  | nil => exact ⟨_, list, rfl, nothing_appended h⟩
  | cons byte rest =>
      rw [if_neg (by simp), allSingleByte_eq]
      by_cases hall : (byte :: rest).all (· < 0x80) = true
      · rw [if_pos hall]
        obtain ⟨rfl, hvalues⟩ := values_of_singleBytes h hall
        rcases list.reserve_cases growth memory (byte :: rest).length with
          ⟨reserved, hreserve, hitems, hroom⟩ | ⟨hreserve, n, hmemory⟩
        · have hslice : ((byte :: rest).map (· != 0)).length ≤ reserved.unused := by simpa using hroom
          obtain ⟨after, hpush, hafter⟩ := ArrayList.pushSlice_of_unused hslice
          refine ⟨.ok (), after, by simp only [hreserve, hpush]; rfl, ?_⟩
          rw [hafter, hitems, ← hvalues]
          exact .all
        · exact ⟨_, list, by simp only [hreserve], .outOfMemory hmemory⟩
      · rw [if_neg hall]
        by_cases hfresh : list.items.isEmpty ∧ list.capacity = 0
        · rw [if_pos hfresh]
          exact appendFresh_appends hread h (by simpa using hfresh.1)
        · rw [if_neg hfresh]
          refine appendReserved_appends hread h (fun n hn => ?_) (fun e he => (by cases he))
          exact (Except.ok.inj hn) ▸ h.length_le

/-- For every payload, list, growth of lists and supply of memory, each decoder appends the values
of the payload's varints, and never writes outside of the memory of the list. -/
theorem appendPacked_exact (growth : ArrayList.Growth) (memory : Nat → Bool) :
    (∀ payload, ∃ values ending, PayloadValues payload values ending)
    ∧ AppendsValues (appendPackedInt32 growth memory) (BitVec.setWidth 32) memory
    ∧ AppendsValues (appendPackedInt64 growth memory) id memory
    ∧ (∀ vectorLen, AppendsValues (appendPackedBool growth memory vectorLen) (· != 0) memory)
    ∧ AppendsValues (appendPackedUInt32 growth memory) (BitVec.setWidth 32) memory
    ∧ AppendsValues (appendPackedUInt64 growth memory) id memory
    ∧ AppendsValues (appendPackedSInt32 growth memory)
        (fun value => zigZagDecode32 (value.setWidth 32)) memory
    ∧ AppendsValues (appendPackedSInt64 growth memory) zigZagDecode64 memory := by
  refine ⟨exists_payloadValues, ?_, appendPackedVarints_appends readsThrough_readVarintAt,
    fun vectorLen => appendPackedBool_appends vectorLen,
    appendPackedVarints_appends (fun _ _ => rfl),
    appendPackedVarints_appends readsThrough_readVarintAt,
    appendPackedVarints_appends (fun _ _ => rfl), appendPackedVarints_appends (fun _ _ => rfl)⟩
  intro list payload values ending h
  obtain ⟨hrequired, herror⟩ := requiredCapacity_enough list h
  exact appendReserved_appends readInt32At_eq h hrequired herror

end Wire

end Pbz
