import Pbz.Lib.ArrayList
import Pbz.Lib.Generator
import Pbz.Names

set_option autoImplicit false

/-! # Derived names, character by character

The functions of `schema.zig` that derive a name from a field name hand its characters out one by
one; some of them write these down, others compare them with a text or with those of another name.
Each of the three kinds of names has its `next` function and the same loops over it. What these
loops compute is said about the whole names in `Names`.
-/

namespace Pbz

namespace NameStreams

/-- How far a name has been read. Underscores in front of `index` are remembered in `upperNext`,
and `first` says that no character has been given yet. -/
structure NameCursor where
  index : Nat := 0
  upperNext : Bool := false
  first : Bool := true
  deriving DecidableEq, Repr

def nextLowercaseNameChar (name : Bytes) (cursor : NameCursor) : Option UInt8 × NameCursor :=
  match name[cursor.index]? with
  | none => (none, cursor)
  | some c => (some (toLower c), { cursor with index := cursor.index + 1 })

/-- The loop of the other two functions, which leave underscores out. What they give for a character
depends on whether it is the first one and on whether underscores stand in front of it. -/
def nextNameChar (convert : Bool → Bool → UInt8 → UInt8) (name : Bytes) (cursor : NameCursor) :
    Option UInt8 × NameCursor :=
  if _h : cursor.index < name.length then
    let c := name[cursor.index]
    if c == 0x5f then
      nextNameChar convert name { cursor with index := cursor.index + 1, upperNext := true }
    else
      (some (convert cursor.first cursor.upperNext c),
        { index := cursor.index + 1, upperNext := false, first := false })
  else (none, cursor)
termination_by name.length - cursor.index

def camelcaseChar (first upperNext : Bool) (c : UInt8) : UInt8 :=
  if first then toLower c else if upperNext then toUpper c else c

def nextCamelcaseNameChar (name : Bytes) (cursor : NameCursor) : Option UInt8 × NameCursor :=
  nextNameChar camelcaseChar name cursor

def defaultJsonNameChar (_first upperNext : Bool) (c : UInt8) : UInt8 :=
  if upperNext then toUpper c else c

def nextDefaultJsonNameChar (name : Bytes) (cursor : NameCursor) : Option UInt8 × NameCursor :=
  nextNameChar defaultJsonNameChar name cursor

/-! ## Generators -/

/-- A character is read wherever one is given. -/
def Advances (name : Bytes) (next : NameCursor → Option UInt8 × NameCursor) : Prop :=
  ∀ cursor, (next cursor).1.isSome →
    cursor.index < (next cursor).2.index ∧ (next cursor).2.index ≤ name.length

theorem nextLowercaseNameChar_advances (name : Bytes) :
    Advances name (nextLowercaseNameChar name) := by
  intro cursor
  unfold nextLowercaseNameChar
  cases h : name[cursor.index]? with
  | none =>
      intro hsome
      cases hsome
  | some c =>
      obtain ⟨hlt, -⟩ := List.getElem?_eq_some_iff.mp h
      exact fun _ => ⟨Nat.lt_succ_self _, hlt⟩

theorem nextNameChar_advances (convert : Bool → Bool → UInt8 → UInt8) (name : Bytes) :
    Advances name (nextNameChar convert name) := by
  intro cursor
  unfold nextNameChar
  split
  · next hlt =>
    dsimp only
    split
    · intro hsome
      obtain ⟨hindex, hlength⟩ := nextNameChar_advances convert name _ hsome
      exact ⟨Nat.lt_of_succ_lt hindex, hlength⟩
    · exact fun _ => ⟨Nat.lt_succ_self _, hlt⟩
  · intro hsome
    cases hsome
termination_by cursor => name.length - cursor.index

/-- The characters that the calls of a `next` function give. -/
def charsOf (name : Bytes) (next : NameCursor → Option UInt8 × NameCursor)
    (h : Advances name next) : Generator NameCursor UInt8 where
  next cursor := (next cursor).1.map (fun c => (c, (next cursor).2))
  left cursor := name.length - cursor.index
  left_lt {cursor c cursor'} hnext := by
    obtain ⟨c', hc, heq⟩ := Option.map_eq_some_iff.mp hnext
    cases heq
    have := h cursor (hc ▸ rfl)
    omega

def lowercaseNameChars (name : Bytes) : Generator NameCursor UInt8 :=
  charsOf name (nextLowercaseNameChar name) (nextLowercaseNameChar_advances name)

def camelcaseNameChars (name : Bytes) : Generator NameCursor UInt8 :=
  charsOf name (nextCamelcaseNameChar name) (nextNameChar_advances _ name)

def defaultJsonNameChars (name : Bytes) : Generator NameCursor UInt8 :=
  charsOf name (nextDefaultJsonNameChar name) (nextNameChar_advances _ name)

/-! ## The loops -/

/-- `append` of a list, with the error of the allocator. -/
def append (growth : ArrayList.Growth) (memory : Nat → Bool) (out : ArrayList UInt8) (c : UInt8) :
    Except Unit (ArrayList UInt8) :=
  (out.append growth memory c).elim (.error ()) .ok

/-- The characters from the start, appended to a list one by one. `none` is the error of an allocator
that has no memory of some size. -/
def nameAlloc (growth : ArrayList.Growth) (memory : Nat → Bool)
    (chars : Generator NameCursor UInt8) : Option Bytes :=
  match chars.forEach (append growth memory) {} {} with
  | .error _ => none
  | .ok out => if memory out.items.length then some out.items else none

section

variable (growth : ArrayList.Growth) (memory : Nat → Bool)

def lowercaseNameAlloc (fieldName : Bytes) : Option Bytes :=
  nameAlloc growth memory (lowercaseNameChars fieldName)

def camelcaseNameAlloc (fieldName : Bytes) : Option Bytes :=
  nameAlloc growth memory (camelcaseNameChars fieldName)

/-- `FieldDescriptor.jsonName` -/
def jsonName (field : FieldDescriptor) : Option Bytes :=
  match field.jsonName with
  | some explicit => if memory explicit.length then some explicit else none
  | none => nameAlloc growth memory (defaultJsonNameChars field.name)

end

section

variable {σ ε : Type} (writeByte : σ → UInt8 → Except ε σ)

def writeLowercaseName (fieldName : Bytes) (writer : σ) : Except ε σ :=
  (lowercaseNameChars fieldName).forEach writeByte writer {}

def writeCamelcaseName (fieldName : Bytes) (writer : σ) : Except ε σ :=
  (camelcaseNameChars fieldName).forEach writeByte writer {}

def writeDefaultJsonName (fieldName : Bytes) (writer : σ) : Except ε σ :=
  (defaultJsonNameChars fieldName).forEach writeByte writer {}

end

def eqlLowercaseName (fieldName candidate : Bytes) : Bool :=
  (lowercaseNameChars fieldName).eqlList candidate {}

def eqlCamelcaseName (fieldName candidate : Bytes) : Bool :=
  (camelcaseNameChars fieldName).eqlList candidate {}

def eqlDefaultJsonName (fieldName candidate : Bytes) : Bool :=
  (defaultJsonNameChars fieldName).eqlAt candidate 0 {}

def defaultJsonNamesEqual (a b : Bytes) : Bool :=
  (defaultJsonNameChars a).equal (defaultJsonNameChars b) {} {}

/-! ## The characters that are given -/

section

variable {name : Bytes} {next : NameCursor → Option UInt8 × NameCursor} {h : Advances name next}

theorem next_charsOf (cursor : NameCursor) : (charsOf name next h).next cursor
    = (next cursor).1.map (fun c => (c, (next cursor).2)) := rfl

theorem items_of_end {cursor : NameCursor} (hnext : (next cursor).1 = none) :
    (charsOf name next h).items cursor = [] :=
  Generator.items_of_none _ (by rw [next_charsOf, hnext]; rfl)

theorem items_of_char {cursor cursor' : NameCursor} {c : UInt8}
    (hnext : next cursor = (some c, cursor')) :
    (charsOf name next h).items cursor = c :: (charsOf name next h).items cursor' :=
  Generator.items_of_some _ (by rw [next_charsOf, hnext]; rfl)

end

theorem items_lowercaseNameChars (name : Bytes) (cursor : NameCursor) :
    (lowercaseNameChars name).items cursor = (name.drop cursor.index).map toLower := by
  rcases Nat.lt_or_ge cursor.index name.length with hlt | hge
  · have hnext : nextLowercaseNameChar name cursor
        = (some (toLower name[cursor.index]), { cursor with index := cursor.index + 1 }) := by
      rw [nextLowercaseNameChar, List.getElem?_eq_getElem hlt]
    rw [lowercaseNameChars, items_of_char hnext, List.drop_eq_getElem_cons hlt, List.map_cons]
    exact congrArg _ (items_lowercaseNameChars name { cursor with index := cursor.index + 1 })
  · have hnext : (nextLowercaseNameChar name cursor).1 = none := by
      rw [nextLowercaseNameChar, List.getElem?_eq_none hge]
    rw [lowercaseNameChars, items_of_end hnext, List.drop_of_length_le hge, List.map_nil]
termination_by name.length - cursor.index

/-- The text that a conversion makes of a name. -/
def convertName (convert : Bool → Bool → UInt8 → UInt8) : Bool → Bool → Bytes → Bytes
  | _, _, [] => []
  | first, upperNext, c :: rest =>
      if c == 0x5f then convertName convert first true rest
      else convert first upperNext c :: convertName convert false false rest

section

variable (convert : Bool → Bool → UInt8 → UInt8) {name : Bytes} {cursor : NameCursor}

theorem nextNameChar_end (h : name.length ≤ cursor.index) :
    nextNameChar convert name cursor = (none, cursor) := by
  rw [nextNameChar, dif_neg (Nat.not_lt.mpr h)]

theorem nextNameChar_underscore (h : cursor.index < name.length)
    (hc : name[cursor.index] = 0x5f) : nextNameChar convert name cursor
      = nextNameChar convert name
          { cursor with index := cursor.index + 1, upperNext := true } := by
  rw [nextNameChar, dif_pos h]
  exact if_pos (beq_iff_eq.mpr hc)

theorem nextNameChar_char (h : cursor.index < name.length)
    (hc : name[cursor.index] ≠ 0x5f) : nextNameChar convert name cursor
      = (some (convert cursor.first cursor.upperNext name[cursor.index]),
          { index := cursor.index + 1, upperNext := false, first := false }) := by
  rw [nextNameChar, dif_pos h]
  exact if_neg (mt beq_iff_eq.mp hc)

end

/-- The calls give the text of what is behind the index, under the flags of the cursor. -/
theorem items_nextNameChar (convert : Bool → Bool → UInt8 → UInt8) (name : Bytes)
    (cursor : NameCursor) :
    (charsOf name (nextNameChar convert name) (nextNameChar_advances convert name)).items cursor
      = convertName convert cursor.first cursor.upperNext (name.drop cursor.index) := by
  rcases Nat.lt_or_ge cursor.index name.length with hlt | hge
  · rw [List.drop_eq_getElem_cons hlt, convertName]
    by_cases hc : name[cursor.index] = 0x5f
    · -- the call passes over the underscore, so from behind it the same characters come
      rw [if_pos (beq_iff_eq.mpr hc)]
      refine Eq.trans (Generator.items_congr _ ?_) (items_nextNameChar convert name
        { cursor with index := cursor.index + 1, upperNext := true })
      rw [next_charsOf, next_charsOf, nextNameChar_underscore convert hlt hc]
    · rw [if_neg (mt beq_iff_eq.mp hc), items_of_char (nextNameChar_char convert hlt hc)]
      exact congrArg _ (items_nextNameChar convert name
        { index := cursor.index + 1, upperNext := false, first := false })
  · rw [items_of_end (by rw [nextNameChar_end convert hge]), List.drop_of_length_le hge,
      convertName]
termination_by name.length - cursor.index

theorem convertName_defaultJson (first upperNext : Bool) (name : Bytes) :
    convertName defaultJsonNameChar first upperNext name = defaultJsonNameFrom upperNext name := by
  induction name generalizing first upperNext with
  | nil => rfl
  | cons c rest ih => rw [convertName, defaultJsonNameFrom, ih, ih, defaultJsonNameChar]

theorem items_defaultJsonNameChars (name : Bytes) :
    (defaultJsonNameChars name).items {} = defaultJsonName name :=
  (items_nextNameChar defaultJsonNameChar name {}).trans (convertName_defaultJson true false name)

theorem items_camelcaseNameChars (name : Bytes) :
    (camelcaseNameChars name).items {} = convertName camelcaseChar true false name :=
  items_nextNameChar camelcaseChar name {}

/-! ## What the loops compute -/

section

variable (growth : ArrayList.Growth) (memory : Nat → Bool)

theorem foldlM_append (list : ArrayList UInt8) (chars : Bytes) :
    (∃ list', chars.foldlM (append growth memory) list = .ok list'
        ∧ list'.items = list.items ++ chars)
      ∨ chars.foldlM (append growth memory) list = .error () ∧ ∃ n, memory n = false := by
  induction chars generalizing list with
  | nil => exact .inl ⟨list, rfl, (List.append_nil _).symm⟩
  | cons c chars ih =>
      rw [List.foldlM_cons, append]
      rcases list.append_cases growth memory c with ⟨list', happend, hitems⟩ | ⟨happend, hn⟩
      · rw [happend]
        have hnext := ih list'
        rw [hitems, List.append_assoc] at hnext
        exact hnext
      · rw [happend]
        exact .inr ⟨rfl, hn⟩

/-- The characters, or the allocator has refused some memory. -/
theorem nameAlloc_cases (chars : Generator NameCursor UInt8) :
    nameAlloc growth memory chars = some (chars.items {})
      ∨ nameAlloc growth memory chars = none ∧ ∃ n, memory n = false := by
  rw [nameAlloc, Generator.forEach_eq]
  rcases foldlM_append growth memory {} (chars.items {}) with ⟨list, hrun, hitems⟩ | ⟨hrun, hn⟩
  · rw [hrun]
    dsimp only
    rw [hitems]
    cases hmemory : memory (([] : Bytes) ++ chars.items {}).length with
    | true => exact .inl rfl
    | false => exact .inr ⟨rfl, _, hmemory⟩
  · rw [hrun]
    exact .inr ⟨rfl, hn⟩

end

theorem eqlLowercaseName_iff (fieldName candidate : Bytes) :
    eqlLowercaseName fieldName candidate = true ↔ fieldName.map toLower = candidate := by
  rw [eqlLowercaseName, Generator.eqlList_iff, items_lowercaseNameChars, List.drop_zero]

theorem eqlCamelcaseName_iff (fieldName candidate : Bytes) :
    eqlCamelcaseName fieldName candidate = true
      ↔ convertName camelcaseChar true false fieldName = candidate := by
  rw [eqlCamelcaseName, Generator.eqlList_iff, items_camelcaseNameChars]

/-- The loops compute the comparisons of whole names. -/
theorem eqlDefaultJsonName_eq (fieldName candidate : Bytes) :
    eqlDefaultJsonName fieldName candidate = Pbz.eqlDefaultJsonName fieldName candidate := by
  rw [Bool.eq_iff_iff, eqlDefaultJsonName, Generator.eqlAt_iff _ (Nat.zero_le _), List.drop_zero,
    items_defaultJsonNameChars, Pbz.eqlDefaultJsonName, beq_iff_eq]

theorem defaultJsonNamesEqual_eq (a b : Bytes) :
    defaultJsonNamesEqual a b = Pbz.defaultJsonNamesEqual a b := by
  rw [Bool.eq_iff_iff, defaultJsonNamesEqual, Generator.equal_iff, items_defaultJsonNameChars,
    items_defaultJsonNameChars, Pbz.defaultJsonNamesEqual, beq_iff_eq]

theorem jsonName_cases (growth : ArrayList.Growth) (memory : Nat → Bool)
    (field : FieldDescriptor) :
    jsonName growth memory field = some field.effectiveJsonName
      ∨ jsonName growth memory field = none ∧ ∃ n, memory n = false := by
  unfold jsonName FieldDescriptor.effectiveJsonName
  cases field.jsonName with
  | none =>
      rw [Option.getD_none, ← items_defaultJsonNameChars]
      exact nameAlloc_cases growth memory _
  | some explicit =>
      cases hmemory : memory explicit.length with
      | true => exact .inl (if_pos hmemory)
      | false => exact .inr ⟨if_neg (by rw [hmemory]; exact Bool.false_ne_true), _, hmemory⟩

/-- For every field name, the functions agree on the text that the calls of the generator give:
`jsonName` returns it unless the allocator refuses some memory, `writeDefaultJsonName` writes it,
and the comparisons are those with it. -/
theorem defaultJsonNames_agree (name : Bytes) :
    (∀ growth memory (field : FieldDescriptor),
      jsonName growth memory { field with name, jsonName := none }
          = some ((defaultJsonNameChars name).items {})
        ∨ jsonName growth memory { field with name, jsonName := none } = none
          ∧ ∃ n, memory n = false)
    ∧ (∀ {σ ε : Type} (writeByte : σ → UInt8 → Except ε σ) (writer : σ),
      writeDefaultJsonName writeByte name writer
        = ((defaultJsonNameChars name).items {}).foldlM writeByte writer)
    ∧ (∀ text, eqlDefaultJsonName name text = true
      ↔ text = (defaultJsonNameChars name).items {})
    ∧ ∀ other, defaultJsonNamesEqual name other = true
      ↔ (defaultJsonNameChars name).items {} = (defaultJsonNameChars other).items {} := by
  refine ⟨fun growth memory field => nameAlloc_cases growth memory _,
    fun writeByte writer => (defaultJsonNameChars name).forEach_eq writeByte writer {},
    fun text => ?_,
    fun other => (defaultJsonNameChars name).equal_iff (defaultJsonNameChars other) {} {}⟩
  rw [eqlDefaultJsonName, Generator.eqlAt_iff _ (Nat.zero_le _), List.drop_zero, eq_comm]

end NameStreams

end Pbz
