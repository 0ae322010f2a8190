import Pbz.Symbols
import Pbz.Descriptor.RegistryNames

set_option autoImplicit false

/-! # Lookups of members

`findField` and `findOneof` of the registry, which look for a member of a message by a name in a
scope, and `findEnumValue`, whose search in the messages is the same. For each file the name, the
scope and the package make one query.
-/

namespace Pbz

open Dotted FirstMatch

/-- `indexOfScalar(name, '.')`, as the parts in front of the first dot and behind it. -/
def splitAtDot (name : Bytes) : Option (Bytes × Bytes) :=
  match name.dropWhile (· != 0x2e) with
  | [] => none
  | _ :: rest => some (name.takeWhile (· != 0x2e), rest)

def MessageDescriptor.findField (message : MessageDescriptor) (name : Bytes) :
    Option FieldDescriptor :=
  message.fields.find? (fun field => field.name == name)

/-- A pointer to a member. The message that holds it tells it from equal members of others. -/
abbrev MemberPointer (β : Type) := MessageDescriptor × β

section Lookup

variable {β : Type} (find : MessageDescriptor → Bytes → Option β)

def memberOf (message : MessageDescriptor) (name : Bytes) : Option (MemberPointer β) :=
  (find message name).map (fun member => (message, member))

/-- The member that a path behind a message leads to. -/
def findMemberAfterMessage : Nat → MessageDescriptor → Bytes → Option (MemberPointer β)
  | 0, _, _ => none
  | fuel + 1, message, rest =>
      match splitAtDot rest with
      | none => memberOf find message rest
      | some (nestedName, nestedRest) =>
          match message.messages.find? (fun nested => nested.name == nestedName) with
          | none => none
          | some nested => findMemberAfterMessage fuel nested nestedRest

mutual

/-- The search for a query without a dot, message by message and in each one before the messages
nested in it. -/
def findMemberInMessages (query : Bytes) : List MessageDescriptor → Option (MemberPointer β)
  | [] => none
  | message :: rest =>
      ((memberOf find message query).or (findMemberInNested query message)).or
        (findMemberInMessages query rest)

def findMemberInNested (query : Bytes) : MessageDescriptor → Option (MemberPointer β)
  | { messages, .. } => findMemberInMessages query messages

end

/-- `findFieldInMessagePath` and its like. -/
def findMemberInMessagePath (message : MessageDescriptor) (query : Bytes) : Option (MemberPointer β) :=
  match splitAtDot query with
  | some (head, rest) =>
      if head != message.name then none
      else findMemberAfterMessage find (rest.length + 1) message rest
  | none => (memberOf find message query).or (findMemberInNested find query message)

end Lookup

/-- The name behind the package and a dot. -/
def behindPackage (package name : Bytes) : Option Bytes :=
  if package.isEmpty then none else FileDescriptor.stripDotted package name

def fieldLookupNameInFile (package normalized : Bytes) (scope : Option Bytes) : Bytes :=
  match behindPackage package normalized with
  | some rest => rest
  | none =>
      match scope with
      | none => normalized
      | some ownerScope =>
          let normalizedScope := normalizeName ownerScope
          if !package.isEmpty && normalizedScope == package then normalized
          else (behindPackage package normalizedScope).getD normalizedScope

namespace Registry

variable {β : Type}

def findMember (registry : Registry) (find : MessageDescriptor → Bytes → Option β) (name : Bytes)
    (scope : Option Bytes) : Option (MemberPointer β) :=
  registry.files.findSome? (fun file =>
    file.messages.findSome? (fun message =>
      findMemberInMessagePath find message
        (fieldLookupNameInFile file.package (normalizeName name) scope)))

def findField (registry : Registry) (name : Bytes) (scope : Option Bytes) :
    Option (MemberPointer FieldDescriptor) :=
  registry.findMember MessageDescriptor.findField name scope

def findOneof (registry : Registry) (name : Bytes) (scope : Option Bytes) :
    Option (MemberPointer OneofDescriptor) :=
  registry.findMember MessageDescriptor.findOneof name scope

end Registry

/-! ## Paths

The same searches on the parts of the names.
-/

section Paths

variable {β : Type} (find : MessageDescriptor → Bytes → Option β)

def memberBelow : List Bytes → MessageDescriptor → Option (MemberPointer β)
  | [], _ => none
  | [last], message => memberOf find message last
  | head :: next :: rest, message =>
      (message.messages.find? (fun nested => nested.name == head)).bind
        (memberBelow (next :: rest))

/-- The first member with a name among those of some messages. -/
def firstMember (name : Bytes) (messages : List (List Bytes × MessageDescriptor)) :
    Option (MemberPointer β) :=
  messages.findSome? (fun pair => memberOf find pair.2 name)

/-- A single part is looked for in all messages, a longer path leads to one. -/
def memberAt (messages : List MessageDescriptor) : List Bytes → Option (MemberPointer β)
  | [] => none
  | [name] => firstMember find name (declaredMessages [] messages)
  | head :: next :: rest =>
      messages.findSome? (fun message =>
        if message.name = head then memberBelow find (next :: rest) message else none)

theorem splitAtDot_part {part : Bytes} (h : IsPart 0x2e part) : splitAtDot part = none := by
  unfold splitAtDot
  rw [dropWhile_all h.2]

theorem splitAtDot_joined {head next : Bytes} {rest : List Bytes}
    (h : IsPath 0x2e (head :: next :: rest)) :
    splitAtDot (joined 0x2e (head :: next :: rest)) = some (head, joined 0x2e (next :: rest)) := by
  have hhead := (h head List.mem_cons_self).2
  unfold splitAtDot
  rw [joined_cons (List.cons_ne_nil next rest), dropWhile_part hhead, takeWhile_part hhead]

theorem findMemberAfterMessage_joined {path : List Bytes} (hp : IsPath 0x2e path) (hne : path ≠ [])
    {fuel : Nat} (hf : path.length < fuel) (message : MessageDescriptor) :
    findMemberAfterMessage find fuel message (joined 0x2e path) = memberBelow find path message := by
  induction path generalizing fuel message with
  | nil => exact absurd rfl hne
  | cons head rest ih =>
      cases fuel with
      | zero => exact absurd hf (Nat.not_lt_zero _)
      | succ fuel =>
          cases rest with
          | nil =>
              unfold findMemberAfterMessage
              rw [joined_singleton, splitAtDot_part (hp head List.mem_cons_self)]
              rfl
          | cons next rest =>
              unfold findMemberAfterMessage
              rw [splitAtDot_joined hp]
              dsimp only
              show _ = (message.messages.find? (fun nested => nested.name == head)).bind _
              cases message.messages.find? (fun nested => nested.name == head) with
              | none => rfl
              | some nested =>
                  exact ih hp.tail (List.cons_ne_nil next rest) (Nat.lt_of_succ_lt_succ hf) nested

mutual

theorem findMemberInMessages_eq (query : Bytes) (scope : List Bytes) :
    ∀ messages, findMemberInMessages find query messages
      = firstMember find query (declaredMessages scope messages)
  | [] => rfl
  | message :: rest => by
      unfold findMemberInMessages declaredMessages firstMember
      rw [findSome?_cons_or, List.findSome?_append, Option.or_assoc,
        findMemberInMessages_eq query scope rest,
        findMemberInNested_eq query (scope ++ [message.name]) message]
      rfl

theorem findMemberInNested_eq (query : Bytes) (scope : List Bytes) :
    ∀ message, findMemberInNested find query message
      = firstMember find query (message.nestedMessages scope)
  | { messages := messages, .. } => by
      unfold findMemberInNested MessageDescriptor.nestedMessages
      exact findMemberInMessages_eq query scope messages

end

theorem findSome?_part (query : Bytes) (messages : List MessageDescriptor) :
    messages.findSome? (fun message =>
        (memberOf find message query).or (findMemberInNested find query message))
      = findMemberInMessages find query messages := by
  induction messages with
  | nil => rfl
  | cons message rest ih => rw [findSome?_cons_or, ih, findMemberInMessages]

/-- The search among the top-level messages of a file. -/
theorem findSome?_messagePath {path : List Bytes} (hp : IsPath 0x2e path) (hne : path ≠ [])
    (messages : List MessageDescriptor) :
    messages.findSome? (fun message =>
        findMemberInMessagePath find message (joined 0x2e path)) = memberAt find messages path := by
  cases path with
  | nil => exact absurd rfl hne
  | cons head rest =>
      unfold findMemberInMessagePath
      cases rest with
      | nil =>
          rw [joined_singleton, splitAtDot_part (hp head List.mem_cons_self)]
          exact (findSome?_part find head messages).trans
            (findMemberInMessages_eq find head [] messages)
      | cons next rest =>
          rw [splitAtDot_joined hp]
          refine findSome?_congr fun message _ => ?_
          dsimp only
          by_cases hhead : message.name = head
          · have hkeep : ¬ (head != message.name) = true := by simp [hhead]
            rw [if_neg hkeep, if_pos hhead]
            exact findMemberAfterMessage_joined find hp.tail (List.cons_ne_nil next rest)
              (Nat.lt_succ_of_le (length_le_joined hp.tail)) message
          · have hdrop : (head != message.name) = true := by
              rw [bne_iff_ne]
              exact Ne.symm hhead
            rw [if_pos hdrop, if_neg hhead]

end Paths

/-- What a file is asked for when a member is looked up in the scope of a message: the name itself
where the scope is the package, else the scope without the package. -/
def FileDescriptor.memberQuery (file : FileDescriptor) (scope : List Bytes) (name : Bytes) :
    List Bytes :=
  if file.packagePath = [] then scope
  else if scope = file.packagePath then [name]
  else if file.packagePath.isPrefixOf scope then scope.drop file.packagePath.length
  else scope

section Query

variable {file : FileDescriptor} {scope : List Bytes} {name : Bytes}

theorem behindPackage_joined (hf : file.WellNamed) (hs : IsPath 0x2e scope) :
    behindPackage file.package (joined 0x2e scope) =
      if file.packagePath ≠ [] ∧ file.packagePath.isPrefixOf scope ∧ scope ≠ file.packagePath
      then some (joined 0x2e (scope.drop file.packagePath.length)) else none := by
  unfold behindPackage
  by_cases hempty : file.package.isEmpty = true
  · have hpackage : file.packagePath = [] := by rw [FileDescriptor.packagePath, if_pos hempty]
    rw [if_pos hempty, if_neg (fun h => h.1 hpackage)]
  · obtain ⟨hne, htext⟩ := packagePath_eq (by simpa using hempty)
    have hstrip := stripDotted_joined hf.package hne hs
    rw [htext] at hstrip
    rw [if_neg hempty, hstrip]
    by_cases hpre : file.packagePath.isPrefixOf scope = true ∧ scope ≠ file.packagePath
    · rw [if_pos hpre, if_pos ⟨hne, hpre⟩]
    · rw [if_neg hpre, if_neg (fun h => hpre h.2)]

theorem memberQuery_isPath (hs : IsPath 0x2e scope) (hname : IsPart 0x2e name) :
    IsPath 0x2e (file.memberQuery scope name) := by
  unfold FileDescriptor.memberQuery
  split_ifs
  · exact hs
  · exact hname.isPath
  · exact hs.sublist (List.drop_sublist _ _)
  · exact hs

theorem memberQuery_ne_nil (hne : scope ≠ []) : file.memberQuery scope name ≠ [] := by
  unfold FileDescriptor.memberQuery
  split_ifs with hpackage hself hpre
  · exact hne
  · exact List.cons_ne_nil _ _
  · obtain ⟨rest, rfl⟩ := List.isPrefixOf_iff_prefix.mp hpre
    rw [List.drop_left]
    rintro rfl
    exact hself (List.append_nil _)
  · exact hne

/-- The file of the message is asked for the message, without the member. -/
theorem memberQuery_own {below : List Bytes} (hne : below ≠ []) :
    file.memberQuery (file.packagePath ++ below) name = below := by
  unfold FileDescriptor.memberQuery
  split_ifs with hpackage hself hpre
  · rw [hpackage, List.nil_append]
  · exact absurd (List.append_right_eq_self.mp hself) hne
  · rw [List.drop_left]
  · exact absurd (List.isPrefixOf_iff_prefix.mpr (List.prefix_append _ _)) hpre

/-- A name without a dot is not below a package. -/
theorem behindPackage_part (hf : file.WellNamed) (hname : IsPart 0x2e name) :
    behindPackage file.package name = none := by
  have hbehind := behindPackage_joined hf hname.isPath
  rw [joined_singleton] at hbehind
  rw [hbehind, if_neg]
  rintro ⟨hne, hpre, hproper⟩
  obtain ⟨rest, hrest⟩ := List.isPrefixOf_iff_prefix.mp hpre
  obtain ⟨head, tail, hpackage⟩ := List.exists_cons_of_ne_nil hne
  rw [hpackage, List.cons_append] at hrest
  obtain ⟨rfl, htail⟩ := List.cons.inj hrest
  rw [hpackage, (List.append_eq_nil_iff.mp htail).1] at hproper
  exact hproper rfl

theorem fieldLookupNameInFile_joined (hf : file.WellNamed) (hs : IsPath 0x2e scope)
    (hname : IsPart 0x2e name) :
    fieldLookupNameInFile file.package (normalizeName name) (some (joined 0x2e scope)) =
      joined 0x2e (file.memberQuery scope name) := by
  have hnormal := Registry.normalizeName_part hname
  have hscope : (!file.package.isEmpty && joined 0x2e scope == file.package) = true ↔
      file.packagePath ≠ [] ∧ scope = file.packagePath := by
    by_cases hempty : file.package.isEmpty = true
    · have hpackage : file.packagePath = [] := by rw [FileDescriptor.packagePath, if_pos hempty]
      simp [hempty, hpackage]
    · obtain ⟨hne, htext⟩ := packagePath_eq (by simpa using hempty)
      rw [Bool.and_eq_true, beq_iff_eq, ← htext]
      constructor
      · rintro ⟨-, hjoined⟩
        exact ⟨hne, joined_injective hs hf.package hjoined⟩
      · rintro ⟨-, rfl⟩
        exact ⟨by rw [htext]; simpa using hempty, rfl⟩
  unfold fieldLookupNameInFile FileDescriptor.memberQuery
  rw [hnormal, behindPackage_part hf hname]
  dsimp only
  rw [normalizeName_joined hs, behindPackage_joined hf hs]
  by_cases hpackage : file.packagePath = []
  · rw [if_neg (fun h => (hscope.mp h).1 hpackage), if_neg (fun h => h.1 hpackage), if_pos hpackage]
    rfl
  · rw [if_neg hpackage]
    by_cases hself : scope = file.packagePath
    · rw [if_pos (hscope.mpr ⟨hpackage, hself⟩), if_pos hself, joined_singleton]
    · rw [if_neg (fun h => hself (hscope.mp h).2), if_neg hself]
      by_cases hpre : file.packagePath.isPrefixOf scope = true
      · rw [if_pos ⟨hpackage, hpre, hself⟩, if_pos hpre]
        rfl
      · rw [if_neg (fun h => hpre h.2.1), if_neg hpre]
        rfl

end Query

/-! ## The message of a path -/

section Walk

variable {β : Type} {find : MessageDescriptor → Bytes → Option β} {scope : List Bytes}
  {messages : List MessageDescriptor} {enums : List EnumDescriptor}

theorem memberBelow_concat (find : MessageDescriptor → Bytes → Option β) {path : List Bytes} (hne : path ≠ []) (last : Bytes)
    (message : MessageDescriptor) :
    memberBelow find (path ++ [last]) message =
      ((typeAt message.messages message.enums path).bind Registry.asMessage).bind
        (fun owner => memberOf find owner last) := by
  induction path generalizing message with
  | nil => exact absurd rfl hne
  | cons head rest ih =>
      cases hfind : message.messages.find? (fun nested => nested.name == head) with
      | none =>
          cases rest with
          | nil =>
              cases henum : message.enums.find? (fun enumeration => enumeration.name == head) <;>
                simp [memberBelow, typeAt, hfind, henum, Registry.asMessage]
          | cons next rest => simp [memberBelow, typeAt, hfind]
      | some nested =>
          cases rest with
          | nil => simp [memberBelow, typeAt, hfind, Registry.asMessage]
          | cons next rest =>
              have hbelow := ih (List.cons_ne_nil next rest) nested
              simpa [memberBelow, typeAt, hfind] using hbelow

/-- The search in every message with a name is one in the only message with it. -/
theorem findSome?_named (h : DistinctNames (declaredTypes scope messages ++ enumTypes scope enums))
    (f : MessageDescriptor → Option (MemberPointer β)) (head : Bytes) :
    messages.findSome? (fun message => if message.name = head then f message else none) =
      (messages.find? (fun message => message.name == head)).bind f := by
  cases hfind : messages.find? (fun message => message.name == head) with
  | none =>
      rw [Option.bind_none, List.findSome?_eq_none_iff]
      intro message hmessage
      have hname := List.find?_eq_none.mp hfind message hmessage
      rw [if_neg (by simpa using hname)]
  | some first =>
      have hfirst : first.name = head := by simpa using List.find?_some hfind
      have honly : ∀ message ∈ messages, message.name = head → message = first := by
        intro message hmessage hname
        have hsame := find?_message h hmessage
        rw [hname, hfind] at hsame
        exact (Option.some.inj hsame).symm
      rw [Option.bind_some]
      cases hresult : f first with
      | none =>
          rw [List.findSome?_eq_none_iff]
          intro message hmessage
          by_cases hname : message.name = head
          · rw [if_pos hname, honly message hmessage hname, hresult]
          · rw [if_neg hname]
      | some member =>
          have hsome : (messages.findSome? (fun message =>
              if message.name = head then f message else none)).isSome := by
            rw [List.findSome?_isSome_iff]
            exact ⟨first, List.mem_of_find?_eq_some hfind, by rw [if_pos hfirst, hresult]; rfl⟩
          obtain ⟨other, hother⟩ := Option.isSome_iff_exists.mp hsome
          obtain ⟨message, hmessage, hvalue⟩ := List.exists_of_findSome?_eq_some hother
          rw [hother, ← hvalue]
          by_cases hname : message.name = head
          · rw [if_pos hname, honly message hmessage hname, hresult]
          · rw [if_neg hname] at hvalue
            cases hvalue

theorem memberAt_concat
    (h : DistinctNames (declaredTypes scope messages ++ enumTypes scope enums))
    {path : List Bytes} (hne : path ≠ []) (last : Bytes) :
    memberAt find messages (path ++ [last]) =
      ((typeAt messages enums path).bind Registry.asMessage).bind
        (fun owner => memberOf find owner last) := by
  cases path with
  | nil => exact absurd rfl hne
  | cons head rest =>
      have hwalk : memberAt find messages (head :: rest ++ [last]) =
          (messages.find? (fun message => message.name == head)).bind
            (memberBelow find (rest ++ [last])) := by
        rw [← findSome?_named h]
        cases rest <;> rfl
      rw [hwalk]
      cases rest with
      | nil =>
          cases hfind : messages.find? (fun message => message.name == head) with
          | none =>
              cases henum : enums.find? (fun enumeration => enumeration.name == head) <;>
                simp [typeAt, hfind, henum, Registry.asMessage]
          | some message => simp [typeAt, hfind, memberBelow, Registry.asMessage]
      | cons next rest =>
          cases hfind : messages.find? (fun message => message.name == head) with
          | none => simp [typeAt, hfind]
          | some message =>
              have hbelow := memberBelow_concat find (List.cons_ne_nil next rest) last message
              simpa [typeAt, hfind] using hbelow

end Walk

/-! ## What a file answers -/

section Answers

variable {β : Type} {find : MessageDescriptor → Bytes → Option β} {file : FileDescriptor}
  {query : List Bytes}

/-- A query leads to a member of the file: for a single name one of any message, else one of the
message with the path in front of the last name. -/
def FileDescriptor.Answers (find : MessageDescriptor → Bytes → Option β) (file : FileDescriptor)
    (query : List Bytes) : Prop :=
  ∃ outer last place message, query = outer ++ [last] ∧ (place, message) ∈ file.declaredMessages ∧
    (outer = [] ∨ place = file.packagePath ++ outer) ∧ find message last ≠ none

/-- A single name is looked for in the messages of the file in their order. -/
theorem memberAt_single (file : FileDescriptor) (name : Bytes) :
    memberAt find file.messages [name] = firstMember find name file.declaredMessages :=
  (findMemberInMessages_eq find name [] file.messages).symm.trans
    (findMemberInMessages_eq find name file.packagePath file.messages)

theorem mem_declaredTypes_file {path : List Bytes} {message : MessageDescriptor} :
    (path, .message message) ∈ file.declaredTypes ↔ (path, message) ∈ file.declaredMessages := by
  rw [FileDescriptor.declaredTypes, List.mem_append, Descriptor.mem_declaredTypes_message]
  constructor
  · rintro (hmessage | henum)
    · exact hmessage
    · obtain ⟨_, _, hpair⟩ := mem_enumTypes.mp henum
      exact TypeRef.noConfusion (Prod.mk.inj hpair).2
  · exact .inl

theorem messageNamed_iff (h : DistinctNames file.declaredTypes) {path : List Bytes}
    (hne : path ≠ []) {message : MessageDescriptor} :
    (typeAt file.messages file.enums path).bind Registry.asMessage = some message ↔
      (file.packagePath ++ path, message) ∈ file.declaredMessages := by
  have hat : typeAt file.messages file.enums path = some (.message message) ↔ _ :=
    typeAt_eq_some_iff h hne
  have hbind : (typeAt file.messages file.enums path).bind Registry.asMessage = some message ↔
      typeAt file.messages file.enums path = some (.message message) := by
    cases typeAt file.messages file.enums path with
    | none => simp
    | some type => cases type <;> simp [Registry.asMessage]
  rw [hbind, hat]
  exact mem_declaredTypes_file

theorem memberOf_eq_some_iff {message owner : MessageDescriptor} {name : Bytes} {member : β} :
    memberOf find message name = some (owner, member) ↔
      owner = message ∧ find message name = some member := by
  rw [memberOf, Option.map_eq_some_iff]
  constructor
  · rintro ⟨found, hfound, hpair⟩
    obtain ⟨rfl, rfl⟩ := Prod.mk.inj hpair
    exact ⟨rfl, hfound⟩
  · rintro ⟨rfl, hfound⟩
    exact ⟨member, hfound, rfl⟩

/-- What is found is a member that the query leads to. -/
theorem memberAt_eq_some (h : DistinctNames file.declaredTypes) {message : MessageDescriptor}
    {member : β} (hfound : memberAt find file.messages query = some (message, member)) :
    ∃ outer last place, query = outer ++ [last] ∧ (place, message) ∈ file.declaredMessages ∧
      (outer = [] ∨ place = file.packagePath ++ outer) ∧ find message last = some member := by
  obtain rfl | ⟨outer, last, rfl⟩ := List.eq_nil_or_concat' query
  · cases hfound
  · by_cases hne : outer = []
    · rw [hne, List.nil_append, memberAt_single] at hfound
      obtain ⟨⟨place, owner⟩, hmem, hmember⟩ := List.exists_of_findSome?_eq_some hfound
      obtain ⟨rfl, hmember⟩ := memberOf_eq_some_iff.mp hmember
      exact ⟨outer, last, place, rfl, hmem, .inl hne, hmember⟩
    · rw [memberAt_concat h hne] at hfound
      obtain ⟨owner, howner, hmember⟩ := Option.bind_eq_some_iff.mp hfound
      obtain ⟨rfl, hmember⟩ := memberOf_eq_some_iff.mp hmember
      exact ⟨outer, last, _, rfl, (messageNamed_iff h hne).mp howner, .inr rfl, hmember⟩

theorem memberAt_eq_none_iff (h : DistinctNames file.declaredTypes) :
    memberAt find file.messages query = none ↔ ¬ file.Answers find query := by
  constructor
  · rintro hnone ⟨outer, last, place, message, rfl, hmem, hplace, hmember⟩
    by_cases hne : outer = []
    · rw [hne, List.nil_append, memberAt_single] at hnone
      have hpair := List.findSome?_eq_none_iff.mp hnone _ hmem
      exact hmember (Option.map_eq_none_iff.mp hpair)
    · obtain rfl := hplace.resolve_left hne
      rw [memberAt_concat h hne, (messageNamed_iff h hne).mpr hmem] at hnone
      exact hmember (Option.map_eq_none_iff.mp hnone)
  · intro hanswers
    cases hfound : memberAt find file.messages query with
    | none => rfl
    | some pair =>
        obtain ⟨message, member⟩ := pair
        obtain ⟨outer, last, place, hquery, hmem, hplace, hmember⟩ := memberAt_eq_some h hfound
        exact absurd ⟨outer, last, place, message, hquery, hmem, hplace, by simp [hmember]⟩ hanswers

end Answers

/-! ## Members in the scope of their message -/

namespace Registry

open Descriptor

variable {β : Type} {find : MessageDescriptor → Bytes → Option β} {registry : Registry}
  {file : FileDescriptor} {path : List Bytes} {message : MessageDescriptor} {name : Bytes}

/-- The lookup asks the files one after the other. -/
theorem findMember_joined (hr : ∀ file ∈ registry.files, file.WellNamed) (hs : IsPath 0x2e path)
    (hne : path ≠ []) (hname : IsPart 0x2e name) :
    registry.findMember find name (some (joined 0x2e path)) =
      registry.files.findSome? (fun file =>
        memberAt find file.messages (file.memberQuery path name)) := by
  unfold findMember
  refine findSome?_congr fun file hfile => ?_
  rw [fieldLookupNameInFile_joined (hr file hfile) hs hname]
  exact findSome?_messagePath find (memberQuery_isPath hs hname) (memberQuery_ne_nil hne)
    file.messages

/-- The member has the name of its message, which is a top-level one, and nothing before it answers
the lookup. -/
structure MeetsOwn (registry : Registry) (find : MessageDescriptor → Bytes → Option β)
    (file : FileDescriptor) (path : List Bytes) (message : MessageDescriptor) (name : Bytes) :
    Prop where
  path_eq : path = file.packagePath ++ [name]
  files : ∃ before after, registry.files = before ++ file :: after ∧
    ∀ other ∈ before, ¬ other.Answers find (other.memberQuery path name)
  messages : ∃ before after, file.declaredMessages = before ++ (path, message) :: after ∧
    ∀ pair ∈ before, find pair.2 name = none

theorem mem_typesOf (hfile : file ∈ registry.files)
    (hmessage : (path, message) ∈ file.declaredMessages) :
    (path, .message message) ∈ file.declaredTypes ∧
      (path, .message message) ∈ typesOf registry.files := by
  have htype : (path, .message message) ∈ file.declaredTypes := mem_declaredTypes_file.mpr hmessage
  exact ⟨htype, List.mem_flatMap.mpr ⟨file, hfile, htype⟩⟩

theorem distinct_file (h : Described registry) (hfile : file ∈ registry.files) :
    DistinctNames file.declaredTypes :=
  h.distinct.sublist (typesOf_sublist hfile)

/-- A message is declared in one place of one file. -/
theorem place_eq (h : Described registry) (hfile : file ∈ registry.files)
    (hmessage : (path, message) ∈ file.declaredMessages) {other : FileDescriptor}
    {place : List Bytes} (hother : other ∈ registry.files)
    (hplace : (place, message) ∈ other.declaredMessages) : place = path ∧ other = file := by
  obtain ⟨htype, hmem⟩ := mem_typesOf hfile hmessage
  obtain ⟨htype', hmem'⟩ := mem_typesOf hother hplace
  obtain rfl : place = path := h.pointers _ hmem' _ hmem rfl
  exact ⟨rfl, h.file_eq hother hfile htype' htype⟩

/-- What the lookup returns for a message that declares the member. -/
theorem findMember_declared_iff (find : MessageDescriptor → Bytes → Option β)
    (h : Described registry) (hfile : file ∈ registry.files)
    (hmessage : (path, message) ∈ file.declaredMessages) (hname : IsPart 0x2e name)
    (hfind : ∀ message a b member, find message a = some member → find message b = some member →
      a = b) {member : β} (hmember : find message name = some member) :
    registry.findMember find name (some (joined 0x2e path)) = some (message, member) ↔
      registry.MeetsOwn find file path message name := by
  obtain ⟨hs, hne⟩ := isPath_scope (h.wellNamed file hfile) hmessage
  rw [findMember_joined h.wellNamed hs hne hname]
  constructor
  · intro hfound
    obtain ⟨before, other, after, hfiles, hat, hbefore⟩ := List.findSome?_eq_some_iff.mp hfound
    have hother : other ∈ registry.files := by simp [hfiles]
    obtain ⟨outer, last, place, hquery, hplace, houter, hlast⟩ :=
      memberAt_eq_some (distinct_file h hother) hat
    obtain ⟨rfl, rfl⟩ := place_eq h hfile hmessage hother hplace
    obtain rfl := hfind message last name member hlast hmember
    obtain ⟨below, hbelow, hpath⟩ := mem_below (mem_typesOf hother hmessage).1
    dsimp only at hpath
    -- its own file is asked for the message, so the message has the name of the member
    rw [hpath, memberQuery_own hbelow] at hquery
    have hempty : outer = [] := by
      refine houter.resolve_right (fun hcancel => ?_)
      rw [hpath, List.append_cancel_left_eq, hquery] at hcancel
      exact absurd (List.append_right_eq_self.mp hcancel) (List.cons_ne_nil _ _)
    rw [hempty, List.nil_append] at hquery
    rw [hquery] at hpath
    refine ⟨hpath, ⟨before, after, hfiles, fun file hmem => ?_⟩, ?_⟩
    · have hfile' : file ∈ registry.files := by simp [hfiles, hmem]
      exact (memberAt_eq_none_iff (distinct_file h hfile')).mp (hbefore file hmem)
    · rw [hpath, memberQuery_own (List.cons_ne_nil _ _), memberAt_single] at hat
      obtain ⟨front, ⟨place', owner⟩, back, hsplit, hfirst, hfront⟩ :=
        List.findSome?_eq_some_iff.mp hat
      obtain ⟨rfl, -⟩ := memberOf_eq_some_iff.mp hfirst
      have howner : (place', message) ∈ other.declaredMessages := by simp [hsplit]
      obtain ⟨rfl, -⟩ := place_eq h hother hmessage hother howner
      exact ⟨front, back, hsplit, fun pair hmem => Option.map_eq_none_iff.mp (hfront pair hmem)⟩
  · rintro ⟨hpath, ⟨before, after, hfiles, hbefore⟩, front, back, hsplit, hfront⟩
    refine List.findSome?_eq_some_iff.mpr ⟨before, file, after, hfiles, ?_, fun other hmem => ?_⟩
    · rw [hpath, memberQuery_own (List.cons_ne_nil _ _), memberAt_single]
      refine List.findSome?_eq_some_iff.mpr ⟨front, _, back, hsplit, ?_, fun pair hmem => ?_⟩
      · exact memberOf_eq_some_iff.mpr ⟨rfl, hmember⟩
      · exact Option.map_eq_none_iff.mpr (hfront pair hmem)
    · have hother : other ∈ registry.files := by simp [hfiles, hmem]
      exact (memberAt_eq_none_iff (distinct_file h hother)).mpr (hbefore other hmem)

/-- When the lookup finds nothing. -/
theorem findMember_eq_none_iff (find : MessageDescriptor → Bytes → Option β)
    (h : Described registry) (hs : IsPath 0x2e path) (hne : path ≠ [])
    (hname : IsPart 0x2e name) :
    registry.findMember find name (some (joined 0x2e path)) = none ↔
      ∀ other ∈ registry.files, ¬ other.Answers find (other.memberQuery path name) := by
  rw [findMember_joined h.wellNamed hs hne hname, List.findSome?_eq_none_iff]
  exact forall₂_congr fun other hother => memberAt_eq_none_iff (distinct_file h hother)

theorem findField_name {message : MessageDescriptor} {a b : Bytes} {field : FieldDescriptor}
    (ha : message.findField a = some field) (hb : message.findField b = some field) : a = b := by
  have hname : field.name = a := by simpa using List.find?_some ha
  have hname' : field.name = b := by simpa using List.find?_some hb
  rw [← hname, hname']

theorem findOneof_name {message : MessageDescriptor} {a b : Bytes} {oneof : OneofDescriptor}
    (ha : message.findOneof a = some oneof) (hb : message.findOneof b = some oneof) : a = b := by
  have hname : oneof.name = a := by simpa using List.find?_some ha
  have hname' : oneof.name = b := by simpa using List.find?_some hb
  rw [← hname, hname']

theorem described_afterCalls {calls : List Call}
    (hnamed : ∀ file ∈ (afterCalls {} calls).files, file.WellNamed)
    (hpointers : PointersToOne (typesOf (afterCalls {} calls).files)) :
    Described (afterCalls {} calls) where
  wellNamed := hnamed
  distinct := distinctNames_of_nodup hnamed (loadedSymbols_afterCalls List.nodup_nil)
  pointers := hpointers

/-- In the scope of a message the lookups find its field and its oneof with a name, and no field
where it declares none. -/
structure FindsMembers (registry : Registry) (path : List Bytes) (message : MessageDescriptor)
    (name : Bytes) : Prop where
  field : ∀ field, message.findField name = some field →
    registry.findField name (some (joined 0x2e path)) = some (message, field)
  oneof : ∀ oneof, message.findOneof name = some oneof →
    registry.findOneof name (some (joined 0x2e path)) = some (message, oneof)
  undeclared : message.findField name = none →
    registry.findField name (some (joined 0x2e path)) = none

/-- The name is that of the message itself, which comes first, and where the message declares no
such field no file has a field of the name that is left of the scope. -/
structure AsksForMembers (registry : Registry) (file : FileDescriptor) (path : List Bytes)
    (message : MessageDescriptor) (name : Bytes) : Prop where
  field : message.findField name ≠ none →
    registry.MeetsOwn MessageDescriptor.findField file path message name
  oneof : message.findOneof name ≠ none →
    registry.MeetsOwn MessageDescriptor.findOneof file path message name
  undeclared : message.findField name = none → ∀ other ∈ registry.files,
    ¬ other.Answers MessageDescriptor.findField (other.memberQuery path name)

/-- When the lookups in the scope of a message find its members. -/
theorem findsMembers_iff {calls : List Call}
    (hnamed : ∀ file ∈ (afterCalls {} calls).files, file.WellNamed)
    (hpointers : PointersToOne (typesOf (afterCalls {} calls).files))
    (hfile : file ∈ (afterCalls {} calls).files)
    (hmessage : (path, message) ∈ file.declaredMessages) (hname : IsPart 0x2e name) :
    (afterCalls {} calls).FindsMembers path message name ↔
      (afterCalls {} calls).AsksForMembers file path message name := by
  have h := described_afterCalls hnamed hpointers
  obtain ⟨hs, hne⟩ := isPath_scope (hnamed file hfile) hmessage
  have hfield : ∀ field, message.findField name = some field → _ := fun _ hdeclared =>
    findMember_declared_iff MessageDescriptor.findField h hfile hmessage hname
      (fun _ _ _ _ => findField_name) hdeclared
  have honeof : ∀ oneof, message.findOneof name = some oneof → _ := fun _ hdeclared =>
    findMember_declared_iff MessageDescriptor.findOneof h hfile hmessage hname
      (fun _ _ _ _ => findOneof_name) hdeclared
  have hnone := findMember_eq_none_iff MessageDescriptor.findField h hs hne hname
  constructor
  · rintro ⟨hfinds, hfindsOneof, hundeclared⟩
    refine ⟨fun hsome => ?_, fun hsome => ?_, fun hdeclared => hnone.mp (hundeclared hdeclared)⟩
    · obtain ⟨field, hdeclared⟩ := Option.ne_none_iff_exists'.mp hsome
      exact (hfield field hdeclared).mp (hfinds field hdeclared)
    · obtain ⟨oneof, hdeclared⟩ := Option.ne_none_iff_exists'.mp hsome
      exact (honeof oneof hdeclared).mp (hfindsOneof oneof hdeclared)
  · rintro ⟨hmeets, hmeetsOneof, hundeclared⟩
    refine ⟨fun field hdeclared => ?_, fun oneof hdeclared => ?_,
      fun hdeclared => hnone.mpr (hundeclared hdeclared)⟩
    · exact (hfield field hdeclared).mpr (hmeets (by simp [hdeclared]))
    · exact (honeof oneof hdeclared).mpr (hmeetsOneof (by simp [hdeclared]))

/-! ## Two messages with a field each -/

def int32Field (name : String) : FieldDescriptor :=
  { name := ascii name, number := 1, cardinality := .optional, kind := .scalar .int32 }

def messageWithField (name field : String) (address : Nat) : MessageDescriptor :=
  { name := ascii name, fields := [int32Field field], address := address }

/-- `package a; message M { optional int32 f = 1; } message N { optional int32 N = 1; }` -/
def fieldsFile : FileDescriptor :=
  { name := ascii "a.proto", package := ascii "a", address := 1,
    messages := [messageWithField "M" "f" 2, messageWithField "N" "N" 3] }

/-- A file that is loaded is the only one. -/
theorem afterCalls_single {file : FileDescriptor}
    (h : (afterCalls {} (callsWith [file])).files.length = 1) :
    (afterCalls {} (callsWith [file])).files = [file] := by
  have hcalls : afterCalls {} (callsWith [file]) = (addFile (fun _ => true) {} file).2 := rfl
  rw [hcalls] at h ⊢
  obtain ⟨e, hcall⟩ | ⟨-, -, -, hcall⟩ := addFile_cases (fun _ => true) {} file
  · rw [hcall] at h
    cases h
  · rw [hcall]
    rfl

theorem fieldsFile_wellNamed : fieldsFile.WellNamed where
  package := by decide
  messages := fun scope message h =>
    (by decide : ∀ pair ∈ fieldsFile.declaredMessages, IsPart 0x2e pair.2.name) (scope, message) h
  nestedEnums := fun scope message h =>
    (by decide : ∀ pair ∈ fieldsFile.declaredMessages, ∀ e ∈ pair.2.enums, IsPart 0x2e e.name)
      (scope, message) h
  enums := by decide

theorem fieldsFile_loaded : (afterCalls {} (callsWith [fieldsFile])).files = [fieldsFile] :=
  afterCalls_single (by decide)

theorem fieldsFile_named :
    ∀ file ∈ (afterCalls {} (callsWith [fieldsFile])).files, file.WellNamed := by
  rw [fieldsFile_loaded]
  intro file hfile
  rw [List.mem_singleton.mp hfile]
  exact fieldsFile_wellNamed

theorem fieldsFile_pointers :
    PointersToOne (typesOf (afterCalls {} (callsWith [fieldsFile])).files) := by
  rw [fieldsFile_loaded, PointersToOne]
  decide

/-- The field `N` of `a.N` is found in the scope of its message. -/
theorem findsMembers_iff_own :
    (afterCalls {} (callsWith [fieldsFile])).FindsMembers [ascii "a", ascii "N"]
        (messageWithField "N" "N" 3) (ascii "N") ↔
      (afterCalls {} (callsWith [fieldsFile])).AsksForMembers fieldsFile [ascii "a", ascii "N"]
        (messageWithField "N" "N" 3) (ascii "N") :=
  findsMembers_iff fieldsFile_named fieldsFile_pointers
    (by rw [fieldsFile_loaded]; exact List.mem_cons_self)
    (List.mem_cons_of_mem _ List.mem_cons_self) (by decide)

/-- The field `f` of `a.M` is not found in the scope of its message, and in the scope of `a.N` the
field `N` is found as a field `f`. -/
theorem exists_members_missed :
    ([ascii "a", ascii "M"], messageWithField "M" "f" 2) ∈ fieldsFile.declaredMessages ∧
      ([ascii "a", ascii "N"], messageWithField "N" "N" 3) ∈ fieldsFile.declaredMessages ∧
      fieldsFile ∈ (afterCalls {} (callsWith [fieldsFile])).files ∧
      ¬ (afterCalls {} (callsWith [fieldsFile])).FindsMembers [ascii "a", ascii "M"]
        (messageWithField "M" "f" 2) (ascii "f") ∧
      ¬ (afterCalls {} (callsWith [fieldsFile])).FindsMembers [ascii "a", ascii "N"]
        (messageWithField "N" "N" 3) (ascii "f") := by
  refine ⟨List.mem_cons_self, List.mem_cons_of_mem _ List.mem_cons_self, ?_, fun hfinds => ?_,
    fun hfinds => ?_⟩
  · rw [fieldsFile_loaded]
    exact List.mem_cons_self
  · have hfield := congrArg Option.isSome (hfinds.field (int32Field "f") rfl)
    revert hfield
    decide
  · have hnone := congrArg Option.isSome (hfinds.undeclared rfl)
    revert hnone
    decide

end Registry

end Pbz
