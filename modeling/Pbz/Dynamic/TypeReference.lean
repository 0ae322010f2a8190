import Pbz.Scoping
import Pbz.Dynamic.Resolve

set_option autoImplicit false

/-! # Type references of a dynamic message

A dynamic message looks a type name up by its last part: the first message that bears it wins,
where the current message comes first, then those nested in it, then those of the file. This
finds the designated type unless another one that bears its name stands before it, or the name is
the one of the package and the file is not searched at all. With a registry, names with dots are
looked up in their scope and the search by the last part comes last.

`typeReferences_iff` says when each lookup returns the designated type.
-/

namespace Pbz

open Dotted FirstMatch

/-! ## The search order -/

/-- The file is not searched for a name that equals its package. -/
def searchesFile (file : FileDescriptor) (name : Bytes) : Bool :=
  file.package.isEmpty || normalizeName name != file.package

/-- The messages in the order in which a type name is looked up in a message. -/
def messageOrder (file : FileDescriptor) (scope : List Bytes) (current : MessageDescriptor)
    (name : Bytes) : List MessageDescriptor :=
  current :: ((current.nestedMessages scope).map Prod.snd
    ++ if searchesFile file name then file.declaredMessages.map Prod.snd else [])

/-- The enums in the order in which a type name is looked up in a message. -/
def enumOrder (file : FileDescriptor) (current : MessageDescriptor) (name : Bytes) :
    List EnumDescriptor :=
  current.declaredEnums
    ++ if searchesFile file name then file.enums ++ nestedEnums file.messages else []

def messageBears (name : Bytes) (message : MessageDescriptor) : Bool :=
  message.name == leafName name

def enumBears (name : Bytes) (enumeration : EnumDescriptor) : Bool :=
  enumeration.name == leafName name

mutual

theorem findMessageDeepIn_eq (name : Bytes) (scope : List Bytes) :
    ∀ messages, findMessageDeepIn name messages
      = ((declaredMessages scope messages).map Prod.snd).find?
          (fun message => message.name == leafName name || message.name == name)
  | [] => rfl
  | message :: rest => by
      rw [findMessageDeepIn, declaredMessages, List.map_cons, List.find?_cons]
      cases hb : message.name == leafName name || message.name == name with
      | true => rw [if_pos rfl]
      | false =>
          rw [if_neg (by simp), List.map_append, List.find?_append,
            ← findMessageDeep_eq name (scope ++ [message.name]) message,
            ← findMessageDeepIn_eq name scope rest]
          cases message.findMessageDeep name <;> rfl

theorem findMessageDeep_eq (name : Bytes) (scope : List Bytes) :
    ∀ message : MessageDescriptor, message.findMessageDeep name
      = ((message.nestedMessages scope).map Prod.snd).find?
          (fun message => message.name == leafName name || message.name == name)
  | { messages := messages, .. } => by
      rw [MessageDescriptor.findMessageDeep, MessageDescriptor.nestedMessages]
      exact findMessageDeepIn_eq name scope messages

end

mutual

theorem findEnumDeepIn_eq (name : Bytes) :
    ∀ messages, findEnumDeepIn name messages = findEnumNamed name (nestedEnums messages)
  | [] => rfl
  | message :: rest => by
      rw [findEnumDeepIn, nestedEnums, findEnumNamed, List.find?_append, ← findEnumNamed,
        ← findEnumNamed, ← findEnumDeep_eq name message, ← findEnumDeepIn_eq name rest]
      cases message.findEnumDeep name <;> rfl

theorem findEnumDeep_eq (name : Bytes) :
    ∀ message : MessageDescriptor, message.findEnumDeep name
      = findEnumNamed name message.declaredEnums
  | { messages := messages, enums := enums, .. } => by
      rw [MessageDescriptor.findEnumDeep, MessageDescriptor.declaredEnums, findEnumNamed,
        findEnumDeepIn_eq name messages, findEnumNamed, findEnumNamed, List.find?_append]
      cases enums.find? _ <;> rfl

end

/-! ## Names of one part -/

theorem leafName_joined {path : List Bytes} (hp : IsPath 0x2e path) {last : Bytes}
    (hl : path.getLast? = some last) : leafName (joined 0x2e path) = last := by
  obtain ⟨front, rfl⟩ := List.getLast?_eq_some_iff.mp hl
  rw [leafName, normalizeName_joined hp]
  exact reverse_takeWhile_joined (hp last (by simp)).2 front

/-- A test of a simple name against a name or its last part is one against the last part. -/
theorem bears_eq {part : Bytes} (h : IsPart 0x2e part) (name : Bytes) :
    (part == leafName name || part == name) = (part == leafName name) := by
  cases hb : part == leafName name with
  | true => rfl
  | false =>
      rw [Bool.false_or, ← Bool.not_eq_true]
      intro hc
      have hleaf : leafName (joined 0x2e [part]) = part :=
        leafName_joined (fun p hp => by rw [List.mem_singleton.mp hp]; exact h) rfl
      rw [joined_singleton, eq_of_beq hc] at hleaf
      rw [hleaf, eq_of_beq hc] at hb
      simp at hb

theorem IsTypeName.leafName_normalizeName {name : Bytes} (h : IsTypeName name) :
    leafName (normalizeName name) = leafName name := by
  have htwice : normalizeName (normalizeName name) = normalizeName name := by
    rw [← joined_components name, normalizeName_joined h.isPath]
  rw [leafName, leafName, htwice]

/-- What is left of a name without the package of the file. -/
theorem stripPackagePrefix_eq {file : FileDescriptor} (hf : file.WellNamed) {name : Bytes}
    (hn : IsTypeName name) :
    (searchesFile file name = false ∧ file.stripPackagePrefix name = [])
      ∨ (searchesFile file name = true
        ∧ leafName (file.stripPackagePrefix name) = leafName name) := by
  have hleaf := hn.leafName_normalizeName
  rw [searchesFile, FileDescriptor.stripPackagePrefix]
  by_cases hempty : file.package.isEmpty = true
  · right
    rw [if_pos hempty, hempty]
    exact ⟨rfl, hleaf⟩
  · rw [if_neg hempty]
    by_cases hp : normalizeName name = file.package
    · left
      rw [if_pos (by simpa using hp), hp]
      simp [hempty]
    · right
      rw [if_neg (by simpa using hp)]
      refine ⟨by simp [hp], ?_⟩
      obtain ⟨hne, htext⟩ := packagePath_eq (by simpa using hempty)
      have hstrip := stripDotted_joined hf.package hne hn.isPath
      rw [htext, joined_components] at hstrip
      rw [hstrip]
      split
      · next hc =>
        obtain ⟨rest, hrest⟩ := List.isPrefixOf_iff_prefix.mp hc.1
        rw [← hrest, List.drop_left, Option.getD_some]
        have hne' : rest ≠ [] := by
          rintro rfl
          rw [List.append_nil] at hrest
          exact hc.2 hrest.symm
        obtain ⟨last, hlast⟩ := Option.ne_none_iff_exists'.mp
          (fun h => hne' (List.getLast?_eq_none_iff.mp h))
        have hpath : IsPath 0x2e rest := by
          have hall := hn.isPath
          rw [← hrest] at hall
          exact hall.sublist (List.sublist_append_right _ _)
        rw [leafName_joined hpath hlast]
        refine ((leafName_eq_iff).mpr ?_).symm
        rw [← hrest, List.getLast?_append, hlast, Option.some_or]
      · exact hleaf

/-! ## Lookups by the last part -/

section

variable {file : FileDescriptor} {scope : List Bytes} {current : MessageDescriptor} {name : Bytes}

mutual

theorem nested_declared {outer : List Bytes} {pair inner : List Bytes × MessageDescriptor} :
    ∀ {messages : List MessageDescriptor}, pair ∈ declaredMessages outer messages →
      inner ∈ pair.2.nestedMessages pair.1 → inner ∈ declaredMessages outer messages
  | [], h, _ => absurd h (by simp [declaredMessages])
  | message :: rest, h, hi => by
      rw [declaredMessages] at h ⊢
      rcases List.mem_cons.mp h with rfl | h
      · exact List.mem_cons_of_mem _ (List.mem_append_left _ hi)
      · rcases List.mem_append.mp h with h | h
        · exact List.mem_cons_of_mem _ (List.mem_append_left _ (nested_declared_in h hi))
        · exact List.mem_cons_of_mem _ (List.mem_append_right _ (nested_declared h hi))

theorem nested_declared_in {outer : List Bytes} {pair inner : List Bytes × MessageDescriptor} :
    ∀ {message : MessageDescriptor}, pair ∈ message.nestedMessages outer →
      inner ∈ pair.2.nestedMessages pair.1 → inner ∈ message.nestedMessages outer
  | { messages := messages, .. }, h, hi => by
      rw [MessageDescriptor.nestedMessages] at h ⊢
      exact nested_declared h hi

end

theorem find?_bears {messages : List MessageDescriptor}
    (h : ∀ message ∈ messages, IsPart 0x2e message.name) (name : Bytes) :
    messages.find? (fun message => message.name == leafName name || message.name == name)
      = messages.find? (messageBears name) :=
  List.find?_congr (fun message hm => bears_eq (h message hm) name)

theorem messageBears_congr {other : Bytes} (h : leafName other = leafName name) :
    messageBears other = messageBears name := by
  funext message
  rw [messageBears, messageBears, h]

/-- The lookup of a message returns the first one that bears the last part of the name. -/
theorem resolveMessageDescriptor_eq (hf : file.WellNamed)
    (hm : (scope, current) ∈ file.declaredMessages) (hn : IsTypeName name) :
    resolveMessageDescriptor file current name
      = (messageOrder file scope current name).find? (messageBears name) := by
  have hnested : ∀ message ∈ (current.nestedMessages scope).map Prod.snd,
      IsPart 0x2e message.name := by
    intro message h
    obtain ⟨⟨place, nested⟩, hp, rfl⟩ := List.mem_map.mp h
    exact hf.messages place nested (nested_declared hm hp)
  have hdeclared : ∀ message ∈ file.declaredMessages.map Prod.snd, IsPart 0x2e message.name := by
    intro message h
    obtain ⟨⟨place, other⟩, hp, rfl⟩ := List.mem_map.mp h
    exact hf.messages place other hp
  have hleaf := hn.leafName_normalizeName
  have htwice : normalizeName (normalizeName name) = normalizeName name := by
    rw [← joined_components name, normalizeName_joined hn.isPath]
  have hfile : file.findMessageDeep (normalizeName name)
      = if searchesFile file name then
          (file.declaredMessages.map Prod.snd).find? (messageBears name) else none := by
    have hstrip : file.stripPackagePrefix (normalizeName name) = file.stripPackagePrefix name := by
      rw [FileDescriptor.stripPackagePrefix, FileDescriptor.stripPackagePrefix, htwice]
    rw [FileDescriptor.findMessageDeep, hstrip, findMessageDeepIn_eq _ file.packagePath,
      ← FileDescriptor.declaredMessages, find?_bears hdeclared]
    rcases stripPackagePrefix_eq hf hn with ⟨hs, he⟩ | ⟨hs, he⟩
    · rw [hs, he, if_neg (by simp), List.find?_eq_none]
      intro message h hb
      have hempty : message.name = leafName [] := eq_of_beq hb
      exact (hdeclared message h).1 hempty
    · rw [hs, if_pos rfl, messageBears_congr he]
  have hcurrent : (current.name == normalizeName name
      || current.name == afterLastDot (normalizeName name)) = messageBears name current := by
    have hb := bears_eq (hf.messages scope current hm) (normalizeName name)
    rw [hleaf] at hb
    rw [Bool.or_comm]
    exact hb
  unfold resolveMessageDescriptor
  simp only [hcurrent]
  rw [messageOrder, List.find?_cons, findMessageDeep_eq _ scope, find?_bears hnested,
    messageBears_congr hleaf, hfile, List.find?_append]
  cases messageBears name current with
  | true => rfl
  | false =>
      simp only [Bool.false_eq_true, if_false]
      cases ((current.nestedMessages scope).map Prod.snd).find? (messageBears name) with
      | some found => rfl
      | none => cases searchesFile file name <;> rfl

theorem bears_of_findEnumNamed {enums : List EnumDescriptor}
    (h : ∀ enumeration ∈ enums, IsPart 0x2e enumeration.name) (name : Bytes) :
    findEnumNamed name enums = enums.find? (enumBears name) :=
  List.find?_congr (fun enumeration he => bears_eq (h enumeration he) name)

theorem enumBears_congr {other : Bytes} (h : leafName other = leafName name) :
    enumBears other = enumBears name := by
  funext enumeration
  rw [enumBears, enumBears, h]

theorem isPart_of_declaredEnums (hf : file.WellNamed) {enumeration : EnumDescriptor}
    (h : enumeration ∈ file.enums ++ nestedEnums file.messages) : IsPart 0x2e enumeration.name := by
  rcases List.mem_append.mp h with h | h
  · exact hf.enums enumeration h
  · obtain ⟨place, message, hp, he⟩ := @exists_message_of_nestedEnums file.packagePath _ _ h
    exact hf.nestedEnums place message hp enumeration he

theorem isPart_of_mem_enumOrder (hf : file.WellNamed)
    (hm : (scope, current) ∈ file.declaredMessages) {enumeration : EnumDescriptor}
    (h : enumeration ∈ enumOrder file current name) : IsPart 0x2e enumeration.name := by
  rcases List.mem_append.mp h with h | h
  · rcases @exists_message_of_declaredEnums scope _ _ h with h | ⟨place, nested, hp, he⟩
    · exact hf.nestedEnums scope current hm enumeration h
    · exact hf.nestedEnums place nested (nested_declared hm hp) enumeration he
  · split at h
    · exact isPart_of_declaredEnums hf h
    · exact absurd h (by simp)

/-- The search of a file for an enum looks at the last part of the name only. -/
theorem findEnumDeep_file_eq (hf : file.WellNamed) (hn : IsTypeName name) :
    file.findEnumDeep name
      = (if searchesFile file name then file.enums ++ nestedEnums file.messages else []).find?
          (enumBears name) := by
  have hdeep : file.findEnumDeep name
      = findEnumNamed (file.stripPackagePrefix name)
          (file.enums ++ nestedEnums file.messages) := by
    rw [FileDescriptor.findEnumDeep, findEnumDeepIn_eq, findEnumNamed, findEnumNamed,
      findEnumNamed, List.find?_append]
    cases file.enums.find? _ <;> rfl
  have hparts : ∀ enumeration ∈ file.enums ++ nestedEnums file.messages,
      IsPart 0x2e enumeration.name := fun enumeration h => isPart_of_declaredEnums hf h
  rw [hdeep, bears_of_findEnumNamed hparts]
  rcases stripPackagePrefix_eq hf hn with ⟨hs, he⟩ | ⟨hs, he⟩
  · rw [hs, he, if_neg (by simp), List.find?_nil, List.find?_eq_none]
    intro enumeration h hb
    have hempty : enumeration.name = leafName [] := eq_of_beq hb
    exact (hparts enumeration h).1 hempty
  · rw [hs, if_pos rfl, enumBears_congr he]

/-- The lookup of an enum returns the first one that bears the last part of the name. -/
theorem findEnumNearby_eq (hf : file.WellNamed) (hm : (scope, current) ∈ file.declaredMessages)
    (hn : IsTypeName name) :
    findEnumNearby file current name = (enumOrder file current name).find? (enumBears name) := by
  have hcurrent : ∀ enumeration ∈ current.declaredEnums, IsPart 0x2e enumeration.name := by
    intro enumeration h
    have hmem : enumeration ∈ enumOrder file current name := List.mem_append_left _ h
    exact isPart_of_mem_enumOrder hf hm hmem
  rw [findEnumNearby, findEnumDeep_eq, bears_of_findEnumNamed hcurrent,
    findEnumDeep_file_eq hf hn, enumOrder, List.find?_append]

end

/-! ## The scope of a message -/

/-- A pointer to a message of the file stands for one place in it. -/
def FileDescriptor.PointersApart (file : FileDescriptor) : Prop :=
  ∀ scope message other place, (scope, message) ∈ file.declaredMessages →
    (place, other) ∈ file.declaredMessages → other.address = message.address → place = scope

/-- The names under the scopes of the file fit the buffers of the lookups. -/
def FitsBuffers (file : FileDescriptor) (name : Bytes) : Prop :=
  ∀ scope message, (scope, message) ∈ file.declaredMessages →
    (joined 0x2e scope).length + 1 + name.length ≤ scopeBufferSize

section

variable {file : FileDescriptor}

theorem formatMessageScope_joined {path : List Bytes} (hne : path ≠ [])
    (hfit : (joined 0x2e (file.packagePath ++ path)).length ≤ scopeBufferSize) :
    formatMessageScope file.package (joined 0x2e path)
      = some (joined 0x2e (file.packagePath ++ path)) := by
  rw [formatMessageScope]
  by_cases hempty : file.package.isEmpty = true
  · have hpackage : file.packagePath = [] := by rw [FileDescriptor.packagePath, if_pos hempty]
    rw [hpackage, List.nil_append] at hfit ⊢
    rw [if_pos hempty, fitsBuffer, if_pos hfit]
  · obtain ⟨hp, htext⟩ := packagePath_eq (by simpa using hempty)
    rw [joined_append hp hne, htext] at hfit ⊢
    rw [if_neg hempty, fitsBuffer, if_pos hfit]

theorem length_joined_le {path : List Bytes} (qualifier : List Bytes) :
    (joined 0x2e path).length ≤ (joined 0x2e (qualifier ++ path)).length := by
  by_cases hp : path = []
  · simp [hp]
  · by_cases hq : qualifier = []
    · simp [hq]
    · rw [joined_append hq hp, List.length_append, List.length_cons]
      omega

mutual

theorem messageScopeInList_eq (target : Nat) (path : List Bytes) (hne : path ≠ []) :
    ∀ messages, (∀ pair ∈ declaredMessages (file.packagePath ++ path) messages,
        (joined 0x2e pair.1).length ≤ scopeBufferSize) →
      messageScopeInList file.package (joined 0x2e path) target messages
        = ((declaredMessages (file.packagePath ++ path) messages).find?
            (fun pair => pair.2.address == target)).map (fun pair => joined 0x2e pair.1)
  | [], _ => rfl
  | nested :: rest, hfit => by
      rw [declaredMessages] at hfit ⊢
      have hnested : (joined 0x2e (file.packagePath ++ (path ++ [nested.name]))).length
          ≤ scopeBufferSize := by
        rw [← List.append_assoc]
        exact hfit _ List.mem_cons_self
      have htext : joined 0x2e path ++ 0x2e :: nested.name = joined 0x2e (path ++ [nested.name]) := by
        rw [joined_append hne (by simp), joined_singleton]
      have hbuffer := (length_joined_le file.packagePath).trans hnested
      rw [messageScopeInList, htext, fitsBuffer, if_pos hbuffer, List.find?_cons]
      cases ha : nested.address == target with
      | true =>
          simp only [if_true, Option.map_some]
          rw [formatMessageScope_joined (by simp) hnested, List.append_assoc]
      | false =>
          have hin := messageScopeInMessage_eq target (path ++ [nested.name]) (by simp) nested
            (fun pair hp => hfit pair (List.mem_cons_of_mem _ (List.mem_append_left _
              (by rw [List.append_assoc]; exact hp))))
          have hrest := messageScopeInList_eq target path hne rest
            (fun pair hp => hfit pair (List.mem_cons_of_mem _ (List.mem_append_right _ hp)))
          simp only [Bool.false_eq_true, if_false]
          rw [hin, hrest, List.find?_append, List.append_assoc]
          cases (nested.nestedMessages (file.packagePath ++ (path ++ [nested.name]))).find?
            (fun pair => pair.2.address == target) <;> rfl

theorem messageScopeInMessage_eq (target : Nat) (path : List Bytes) (hne : path ≠ []) :
    ∀ message : MessageDescriptor,
      (∀ pair ∈ message.nestedMessages (file.packagePath ++ path),
        (joined 0x2e pair.1).length ≤ scopeBufferSize) →
      messageScopeInMessage file.package (joined 0x2e path) target message
        = ((message.nestedMessages (file.packagePath ++ path)).find?
            (fun pair => pair.2.address == target)).map (fun pair => joined 0x2e pair.1)
  | { messages := messages, .. }, hfit => by
      rw [MessageDescriptor.nestedMessages] at hfit ⊢
      rw [messageScopeInMessage]
      exact messageScopeInList_eq target path hne messages hfit

end

theorem messageScopeIn_eq (target : Nat) :
    ∀ messages, (∀ pair ∈ declaredMessages file.packagePath messages,
        (joined 0x2e pair.1).length ≤ scopeBufferSize) →
      messageScopeIn file.package target messages
        = ((declaredMessages file.packagePath messages).find?
            (fun pair => pair.2.address == target)).map (fun pair => joined 0x2e pair.1)
  | [], _ => rfl
  | message :: rest, hfit => by
      rw [declaredMessages] at hfit ⊢
      have hmessage : (joined 0x2e (file.packagePath ++ [message.name])).length
          ≤ scopeBufferSize := hfit _ List.mem_cons_self
      rw [messageScopeIn, List.find?_cons]
      have htext : message.name = joined 0x2e [message.name] := (joined_singleton _).symm
      cases ha : message.address == target with
      | true =>
          simp only [if_true, Option.map_some]
          rw [htext, formatMessageScope_joined (by simp) hmessage]
          simp
      | false =>
          have hin := messageScopeInMessage_eq target [message.name] (by simp) message
            (fun pair hp => hfit pair (List.mem_cons_of_mem _ (List.mem_append_left _ hp)))
          have hrest := messageScopeIn_eq target rest
            (fun pair hp => hfit pair (List.mem_cons_of_mem _ (List.mem_append_right _ hp)))
          rw [joined_singleton] at hin
          simp only [Bool.false_eq_true, if_false]
          rw [hin, hrest, List.find?_append]
          cases (message.nestedMessages (file.packagePath ++ [message.name])).find?
            (fun pair => pair.2.address == target) <;> rfl

/-- The scope of a message of the file is its path. -/
theorem lookupScope_eq {scope : List Bytes} {current : MessageDescriptor}
    (hm : (scope, current) ∈ file.declaredMessages) (hp : file.PointersApart) {name : Bytes}
    (hfit : FitsBuffers file name) :
    lookupScope file current = some (joined 0x2e scope) := by
  have hbuffers : ∀ pair ∈ declaredMessages file.packagePath file.messages,
      (joined 0x2e pair.1).length ≤ scopeBufferSize := by
    intro pair h
    have hpair := hfit pair.1 pair.2 h
    omega
  rw [lookupScope, messageScope, messageScopeIn_eq _ _ hbuffers, ← FileDescriptor.declaredMessages]
  cases hfind : file.declaredMessages.find? (fun pair => pair.2.address == current.address) with
  | none => exact absurd (by simp) (List.find?_eq_none.mp hfind _ hm)
  | some pair =>
      have haddress : pair.2.address = current.address := by simpa using List.find?_some hfind
      have hplace := hp scope current pair.2 pair.1 hm (List.mem_of_find?_eq_some hfind) haddress
      rw [Option.map_some, Option.some_or, hplace]

end

/-! ## Designated descriptors bear the name -/

section

variable {file : FileDescriptor} {scope : List Bytes} {current : MessageDescriptor} {name : Bytes}

theorem bears_designated {files : List FileDescriptor} :
    (∀ message, (designated files scope name).bind Registry.asMessage = some message →
        messageBears name message = true)
      ∧ ∀ enumeration, (designated files scope name).bind Registry.asEnum = some enumeration →
        enumBears name enumeration = true := by
  cases hd : designated files scope name with
  | none => simp
  | some type =>
      obtain ⟨hmessage, henum⟩ := leafName_of_designated hd
      cases type with
      | message found =>
          refine ⟨fun message hm => ?_, fun enumeration he => absurd he (by simp [Registry.asEnum])⟩
          rw [← Option.some.inj hm, messageBears, beq_iff_eq]
          exact (hmessage found rfl).symm
      | enumeration found =>
          refine ⟨fun message hm => absurd hm (by simp [Registry.asMessage]), fun e he => ?_⟩
          rw [← Option.some.inj he, enumBears, beq_iff_eq]
          exact (henum found rfl).symm

end

/-! ## With a registry -/

/-- A lookup that tries the nearby descriptors for a name without dots, then what is found in the
scopes, and the nearby descriptors last, finds the target in these cases. -/
theorem registryLookup_iff {α : Type} {bears : α → Bool} {order : List α}
    {target visible pool : Option α} (hbears : ∀ x, target = some x → bears x = true)
    (hfound : target ≠ none → visible.or pool = target) (hnone : target = none → visible = none)
    (dotted : Bool) :
    ((((if dotted then none else order.find? bears).or visible).or pool).or (order.find? bears)
        = target)
      ↔ (dotted = false → Unshadowed bears order target)
        ∧ (target = none → (∀ x ∈ order, bears x = false) ∧ pool = none) := by
  have hsearch := @find?_eq_none_or_target_iff α bears order target hbears
  have hempty : order.find? bears = none ↔ ∀ x ∈ order, bears x = false := by simp
  rw [← hsearch, ← hempty]
  generalize order.find? bears = near
  cases target with
  | none =>
      rw [hnone rfl]
      cases dotted <;> cases near <;> cases pool <;> simp
  | some x =>
      have hx : visible.or pool = some x := hfound (by simp)
      cases dotted with
      | true =>
          rw [if_pos rfl, Option.none_or, hx]
          simp
      | false =>
          cases near with
          | none => simp [hx]
          | some y => simp

/-- Where a name with some scope designates no message or no enum, the lookup has to find none in
the whole registry either. -/
theorem registry_designated {registry : Registry} {file : FileDescriptor} {scope : List Bytes}
    {name : Bytes} {α : Type} (pick : TypeRef → Option α) :
    let visible := (designated (file :: registry.files.filter (registry.fileCanSee file)) scope
      name).bind pick
    let pool := (designated registry.files scope name).bind pick
    let target := (registry.designated file scope name).bind pick
    (target ≠ none → visible.or pool = target) ∧ (target = none → visible = none) := by
  simp only [Registry.designated]
  cases designated (file :: registry.files.filter (registry.fileCanSee file)) scope name with
  | none => simp
  | some type => cases hp : pick type <;> simp [hp]

mutual

theorem isPath_of_mem_declaredMessages {outer : List Bytes} (ho : IsPath 0x2e outer)
    {pair : List Bytes × MessageDescriptor} :
    ∀ {messages : List MessageDescriptor},
      (∀ pair ∈ declaredMessages outer messages, IsPart 0x2e pair.2.name) →
        pair ∈ declaredMessages outer messages → IsPath 0x2e pair.1 ∧ pair.1 ≠ []
  | [], _, h => absurd h (by simp [declaredMessages])
  | message :: rest, hparts, h => by
      rw [declaredMessages] at hparts h
      have hpath : IsPath 0x2e (outer ++ [message.name]) :=
        ho.append (fun part hp => by
          rw [List.mem_singleton.mp hp]
          exact hparts _ List.mem_cons_self)
      rcases List.mem_cons.mp h with rfl | h
      · exact ⟨hpath, by simp⟩
      · rcases List.mem_append.mp h with h | h
        · exact isPath_of_mem_nestedMessages hpath
            (fun p hp => hparts p (List.mem_cons_of_mem _ (List.mem_append_left _ hp))) h
        · exact isPath_of_mem_declaredMessages ho
            (fun p hp => hparts p (List.mem_cons_of_mem _ (List.mem_append_right _ hp))) h

theorem isPath_of_mem_nestedMessages {outer : List Bytes} (ho : IsPath 0x2e outer)
    {pair : List Bytes × MessageDescriptor} :
    ∀ {message : MessageDescriptor},
      (∀ pair ∈ message.nestedMessages outer, IsPart 0x2e pair.2.name) →
        pair ∈ message.nestedMessages outer → IsPath 0x2e pair.1 ∧ pair.1 ≠ []
  | { messages := messages, .. }, hparts, h => by
      rw [MessageDescriptor.nestedMessages] at hparts h
      exact isPath_of_mem_declaredMessages ho hparts h

end

section

variable {registry : Registry} {file : FileDescriptor} {scope : List Bytes}
  {current : MessageDescriptor} {name : Bytes}

theorem isPath_scope (hf : file.WellNamed) (hm : (scope, current) ∈ file.declaredMessages) :
    IsPath 0x2e scope ∧ scope ≠ [] :=
  isPath_of_mem_declaredMessages hf.package
    (fun pair hp => hf.messages pair.1 pair.2 hp) hm

theorem bears_registry_designated :
    (∀ message, (registry.designated file scope name).bind Registry.asMessage = some message →
        messageBears name message = true)
      ∧ ∀ enumeration, (registry.designated file scope name).bind Registry.asEnum
          = some enumeration → enumBears name enumeration = true := by
  have hvisible := @bears_designated scope name
    (file :: registry.files.filter (registry.fileCanSee file))
  have hpool := @bears_designated scope name registry.files
  rw [Registry.designated]
  cases hd : designated (file :: registry.files.filter (registry.fileCanSee file)) scope name with
  | none =>
      rw [Option.none_or]
      exact hpool
  | some type =>
      rw [Option.some_or, ← hd]
      exact hvisible

/-- When the lookup of a message with a registry returns the designated one. -/
theorem resolveWithRegistry_iff (hf : file.WellNamed)
    (hr : ∀ file ∈ registry.files, file.WellNamed) (hm : (scope, current) ∈ file.declaredMessages)
    (hp : file.PointersApart) (hn : IsTypeName name) (hfit : FitsBuffers file name) :
    resolveMessageDescriptorWithRegistry file (some registry) current name
        = (registry.designated file scope name).bind Registry.asMessage
      ↔ (name.contains 0x2e = false → Unshadowed (messageBears name)
            (messageOrder file scope current name)
            ((registry.designated file scope name).bind Registry.asMessage))
        ∧ ((registry.designated file scope name).bind Registry.asMessage = none →
            (∀ message ∈ messageOrder file scope current name, messageBears name message = false)
              ∧ (designated registry.files scope name).bind Registry.asMessage = none) := by
  obtain ⟨hs, hne⟩ := isPath_scope hf hm
  have hroom := hfit scope current hm
  obtain ⟨hfound, hnone⟩ := @registry_designated registry file scope name _ Registry.asMessage
  have hbears := (@bears_registry_designated registry file scope name).1
  rw [← registryLookup_iff hbears hfound hnone]
  unfold resolveMessageDescriptorWithRegistry
  simp only [lookupScope_eq hm hp hfit, resolveMessageDescriptor_eq hf hm hn,
    Registry.findMessageVisible, Registry.findMessage, findTypeVisible_eq hf hr hs hne hn hroom,
    findType_eq hr hs hne hn hroom]

/-- When the lookup of an enum with a registry returns the designated one. -/
theorem registryEnum_iff (hf : file.WellNamed)
    (hr : ∀ file ∈ registry.files, file.WellNamed) (hm : (scope, current) ∈ file.declaredMessages)
    (hp : file.PointersApart) (hn : IsTypeName name) (hfit : FitsBuffers file name)
    {kind : FieldKind} (hk : kind.enumName = some name) :
    registryEnumDescriptor file (some registry) current kind
        = (registry.designated file scope name).bind Registry.asEnum
      ↔ (name.contains 0x2e = false → Unshadowed (enumBears name)
            (enumOrder file current name)
            ((registry.designated file scope name).bind Registry.asEnum))
        ∧ ((registry.designated file scope name).bind Registry.asEnum = none →
            (∀ enumeration ∈ enumOrder file current name, enumBears name enumeration = false)
              ∧ (designated registry.files scope name).bind Registry.asEnum = none) := by
  obtain ⟨hs, hne⟩ := isPath_scope hf hm
  have hroom := hfit scope current hm
  obtain ⟨hfound, hnone⟩ := @registry_designated registry file scope name _ Registry.asEnum
  have hbears := (@bears_registry_designated registry file scope name).2
  rw [← registryLookup_iff hbears hfound hnone]
  unfold registryEnumDescriptor
  simp only [hk, lookupScope_eq hm hp hfit, findEnumNearby_eq hf hm hn,
    Registry.findEnumVisible, Registry.findEnum, findTypeVisible_eq hf hr hs hne hn hroom,
    findType_eq hr hs hne hn hroom]

/-- When the type references of a dynamic message follow the scoping rules. Without a registry:
the designated descriptor is one of those searched, and no other one that bears the last part of
the name stands before it; where there is no designated one, none bears it. With a registry: a
name without dots has no such other one before the designated descriptor, and where there is none,
no descriptor that is searched bears the last part of the name and the registry has none for the
name either. -/
theorem typeReferences_iff (hf : file.WellNamed) (hm : (scope, current) ∈ file.declaredMessages)
    (hn : IsTypeName name) :
    (resolveMessageDescriptorWithRegistry file none current name
          = (designated [file] scope name).bind Registry.asMessage
        ↔ Unshadowed (messageBears name) (messageOrder file scope current name)
            ((designated [file] scope name).bind Registry.asMessage)
          ∧ ∀ message, (designated [file] scope name).bind Registry.asMessage = some message →
              message ∈ messageOrder file scope current name)
      ∧ (∀ kind : FieldKind, kind.enumName = some name →
          (registryEnumDescriptor file none current kind
              = (designated [file] scope name).bind Registry.asEnum
            ↔ Unshadowed (enumBears name) (enumOrder file current name)
                ((designated [file] scope name).bind Registry.asEnum)
              ∧ ∀ enumeration, (designated [file] scope name).bind Registry.asEnum
                  = some enumeration → enumeration ∈ enumOrder file current name))
      ∧ ∀ registry : Registry, file ∈ registry.files → (∀ other ∈ registry.files, other.WellNamed) →
          file.PointersApart → FitsBuffers file name →
        (resolveMessageDescriptorWithRegistry file (some registry) current name
            = (registry.designated file scope name).bind Registry.asMessage
          ↔ (name.contains 0x2e = false → Unshadowed (messageBears name)
                (messageOrder file scope current name)
                ((registry.designated file scope name).bind Registry.asMessage))
            ∧ ((registry.designated file scope name).bind Registry.asMessage = none →
                (∀ message ∈ messageOrder file scope current name,
                    messageBears name message = false)
                  ∧ (designated registry.files scope name).bind Registry.asMessage = none))
        ∧ ∀ kind : FieldKind, kind.enumName = some name →
          (registryEnumDescriptor file (some registry) current kind
              = (registry.designated file scope name).bind Registry.asEnum
            ↔ (name.contains 0x2e = false → Unshadowed (enumBears name)
                  (enumOrder file current name)
                  ((registry.designated file scope name).bind Registry.asEnum))
              ∧ ((registry.designated file scope name).bind Registry.asEnum = none →
                  (∀ enumeration ∈ enumOrder file current name,
                      enumBears name enumeration = false)
                    ∧ (designated registry.files scope name).bind Registry.asEnum = none)) := by
  have hbears := @bears_designated scope name [file]
  refine ⟨?_, fun kind hk => ?_, fun registry _ hr hp hfit => ⟨?_, fun kind hk => ?_⟩⟩
  · rw [← find?_eq_target_iff hbears.1, ← resolveMessageDescriptor_eq hf hm hn]
    rfl
  · rw [← find?_eq_target_iff hbears.2, ← findEnumNearby_eq hf hm hn]
    simp only [registryEnumDescriptor, hk]
  · exact resolveWithRegistry_iff hf hr hm hp hn hfit
  · exact registryEnum_iff hf hr hm hp hn hfit hk

end

/-! ## Two types with one last part -/

/-- The item of a box. -/
def boxItem : MessageDescriptor := { name := ascii "Item", address := 3 }

def boxDescriptor : MessageDescriptor :=
  { name := ascii "Box", messages := [boxItem], address := 2 }

/-- Its field refers to the item on the top level. -/
def shelfDescriptor : MessageDescriptor :=
  { name := ascii "Shelf", messages := [boxDescriptor], address := 1,
    fields := [{ name := ascii "item", number := 1, kind := .message (ascii "Item") }] }

def shelfItem : MessageDescriptor := { name := ascii "Item", address := 4 }

def shelfFile : FileDescriptor := { messages := [shelfDescriptor, shelfItem] }

theorem shelfFile_wellNamed : shelfFile.WellNamed where
  package := by decide
  messages := fun scope message h =>
    (by decide : ∀ pair ∈ shelfFile.declaredMessages, IsPart 0x2e pair.2.name) (scope, message) h
  nestedEnums := fun scope message h =>
    (by decide : ∀ pair ∈ shelfFile.declaredMessages, ∀ e ∈ pair.2.enums, IsPart 0x2e e.name)
      (scope, message) h
  enums := by decide

/-- In the box the name designates the item of the box, which comes first. -/
theorem typeReferences_box :
    resolveMessageDescriptorWithRegistry shelfFile none boxDescriptor (ascii "Item")
      = (designated [shelfFile] [ascii "Shelf", ascii "Box"] (ascii "Item")).bind
          Registry.asMessage := by
  have hm : ([ascii "Shelf", ascii "Box"], boxDescriptor) ∈ shelfFile.declaredMessages :=
    List.mem_cons_of_mem _ List.mem_cons_self
  refine (typeReferences_iff shelfFile_wellNamed hm (by decide)).1.mpr ⟨?_, ?_⟩
  · rw [← find?_eq_none_or_target_iff (@bears_designated _ _ [shelfFile]).1]
    exact Or.inr rfl
  · intro message h
    rw [← Option.some.inj (show some boxItem = some message from h)]
    exact List.mem_cons_of_mem _ List.mem_cons_self

/-- In the shelf it designates the item on the top level, but the lookup finds the item of the
box. -/
theorem exists_typeReference_ne :
    ([ascii "Shelf"], shelfDescriptor) ∈ shelfFile.declaredMessages
      ∧ resolveMessageDescriptorWithRegistry shelfFile none shelfDescriptor (ascii "Item")
          ≠ (designated [shelfFile] [ascii "Shelf"] (ascii "Item")).bind Registry.asMessage
      ∧ resolveMessageDescriptorWithRegistry shelfFile (some { files := [shelfFile] })
            shelfDescriptor (ascii "Item")
          ≠ (Registry.designated { files := [shelfFile] } shelfFile [ascii "Shelf"]
              (ascii "Item")).bind Registry.asMessage := by
  have hne : (some boxItem : Option MessageDescriptor) ≠ some shelfItem := fun h =>
    absurd (congrArg MessageDescriptor.address (Option.some.inj h)) (by decide)
  exact ⟨List.mem_cons_self, hne, hne⟩

end Pbz
