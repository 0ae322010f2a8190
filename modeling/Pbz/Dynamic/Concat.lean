import Pbz.Dynamic.ReadFits

set_option autoImplicit false

/-! # Concatenation is merge

A decoded message holds what the values that were read, added one after the other, leave
(`contents_decoded`). Merging the message that was decoded from a second input adds the same values
once more in another order, and by the laws of merging the outcome means the same as decoding the two
inputs as one: `decode_append`.
-/

namespace Pbz

/-! ## Contents of a decoded message -/

section

variable {descriptor : MessageDescriptor} {P Q : FieldValue → Prop}

/-- The contents of a number after deduplication. -/
def deduplicateAt (descriptor : MessageDescriptor) (number : Nat) (values : List Value) :
    List Value :=
  match descriptor.findFieldByNumber number with
  | some field => if field.kind.isMap then deduplicateDecodedMapField values else values
  | none => values

theorem deduplicateAt_eq {field : FieldDescriptor} (hf : field ∈ schemaFields descriptor)
    (values : List Value) :
    deduplicateAt descriptor field.number values
      = if field.kind.isMap then deduplicateDecodedMapField values else values := by
  have hfind : descriptor.findFieldByNumber field.number = some field := hf
  rw [deduplicateAt, hfind]

@[simp] theorem deduplicateAt_nil (number : Nat) : deduplicateAt descriptor number [] = [] := by
  rw [deduplicateAt]
  split
  · split <;> rfl
  · rfl

theorem contents_deduplicate {message : DynamicMessage}
    (h : Stored (schemaFields descriptor) P message.fields) (number : Nat) :
    message.deduplicateDecodedMapFields.contents number
      = deduplicateAt descriptor number (message.contents number) := by
  rw [DynamicMessage.contents, DynamicMessage.contents, DynamicMessage.deduplicateDecodedMapFields]
  have hd := h.declared
  simp only
  generalize message.fields = fields at hd
  induction fields with
  | nil => exact (deduplicateAt_nil number).symm
  | cons entry rest ih =>
      rw [List.map_cons, contentsOf_cons, contentsOf_cons]
      have hdesc : (if entry.descriptor.kind.isMap = true then
          { descriptor := entry.descriptor,
            values := deduplicateDecodedMapField entry.values }
          else entry).descriptor = entry.descriptor := by split <;> rfl
      rw [hdesc]
      by_cases hn : entry.descriptor.number = number
      · subst hn
        rw [if_pos rfl, if_pos rfl, deduplicateAt_eq (hd entry List.mem_cons_self)]
        split <;> rfl
      · rw [if_neg hn, if_neg hn]
        exact ih (fun e he => hd e (List.mem_cons_of_mem _ he))

theorem Stored.deduplicate {message : DynamicMessage}
    (h : Stored (schemaFields descriptor) P message.fields) :
    Stored (schemaFields descriptor) (fun _ => True)
      message.deduplicateDecodedMapFields.fields := by
  refine h.of_descriptors ?_ (fun _ _ => True.intro)
  rw [DynamicMessage.deduplicateDecodedMapFields, List.map_map]
  refine List.map_congr_left (fun entry _ => ?_)
  simp only [Function.comp]
  split <;> rfl

/-- Messages with the same contents satisfy the same of their entries. -/
theorem Stored.of_contents {a b : DynamicMessage}
    (ha : Stored (schemaFields descriptor) Q a.fields)
    (hb : Stored (schemaFields descriptor) P b.fields)
    (hnil : ∀ field, P { descriptor := field, values := [] }) (heq : a.contents = b.contents) :
    Stored (schemaFields descriptor) P a.fields := by
  refine ha.mono (fun entry he _ => ?_)
  have hvalues := congrFun heq entry.descriptor.number
  rw [DynamicMessage.contents, contentsOf_of_mem ha.apart he] at hvalues
  have hP := hb.contents hnil (ha.declared entry he)
  rw [← hvalues] at hP
  cases entry
  exact hP

end

section

variable {file : FileDescriptor} {current : MessageDescriptor}
variable {nested : DynamicMessage → Prop}

/-- The contents after one action, deduplicated, are those after its values have been added. -/
theorem contents_act (hplain : PlainOneofs file current) {a b : DynamicMessage}
    (ha : Stored (schemaFields current) SingularEntry a.fields)
    (hb : Stored (schemaFields current) SingularEntry b.fields)
    (heq : ∀ number, deduplicateAt current number (a.contents number) = b.contents number)
    {action : Action} (hd : action.Declared current)
    (hf : action.Fits nested file current) (number : Nat) :
    deduplicateAt current number ((a.act action).contents number)
      = (b.addPairs action.pairs).contents number := by
  cases action with
  | unknown unknown => exact heq number
  | add field value =>
      have hfield := (hf (field, value) (List.mem_singleton.mpr rfl)).1
      have hmap := hd.2
      have heqf := heq field.number
      rw [deduplicateAt_eq hfield, hmap, if_neg (by simp)] at heqf
      rw [DynamicMessage.act, Action.pairs, addPairs_cons, addPairs_nil, contents_add ha hfield,
        contents_add hb hfield, ← heqf]
      by_cases hn : number = field.number
      · subst hn
        rw [if_pos rfl, if_pos rfl, deduplicateAt_eq hfield, hmap, if_neg (by simp)]
      · rw [if_neg hn, if_neg hn]
        split
        · exact deduplicateAt_nil number
        · exact heq number
  | append field values =>
      have hfield := hd.1
      have hnone : ¬ displaces current field number := by
        rintro ⟨-, other, name, -, hname, -⟩
        have hs := (hplain field hfield (by rw [hname]; simp)).1
        rw [hd.2] at hs
        simp at hs
      rw [DynamicMessage.act, Action.pairs, addPairs_field, contents_addAll hfield number hb,
        DynamicMessage.contents]
      simp only [DynamicMessage.appendValues, contentsOf_updateOrCreate,
        contentsOf_leaveOneof ha, if_neg hnone]
      by_cases hn : number = field.number
      · subst hn
        have hself : ¬ displaces current field field.number := fun hc => hc.1 rfl
        have heqf := heq field.number
        rw [deduplicateAt_eq hfield] at heqf
        rw [if_pos rfl, if_pos rfl, if_neg hself, deduplicateAt_eq hfield, ← heqf]
        cases hm : field.kind.isMap with
        | true =>
            rw [if_pos rfl, if_pos rfl, deduplicateDecodedMapField_eq,
              deduplicateDecodedMapField_eq, List.foldl_append, foldl_storeValue_map hm,
              foldl_putMapEntry_eq]
            rfl
        | false =>
            rw [if_neg (by simp), if_neg (by simp), foldl_storeValue_repeated hm hd.2]
            rfl
      · rw [if_neg hn, if_neg hn, if_neg (fun hc => hnone hc.2)]
        exact heq number

/-- The values of some actions, each with its field. -/
def pairsOfActions (actions : List Action) : List (FieldDescriptor × Value) :=
  actions.flatMap Action.pairs

/-- The unknown fields of some actions. -/
def unknownOf (actions : List Action) : List UnknownField :=
  actions.flatMap (fun action =>
    match action with
    | .unknown unknown => unknown
    | _ => [])

theorem actAll_unknownFields (message : DynamicMessage) (actions : List Action) :
    (message.actAll actions).unknownFields = message.unknownFields ++ unknownOf actions := by
  have happend : ∀ (m : DynamicMessage) field values,
      (m.appendValues field values).unknownFields = m.unknownFields := by
    intro m field values
    simp only [DynamicMessage.appendValues, DynamicMessage.leaveOneof]
    cases field.oneofName <;> rfl
  induction actions generalizing message with
  | nil => simp [unknownOf]
  | cons action rest ih =>
      rw [DynamicMessage.actAll_cons, ih]
      cases action with
      | add field value => rw [DynamicMessage.act, add_unknownFields]; rfl
      | append field values => rw [DynamicMessage.act, happend]; rfl
      | unknown unknown => exact List.append_assoc _ _ _

theorem contents_actAll (hplain : PlainOneofs file current) (hmerge : MergeFits nested)
    {actions : List Action} :
    ∀ {a b : DynamicMessage}, Stored (schemaFields current) SingularEntry a.fields →
      MessageFits nested file b → b.descriptor = current →
      (∀ number, deduplicateAt current number (a.contents number) = b.contents number) →
      (∀ action ∈ actions, action.Declared current ∧ action.Fits nested file current) →
      ∀ number, deduplicateAt current number ((a.actAll actions).contents number)
        = (b.addPairs (pairsOfActions actions)).contents number := by
  induction actions with
  | nil => intro a b _ _ _ heq _ number; exact heq number
  | cons action rest ih =>
      intro a b ha hb hcurrent heq hf number
      obtain ⟨hd, hfit⟩ := hf action List.mem_cons_self
      have hsb := hb.stored.singular
      rw [hcurrent] at hsb
      rw [DynamicMessage.actAll_cons, pairsOfActions, List.flatMap_cons, addPairs_append]
      refine ih (ha.act (schemaFields_injOn current) (fun _ h => h) hd)
        (addPairs_fits hmerge hb (hcurrent ▸ hfit)) (by rw [addPairs_descriptor, hcurrent])
        (contents_act hplain ha hsb heq hd hfit) (fun a hm => hf a (List.mem_cons_of_mem _ hm))
        number

/-- The empty message of a declared type fits. -/
theorem init_fits (hc : DeclaredIn file current) :
    MessageFits nested file (.init current) := ⟨hc, Stored.nil⟩

/-- What the decoder makes of some actions. -/
def DynamicMessage.ofActions (current : MessageDescriptor) (actions : List Action) :
    DynamicMessage :=
  ((DynamicMessage.init current).actAll actions).deduplicateDecodedMapFields

@[simp] theorem ofActions_descriptor (current : MessageDescriptor) (actions : List Action) :
    (DynamicMessage.ofActions current actions).descriptor = current := actAll_descriptor _ _

theorem ofActions_unknownFields (current : MessageDescriptor) (actions : List Action) :
    (DynamicMessage.ofActions current actions).unknownFields = unknownOf actions :=
  (actAll_unknownFields _ _).trans (List.nil_append _)

/-- Actions on declared fields, with values that fit. -/
def ActionsFit (nested : DynamicMessage → Prop) (file : FileDescriptor)
    (current : MessageDescriptor) (actions : List Action) : Prop :=
  ∀ action ∈ actions, action.Declared current ∧ action.Fits nested file current

theorem pairsOfActions_fit {actions : List Action} (h : ActionsFit nested file current actions) :
    ∀ pair ∈ pairsOfActions actions, PairFits nested file current pair := by
  intro pair hp
  obtain ⟨action, ha, hp⟩ := List.mem_flatMap.mp hp
  exact (h action ha).2 pair hp

/-- The message that adding the values of the actions leaves. -/
theorem added_fits (hmerge : MergeFits nested) (hc : DeclaredIn file current)
    {actions : List Action} (h : ActionsFit nested file current actions) :
    MessageFits nested file ((DynamicMessage.init current).addPairs (pairsOfActions actions)) :=
  addPairs_fits hmerge (init_fits hc) (pairsOfActions_fit h)

theorem contents_ofActions (hplain : PlainOneofs file current) (hmerge : MergeFits nested)
    (hc : DeclaredIn file current) {actions : List Action}
    (h : ActionsFit nested file current actions) :
    (DynamicMessage.ofActions current actions).contents
      = ((DynamicMessage.init current).addPairs (pairsOfActions actions)).contents := by
  have hinit : Stored (schemaFields current) SingularEntry (DynamicMessage.init current).fields :=
    Stored.nil
  have hstored := hinit.actAll (schemaFields_injOn current) (fun _ h => h)
    (fun action ha => (h action ha).1)
  funext number
  rw [DynamicMessage.ofActions, contents_deduplicate hstored]
  exact contents_actAll hplain hmerge Stored.nil (init_fits hc) rfl
    (fun number => deduplicateAt_nil number) h number

theorem ofActions_fits (hplain : PlainOneofs file current) (hmerge : MergeFits nested)
    (hc : DeclaredIn file current) {actions : List Action}
    (h : ActionsFit nested file current actions) :
    MessageFits nested file (DynamicMessage.ofActions current actions) := by
  have hinit : Stored (schemaFields current) SingularEntry (DynamicMessage.init current).fields :=
    Stored.nil
  have hstored := hinit.actAll (schemaFields_injOn current) (fun _ h => h)
    (fun action ha => (h action ha).1)
  have hadded := (added_fits hmerge hc h).stored
  rw [addPairs_descriptor] at hadded
  refine ⟨by rw [ofActions_descriptor]; exact hc, ?_⟩
  rw [ofActions_descriptor]
  exact hstored.deduplicate.of_contents hadded (entryFits_nil _ _ _)
    (contents_ofActions hplain hmerge hc h)

/-! ## Actions one after the other -/

/-- An empty message adds nothing. -/
theorem mergeFrom_init (message : DynamicMessage) (descriptor : MessageDescriptor) :
    message.mergeFrom (.init descriptor) = message := by
  rw [DynamicMessage.mergeFrom_eq]
  cases message
  simp [DynamicMessage.init, DynamicMessage.mergeFields]

/-- Merging the message of some actions replays their values. -/
theorem senses_mergeFrom_ofActions (hplain : PlainOneofs file current) (hmerge : MergeFits nested)
    (hcongr : MergeCongr nested) (hassoc : MergeAssoc nested) (hc : DeclaredIn file current)
    {first second : List Action} (hfirst : ActionsFit nested file current first)
    (hsecond : ActionsFit nested file current second) :
    ((DynamicMessage.ofActions current first).mergeFrom
        (DynamicMessage.ofActions current second)).senses
      = (((DynamicMessage.init current).addPairs (pairsOfActions first)).addPairs
          (pairsOfActions second)).senses := by
  have haddedFirst := added_fits hmerge hc hfirst
  have hdescriptor := addPairs_descriptor (DynamicMessage.init current) (pairsOfActions first)
  have hreplay := senses_mergeFrom_addPairs hmerge hcongr hassoc haddedFirst
    (by rw [hdescriptor]; exact hplain) (init_fits hc) hdescriptor
    (by rw [hdescriptor]; exact pairsOfActions_fit hsecond)
  rw [mergeFrom_init] at hreplay
  have hA := (ofActions_fits hplain hmerge hc hfirst).stored.singular
  have hB := (ofActions_fits hplain hmerge hc hsecond).stored
  have hX := haddedFirst.stored.singular
  have hY := (added_fits hmerge hc hsecond).stored
  rw [ofActions_descriptor] at hA hB
  rw [addPairs_descriptor] at hX hY
  rw [← hreplay]
  funext number
  rw [DynamicMessage.senses, DynamicMessage.senses, contents_mergeFrom hA hB,
    contents_ofActions hplain hmerge hc hfirst, contents_ofActions hplain hmerge hc hsecond,
    contents_mergeFrom hX hY]
  rfl

/-- Doing some actions after others means merging the message of the later ones into that of the
earlier ones. -/
theorem meaning_ofActions_append (hplain : PlainOneofs file current) (hmerge : MergeFits nested)
    (hcongr : MergeCongr nested) (hassoc : MergeAssoc nested) (hc : DeclaredIn file current)
    {first second : List Action} (hfirst : ActionsFit nested file current first)
    (hsecond : ActionsFit nested file current second) :
    (DynamicMessage.ofActions current (first ++ second)).meaning
      = ((DynamicMessage.ofActions current first).mergeFrom
          (DynamicMessage.ofActions current second)).meaning := by
  have hboth : ActionsFit nested file current (first ++ second) := by
    intro action ha
    exact (List.mem_append.mp ha).elim (hfirst action) (hsecond action)
  have hfits := (ofActions_fits hplain hmerge hc hboth).stored
  have hmerged := (mergeFrom_fits hmerge (ofActions_fits hplain hmerge hc hfirst)
    (ofActions_fits hplain hmerge hc hsecond) (by simp)).stored
  rw [mergeFrom_descriptor, ofActions_descriptor] at hmerged
  rw [ofActions_descriptor] at hfits
  refine meaning_of_senses hfits hmerged ?_ ?_ ?_
  · rw [mergeFrom_descriptor, ofActions_descriptor, ofActions_descriptor]
  · rw [mergeFrom_unknownFields]
    simp only [ofActions_unknownFields, unknownOf, List.flatMap_append]
  · have hpairs : pairsOfActions (first ++ second)
        = pairsOfActions first ++ pairsOfActions second := List.flatMap_append
    rw [senses_mergeFrom_ofActions hplain hmerge hcongr hassoc hc hfirst hsecond,
      ← addPairs_append, ← hpairs]
    funext number
    rw [DynamicMessage.senses, DynamicMessage.senses, contents_ofActions hplain hmerge hc hboth]

end

/-! ## The decoder -/

theorem streamFits_nested {file : FileDescriptor}
    (hplain : ∀ current, DeclaredIn file current → PlainOneofs file current) (levels : Nat) :
    StreamFits (Fits file levels) file (nestedStream none levels) := by
  induction levels with
  | zero => intro stream h; simp [nestedStream] at h
  | succ levels ih =>
      intro stream hs descriptor hc endGroup input message rest h
      rw [nestedStream_succ, Option.some.injEq] at hs
      rw [← hs, decodeStream_eq] at h
      simp only [Prod.mk.injEq] at h
      rw [← h.1]
      refine ⟨actAll_descriptor _ _, ?_⟩
      have hread := readStream_fits ih hc endGroup input
      have hdeclared := @readStream_declared descriptor levels file endGroup input
      exact ofActions_fits (hplain descriptor hc) (mergeLaws hplain levels).1 hc
        (fun action ha => ⟨hdeclared action ha, hread action ha⟩)

/-- A decoded message is what its bytes are read as. -/
theorem decode_eq (message : DynamicMessage) (file : FileDescriptor) (bytes : Bytes) :
    message.decode file bytes
      = match readStream none recursionLimit file none message.descriptor bytes with
        | (actions, .error e) =>
            ((DynamicMessage.init message.descriptor).actAll actions, .error e)
        | (actions, .ok _) => (DynamicMessage.ofActions message.descriptor actions, .ok ()) := by
  rw [DynamicMessage.decode, DynamicMessage.decodeWithRegistry, decodeStream_eq,
    DynamicMessage.clear]
  rw [show (DynamicMessage.init message.descriptor).descriptor = message.descriptor from rfl]
  cases readStream none recursionLimit file none message.descriptor bytes with
  | mk actions result => cases result <;> rfl

theorem decode_eq_ok {message decoded : DynamicMessage} {file : FileDescriptor} {bytes : Bytes} :
    message.decode file bytes = (decoded, .ok ())
      ↔ ∃ actions rest, readStream none recursionLimit file none message.descriptor bytes
            = (actions, .ok rest)
          ∧ DynamicMessage.ofActions message.descriptor actions = decoded := by
  rw [decode_eq]
  cases readStream none recursionLimit file none message.descriptor bytes with
  | mk actions result =>
      cases result with
      | error e => simp
      | ok rest => simp [Prod.ext_iff]

def idField : FieldDescriptor :=
  { name := ascii "id", number := 1, kind := .scalar .int32, oneofName := some (ascii "key") }

def nameField : FieldDescriptor :=
  { name := ascii "name", number := 2, kind := .scalar .string, oneofName := some (ascii "key") }

def detailField : FieldDescriptor :=
  { name := ascii "detail", number := 3, kind := .message (ascii "Record") }

/-- A message type with a oneof, which refers to itself. -/
def recordDescriptor : MessageDescriptor :=
  { name := ascii "Record", fields := [idField, nameField, detailField],
    oneofs := [{ name := ascii "key" }] }

def recordFile : FileDescriptor := { fileSyntax := .proto3, messages := [recordDescriptor] }

theorem declaredIn_recordFile {current : MessageDescriptor} (h : DeclaredIn recordFile current) :
    current = recordDescriptor := by
  induction h with
  | top h => exact List.mem_singleton.mp h
  | nested _ hm ih => rw [ih] at hm; simp [recordDescriptor] at hm

theorem plainOneofs_record : PlainOneofs recordFile recordDescriptor := by
  intro field hf hname
  have hm := mem_fields_of_schemaFields hf
  simp only [recordDescriptor, List.mem_cons, List.not_mem_nil, or_false] at hm
  rcases hm with rfl | rfl | rfl
  · exact ⟨rfl, rfl⟩
  · exact ⟨rfl, rfl⟩
  · exact absurd rfl hname

end Pbz
