import Pbz.Lib.Dotted
import Pbz.Wkt.Payload

set_option autoImplicit false

/-! # Field masks in JSON

The paths of a field mask are written in snake case. In JSON they stand in lower camel case, with
commas between them. A path is checked before it is written and after it has been read.
-/

namespace Pbz

namespace Wkt

structure FieldMask where
  paths : List Bytes
  deriving DecidableEq, Repr

namespace FieldMask

def isLower (c : UInt8) : Bool := 0x61 ≤ c && c ≤ 0x7a

/-- The loop of `validateFieldMaskPath`. -/
def validatePathFrom : Bool → Bool → Bytes → Except WktStop Unit
  | lastWasDot, lastWasUnderscore, [] =>
      if lastWasDot || lastWasUnderscore then .error (.error .invalidFieldMask) else .ok ()
  | lastWasDot, lastWasUnderscore, c :: rest =>
      if c == 0x2e then
        if lastWasDot || lastWasUnderscore then .error (.error .invalidFieldMask)
        else validatePathFrom true false rest
      else if c == 0x5f then
        if lastWasDot || lastWasUnderscore then .error (.error .invalidFieldMask)
        else validatePathFrom lastWasDot true rest
      else if isUpper c then .error (.error .invalidFieldMask)
      else if lastWasDot && !isLower c then .error (.error .invalidFieldMask)
      else if lastWasUnderscore && !isLower c then .error (.error .invalidFieldMask)
      else if !(isLower c || isDigit c) then .error (.error .invalidFieldMask)
      else validatePathFrom false false rest

def validateFieldMaskPath (path : Bytes) : Except WktStop Unit :=
  if path.length == 0 then .error (.error .invalidFieldMask) else validatePathFrom true false path

def validatePaths : List Bytes → Except WktStop Unit
  | [] => .ok ()
  | path :: rest => do
      validateFieldMaskPath path
      validatePaths rest

def validate (self : FieldMask) : Except WktStop Unit := validatePaths self.paths

/-! ## Printing -/

/-- The loop of `writeLowerCamelPath`. -/
def writeLowerCamelFrom : Bool → Bytes → Bytes
  | _, [] => []
  | upperNext, c :: rest =>
      if c == 0x5f then writeLowerCamelFrom true rest
      else if upperNext then toUpper c :: writeLowerCamelFrom false rest
      else c :: writeLowerCamelFrom upperNext rest

def writeLowerCamelPath (path : Bytes) : Bytes := writeLowerCamelFrom false path

/-- The paths from an index on. -/
def writePaths : Nat → List Bytes → Bytes
  | _, [] => []
  | index, path :: rest =>
      (if index != 0 then [0x2c] else []) ++ (writeLowerCamelPath path ++ writePaths (index + 1) rest)

def jsonStringify (self : FieldMask) : Except WktStop Bytes := do
  self.validate
  return 0x22 :: (writePaths 0 self.paths ++ [0x22])

/-! ## Reading -/

/-- The loop of `lowerCamelToSnake`. -/
def lowerCamelToSnakeFrom : Bool → Bytes → Bytes → Except WktStop Bytes
  | lastWasDot, out, [] =>
      if lastWasDot then .error (.error .invalidFieldMask) else .ok out
  | lastWasDot, out, c :: rest =>
      if c == 0x5f then .error (.error .invalidFieldMask)
      else if c == 0x2e then
        if lastWasDot then .error (.error .invalidFieldMask)
        else lowerCamelToSnakeFrom true (out ++ [c]) rest
      else if isUpper c then
        if lastWasDot then .error (.error .invalidFieldMask)
        else
          let out := if !lastWasDot && out.length != 0 then out ++ [0x5f] else out
          lowerCamelToSnakeFrom false (out ++ [toLower c]) rest
      else if isLower c || isDigit c then
        if lastWasDot && !isLower c then .error (.error .invalidFieldMask)
        else lowerCamelToSnakeFrom false (out ++ [c]) rest
      else .error (.error .invalidFieldMask)

def lowerCamelToSnake (text : Bytes) : Except WktStop Bytes := lowerCamelToSnakeFrom true [] text

/-- The loop over the parts between the commas. -/
def parsePaths : List Bytes → Except WktStop (List Bytes)
  | [] => .ok []
  | part :: rest =>
      if part.length == 0 then .error (.error .invalidFieldMask)
      else do
        let path ← lowerCamelToSnake part
        validateFieldMaskPath path
        let paths ← parsePaths rest
        return path :: paths

def parsePayload (unquoted : Bytes) : Except WktStop (List Bytes) :=
  if unquoted.length == 0 then .ok [] else parsePaths (unquoted.splitOn 0x2c)

def jsonParse (text : Bytes) : Except WktStop (List Bytes) := do
  let unquoted ← jsonStringPayload .invalidFieldMask text
  parsePayload unquoted

/-! ## The two spellings -/

/-- A path beside its spelling in lower camel case. The flag says that a letter must come next. -/
inductive CamelCase : Bool → Bytes → Bytes → Prop where
  | nil : CamelCase false [] []
  | lower {start : Bool} {c : UInt8} {path text : Bytes} (hc : isLower c = true)
      (h : CamelCase false path text) : CamelCase start (c :: path) (c :: text)
  | digit {c : UInt8} {path text : Bytes} (hc : isDigit c = true)
      (h : CamelCase false path text) : CamelCase false (c :: path) (c :: text)
  | dot {path text : Bytes} (h : CamelCase true path text) :
      CamelCase false (0x2e :: path) (0x2e :: text)
  | word {c : UInt8} {path text : Bytes} (hc : isLower c = true)
      (h : CamelCase false path text) : CamelCase false (0x5f :: c :: path) (toUpper c :: text)

/-- What a small letter is not, and what its capital is. -/
theorem isLower_facts : ∀ c : UInt8, isLower c = true →
    c ≠ 0x2e ∧ c ≠ 0x5f ∧ isUpper c = false ∧ c ≠ 0x2c ∧ c ≠ 0x5c
      ∧ toUpper c ≠ 0x2e ∧ toUpper c ≠ 0x5f ∧ isUpper (toUpper c) = true
      ∧ toLower (toUpper c) = c ∧ toUpper c ≠ 0x2c ∧ toUpper c ≠ 0x5c := by
  have hletter : ∀ c : UInt8, isLower c = true →
      c ≠ 0x2e ∧ c ≠ 0x5f ∧ isUpper c = false ∧ c ≠ 0x2c ∧ c ≠ 0x5c := forall_byte (by decide)
  have hcapital : ∀ c : UInt8, isLower c = true →
      toUpper c ≠ 0x2e ∧ toUpper c ≠ 0x5f ∧ isUpper (toUpper c) = true :=
    forall_byte (by decide)
  have hback : ∀ c : UInt8, isLower c = true →
      toLower (toUpper c) = c ∧ toUpper c ≠ 0x2c ∧ toUpper c ≠ 0x5c := forall_byte (by decide)
  intro c hc
  obtain ⟨hdot, hunderscore, hupper, hcomma, hslash⟩ := hletter c hc
  obtain ⟨hdot', hunderscore', hupper'⟩ := hcapital c hc
  exact ⟨hdot, hunderscore, hupper, hcomma, hslash, hdot', hunderscore', hupper', hback c hc⟩

theorem isDigit_facts : ∀ c : UInt8, isDigit c = true →
    c ≠ 0x2e ∧ c ≠ 0x5f ∧ isUpper c = false ∧ c ≠ 0x2c ∧ c ≠ 0x5c ∧ isLower c = false := by
  have hcase : ∀ c : UInt8, isDigit c = true → isUpper c = false ∧ isLower c = false :=
    forall_byte (by decide)
  have hsign : ∀ c : UInt8, isDigit c = true → c ≠ 0x2e ∧ c ≠ 0x5f ∧ c ≠ 0x2c ∧ c ≠ 0x5c :=
    forall_byte (by decide)
  intro c hc
  obtain ⟨hupper, hlower⟩ := hcase c hc
  obtain ⟨hdot, hunderscore, hcomma, hslash⟩ := hsign c hc
  exact ⟨hdot, hunderscore, hupper, hcomma, hslash, hlower⟩

theorem isUpper_facts : ∀ c : UInt8, isUpper c = true →
    isLower (toLower c) = true ∧ toUpper (toLower c) = c :=
  forall_byte (by decide)

variable {start : Bool} {path text : Bytes}

/-! ## The writer -/

theorem CamelCase.validatePathFrom (h : CamelCase start path text) :
    validatePathFrom start false path = .ok () := by
  induction h with
  | nil => rfl
  | @lower start c path text hc h ih =>
      obtain ⟨hdot, hunderscore, hupper, -⟩ := isLower_facts c hc
      simp [FieldMask.validatePathFrom, hdot, hunderscore, hupper, hc, ih]
  | @digit c path text hc h ih =>
      obtain ⟨hdot, hunderscore, hupper, -⟩ := isDigit_facts c hc
      simp [FieldMask.validatePathFrom, hdot, hunderscore, hupper, hc, ih]
  | dot h ih => exact ih
  | @word c path text hc h ih =>
      obtain ⟨hdot, hunderscore, hupper, -⟩ := isLower_facts c hc
      simp [FieldMask.validatePathFrom, hdot, hunderscore, hupper, hc, ih]

theorem CamelCase.writeLowerCamelFrom (h : CamelCase start path text) :
    writeLowerCamelFrom false path = text := by
  induction h with
  | nil => rfl
  | @lower start c path text hc h ih =>
      obtain ⟨-, hunderscore, -⟩ := isLower_facts c hc
      simp [FieldMask.writeLowerCamelFrom, hunderscore, ih]
  | @digit c path text hc h ih =>
      obtain ⟨-, hunderscore, -⟩ := isDigit_facts c hc
      simp [FieldMask.writeLowerCamelFrom, hunderscore, ih]
  | dot h ih => exact congrArg (0x2e :: ·) ih
  | @word c path text hc h ih =>
      obtain ⟨-, hunderscore, -⟩ := isLower_facts c hc
      simp [FieldMask.writeLowerCamelFrom, hunderscore, ih]

/-- The path with the underscore that has been read in front of it, if there is one. -/
def pending (underscore : Bool) (path : Bytes) : Bytes :=
  if underscore then 0x5f :: path else path

/-- A path that is checked has a spelling, which the writer prints. -/
theorem camelCase_of_validatePathFrom {underscore : Bool}
    (hstart : underscore = true → start = false)
    (h : validatePathFrom start underscore path = .ok ()) :
    CamelCase start (pending underscore path) (writeLowerCamelFrom underscore path) := by
  induction path generalizing start underscore with
  | nil =>
      cases start with
      | true => cases underscore <;> cases h
      | false =>
          cases underscore with
          | true => cases h
          | false => exact .nil
  | cons c rest ih =>
      rw [FieldMask.validatePathFrom] at h
      split_ifs at h with hdot hflags hunderscore hflagsUnderscore hupper hstartLower hwordLower hother
      · -- a dot, behind a letter or a digit
        obtain ⟨rfl, rfl⟩ : start = false ∧ underscore = false := by simpa using hflags
        obtain rfl : c = 0x2e := beq_iff_eq.mp hdot
        exact .dot (ih (fun h => by cases h) h)
      · -- an underscore, which stays pending
        obtain ⟨rfl, rfl⟩ : start = false ∧ underscore = false := by simpa using hflagsUnderscore
        obtain rfl : c = 0x5f := beq_iff_eq.mp hunderscore
        exact ih (fun _ => rfl) h
      · have hrest := ih (fun h => by cases h) h
        have hprint : writeLowerCamelFrom underscore (c :: rest)
            = (if underscore then toUpper c else c) :: writeLowerCamelFrom false rest := by
          rw [FieldMask.writeLowerCamelFrom, if_neg hunderscore]
          cases underscore <;> rfl
        rw [hprint]
        by_cases hlower : isLower c = true
        · cases underscore with
          | true =>
              obtain rfl := hstart rfl
              exact .word hlower hrest
          | false => exact .lower hlower hrest
        · have hnot : isLower c = false := Bool.not_eq_true _ ▸ hlower
          obtain rfl : start = false := by simpa [hnot] using hstartLower
          obtain rfl : underscore = false := by simpa [hnot] using hwordLower
          have hdigit : isDigit c = true := by simpa [hnot] using hother
          exact .digit hdigit hrest

theorem validateFieldMaskPath_iff :
    validateFieldMaskPath path = .ok () ↔ CamelCase true path (writeLowerCamelPath path) := by
  constructor
  · intro h
    rw [validateFieldMaskPath] at h
    split_ifs at h
    exact camelCase_of_validatePathFrom (fun h => by cases h) h
  · intro h
    have hne : ¬ (path.length == 0) = true := by
      rintro hzero
      obtain rfl : path = [] := by simpa using hzero
      cases h
    rw [validateFieldMaskPath, if_neg hne]
    exact h.validatePathFrom

/-! ## The reader -/

/-- The characters read so far are not empty when none has to be a letter. -/
theorem CamelCase.lowerCamelToSnakeFrom (h : CamelCase start path text) {out : Bytes}
    (hout : start = false → out ≠ []) :
    lowerCamelToSnakeFrom start out text = .ok (out ++ path) := by
  induction h generalizing out with
  | nil => exact congrArg Except.ok (List.append_nil out).symm
  | @lower start c path text hc h ih =>
      obtain ⟨hdot, hunderscore, hupper, -⟩ := isLower_facts c hc
      have hrest : FieldMask.lowerCamelToSnakeFrom false (out ++ [c]) _ = .ok (out ++ [c] ++ _) :=
        ih (fun _ => by simp)
      simp [FieldMask.lowerCamelToSnakeFrom, hdot, hunderscore, hupper, hc, hrest]
  | @digit c path text hc h ih =>
      obtain ⟨hdot, hunderscore, hupper, -⟩ := isDigit_facts c hc
      have hrest : FieldMask.lowerCamelToSnakeFrom false (out ++ [c]) _ = .ok (out ++ [c] ++ _) :=
        ih (fun _ => by simp)
      simp [FieldMask.lowerCamelToSnakeFrom, hdot, hunderscore, hupper, hc, hrest]
  | dot h ih =>
      have hrest : FieldMask.lowerCamelToSnakeFrom true (out ++ [0x2e]) _ = .ok (out ++ [0x2e] ++ _) :=
        ih (fun _ => by simp)
      simp [FieldMask.lowerCamelToSnakeFrom, hrest]
  | @word c path text hc h ih =>
      obtain ⟨-, -, -, -, -, hdot, hunderscore, hupper, hback, -⟩ := isLower_facts c hc
      have hrest : FieldMask.lowerCamelToSnakeFrom false (out ++ [0x5f] ++ [c]) _ = .ok (out ++ [0x5f] ++ [c] ++ _) :=
        ih (fun _ => by simp)
      have hnonempty : out ≠ [] := hout rfl
      simp [FieldMask.lowerCamelToSnakeFrom, hdot, hunderscore, hupper, hback, hnonempty] at hrest ⊢
      exact hrest

theorem camelCase_of_lowerCamelToSnakeFrom {out result : Bytes} (hout : start = false → out ≠ [])
    (h : lowerCamelToSnakeFrom start out text = .ok result) :
    ∃ path, CamelCase start path text ∧ result = out ++ path := by
  induction text generalizing start out with
  | nil =>
      rw [FieldMask.lowerCamelToSnakeFrom] at h
      split_ifs at h with hstart
      obtain rfl : start = false := by simpa using hstart
      exact ⟨[], .nil, by rw [List.append_nil]; exact (Except.ok.inj h).symm⟩
  | cons c rest ih =>
      rw [FieldMask.lowerCamelToSnakeFrom] at h
      split_ifs at h with hunderscore hdot hstart hupper hstartUpper hlength hchar hstartDigit
      · obtain rfl : start = false := by simpa using hstart
        obtain rfl : c = 0x2e := beq_iff_eq.mp hdot
        obtain ⟨path, hpath, rfl⟩ := ih (fun h => by cases h) h
        exact ⟨_, .dot hpath, by simp⟩
      · obtain rfl : start = false := by simpa using hstartUpper
        obtain ⟨hlower, hback⟩ := isUpper_facts c hupper
        obtain ⟨path, hpath, rfl⟩ := ih (fun _ => by simp) h
        have hword := CamelCase.word hlower hpath
        rw [hback] at hword
        exact ⟨_, hword, by simp⟩
      · -- behind a letter or a digit the underscore is never left out
        obtain rfl : start = false := by simpa using hstartUpper
        exact absurd hlength (by simpa using hout rfl)
      · obtain ⟨path, hpath, rfl⟩ := ih (fun _ => by simp) h
        by_cases hlower : isLower c = true
        · exact ⟨_, .lower hlower hpath, by simp⟩
        · have hnot : isLower c = false := Bool.not_eq_true _ ▸ hlower
          obtain rfl : start = false := by simpa [hnot] using hstartDigit
          have hdigit : isDigit c = true := by simpa [hnot] using hchar
          exact ⟨_, .digit hdigit hpath, by simp⟩

theorem lowerCamelToSnake_iff :
    lowerCamelToSnake text = .ok path ↔ CamelCase true path text := by
  constructor
  · intro h
    obtain ⟨other, hother, rfl⟩ := camelCase_of_lowerCamelToSnakeFrom (fun h => by cases h) h
    exact hother
  · intro h
    exact h.lowerCamelToSnakeFrom (fun h => by cases h)

/-! ## Lists of paths -/

theorem CamelCase.notMem (h : CamelCase start path text) : 0x2c ∉ text ∧ 0x5c ∉ text := by
  induction h with
  | nil => exact ⟨List.not_mem_nil, List.not_mem_nil⟩
  | @lower start c path text hc h ih =>
      obtain ⟨-, -, -, hcomma, hslash, -⟩ := isLower_facts c hc
      exact ⟨List.not_mem_cons_of_ne_of_not_mem hcomma.symm ih.1, List.not_mem_cons_of_ne_of_not_mem hslash.symm ih.2⟩
  | @digit c path text hc h ih =>
      obtain ⟨-, -, -, hcomma, hslash, -⟩ := isDigit_facts c hc
      exact ⟨List.not_mem_cons_of_ne_of_not_mem hcomma.symm ih.1, List.not_mem_cons_of_ne_of_not_mem hslash.symm ih.2⟩
  | dot h ih =>
      exact ⟨List.not_mem_cons_of_ne_of_not_mem (by decide) ih.1, List.not_mem_cons_of_ne_of_not_mem (by decide) ih.2⟩
  | @word c path text hc h ih =>
      obtain ⟨-, -, -, -, -, -, -, -, -, hcomma, hslash⟩ := isLower_facts c hc
      exact ⟨List.not_mem_cons_of_ne_of_not_mem hcomma.symm ih.1, List.not_mem_cons_of_ne_of_not_mem hslash.symm ih.2⟩

theorem CamelCase.text_ne_nil (h : CamelCase true path text) : text ≠ [] := by
  cases h with
  | lower hc h => exact List.cons_ne_nil _ _

/-- The paths beside their spellings. -/
def Spelled (paths texts : List Bytes) : Prop := List.Forall₂ (CamelCase true) paths texts

variable {paths texts : List Bytes}

theorem Spelled.isPath (h : Spelled paths texts) : Dotted.IsPath 0x2c texts := by
  induction h with
  | nil => exact fun part hpart => absurd hpart List.not_mem_nil
  | cons hpath h ih =>
      exact List.forall_mem_cons.mpr ⟨⟨hpath.text_ne_nil, hpath.notMem.1⟩, ih⟩

theorem Spelled.not_mem_backslash (h : Spelled paths texts) :
    0x5c ∉ Dotted.joined 0x2c texts := by
  induction h with
  | nil => exact List.not_mem_nil
  | @cons path text paths texts hpath h ih =>
      cases texts with
      | nil =>
          rw [Dotted.joined_singleton]
          exact hpath.notMem.2
      | cons next more =>
          rw [Dotted.joined_cons (List.cons_ne_nil next more), List.mem_append, List.mem_cons]
          rintro (hmem | hcomma | hmem)
          · exact hpath.notMem.2 hmem
          · exact absurd hcomma (by decide)
          · exact ih hmem

/-- The paths that are checked have one spelling, which the writer prints. -/
theorem spelled_iff :
    Spelled paths texts ↔ validatePaths paths = .ok () ∧ texts = paths.map writeLowerCamelPath := by
  constructor
  · intro h
    induction h with
    | nil => exact ⟨rfl, rfl⟩
    | @cons path text paths texts hpath h ih =>
        obtain ⟨hvalid, htexts⟩ := ih
        have htext : writeLowerCamelPath path = text := hpath.writeLowerCamelFrom
        have hcheck : validateFieldMaskPath path = .ok () :=
          validateFieldMaskPath_iff.mpr (htext.symm ▸ hpath)
        exact ⟨by rw [validatePaths, hcheck]; exact hvalid, by rw [List.map_cons, htext, htexts]⟩
  · rintro ⟨hvalid, rfl⟩
    induction paths with
    | nil => exact .nil
    | cons path rest ih =>
        rw [validatePaths] at hvalid
        cases hcheck : validateFieldMaskPath path with
        | error e =>
            rw [hcheck] at hvalid
            cases hvalid
        | ok checked =>
            rw [hcheck] at hvalid
            exact .cons (validateFieldMaskPath_iff.mp hcheck) (ih hvalid)

theorem writePaths_succ (index : Nat) (h : paths ≠ []) :
    writePaths (index + 1) paths = 0x2c :: Dotted.joined 0x2c (paths.map writeLowerCamelPath) := by
  induction paths generalizing index with
  | nil => exact absurd rfl h
  | cons path rest ih =>
      have hindex : (index + 1 != 0) = true := by simp
      rw [writePaths, if_pos hindex]
      cases rest with
      | nil => simp [writePaths]
      | cons next more =>
          have hmap : (next :: more).map writeLowerCamelPath ≠ [] := List.cons_ne_nil _ _
          rw [ih (index + 1) (List.cons_ne_nil next more), List.map_cons (l := next :: more),
            Dotted.joined_cons hmap]
          rfl

theorem writePaths_eq (paths : List Bytes) :
    writePaths 0 paths = Dotted.joined 0x2c (paths.map writeLowerCamelPath) := by
  cases paths with
  | nil => rfl
  | cons path rest =>
      cases rest with
      | nil => simp [writePaths]
      | cons next more =>
          have hmap : (next :: more).map writeLowerCamelPath ≠ [] := List.cons_ne_nil _ _
          rw [writePaths, writePaths_succ 0 (List.cons_ne_nil next more),
            List.map_cons (l := next :: more), Dotted.joined_cons hmap]
          rfl

theorem parsePaths_iff : parsePaths texts = .ok paths ↔ Spelled paths texts := by
  constructor
  · intro h
    induction texts generalizing paths with
    | nil =>
        obtain rfl : [] = paths := Except.ok.inj h
        exact .nil
    | cons part rest ih =>
        rw [parsePaths] at h
        split_ifs at h
        cases hpath : lowerCamelToSnake part with
        | error e =>
            rw [hpath] at h
            cases h
        | ok path =>
            cases hcheck : validateFieldMaskPath path with
            | error e =>
                simp only [hpath, hcheck, Bind.bind, Except.bind] at h
                cases h
            | ok checked =>
                cases hmore : parsePaths rest with
                | error e =>
                    simp only [hpath, hcheck, hmore, Bind.bind, Except.bind] at h
                    cases h
                | ok more =>
                    simp only [hpath, hcheck, hmore, Bind.bind, Except.bind] at h
                    obtain rfl : path :: more = paths := Except.ok.inj h
                    exact .cons (lowerCamelToSnake_iff.mp hpath) (ih hmore)
  · intro h
    induction h with
    | nil => rfl
    | @cons path text paths texts hpath h ih =>
        have hne : ¬ (text.length == 0) = true := by simpa using hpath.text_ne_nil
        have htext : writeLowerCamelPath path = text := hpath.writeLowerCamelFrom
        have hcheck : validateFieldMaskPath path = .ok () :=
          validateFieldMaskPath_iff.mpr (htext.symm ▸ hpath)
        rw [parsePaths, if_neg hne]
        simp only [lowerCamelToSnake_iff.mpr hpath, hcheck, ih, Bind.bind, Except.bind]
        rfl

/-! ## The bijection -/

theorem jsonStringify_iff {self : FieldMask} {out : Bytes} :
    self.jsonStringify = .ok out ↔
      ∃ texts, Spelled self.paths texts ∧ out = 0x22 :: (Dotted.joined 0x2c texts ++ [0x22]) := by
  constructor
  · intro h
    cases hvalid : validatePaths self.paths with
    | error e =>
        rw [jsonStringify, validate, hvalid] at h
        cases h
    | ok checked =>
        rw [jsonStringify, validate, hvalid] at h
        refine ⟨_, spelled_iff.mpr ⟨hvalid, rfl⟩, ?_⟩
        rw [← writePaths_eq]
        exact (Except.ok.inj h).symm
  · rintro ⟨texts, h, rfl⟩
    obtain ⟨hvalid, rfl⟩ := spelled_iff.mp h
    rw [jsonStringify, validate, hvalid, ← writePaths_eq]
    rfl

theorem parsePayload_iff {payload : Bytes} :
    parsePayload payload = .ok paths ↔
      ∃ texts, Spelled paths texts ∧ payload = Dotted.joined 0x2c texts := by
  constructor
  · intro h
    rw [parsePayload] at h
    split_ifs at h with hempty
    · obtain rfl : [] = paths := Except.ok.inj h
      exact ⟨[], .nil, by simpa using hempty⟩
    · exact ⟨_, parsePaths_iff.mp h, (Dotted.joined_splitOn payload).symm⟩
  · rintro ⟨texts, h, rfl⟩
    cases texts with
    | nil =>
        cases h
        rfl
    | cons text more =>
        have hne := Dotted.joined_ne_nil h.isPath (List.cons_ne_nil text more)
        rw [parsePayload, if_neg (by simpa using hne),
          Dotted.splitOn_joined h.isPath (List.cons_ne_nil text more)]
        exact parsePaths_iff.mpr h

/-- What is printed for a list of paths is read as that list, and what is read from a quoted text
without escapes is printed as that text. -/
theorem jsonParse_bijection :
    (∀ (self : FieldMask) (text : Bytes), self.jsonStringify = .ok text →
        jsonParse text = .ok self.paths)
      ∧ ∀ (payload : Bytes) (paths : List Bytes), 0x5c ∉ payload →
        jsonParse (0x22 :: (payload ++ [0x22])) = .ok paths →
        (FieldMask.mk paths).jsonStringify = .ok (0x22 :: (payload ++ [0x22])) := by
  constructor
  · intro self text h
    obtain ⟨texts, hspelled, rfl⟩ := jsonStringify_iff.mp h
    rw [jsonParse, jsonStringPayload_quoted .invalidFieldMask hspelled.not_mem_backslash]
    exact parsePayload_iff.mpr ⟨texts, hspelled, rfl⟩
  · intro payload paths hslash h
    rw [jsonParse, jsonStringPayload_quoted .invalidFieldMask hslash] at h
    obtain ⟨texts, hspelled, rfl⟩ := parsePayload_iff.mp h
    exact jsonStringify_iff.mpr ⟨texts, hspelled, rfl⟩

/-- Two paths, one of them with a dot. -/
theorem jsonParse_bijection_dotted :
    jsonParse (ascii "\"fooBar,baz.quxValue\"") = .ok [ascii "foo_bar", ascii "baz.qux_value"]
      ∧ (FieldMask.mk [ascii "foo_bar", ascii "baz.qux_value"]).jsonStringify
        = .ok (0x22 :: (ascii "fooBar,baz.quxValue" ++ [0x22])) :=
  ⟨jsonParse_bijection.1 ⟨[ascii "foo_bar", ascii "baz.qux_value"]⟩ _ (by decide),
    jsonParse_bijection.2 (ascii "fooBar,baz.quxValue") _ (by decide) (by decide)⟩

end FieldMask

end Wkt

end Pbz
