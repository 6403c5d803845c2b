import Cookbook.Lib.PrefixCode
import Cookbook.ModSecurity.Arguments.Parse
import Cookbook.ModSecurity.Multipart.Init

/-!
# An urlencoded body from the parts of a multipart one

`multipart_reconstruct_urlencoded_body_sanitize` writes the names and values
of the form parts into one buffer, for the audit log.  It computes the size of
the buffer first.
-/

namespace Cookbook.ModSecurity.Arguments

open Cookbook.Lib
open Cookbook.Lib.Bits Cookbook.Lib.CText
open Cookbook.ModSecurity.Multipart hiding Bytes
open Cookbook.ModSecurity.Text

def strlen (text : Bytes) : Nat :=
  (cString text).length

def strncat (destination source : Bytes) (count : Nat) : Bytes :=
  destination ++ (cString source).take count

def urlPlain (c : UInt8) : Bool :=
  c = 42 || (48 ≤ c && c ≤ 57) || (65 ≤ c && c ≤ 90) || (97 ≤ c && c ≤ 122)

def strnurlencat (destination : Bytes) : Bytes → Nat → Bytes
  | [], _ => destination
  | c :: source, maxlen =>
    if c = 0 ∨ maxlen = 0 then destination
    else if c = 0x20 then
      strnurlencat (destination ++ [0x2b]) source (maxlen - 1)
    else if urlPlain c then
      strnurlencat (destination ++ [c]) source (maxlen - 1)
    else if maxlen ≥ 3 then
      strnurlencat (destination ++ 0x25 :: c2x c) source (maxlen - 3)
    else
      -- the encoded byte is ignored, and all that follow it
      strnurlencat destination source 0

def phaseLogging : Nat := 5

/-- The size of the buffer with another part; `none` is a read through a null
pointer. -/
def addBodyLen (bodyLen : Nat) (part : MultipartPart) : Option Nat :=
  match part.type with
  | .file => some bodyLen
  | .formData => do
      let name ← part.name
      let value ← part.value
      let bodyLen := addUnsigned bodyLen 4
      let bodyLen := addUnsigned bodyLen (strlen name * 3)
      return addUnsigned bodyLen (strlen value * 3)

section

variable (phase : Nat) (argumentsToSanitize : AprTable MscArg)
  (bodyLen : Nat)

/-- A value behind the sanitising step: `memset` writes over the string, in
the part. -/
def sanitizeValue (name value : Bytes) : Bytes :=
  if phase ≥ phaseLogging ∧
      (argumentsToSanitize.get (cString name)).isSome then
    List.replicate (strlen value) 0x2a ++ value.drop (strlen value)
  else value

def catField (body name value : Bytes) : Bytes :=
  let body :=
    if body ≠ [] then strncat body [0x26] (subSize bodyLen body.length)
    else body
  let body := strnurlencat body name (unsigned (subSize bodyLen body.length))
  let body := strncat body [0x3d] (subSize bodyLen body.length)
  strnurlencat body value (unsigned (subSize bodyLen body.length))

def catPart (state : Bytes × List MultipartPart) (part : MultipartPart) :
    Option (Bytes × List MultipartPart) :=
  match part.type with
  | .file => some (state.1, state.2 ++ [part])
  | .formData => do
      let name ← part.name
      let value ← part.value
      let sanitized := sanitizeValue phase argumentsToSanitize name value
      let body := catField bodyLen state.1 name sanitized
      return (body, state.2 ++ [{ part with value := some sanitized }])

end

/-- `multipart_reconstruct_urlencoded_body_sanitize`: the string, if there is
one, and the parts as they are left.  `none` is a read through a null
pointer. -/
def multipartReconstructUrlencodedBodySanitize (phase : Nat)
    (argumentsToSanitize : AprTable MscArg) (mpd : Option MultipartData) :
    Option (Option Bytes × Option MultipartData) :=
  match mpd with
  | none => some (none, none)
  | some data => do
      let bodyLen ← data.parts.foldlM addBodyLen 1
      if addUnsigned bodyLen 1 = 0 then
        return (none, some data)
      else
        let (body, parts) ←
          data.parts.foldlM (catPart phase argumentsToSanitize bodyLen) ([], [])
        return (some body, some { data with parts := parts })

def urlWord (c : UInt8) : Bytes :=
  if c = 0x20 then [0x2b] else if urlPlain c then [c] else 0x25 :: c2x c

def urlEncode (text : Bytes) : Bytes := text.flatMap urlWord

def formFields (parts : List MultipartPart) : List (Bytes × Bytes) :=
  parts.filterMap fun part =>
    match part.type with
    | .file => none
    | .formData => some (part.name.getD [], part.value.getD [])

def encodeField (field : Bytes × Bytes) : Bytes :=
  urlEncode field.1 ++ 0x3d :: urlEncode field.2

def encodedLength (fields : List (Bytes × Bytes)) : Nat :=
  ([0x26].intercalate (fields.map encodeField)).length

/-- The size that the first pass adds up, before it is cut to an
`unsigned int`. -/
def sizedLength (fields : List (Bytes × Bytes)) : Nat :=
  1 + (fields.map fun (name, value) =>
    4 + name.length * 3 + value.length * 3).sum

/-- Encoded fields in a bounded room.  A name or value stops at the first word
that does not fit, and a separator is left out when there is no room. -/
def writeFields : Nat → List (Bytes × Bytes) → Bytes
  | _, [] => []
  | room, (name, value) :: rest =>
    let name := urlEncode (PrefixCode.fitting urlWord room name)
    if room ≤ name.length then name
    else
      let value := urlEncode
          (PrefixCode.fitting urlWord (room - name.length - 1) value)
      let room := room - name.length - 1 - value.length
      name ++ 0x3d :: value ++ if rest = [] ∨ room = 0 then []
        else 0x26 :: writeFields (room - 1) rest

def writeMore (room : Nat) (fields : List (Bytes × Bytes)) : Bytes :=
  if fields = [] ∨ room = 0 then [] else 0x26 :: writeFields (room - 1) fields

theorem length_urlWord (c : UInt8) :
    (urlWord c).length = if c = 0x20 ∨ urlPlain c = true then 1 else 3 := by
  unfold urlWord
  by_cases space : c = 0x20
  · rw [if_pos space, if_pos (Or.inl space)]
    rfl
  · rw [if_neg space]
    by_cases plain : urlPlain c = true
    · rw [if_pos plain, if_pos (Or.inr plain)]
      rfl
    · rw [if_neg plain, if_neg (by simp [space, plain])]
      rfl

theorem strnurlencat_zero (destination source : Bytes) :
    strnurlencat destination source 0 = destination := by
  cases source with
  | nil => rfl
  | cons c source => rw [strnurlencat, if_pos (Or.inr rfl)]

theorem strnurlencat_cons
    (destination source : Bytes) (maxlen : Nat) {c : UInt8} (notNul : c ≠ 0) :
    strnurlencat destination (c :: source) maxlen = if (urlWord c).length ≤ maxlen then
        strnurlencat (destination ++ urlWord c) source (maxlen - (urlWord c).length)
      else destination := by
  have length := length_urlWord c
  by_cases none : maxlen = 0
  · rw [none, strnurlencat_zero, length, if_neg]
    split <;> omega
  · rw [strnurlencat, if_neg (by simp [notNul, none])]
    unfold urlWord at length ⊢
    by_cases space : c = 0x20
    · simp only [if_pos space, List.length_singleton]
      rw [if_pos (by omega)]
    · by_cases plain : urlPlain c = true
      · simp only [if_neg space, if_pos plain, List.length_singleton]
        rw [if_pos (by omega)]
      · simp only [if_neg space, if_neg plain] at length ⊢
        rw [if_neg (by simp [space, plain])] at length
        rw [length, strnurlencat_zero]

theorem strnurlencat_eq
    (destination : Bytes) (maxlen : Nat) {source : Bytes} (noNul : 0 ∉ source) :
    strnurlencat destination source maxlen = destination ++
        urlEncode (PrefixCode.fitting urlWord maxlen source) := by
  induction source generalizing destination maxlen with
  | nil => simp [strnurlencat, PrefixCode.fitting, urlEncode]
  | cons c source ih =>
    have notNul : c ≠ 0 := by
      rintro rfl
      exact noNul (by simp)
    rw [strnurlencat_cons destination source maxlen notNul, PrefixCode.fitting]
    split
    · rw [ih _ _ fun member => noNul (by simp [member])]
      simp [urlEncode]
    · simp [urlEncode]

theorem length_urlEncode_fitting_le (room : Nat) (text : Bytes) :
    (urlEncode (PrefixCode.fitting urlWord room text)).length ≤ room :=
  PrefixCode.length_fitting_le urlWord room text

theorem strncat_separator
    (destination : Bytes) {separator : UInt8} (count : Nat) (notNul : separator ≠ 0) :
    strncat destination [separator] count =
      if count = 0 then destination else destination ++ [separator] := by
  have isString : cString [separator] = [separator] :=
    cString_eq_self (by simpa using notNul.symm)
  rw [strncat, isString]
  cases count <;> simp

theorem unsigned_subSize
    {left right : Nat} (le : right ≤ left) (small : left < 2 ^ 32) :
    unsigned (subSize left right) = left - right := by
  rw [subSize_of_le le (by omega), unsigned_of_lt (by omega)]

variable {name value body : Bytes} {room : Nat} {parts : List MultipartPart}
  {data : MultipartData}

theorem cat_name_value {bodyLen : Nat} (body : Bytes)
    (small : bodyLen < 2 ^ 32) (fits : body.length ≤ bodyLen) (noNulName : 0 ∉ name)
    (noNulValue : 0 ∉ value) :
    let named := strnurlencat body name (unsigned (subSize bodyLen body.length))
    let equals := strncat named [0x3d] (subSize bodyLen named.length)
    strnurlencat equals value (unsigned (subSize bodyLen equals.length)) =
      body ++ writeFields (bodyLen - body.length) [(name, value)] := by
  intro named equals
  have nameFits := length_urlEncode_fitting_le (bodyLen - body.length) name
  have isNamed : named = body ++ urlEncode
      (PrefixCode.fitting urlWord (bodyLen - body.length) name) := by
    rw [← unsigned_subSize fits small]
    exact strnurlencat_eq body _ noNulName
  generalize written : urlEncode (PrefixCode.fitting urlWord (bodyLen - body.length) name) =
      encodedName at nameFits isNamed
  have namedLength : named.length = body.length + encodedName.length := by
    rw [isNamed, List.length_append]
  have isEquals : equals =
      if bodyLen - named.length = 0 then named else named ++ [0x3d] := by
    rw [← subSize_of_le (by omega : named.length ≤ bodyLen) (by omega)]
    exact strncat_separator named _ (by decide)
  rw [strnurlencat_eq _ _ noNulValue, writeFields]
  simp only [written, true_or, if_true, List.append_nil]
  by_cases full : bodyLen - body.length ≤ encodedName.length
  · rw [if_pos (by omega)] at isEquals
    rw [if_pos full, isEquals, unsigned_subSize (by omega) small]
    have nothing := length_urlEncode_fitting_le (bodyLen - named.length) value
    have isEmpty : urlEncode (PrefixCode.fitting urlWord (bodyLen - named.length) value) = [] :=
      List.length_eq_zero_iff.mp (by omega)
    rw [isEmpty, List.append_nil, isNamed]
  · rw [if_neg (by omega)] at isEquals
    have equalsLength : equals.length = named.length + 1 := by
      rw [isEquals, List.length_append, List.length_singleton]
    have room : bodyLen - equals.length = bodyLen - body.length - encodedName.length - 1 := by
      omega
    rw [if_neg full, unsigned_subSize (by omega) small, room, isEquals, isNamed]
    simp only [List.append_assoc, List.cons_append, List.nil_append]

theorem writeFields_zero (fields : List (Bytes × Bytes)) : writeFields 0 fields = [] := by
  cases fields with
  | nil => rfl
  | cons field rest =>
    have noRoom := length_urlEncode_fitting_le 0 field.1
    rw [writeFields]
    simp only
    rw [if_pos (Nat.zero_le _)]
    exact List.length_eq_zero_iff.mp (by omega)

theorem room_eq_zero {field : Bytes × Bytes}
    (nothing : writeFields room [field] = []) : room = 0 := by
  rw [writeFields] at nothing
  simp only at nothing
  split at nothing
  · rename_i full
    rw [nothing, List.length_nil] at full
    omega
  · simp at nothing

theorem catField_eq {bodyLen : Nat} (small : bodyLen < 2 ^ 32)
    (fits : body.length ≤ bodyLen) (noNulName : 0 ∉ name) (noNulValue : 0 ∉ value) :
    catField bodyLen body name value = if body = [] then writeFields bodyLen [(name, value)]
      else if body.length = bodyLen then body
      else
        body ++ 0x26 :: writeFields (bodyLen - body.length - 1) [(name, value)] := by
  have separator : strncat body [0x26] (subSize bodyLen body.length) =
      if bodyLen - body.length = 0 then body else body ++ [0x26] := by
    rw [strncat_separator _ _ (by decide), subSize_of_le fits (by omega)]
  unfold catField
  simp only [separator]
  by_cases empty : body = []
  · subst empty
    rw [if_neg (by simp), if_pos rfl]
    exact cat_name_value [] small fits noNulName noNulValue
  · rw [if_pos empty, if_neg empty]
    by_cases full : body.length = bodyLen
    · rw [if_pos (by omega), if_pos full]
      have written := cat_name_value body small fits noNulName noNulValue
      rw [full, Nat.sub_self, writeFields_zero, List.append_nil] at written
      rw [full]
      exact written
    · rw [if_neg (by omega), if_neg full]
      have more : (body ++ [0x26]).length = body.length + 1 := by
        rw [List.length_append, List.length_singleton]
      have written := cat_name_value (body ++ [0x26]) small (by omega) noNulName noNulValue
      rw [more, Nat.sub_add_eq, List.append_assoc] at written
      rw [more]
      exact written

theorem writeFields_cons
    (room : Nat) (field : Bytes × Bytes) (rest : List (Bytes × Bytes)) :
    (writeFields room [field]).length ≤ room ∧
      writeFields room (field :: rest) = writeFields room [field] ++
          writeMore (room - (writeFields room [field]).length) rest := by
  obtain ⟨name, value⟩ := field
  have nameFits := length_urlEncode_fitting_le room name
  simp only [writeFields, true_or, if_true, List.append_nil]
  generalize urlEncode (PrefixCode.fitting urlWord room name) = encodedName at nameFits ⊢
  have valueFits := length_urlEncode_fitting_le (room - encodedName.length - 1) value
  generalize urlEncode (PrefixCode.fitting urlWord (room - encodedName.length - 1) value) =
      encodedValue at valueFits ⊢
  by_cases full : room ≤ encodedName.length
  · have isFull : room - encodedName.length = 0 := by omega
    rw [if_pos full, if_pos full, isFull, writeMore, if_pos (Or.inr rfl), List.append_nil]
    exact ⟨nameFits, rfl⟩
  · have length : (encodedName ++ 0x3d :: encodedValue).length =
        encodedName.length + 1 + encodedValue.length := by
      rw [List.length_append, List.length_cons]
      omega
    rw [if_neg full, if_neg full, length, writeMore, Nat.sub_add_eq,
      Nat.sub_add_eq, List.append_assoc]
    exact ⟨by omega, rfl⟩

theorem length_writeFields_le (room : Nat) (fields : List (Bytes × Bytes)) :
    (writeFields room fields).length ≤ room := by
  induction fields generalizing room with
  | nil => simp [writeFields]
  | cons field rest ih =>
    obtain ⟨bound, split⟩ := writeFields_cons room field rest
    rw [split, List.length_append, writeMore]
    split
    · rw [List.length_nil]
      omega
    · rename_i more
      have others := ih (room - (writeFields room [field]).length - 1)
      rw [List.length_cons]
      omega

theorem foldl_catField {bodyLen : Nat} (fields : List (Bytes × Bytes))
    (small : bodyLen < 2 ^ 32) (fits : body.length ≤ bodyLen)
    (noNul : ∀ field ∈ fields, 0 ∉ field.1 ∧ 0 ∉ field.2) :
    fields.foldl (fun body field => catField bodyLen body field.1 field.2) body =
      if body = [] then writeFields bodyLen fields
      else body ++ writeMore (bodyLen - body.length) fields := by
  induction fields generalizing body with
  | nil => simp [writeFields, writeMore]
  | cons field rest ih =>
    have here := noNul field (by simp)
    have others := fun other member => noNul other (List.mem_cons_of_mem field member)
    rw [List.foldl_cons, catField_eq small fits here.1 here.2]
    by_cases empty : body = []
    · obtain ⟨bound, split⟩ := writeFields_cons bodyLen field rest
      rw [if_pos empty, if_pos empty, ih bound others,
        split]
      by_cases nothing : writeFields bodyLen [field] = []
      · have noRoom := room_eq_zero nothing
        rw [if_pos nothing, nothing, noRoom, writeFields_zero]
        simp [writeMore]
      · rw [if_neg nothing]
    · rw [if_neg empty, if_neg empty]
      by_cases full : body.length = bodyLen
      · rw [if_pos full, ih fits others, if_neg empty, full]
        simp [writeMore]
      · obtain ⟨bound, split⟩ := writeFields_cons (bodyLen - body.length - 1) field rest
        have length : (body ++ 0x26 ::
            writeFields (bodyLen - body.length - 1) [field]).length =
              body.length + 1 + (writeFields (bodyLen - body.length - 1) [field]).length := by
          rw [List.length_append, List.length_cons]
          omega
        have longer : (body ++ 0x26 ::
            writeFields (bodyLen - body.length - 1) [field]).length ≤
              bodyLen := by
          rw [length]
          omega
        have room : ¬ (field :: rest = [] ∨ bodyLen - body.length = 0) := by
          simp only [reduceCtorEq, false_or]
          omega
        rw [if_neg full, ih longer others,
          if_neg (by simp), length, Nat.sub_add_eq, Nat.sub_add_eq,
          writeMore.eq_def (bodyLen - body.length) (field :: rest),
          if_neg room, split]
        simp

/-! ## What is read back -/

def decodePiece (piece : Bytes) : Bytes × Bytes :=
  (urlDecode (rawName piece), urlDecode (rawValue piece))

theorem not_mem_urlEncode (text : Bytes) :
    0x26 ∉ urlEncode text ∧ 0x3d ∉ urlEncode text := by
  have checked : ∀ c, (urlWord c).all (fun item => item != 0x26 && item != 0x3d) = true :=
    forall_byte _ (by decide +kernel)
  have words : ∀ c, ∀ item ∈ urlWord c, item ≠ 0x26 ∧ item ≠ 0x3d := by
    intro c item member
    simpa using List.all_eq_true.mp (checked c) item member
  have all := PrefixCode.forall_mem_flatMap words text
  exact ⟨fun member => (all _ member).1 rfl, fun member => (all _ member).2 rfl⟩

theorem firstCharacter_urlWord (c : UInt8) (rest : Bytes) :
    FirstCharacter (urlWord c ++ rest) c 0 rest := by
  unfold urlWord
  by_cases space : c = 0x20
  · rw [if_pos space, space]
    exact .plain 0x2b rest (by decide)
  · rw [if_neg space]
    by_cases plain : urlPlain c = true
    · have notPercent : c ≠ 0x25 := by
        rintro rfl
        exact absurd plain (by decide)
      have notPlus : c ≠ 0x2b := by
        rintro rfl
        exact absurd plain (by decide)
      have first := FirstCharacter.plain c rest notPercent
      rw [if_neg notPlus] at first
      rw [if_pos plain]
      exact first
    · obtain ⟨high, low, digits, validHigh, validLow, value⟩ := x2c_c2x c
      have first := FirstCharacter.escape high low rest validHigh validLow
      rw [value] at first
      rw [if_neg plain, digits]
      exact first

theorem urlDecode_urlEncode (text : Bytes) : urlDecode (urlEncode text) = text := by
  induction text with
  | nil => rfl
  | cons c rest ih =>
    rw [urlEncode, List.flatMap_cons, (firstCharacter_urlWord c _).decode.1]
    exact congrArg (c :: ·) ih

theorem decodePiece_field (name value : Bytes) :
    decodePiece (urlEncode name ++ 0x3d :: urlEncode value) = (name, value) := by
  obtain ⟨isName, isValue⟩ := raw_of_equals (urlEncode value) (not_mem_urlEncode name).2
  rw [decodePiece, isName, isValue, urlDecode_urlEncode, urlDecode_urlEncode]

theorem decodePiece_name (name : Bytes) : decodePiece (urlEncode name) = (name, []) := by
  obtain ⟨isName, isValue⟩ := raw_of_not_mem (not_mem_urlEncode name).2
  rw [decodePiece, isName, isValue, urlDecode_urlEncode]
  rfl

def parsedFields (body : Bytes) : List (Bytes × Bytes) :=
  (pieces body 0x26).map decodePiece

theorem parsedFields_writeMore
    {piece : Bytes} (room : Nat) (rest : List (Bytes × Bytes))
    (nonempty : piece ≠ []) (without : 0x26 ∉ piece) :
    parsedFields (piece ++ writeMore room rest) = decodePiece piece ::
        if rest = [] ∨ room = 0 then []
        else parsedFields (writeFields (room - 1) rest) := by
  unfold writeMore parsedFields
  split
  · rw [List.append_nil, pieces_last without nonempty]
    rfl
  · rw [pieces_cons _ without, List.map_cons]

/-- A room in which the fields survive.  The last equals sign may be missing
behind a name. -/
def Survives (room : Nat) (fields : List (Bytes × Bytes)) : Prop :=
  encodedLength fields ≤ room ∨ (encodedLength fields = room + 1 ∧
      ∃ last ∈ fields.getLast?, last.1 ≠ [] ∧ last.2 = [])

theorem encodedLength_cons (name value : Bytes) (rest : List (Bytes × Bytes)) :
    encodedLength ((name, value) :: rest) =
      (urlEncode name).length + 1 + (urlEncode value).length +
        if rest = [] then 0 else 1 + encodedLength rest := by
  unfold encodedLength
  cases rest with
  | nil =>
    simp [encodeField]
    omega
  | cons next others =>
    simp [encodeField, List.intercalate]
    omega

theorem urlEncode_ne_nil {text : Bytes} (nonempty : text ≠ []) : urlEncode text ≠ [] := by
  intro empty
  have decoded := urlDecode_urlEncode text
  rw [empty] at decoded
  exact nonempty decoded.symm

theorem parsedFields_writeFields
    (room : Nat) (name value : Bytes) (rest : List (Bytes × Bytes)) :
    parsedFields (writeFields room ((name, value) :: rest)) =
      let shortName := PrefixCode.fitting urlWord room name
      if room ≤ (urlEncode shortName).length then
        if shortName = [] then [] else [(shortName, [])]
      else
        let room := room - (urlEncode shortName).length - 1
        let shortValue := PrefixCode.fitting urlWord room value
        let room := room - (urlEncode shortValue).length
        (shortName, shortValue) :: if rest = [] ∨ room = 0 then []
          else parsedFields (writeFields (room - 1) rest) := by
  rw [writeFields]
  generalize PrefixCode.fitting urlWord room name = shortName
  simp only
  by_cases full : room ≤ (urlEncode shortName).length
  · rw [if_pos full, if_pos full]
    by_cases empty : shortName = []
    · rw [if_pos empty, empty]
      exact congrArg _ (pieces_nil 0x26)
    · rw [if_neg empty, parsedFields,
        pieces_last (not_mem_urlEncode shortName).1 (urlEncode_ne_nil empty),
        List.map_singleton, decodePiece_name]
  · rw [if_neg full, if_neg full]
    generalize PrefixCode.fitting urlWord (room - (urlEncode shortName).length - 1)
        value = shortValue
    have without : 0x26 ∉ urlEncode shortName ++ 0x3d :: urlEncode shortValue := by
      simp [not_mem_urlEncode]
    have read := parsedFields_writeMore (room - (urlEncode shortName).length - 1 -
        (urlEncode shortValue).length)
        rest (by simp) without
    rw [decodePiece_field] at read
    exact read

theorem survives_of_full (value : Bytes) (rest : List (Bytes × Bytes))
    (full : (urlEncode name).length = room) :
    (if name = [] then [] else [(name, ([] : Bytes))]) = (name, value) :: rest ↔
      Survives room ((name, value) :: rest) := by
  rw [Survives, encodedLength_cons]
  constructor
  · intro same
    split at same
    · cases same
    · rename_i nonempty
      rw [List.cons.injEq, Prod.mk.injEq] at same
      obtain ⟨⟨-, rfl⟩, rfl⟩ := same
      refine Or.inr ⟨?_, _, rfl, nonempty, rfl⟩
      rw [full]
      rfl
  · rintro (short | ⟨exact, last, isLast, nonempty, noValue⟩)
    · omega
    · have isRest : rest = [] := by
        by_contra more
        rw [if_neg more] at exact
        omega
      subst isRest
      obtain rfl : (name, value) = last := by simpa using isLast
      simp only at nonempty noValue
      rw [if_neg nonempty, noValue]

theorem not_survives_of_long
    {rest : List (Bytes × Bytes)} (named : (urlEncode name).length < room)
    (long : room < (urlEncode name).length + 1 + (urlEncode value).length) :
    ¬ Survives room ((name, value) :: rest) := by
  rw [Survives, encodedLength_cons]
  rintro (short | ⟨exact, last, isLast, -, noValue⟩)
  · omega
  · have isRest : rest = [] := by
      by_contra more
      rw [if_neg more] at exact
      omega
    subst isRest
    obtain rfl : (name, value) = last := by simpa using isLast
    simp only at noValue
    have noLength : (urlEncode value).length = 0 := by
      rw [noValue]
      rfl
    omega

theorem survives_of_fits {rest : List (Bytes × Bytes)}
    (fits : (urlEncode name).length + 1 + (urlEncode value).length ≤ room) :
    Survives room ((name, value) :: rest) ↔ rest = [] ∨
        (room - (urlEncode name).length - 1 - (urlEncode value).length ≠ 0 ∧ Survives
            (room - (urlEncode name).length - 1 - (urlEncode value).length - 1)
            rest) := by
  rw [Survives, encodedLength_cons]
  cases rest with
  | nil =>
    rw [if_pos rfl]
    exact iff_of_true (Or.inl (by omega)) (Or.inl rfl)
  | cons field others =>
    have positive : 1 ≤ encodedLength (field :: others) := by
      rw [encodedLength_cons]
      omega
    rw [if_neg (by simp), Survives, List.getLast?_cons_cons]
    simp only [reduceCtorEq, false_or]
    constructor
    · rintro (short | ⟨exact, last⟩)
      · exact ⟨by omega, Or.inl (by omega)⟩
      · exact ⟨by omega, Or.inr ⟨by omega, last⟩⟩
    · rintro ⟨some, short | ⟨exact, last⟩⟩
      · exact Or.inl (by omega)
      · exact Or.inr ⟨by omega, last⟩

theorem parsedFields_eq_iff (room : Nat) (fields : List (Bytes × Bytes)) :
    parsedFields (writeFields room fields) = fields ↔ Survives room fields := by
  induction fields generalizing room with
  | nil =>
    have read : parsedFields (writeFields room []) = [] :=
      congrArg (List.map decodePiece) (pieces_nil 0x26)
    exact iff_of_true read (Or.inl (Nat.zero_le _))
  | cons field rest ih =>
    obtain ⟨name, value⟩ := field
    rw [parsedFields_writeFields]
    by_cases nameFits : (urlEncode name).length ≤ room
    · rw [PrefixCode.fitting_eq_self nameFits]
      simp only
      by_cases full : room ≤ (urlEncode name).length
      · rw [if_pos full]
        exact survives_of_full value rest (Nat.le_antisymm nameFits full)
      · rw [if_neg full]
        by_cases valueFits : (urlEncode value).length ≤ room - (urlEncode name).length - 1
        · have fits : (urlEncode name).length + 1 + (urlEncode value).length ≤ room := by
            omega
          rw [PrefixCode.fitting_eq_self valueFits, survives_of_fits fits, List.cons.injEq]
          simp only [true_and]
          split
          · rename_i stops
            rcases stops with rfl | full
            · simp
            · simp [full, eq_comm]
          · rename_i goesOn
            push Not at goesOn
            rw [ih]
            simp [goesOn]
        · have lost : PrefixCode.fitting urlWord
              (room - (urlEncode name).length - 1) value ≠ value :=
            PrefixCode.fitting_ne_self (Nat.lt_of_not_le valueFits)
          refine iff_of_false ?_ (not_survives_of_long (by omega) (by omega))
          intro same
          rw [List.cons.injEq, Prod.mk.injEq] at same
          exact lost same.1.2
    · have lost : PrefixCode.fitting urlWord room name ≠ name :=
        PrefixCode.fitting_ne_self (Nat.lt_of_not_le nameFits)
      refine iff_of_false ?_ ?_
      · simp only
        intro same
        have head := congrArg List.head? same
        split at head
        · split at head
          · cases head
          · simp only [List.head?_cons, Option.some.injEq, Prod.mk.injEq] at head
            exact lost head.1
        · simp only [List.head?_cons, Option.some.injEq, Prod.mk.injEq] at head
          exact lost head.1
      · rw [Survives, encodedLength_cons]
        omega

/-! ## The parts -/

def HasTexts (part : MultipartPart) : Prop := part.type = .formData →
    ∃ name value, part.name = some name ∧ part.value = some value ∧ 0 ∉ name ∧ 0 ∉ value

def Unmarked (argumentsToSanitize : AprTable MscArg)
    (parts : List MultipartPart) : Prop :=
  ∀ field ∈ formFields parts, argumentsToSanitize.get field.1 = none

theorem strlen_eq {text : Bytes} (noNul : 0 ∉ text) : strlen text = text.length := by
  rw [strlen, cString_eq_self noNul]

theorem formFields_cons_file {part : MultipartPart} (rest : List MultipartPart)
    (isFile : part.type = .file) :
    formFields (part :: rest) = formFields rest := by
  simp [formFields, isFile]

theorem formFields_cons_formData
    {part : MultipartPart} (rest : List MultipartPart)
    (isForm : part.type = .formData) (isName : part.name = some name)
    (isValue : part.value = some value) :
    formFields (part :: rest) = (name, value) :: formFields rest := by
  simp [formFields, isForm, isName, isValue]

theorem addUnsigned_unsigned (left right : Nat) :
    addUnsigned (unsigned left) right = unsigned (left + right) :=
  Nat.mod_add_mod left (2 ^ 32) right

theorem foldlM_addBodyLen
    (start : Nat) (texts : ∀ part ∈ parts, HasTexts part) :
    parts.foldlM addBodyLen (unsigned start) =
      some (unsigned (start + (sizedLength (formFields parts) - 1))) := by
  induction parts generalizing start with
  | nil => rfl
  | cons part rest ih =>
    have others := fun other member => texts other (List.mem_cons_of_mem part member)
    rw [List.foldlM_cons, addBodyLen]
    cases isType : part.type with
    | file =>
      rw [formFields_cons_file rest isType]
      exact ih start others
    | formData =>
      obtain ⟨name, value, isName, isValue, noNulName, noNulValue⟩ :=
        texts part (by simp) isType
      rw [formFields_cons_formData rest isType isName isValue, isName, isValue]
      simp only [Option.bind_eq_bind, Option.bind_some, Option.pure_def,
        addUnsigned_unsigned, strlen_eq noNulName, strlen_eq noNulValue]
      rw [ih _ others]
      simp only [sizedLength, List.map_cons, List.sum_cons]
      congr 2
      omega

theorem foldlM_catPart
    {phase bodyLen : Nat} {argumentsToSanitize : AprTable MscArg}
    (body : Bytes) (done : List MultipartPart) (texts : ∀ part ∈ parts, HasTexts part)
    (unmarked : Unmarked argumentsToSanitize parts) :
    parts.foldlM (catPart phase argumentsToSanitize bodyLen) (body, done) = some
        ((formFields parts).foldl
            (fun body field => catField bodyLen body field.1 field.2) body,
          done ++ parts) := by
  induction parts generalizing body done with
  | nil => simp [formFields]
  | cons part rest ih =>
    have others := fun other member => texts other (List.mem_cons_of_mem part member)
    rw [List.foldlM_cons, catPart]
    cases isType : part.type with
    | file =>
      rw [Unmarked, formFields_cons_file rest isType] at unmarked
      rw [formFields_cons_file rest isType]
      simp only [Option.bind_eq_bind, Option.bind_some]
      rw [ih body _ others unmarked]
      simp
    | formData =>
      obtain ⟨name, value, isName, isValue, noNulName, noNulValue⟩ :=
        texts part (by simp) isType
      rw [Unmarked, formFields_cons_formData rest isType isName isValue] at unmarked
      have notMarked := unmarked (name, value) (by simp)
      have kept : sanitizeValue phase argumentsToSanitize name value = value := by
        rw [sanitizeValue, cString_eq_self noNulName, notMarked]
        simp
      have same :
          { part with
            type := .formData, name := some name
            value := some value } = part := by
        rw [← isType, ← isName, ← isValue]
      rw [formFields_cons_formData rest isType isName isValue, isName, isValue]
      simp only [Option.bind_eq_bind, Option.bind_some, Option.pure_def, kept, same]
      rw [ih _ _ others fun field member =>
        unmarked field (List.mem_cons_of_mem _ member)]
      simp

theorem noNul_of_mem_formFields (texts : ∀ part ∈ parts, HasTexts part) :
    ∀ field ∈ formFields parts, 0 ∉ field.1 ∧ 0 ∉ field.2 := by
  intro field member
  rw [formFields, List.mem_filterMap] at member
  obtain ⟨part, isPart, isField⟩ := member
  cases isType : part.type with
  | file => simp [isType] at isField
  | formData =>
    obtain ⟨name, value, isName, isValue, noNul⟩ := texts part isPart isType
    rw [isType, isName, isValue] at isField
    cases isField
    exact noNul

theorem reconstruct_eq (phase : Nat) {argumentsToSanitize : AprTable MscArg}
    (texts : ∀ part ∈ data.parts, HasTexts part)
    (unmarked : Unmarked argumentsToSanitize data.parts) :
    multipartReconstructUrlencodedBodySanitize phase argumentsToSanitize (some data) =
      let bodyLen := unsigned (sizedLength (formFields data.parts))
      if bodyLen + 1 = 2 ^ 32 then some (none, some data)
      else
        some (some (writeFields bodyLen (formFields data.parts)), some data) := by
  have sized := foldlM_addBodyLen 1 texts
  have isOne : unsigned 1 = 1 := rfl
  have total : 1 + (sizedLength (formFields data.parts) - 1) =
      sizedLength (formFields data.parts) := by
    rw [sizedLength]
    omega
  rw [isOne, total] at sized
  have bound : unsigned (sizedLength (formFields data.parts)) < 2 ^ 32 :=
    Nat.mod_lt _ (by decide)
  rw [multipartReconstructUrlencodedBodySanitize]
  simp only [sized, Option.bind_eq_bind, Option.bind_some]
  generalize unsigned (sizedLength (formFields data.parts)) = bodyLen at bound ⊢
  have wraps : addUnsigned bodyLen 1 = 0 ↔ bodyLen + 1 = 2 ^ 32 := by
    unfold addUnsigned
    omega
  by_cases null : bodyLen + 1 = 2 ^ 32
  · rw [if_pos (wraps.mpr null), if_pos null]
    rfl
  · rw [if_neg (mt wraps.mp null), if_neg null, foldlM_catPart [] [] texts unmarked]
    have written := foldl_catField (formFields data.parts) bound
        (by simp : ([] : Bytes).length ≤ bodyLen)
        (noNul_of_mem_formFields texts)
    rw [if_pos rfl] at written
    rw [written]
    rfl

theorem fields_of_describes
    {s origin : Bytes} {offset : Nat} {read : List Bytes} {added : List MscArg}
    (describes : List.Forall₂ (Describes s origin) (placed offset read) added) :
    added.map (fun arg => (arg.name, arg.value)) = read.map decodePiece := by
  induction read generalizing offset added with
  | nil =>
    cases describes
    rfl
  | cons piece rest ih =>
    rw [placed] at describes
    cases describes with
    | cons first others =>
      rw [List.map_cons, List.map_cons, ih others, decodePiece, first.name, first.value]

theorem parseArguments_fields (origin : Bytes) (fresh : Nat → UInt8)
    (arguments : AprTable MscArg) (invalidCount : Int) (small : body.length < 2 ^ 32) :
    ∃ (added : List MscArg) (count : Int),
      parseArguments body 0x26 origin fresh arguments invalidCount =
          some (arguments ++ added.map argumentEntry, count) ∧
        added.map (fun arg => (arg.name, arg.value)) = parsedFields body := by
  by_cases empty : body = []
  · refine ⟨[], invalidCount, ?_, ?_⟩
    · rw [parseArguments, if_pos (by rw [empty]; rfl)]
      simp
    · rw [empty, parsedFields, pieces_nil]
      rfl
  · obtain ⟨added, parsed, describes⟩ :=
      parseArguments_nonempty 0x26 origin fresh arguments invalidCount small empty
    exact ⟨added, _, parsed, fields_of_describes describes⟩

theorem argumentEntry_injective : Function.Injective argumentEntry := by
  intro first second same
  exact congrArg Prod.snd same

/-- The parts survive: there is a string, and parsing it gives their names and
values in order. -/
def Roundtrips (phase : Nat) (argumentsToSanitize : AprTable MscArg)
    (data : MultipartData) : Prop :=
  ∃ body mpd,
    multipartReconstructUrlencodedBodySanitize phase argumentsToSanitize
        (some data) = some (some body, mpd) ∧
      ∀ origin fresh arguments invalidCount,
        ∃ (added : List MscArg) (count : Int),
          parseArguments body 0x26 origin fresh arguments invalidCount =
              some (arguments ++ added.map argumentEntry, count) ∧
            added.map (fun arg => (arg.name, arg.value)) = formFields data.parts

theorem roundtrips_iff {phase : Nat} {argumentsToSanitize : AprTable MscArg}
    (texts : ∀ part ∈ data.parts, HasTexts part)
    (unmarked : Unmarked argumentsToSanitize data.parts) :
    Roundtrips phase argumentsToSanitize data ↔
      unsigned (sizedLength (formFields data.parts)) ≠ 2 ^ 32 - 1 ∧ parsedFields
          (writeFields (unsigned (sizedLength (formFields data.parts)))
            (formFields data.parts)) =
          formFields data.parts := by
  have rebuilt := reconstruct_eq phase texts unmarked
  simp only at rebuilt
  have bound : unsigned (sizedLength (formFields data.parts)) < 2 ^ 32 :=
    Nat.mod_lt _ (by decide)
  generalize unsigned (sizedLength (formFields data.parts)) = bodyLen at rebuilt bound ⊢
  have short := length_writeFields_le bodyLen (formFields data.parts)
  rw [Roundtrips, rebuilt]
  by_cases null : bodyLen + 1 = 2 ^ 32
  · rw [if_pos null]
    refine iff_of_false ?_ ?_
    · rintro ⟨body, mpd, isNull, -⟩
      cases isNull
    · rintro ⟨notNull, -⟩
      omega
  · rw [if_neg null]
    constructor
    · rintro ⟨body, mpd, isBody, parses⟩
      cases isBody
      obtain ⟨added, count, parsed, added_fields⟩ := parses [] (fun _ => 0) [] 0
      obtain ⟨others, otherCount, otherParsed, otherFields⟩ :=
        parseArguments_fields [] (fun _ => 0) [] 0 (Nat.lt_of_le_of_lt short bound)
      rw [parsed, Option.some.injEq, Prod.mk.injEq, List.nil_append,
        List.nil_append] at otherParsed
      have same := argumentEntry_injective.list_map otherParsed.1
      rw [← otherFields, ← same, added_fields]
      exact ⟨by omega, rfl⟩
    · rintro ⟨-, same⟩
      refine ⟨_, _, rfl, ?_⟩
      intro origin fresh arguments invalidCount
      obtain ⟨added, count, parsed, added_fields⟩ :=
        parseArguments_fields origin fresh arguments invalidCount
          (Nat.lt_of_le_of_lt short bound)
      exact ⟨added, count, parsed, added_fields.trans same⟩

/-- The parts survive where the size that the first pass computes, cut to an
`unsigned int`, leaves room for them, and nowhere else. -/
theorem roundtrips_iff_survives
    (phase : Nat) (argumentsToSanitize : AprTable MscArg)
    (data : MultipartData) (texts : ∀ part ∈ data.parts, HasTexts part)
    (unmarked : Unmarked argumentsToSanitize data.parts) :
    Roundtrips phase argumentsToSanitize data ↔
      unsigned (sizedLength (formFields data.parts)) ≠ 2 ^ 32 - 1 ∧
        Survives (unsigned (sizedLength (formFields data.parts))) (formFields data.parts) := by
  rw [roundtrips_iff texts unmarked, parsedFields_eq_iff]

def formPart (name value : Bytes) : MultipartPart :=
  { MultipartPart.new with name := some name, value := some value }

def withParts (parts : List MultipartPart) : MultipartData :=
  { MultipartData.fresh with parts := parts }

theorem hasTexts_formPart (noNulName : 0 ∉ name) (noNulValue : 0 ∉ value) :
    HasTexts (formPart name value) :=
  fun _ => ⟨name, value, rfl, rfl, noNulName, noNulValue⟩

/-- A form part with the bytes that are encoded, a file, and a form part
without a value. -/
theorem roundtrips_three :
    Roundtrips phaseLogging []
      (withParts
        [formPart (ascii "a b".toList) (ascii "%=&+".toList ++ [0xff]),
          { MultipartPart.new with type := .file },
          formPart (ascii "empty".toList) []]) := by
  refine
    (roundtrips_iff_survives phaseLogging [] _ ?texts fun _ _ => rfl).mpr
      ⟨by decide +kernel, Or.inl (by decide +kernel)⟩
  intro part member
  simp only [withParts, List.mem_cons, List.not_mem_nil, or_false] at member
  rcases member with rfl | rfl | rfl
  · exact hasTexts_formPart (by decide +kernel) (by decide +kernel)
  · intro isForm
    cases isForm
  · exact hasTexts_formPart (by decide +kernel) (by decide +kernel)

theorem length_le_urlEncode (text : Bytes) : text.length ≤ (urlEncode text).length := by
  induction text with
  | nil => exact Nat.le_refl 0
  | cons c rest ih =>
    have word := length_urlWord c
    rw [urlEncode, List.flatMap_cons, List.length_append, List.length_cons, word]
    rw [urlEncode] at ih
    split <;> omega

/-- The size for a value of `1431655763` bytes wraps around to one, and only
one byte of the body is written. -/
theorem large_value_lost :
    let data :=
      withParts [formPart [0x61] (List.replicate 1431655763 0x61)]
    (∀ part ∈ data.parts, HasTexts part) ∧ Unmarked [] data.parts ∧ ¬ Roundtrips 0 [] data := by
  obtain ⟨value, isValue⟩ :
      ∃ value, value = List.replicate 1431655763 (0x61 : UInt8) := ⟨_, rfl⟩
  have length : value.length = 1431655763 := by
    rw [isValue, List.length_replicate]
  have noNul : (0 : UInt8) ∉ value := by
    rw [isValue]
    intro member
    exact absurd (List.eq_of_mem_replicate member) (by decide)
  rw [← isValue]
  intro data
  have texts : ∀ part ∈ data.parts, HasTexts part := by
    intro part member
    rw [List.mem_singleton.mp member]
    exact hasTexts_formPart (by decide) noNul
  have isFields : formFields data.parts = [([0x61], value)] := rfl
  have wraps : unsigned (sizedLength [([0x61], value)]) = 1 := by
    simp [sizedLength, length, unsigned]
  have long := length_le_urlEncode value
  have total := encodedLength_cons [0x61] value []
  refine ⟨texts, fun _ _ => rfl, ?_⟩
  rw [roundtrips_iff texts fun _ _ => rfl, parsedFields_eq_iff, isFields, wraps]
  rintro ⟨-, short | ⟨exact, -⟩⟩ <;> omega

end Cookbook.ModSecurity.Arguments
