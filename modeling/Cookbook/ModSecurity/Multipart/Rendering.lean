import Cookbook.ModSecurity.Multipart.Steps

/-!
# Rendering a form

How a client writes a form as a `multipart/form-data` body, and that the
headers of a rendered part are read back: the name and the file name survive
the escaping of quotes and backslashes.
-/

namespace Cookbook.ModSecurity.Multipart

open Cookbook.Lib.CText

structure FormPart where
  name : Bytes
  filename : Option Bytes
  content : Bytes
  deriving DecidableEq, Repr

def escapeQuoted (text : Bytes) : Bytes := text.flatMap fun byte =>
    if byte = doubleQuote ∨ byte = backslash then [backslash, byte]
    else [byte]

def renderParameter (key value : Bytes) : Bytes :=
  0x20 :: (key ++ 0x3d :: doubleQuote :: (escapeQuoted value ++ [doubleQuote]))

/-- The parameter for the file name, when there is one. -/
def renderFilename (filename : Option Bytes) : Bytes :=
  match filename with
  | none => []
  | some filename => 0x3b :: renderParameter filenameKey filename

def renderDisposition (part : FormPart) : Bytes :=
  ascii "form-data;".toList ++ renderParameter nameKey part.name ++
    renderFilename part.filename

def renderHeader (part : FormPart) : Bytes :=
  contentDispositionName ++ [0x3a, 0x20] ++ renderDisposition part

def delimiter (boundary : Bytes) : Bytes := dashes ++ boundary ++ crlf

def finalDelimiter (boundary : Bytes) : Bytes :=
  dashes ++ boundary ++ dashes ++ crlf

def renderPart (boundary : Bytes) (part : FormPart) : Bytes :=
  delimiter boundary ++ renderHeader part ++ crlf ++ crlf ++ part.content ++ crlf

def renderBody (boundary : Bytes) (parts : List FormPart) : Bytes :=
  parts.flatMap (renderPart boundary) ++ finalDelimiter boundary

theorem escapeQuoted_cons (byte : UInt8) (rest : Bytes) : escapeQuoted (byte :: rest) =
    (if byte = doubleQuote ∨ byte = backslash then [backslash, byte]
      else [byte]) ++ escapeQuoted rest := by
  simp [escapeQuoted]

theorem quotedLoop_escapeQuoted (text value after : Bytes) :
    quotedLoop doubleQuote value (escapeQuoted text ++ doubleQuote :: after) =
      .ok (value ++ text, doubleQuote :: after) := by
  induction text generalizing value with
  | nil =>
    cases after <;> simp [escapeQuoted, quotedLoop, doubleQuote, backslash]
  | cons byte rest ih =>
    rw [escapeQuoted_cons]
    have next : ∃ first others,
        escapeQuoted rest ++ doubleQuote :: after = first :: others := by
      cases tail : escapeQuoted rest with
      | nil => exact ⟨doubleQuote, after, rfl⟩
      | cons first others => exact ⟨first, _, rfl⟩
    by_cases special : byte = doubleQuote ∨ byte = backslash
    · rw [if_pos special, List.append_assoc]
      simp only [List.cons_append, List.nil_append]
      rw [quotedLoop, if_pos rfl, if_pos special, ih]
      simp
    · rw [if_neg special, List.append_assoc]
      obtain ⟨notQuote, notBackslash⟩ := not_or.mp special
      obtain ⟨first, others, split⟩ := next
      simp only [List.cons_append, List.nil_append]
      rw [split, quotedLoop, if_neg notBackslash, if_neg notQuote, ← split, ih]
      simp

def IsKey (key : Bytes) : Prop :=
  key ≠ [] ∧ ∀ byte ∈ key, byte ≠ 0x3d ∧ isBlank byte = false

instance (key : Bytes) : Decidable (IsKey key) :=
  inferInstanceAs (Decidable (_ ∧ _))

theorem skipBlanks_of_not_blank
    {byte : UInt8} (notBlank : isBlank byte = false) (rest : Bytes) :
    skipBlanks (byte :: rest) = byte :: rest := by
  rw [skipBlanks, List.dropWhile_cons_of_neg (by simp [notBlank])]

theorem parameterTurn_renderParameter
    (cd : Disposition) {key : Bytes} (isKey : IsKey key) (value after : Bytes) :
    ∃ before, parameterTurn cd (renderParameter key value ++ after) =
        match evaluateParameter cd key value with
        | (cd, some code) => (cd, .error code)
        | (cd, none) => afterParameter cd before after := by
  obtain ⟨nonempty, plain⟩ := isKey
  obtain ⟨first, others, rfl⟩ := List.exists_cons_of_ne_nil nonempty
  generalize keyEq : first :: others = key at *
  generalize quoted : doubleQuote :: (escapeQuoted value ++ doubleQuote :: after) = text
  have start : skipBlanks (renderParameter key value ++ after) = key ++ 0x3d :: text := by
    have firstPlain := (plain first (by simp [← keyEq])).2
    rw [← quoted, renderParameter, ← keyEq]
    simp only [List.cons_append, List.append_assoc, List.nil_append]
    rw [skipBlanks, List.dropWhile_cons_of_pos (by decide)]
    exact skipBlanks_of_not_blank firstPlain _
  have stops : ∀ byte ∈ key, (!(byte = 0x3d || isBlank byte)) = true := by
    intro byte member
    obtain ⟨notEquals, notBlank⟩ := plain byte member
    simp [notEquals, notBlank]
  have nameEnd : (key ++ 0x3d :: text).dropWhile (fun c => !(c = 0x3d || isBlank c)) =
      0x3d :: text := by
    rw [List.dropWhile_append_of_pos (by simpa using stops)]
    rw [List.dropWhile_cons_of_neg (by decide)]
  have name : (key ++ 0x3d :: text).takeWhile (fun c => !(c = 0x3d || isBlank c)) = key := by
    rw [List.takeWhile_append_of_pos (by simpa using stops)]
    rw [List.takeWhile_cons_of_neg (by decide), List.append_nil]
  have valueText : skipBlanks text = text := by
    rw [← quoted]
    exact skipBlanks_of_not_blank (by decide) _
  have valueRead : parameterValue text = .ok (value, after) := by
    rw [← quoted, parameterValue]
    simp only [true_or, if_true]
    rw [if_neg (by simp), quotedLoop_escapeQuoted]
    rfl
  have noSingleQuote : ¬ text.head? = some singleQuote := by
    rw [← quoted]
    simp [doubleQuote, singleQuote]
  refine ⟨((text.take (text.length - after.length)).getLast?).getD 0x3d, ?_⟩
  rw [parameterTurn]
  simp only [start, nameEnd, name]
  rw [if_neg (by simp), if_neg (by simp), skipBlanks_of_not_blank (by decide)]
  rcases evaluated : evaluateParameter cd key value with ⟨cd', code⟩
  cases code <;>
    simp only [ne_eq, not_true_eq_false, if_false, valueText,
      if_neg noSingleQuote, valueRead, evaluated]

theorem afterParameter_nil (cd : Disposition) (before : UInt8) :
    afterParameter cd before [] = (cd, .ok none) := rfl

theorem afterParameter_semicolon
    (cd : Disposition) (before : UInt8) (rest : Bytes) :
    afterParameter cd before (0x3b :: rest) = (cd, .ok (some rest)) := by
  rw [afterParameter, skipBlanks_of_not_blank (by decide)]
  rfl

def HeaderText (text : Bytes) : Prop := 0 ∉ text ∧ lf ∉ text

instance (text : Bytes) : Decidable (HeaderText text) :=
  inferInstanceAs (Decidable (_ ∧ _))

def HeaderFits (part : FormPart) : Prop :=
  HeaderText part.name ∧ (∀ filename ∈ part.filename, HeaderText filename) ∧
    (renderHeader part ++ crlf).length < multipartBufSize

instance (part : FormPart) : Decidable (HeaderFits part) :=
  inferInstanceAs (Decidable (_ ∧ _ ∧ _))

theorem headerText_append {first second : Bytes} (firstText : HeaderText first)
    (secondText : HeaderText second) : HeaderText (first ++ second) := by
  simp only [HeaderText, List.mem_append, not_or]
  exact ⟨⟨firstText.1, secondText.1⟩, ⟨firstText.2, secondText.2⟩⟩

theorem headerText_escapeQuoted {text : Bytes} (plain : HeaderText text) :
    HeaderText (escapeQuoted text) := by
  have only : ∀ byte ∈ escapeQuoted text, byte = backslash ∨ byte ∈ text := by
    intro byte member
    obtain ⟨source, isSource, escaped⟩ := List.mem_flatMap.mp member
    split at escaped
    · simp only [List.mem_cons, List.not_mem_nil, or_false] at escaped
      rcases escaped with rfl | rfl
      · exact .inl rfl
      · exact .inr isSource
    · rw [List.mem_singleton] at escaped
      exact .inr (escaped ▸ isSource)
  constructor
  · intro zero
    rcases only 0 zero with isBackslash | member
    · cases isBackslash
    · exact plain.1 member
  · intro newline
    rcases only lf newline with isBackslash | member
    · cases isBackslash
    · exact plain.2 member

theorem headerText_renderParameter
    {key value : Bytes} (keyText : HeaderText key) (valueText : HeaderText value) :
    HeaderText (renderParameter key value) := by
  have equals : HeaderText [0x3d, doubleQuote] := by decide
  have quote : HeaderText [doubleQuote] := by decide
  have space : HeaderText [0x20] := by decide
  have all := headerText_append (headerText_append
      (headerText_append (headerText_append space keyText) equals)
      (headerText_escapeQuoted valueText))
      quote
  simpa [renderParameter] using all

theorem headerText_renderFilename
    {filename : Option Bytes} (plain : ∀ text ∈ filename, HeaderText text) :
    HeaderText (renderFilename filename) := by
  cases filename with
  | none =>
    simp [renderFilename, HeaderText]
  | some text =>
    have semicolon : HeaderText [0x3b] := by decide
    have keyText : HeaderText filenameKey := by decide
    exact headerText_append semicolon (headerText_renderParameter keyText (plain text rfl))

variable {part : FormPart}

theorem headerText_renderDisposition (fits : HeaderFits part) :
    HeaderText (renderDisposition part) := by
  have start : HeaderText (ascii "form-data;".toList) := by decide
  have keyText : HeaderText nameKey := by decide
  exact headerText_append (headerText_append start
      (headerText_renderParameter keyText fits.1))
      (headerText_renderFilename fits.2.1)

theorem headerText_renderHeader (fits : HeaderFits part) :
    HeaderText (renderHeader part) := by
  have name : HeaderText (contentDispositionName ++ [0x3a, 0x20]) := by
    decide +kernel
  exact headerText_append name (headerText_renderDisposition fits)

theorem isKey_nameKey : IsKey nameKey := by decide +kernel

theorem isKey_filenameKey : IsKey filenameKey := by decide +kernel

theorem evaluateParameter_name
    {cd : Disposition} (noName : cd.name = none) (value : Bytes) :
    ∃ multipartName invalidQuoting, evaluateParameter cd nameKey value =
        ({ cd with
            name := some value
            multipartName := multipartName
            invalidQuoting := invalidQuoting },
          none) := by
  rw [evaluateParameter, if_pos rfl]
  unfold validateQuotes
  split <;> simp [noName]

theorem evaluateParameter_filename
    {cd : Disposition} (noFilename : cd.filename = none) (value : Bytes) :
    ∃ multipartFilename invalidQuoting, evaluateParameter cd filenameKey value =
        ({ cd with
            filename := some value
            multipartFilename := multipartFilename
            invalidQuoting := invalidQuoting },
          none) := by
  rw [evaluateParameter, if_neg (by decide), if_pos rfl]
  unfold validateQuotes
  split <;> simp [noFilename]

theorem parseContentDisposition_render
    (cd : Disposition) (noName : cd.name = none)
    (noFilename : cd.filename = none) (fits : HeaderFits part) :
    ∃ after, multipartParseContentDisposition cd (renderDisposition part) = (after, 1) ∧
        after.name = some part.name ∧ after.filename = part.filename := by
  have text := (headerText_renderDisposition fits).1
  generalize parameters :
    renderParameter nameKey part.name ++ renderFilename part.filename = rest
  have shape : renderDisposition part = ascii "form-data".toList ++ 0x3b :: rest := by
    rw [← parameters]
    simp [renderDisposition, ascii]
  have starts : startsWith (renderDisposition part) (ascii "form-data".toList) = true := by
    rw [startsWith, cString_eq_self text, shape, List.isPrefixOf_iff_prefix]
    exact List.prefix_append _ _
  have behind : skipBlanks ((renderDisposition part).drop 9) = 0x3b :: rest := by
    rw [shape,
      show (9 : Nat) = (ascii "form-data".toList).length from rfl,
      List.drop_left]
    exact skipBlanks_of_not_blank (by decide) rest
  rw [multipartParseContentDisposition, if_neg (by rw [starts]; exact Bool.noConfusion), behind]
  simp only [ne_eq, not_true_eq_false, if_false]
  obtain ⟨multipartName, invalidQuoting, named⟩ := evaluateParameter_name noName part.name
  obtain ⟨before, turn⟩ := parameterTurn_renderParameter cd isKey_nameKey part.name
      (renderFilename part.filename)
  rw [parameters, named] at turn
  simp only at turn
  have nonempty : rest ≠ [] := by
    rw [← parameters]
    simp [renderParameter]
  rw [parametersLoop, if_neg nonempty, turn]
  cases filename : part.filename with
  | none =>
    rw [renderFilename, afterParameter_nil]
    exact ⟨_, rfl, rfl, noFilename⟩
  | some text =>
    rw [renderFilename, afterParameter_semicolon]
    simp only
    obtain ⟨first, others, isCons⟩ := List.exists_cons_of_ne_nil nonempty
    generalize named :
      ({ cd with
          name := some part.name
          multipartName := multipartName
          invalidQuoting := invalidQuoting } : Disposition) = middle
    have middleName : middle.name = some part.name := by rw [← named]
    have middleFilename : middle.filename = none := by
      rw [← named]
      exact noFilename
    obtain ⟨multipartFilename, quoting, evaluated⟩ :=
      evaluateParameter_filename middleFilename text
    obtain ⟨last, lastTurn⟩ :=
      parameterTurn_renderParameter middle isKey_filenameKey text []
    rw [List.append_nil, evaluated] at lastTurn
    simp only [afterParameter_nil] at lastTurn
    rw [isCons, List.length_cons, parametersLoop,
      if_neg (by simp [renderParameter]), lastTurn]
    exact ⟨_, rfl, middleName, rfl⟩

def renderedHeaders (part : FormPart) : AprTable Bytes :=
  [(contentDispositionName, renderDisposition part)]

theorem removeLfCrlf_crlf (text : Bytes) : removeLfCrlf (text ++ crlf) = text := by
  have last : (text ++ crlf).getLast? = some lf := by simp [crlf]
  have first : (text ++ crlf).dropLast = text ++ [cr] := by
    rw [show crlf = [cr] ++ [lf] from rfl, ← List.append_assoc, List.dropLast_concat]
  rw [removeLfCrlf, if_pos last]
  simp only [first, List.getLast?_concat, if_true, List.dropLast_concat]

theorem processPartHeader_header {mpd : MultipartData} {mpp : MultipartPart}
    (fits : HeaderFits part) (line : mpd.buf = renderHeader part ++ crlf)
    (noHeaders : mpp.headers = []) :
    ∃ after, multipartProcessPartHeader mpd mpp = .ok after ∧
        after.mppState = mpd.mppState ∧
        after.mpp = some
            { mpp with
              headers := renderedHeaders part
              lastHeaderName := some contentDispositionName } := by
  have text := (headerText_renderHeader fits).1
  have noZero : 0 ∉ mpd.buf := by
    rw [line, List.mem_append, not_or]
    exact ⟨text, by decide⟩
  have start : ∃ rest, mpd.buf = 0x43 :: rest := by
    rw [line]
    exact ⟨_, rfl⟩
  obtain ⟨rest, first⟩ := start
  have name : mpd.buf.takeWhile (fun c => c ≠ 0x3a) = contentDispositionName := by
    rw [line, renderHeader, List.append_assoc, List.append_assoc,
      List.takeWhile_append_of_pos (by decide +kernel), List.cons_append,
      List.takeWhile_cons_of_neg (by decide), List.append_nil]
  have value : mpd.buf.dropWhile (fun c => c ≠ 0x3a) =
      0x3a :: 0x20 :: (renderDisposition part ++ crlf) := by
    rw [line, renderHeader, List.append_assoc, List.append_assoc,
      List.dropWhile_append_of_pos (by decide +kernel), List.cons_append,
      List.dropWhile_cons_of_neg (by decide)]
    rfl
  have trimmed : skipBlanks (0x20 :: (renderDisposition part ++ crlf)) =
      renderDisposition part ++ crlf := by
    have shape : ∃ others, renderDisposition part ++ crlf = 0x66 :: others := ⟨_, rfl⟩
    obtain ⟨others, shape⟩ := shape
    rw [shape, skipBlanks, List.dropWhile_cons_of_pos (by decide)]
    exact skipBlanks_of_not_blank (by decide) others
  obtain ⟨-, buf, -, -, mppState⟩ := countHeaderLine_fields mpd
  have notSpace : ¬ isSpace ((0x43 :: rest).headD 0) = true := by
    rw [List.headD_cons]
    decide
  unfold multipartProcessPartHeader
  rw [if_neg noZero]
  simp only
  rw [buf, if_neg (by rw [first]; simp [crlf, cr, lf]),
    if_neg (by rw [first]; exact notSpace)]
  unfold processHeaderLine
  rw [buf, name, value]
  simp only [trimmed, removeLfCrlf_crlf, noHeaders]
  rw [if_neg (by decide), if_neg (by decide)]
  exact ⟨_, rfl, mppState, rfl⟩

theorem processPartHeader_empty {mpd : MultipartData} {mpp : MultipartPart}
    (fits : HeaderFits part) (line : mpd.buf = crlf)
    (headers : mpp.headers = renderedHeaders part)
    (noName : mpp.name = none) (noFilename : mpp.filename = none) :
    ∃ after next, multipartProcessPartHeader mpd mpp = .ok after ∧
        after.mppState = .data ∧ after.mpp = some next ∧
        next.type = (if part.filename = none then .formData else .file) ∧
        next.name = some part.name ∧ next.filename = part.filename := by
  have found : mpp.headers.get contentDispositionName = some (renderDisposition part) := by
    rw [headers, renderedHeaders, AprTable.get_cons, if_pos rfl]
  have crude : ¬ (part.filename ≠ none ∧
      strstr (renderDisposition part) (ascii "filename=".toList) = none) := by
    rintro ⟨hasFilename, notFound⟩
    obtain ⟨text, filename⟩ := Option.ne_none_iff_exists'.mp hasFilename
    have occurs : ascii "filename=".toList <:+: renderDisposition part := by
      refine ⟨ascii "form-data;".toList ++ renderParameter nameKey part.name ++
          [0x3b, 0x20],
          doubleQuote :: (escapeQuoted text ++ [doubleQuote]), ?_⟩
      simp [renderDisposition, filename, renderFilename, renderParameter, filenameKey, ascii]
    have isFound := isSome_strstr_of_occurs occurs
    rw [notFound] at isFound
    cases isFound
  obtain ⟨-, buf, -, -, -⟩ := countHeaderLine_fields mpd
  unfold multipartProcessPartHeader
  rw [if_neg (by rw [line]; decide)]
  simp only
  rw [buf, if_pos (.inl line)]
  generalize countHeaderLine mpd = counted
  unfold processEmptyLine
  rw [found, noName, noFilename]
  simp only
  obtain ⟨cd, parsed, name, filename⟩ := parseContentDisposition_render
      ⟨none, none, counted.multipartName, counted.multipartFilename,
        counted.flags.invalidQuoting⟩
      rfl rfl fits
  rw [parsed]
  simp only [name, filename]
  rw [if_neg (by decide), if_neg (by simp), if_neg crude]
  refine ⟨_, _, rfl, rfl, rfl, ?_, rfl, rfl⟩
  rfl

end Cookbook.ModSecurity.Multipart
