import Cookbook.Lib.CText
import Cookbook.Lib.Loop
import Cookbook.Lib.Scan

/-!
# The HTML tokenizer

`libinjection_html5.c` cuts a text into the tokens of HTML.  A state function
returns a token, or nothing at the end of the text, or it calls another state
function last; such a call is a turn of a loop here.  Pointers into the text
are offsets, and a zero is behind the text.  A call in front of which the
position is behind this zero, and a failing assertion, have no result.
-/

namespace Cookbook.ModSecurity.Html5

open Cookbook.Lib

/-- `html5_type` -/
inductive TokenType where
  | dataText
  | tagNameOpen
  | tagNameClose
  | tagNameSelfclose
  | tagData
  | tagClose
  | attrName
  | attrValue
  | tagComment
  | doctype
  deriving DecidableEq

/-- `html5_flags` -/
inductive Flags where
  | dataState
  | valueNoQuote
  | valueSingleQuote
  | valueDoubleQuote
  | valueBackQuote

/-- The state functions.  Those of the three quotes differ in their quote. -/
inductive StateFunction where
  | eof
  | data
  | tagOpen
  | tagName
  | tagNameClose
  | endTagOpen
  | selfClosingStartTag
  | attributeName
  | afterAttributeName
  | beforeAttributeName
  | beforeAttributeValue
  | attributeValueQuote (qchar : UInt8)
  | attributeValueNoQuote
  | afterAttributeValueQuoted
  | comment
  | cdata
  | bogusComment
  | bogusComment2
  | markupDeclarationOpen
  | doctype

/-- `h5_state_t` -/
structure H5State where
  s : List UInt8
  pos : Nat
  isClose : Bool
  state : StateFunction
  tokenStart : Nat
  tokenLen : Nat
  tokenType : TokenType

/-- What a state function returns, or the call at its end. -/
abbrev Turn := Option (Bool × H5State) ⊕ (StateFunction × H5State)

/-- `h5_is_white`.  The zero of the searched string counts. -/
def isWhite (ch : UInt8) : Bool :=
  ([32, 9, 10, 11, 12, 13, 0] : List UInt8).contains ch

def isLetter (ch : UInt8) : Bool := 97 ≤ ch && ch ≤ 122 || 65 ≤ ch && ch ≤ 90

def doctypeName : List UInt8 := [100, 111, 99, 116, 121, 112, 101]

def cdataOpen : List UInt8 := [91, 67, 68, 65, 84, 65, 91]

namespace H5State

variable (hs : H5State)

def byte (i : Nat) : UInt8 := hs.s.getD i 0

/-- The first place since a start that passes a test, or the end. -/
def find (start : Nat) (test : Nat → Bool) : Nat :=
  Scan.up test hs.s.length start

def memchr (start : Nat) (ch : UInt8) : Nat :=
  hs.find start fun i => hs.byte i == ch

def skip (count : Nat) : H5State := { hs with pos := hs.pos + count }

def withToken (start length : Nat) (type : TokenType) (state : StateFunction)
    (pos : Nat) : H5State :=
  { hs with
    tokenStart := start, tokenLen := length, tokenType := type
    state := state, pos := pos }

def token (start length : Nat) (type : TokenType) (state : StateFunction)
    (pos : Nat) : Turn :=
  .inl (some (true, hs.withToken start length type state pos))

def ends : Turn := .inl (some (false, hs))

def call (function : StateFunction) : Turn := .inr (function, hs)

/-- `h5_skip_white`.  The byte `FF` is the character `CHAR_EOF`. -/
def skipWhite : H5State × Option UInt8 :=
  let pos := hs.find hs.pos fun i => !isWhite (hs.byte i)
  ({ hs with pos := pos },
    if pos < hs.s.length ∧ hs.byte pos ≠ 0xff then some (hs.byte pos) else none)

/-- `h5_state_data` -/
def stateData : Turn :=
  let idx := hs.memchr hs.pos 60
  if hs.s.length ≤ idx then
    let hs := hs.withToken hs.pos (hs.s.length - hs.pos) .dataText .eof hs.pos
    if hs.tokenLen = 0 then hs.ends else .inl (some (true, hs))
  else
    let hs := hs.withToken hs.pos (idx - hs.pos) .dataText .tagOpen (idx + 1)
    if hs.tokenLen = 0 then hs.call .tagOpen else .inl (some (true, hs))

/-- `h5_state_tag_open` -/
def stateTagOpen : Turn :=
  let ch := hs.byte hs.pos
  if ch = 33 then (hs.skip 1).call .markupDeclarationOpen
  else if ch = 47 then { hs.skip 1 with isClose := true }.call .endTagOpen
  else if ch = 63 then (hs.skip 1).call .bogusComment
  else if ch = 37 then (hs.skip 1).call .bogusComment2
  else if isLetter ch || ch == 0 then hs.call .tagName
  else if hs.pos = 0 then hs.call .data
  else hs.token (hs.pos - 1) 1 .dataText .data hs.pos

/-- `h5_state_end_tag_open` -/
def stateEndTagOpen : Turn :=
  let ch := hs.byte hs.pos
  if hs.s.length ≤ hs.pos then hs.ends
  else if ch = 62 then hs.call .data
  else if isLetter ch then hs.call .tagName
  else { hs with isClose := false }.call .bogusComment

/-- `h5_state_tag_name_close` -/
def stateTagNameClose : Turn :=
  { hs with isClose := false }.token hs.pos 1 .tagNameClose
    (if hs.pos + 1 < hs.s.length then .data else .eof) (hs.pos + 1)

/-- `h5_state_tag_name`.  A zero is part of the name. -/
def stateTagName : Turn :=
  let pos := hs.find hs.pos fun i =>
    hs.byte i != 0 && (isWhite (hs.byte i) || hs.byte i == 47 || hs.byte i == 62)
  let length := pos - hs.pos
  if hs.s.length ≤ pos then
    hs.token hs.pos (hs.s.length - hs.pos) .tagNameOpen .eof hs.pos
  else if isWhite (hs.byte pos) then
    hs.token hs.pos length .tagNameOpen .beforeAttributeName (pos + 1)
  else if hs.byte pos = 47 then
    hs.token hs.pos length .tagNameOpen .selfClosingStartTag (pos + 1)
  else if hs.isClose then
    { hs with isClose := false }.token hs.pos length .tagClose .data (pos + 1)
  else
    hs.token hs.pos length .tagNameOpen .tagNameClose pos

/-- `h5_state_before_attribute_name` -/
def stateBeforeAttributeName : Turn :=
  match hs.skipWhite with
  | (hs, none) => hs.ends
  | (hs, some ch) =>
    if ch = 47 then (hs.skip 1).call .selfClosingStartTag
    else if ch = 62 then
      hs.token hs.pos 1 .tagNameClose .data (hs.pos + 1)
    else hs.call .attributeName

/-- `h5_state_attribute_name` -/
def stateAttributeName : Turn :=
  let pos := hs.find (hs.pos + 1) fun i =>
    isWhite (hs.byte i) || hs.byte i == 47 || hs.byte i == 61 || hs.byte i == 62
  let length := pos - hs.pos
  if hs.s.length ≤ pos then
    hs.token hs.pos (hs.s.length - hs.pos) .attrName .eof hs.s.length
  else if isWhite (hs.byte pos) then
    hs.token hs.pos length .attrName .afterAttributeName (pos + 1)
  else if hs.byte pos = 47 then
    hs.token hs.pos length .attrName .selfClosingStartTag (pos + 1)
  else if hs.byte pos = 61 then
    hs.token hs.pos length .attrName .beforeAttributeValue (pos + 1)
  else
    hs.token hs.pos length .attrName .tagNameClose pos

/-- `h5_state_after_attribute_name` -/
def stateAfterAttributeName : Turn :=
  match hs.skipWhite with
  | (hs, none) => hs.ends
  | (hs, some c) =>
    if c = 47 then (hs.skip 1).call .selfClosingStartTag
    else if c = 61 then (hs.skip 1).call .beforeAttributeValue
    else if c = 62 then hs.call .tagNameClose
    else hs.call .attributeName

/-- `h5_state_before_attribute_value` -/
def stateBeforeAttributeValue : Turn :=
  match hs.skipWhite with
  | (hs, none) => { hs with state := .eof }.ends
  | (hs, some c) =>
    if c = 34 ∨ c = 39 ∨ c = 96 then hs.call (.attributeValueQuote c)
    else hs.call .attributeValueNoQuote

/-- `h5_state_attribute_value_quote`.  The quote is skipped unless the text
begins with the value. -/
def stateAttributeValueQuote (qchar : UInt8) : Turn :=
  let hs := if 0 < hs.pos then hs.skip 1 else hs
  let idx := hs.memchr hs.pos qchar
  if hs.s.length < hs.pos then .inl none
  else if hs.s.length ≤ idx then
    hs.token hs.pos (hs.s.length - hs.pos) .attrValue .eof hs.pos
  else
    hs.token hs.pos (idx - hs.pos) .attrValue .afterAttributeValueQuoted (idx + 1)

/-- `h5_state_attribute_value_no_quote` -/
def stateAttributeValueNoQuote : Turn :=
  let pos := hs.find hs.pos fun i => isWhite (hs.byte i) || hs.byte i == 62
  if hs.s.length ≤ pos then
    hs.token hs.pos (hs.s.length - hs.pos) .attrValue .eof hs.pos
  else if isWhite (hs.byte pos) then
    hs.token hs.pos (pos - hs.pos) .attrValue .beforeAttributeName (pos + 1)
  else
    hs.token hs.pos (pos - hs.pos) .attrValue .tagNameClose pos

/-- `h5_state_after_attribute_value_quoted_state` -/
def stateAfterAttributeValueQuoted : Turn :=
  let ch := hs.byte hs.pos
  if hs.s.length ≤ hs.pos then hs.ends
  else if isWhite ch then (hs.skip 1).call .beforeAttributeName
  else if ch = 47 then (hs.skip 1).call .selfClosingStartTag
  else if ch = 62 then hs.token hs.pos 1 .tagNameClose .data (hs.pos + 1)
  else hs.call .beforeAttributeName

/-- `h5_state_self_closing_start_tag` -/
def stateSelfClosingStartTag : Turn :=
  if hs.s.length ≤ hs.pos then hs.ends
  else if hs.byte hs.pos = 62 then
    if hs.pos = 0 then .inl none
    else hs.token (hs.pos - 1) 2 .tagNameSelfclose .data (hs.pos + 1)
  else hs.call .beforeAttributeName

/-- A token ends in front of an ending, or at the end of the text. -/
def upTo (idx ending : Nat) (type : TokenType) (atEnd : Nat) : Turn :=
  if hs.s.length ≤ idx then
    hs.token hs.pos (hs.s.length - hs.pos) type .eof atEnd
  else
    hs.token hs.pos (idx - hs.pos) type .data (idx + ending)

/-- `h5_state_bogus_comment` -/
def stateBogusComment : Turn :=
  hs.upTo (hs.memchr hs.pos 62) 1 .tagComment hs.s.length

/-- `h5_state_bogus_comment2` tries one percent sign after the other. -/
def stateBogusComment2 : Turn :=
  let idx := hs.find hs.pos fun i =>
    hs.byte i == 37 && i + 1 < hs.s.length && hs.byte (i + 1) == 62
  hs.upTo idx 2 .tagComment hs.s.length

/-- `h5_state_markup_declaration_open` -/
def stateMarkupDeclarationOpen : Turn :=
  let behind := hs.s.drop hs.pos
  if CText.foldCase (behind.take 7) = doctypeName then hs.call .doctype
  else if behind.take 7 = cdataOpen then (hs.skip 7).call .cdata
  else if behind.take 2 = [45, 45] then (hs.skip 2).call .comment
  else hs.call .bogusComment

/-- `h5_state_comment` tries one dash after the other, as long as three
characters are left. -/
def stateComment : Turn :=
  let idx := hs.find hs.pos fun i =>
    hs.byte i == 45 && i + 3 ≤ hs.s.length &&
      (hs.byte (i + 1) == 45 || hs.byte (i + 1) == 33) &&
      hs.byte (i + 2) == 62
  hs.upTo idx 3 .tagComment hs.pos

/-- `h5_state_cdata` -/
def stateCdata : Turn :=
  let idx := hs.find hs.pos fun i =>
    hs.byte i == 93 && i + 3 ≤ hs.s.length && hs.byte (i + 1) == 93 && hs.byte (i + 2) == 62
  hs.upTo idx 3 .dataText hs.pos

/-- `h5_state_doctype` -/
def stateDoctype : Turn :=
  hs.upTo (hs.memchr hs.pos 62) 1 .doctype hs.pos

end H5State

def StateFunction.run (hs : H5State) : StateFunction → Turn
  | .eof => hs.ends
  | .data => hs.stateData
  | .tagOpen => hs.stateTagOpen
  | .tagName => hs.stateTagName
  | .tagNameClose => hs.stateTagNameClose
  | .endTagOpen => hs.stateEndTagOpen
  | .selfClosingStartTag => hs.stateSelfClosingStartTag
  | .attributeName => hs.stateAttributeName
  | .afterAttributeName => hs.stateAfterAttributeName
  | .beforeAttributeName => hs.stateBeforeAttributeName
  | .beforeAttributeValue => hs.stateBeforeAttributeValue
  | .attributeValueQuote qchar => hs.stateAttributeValueQuote qchar
  | .attributeValueNoQuote => hs.stateAttributeValueNoQuote
  | .afterAttributeValueQuoted => hs.stateAfterAttributeValueQuoted
  | .comment => hs.stateComment
  | .cdata => hs.stateCdata
  | .bogusComment => hs.stateBogusComment
  | .bogusComment2 => hs.stateBogusComment2
  | .markupDeclarationOpen => hs.stateMarkupDeclarationOpen
  | .doctype => hs.stateDoctype

namespace H5State

def turn : StateFunction × H5State → Turn
  | (function, hs) =>
    if hs.s.length < hs.pos then .inl none else function.run hs

/-- `libinjection_h5_init` -/
def init (s : List UInt8) (flags : Flags) : H5State where
  s := s
  pos := 0
  isClose := false
  state :=
    match flags with
    | .dataState => .data
    | .valueNoQuote => .beforeAttributeName
    | .valueSingleQuote => .attributeValueQuote 39
    | .valueDoubleQuote => .attributeValueQuote 34
    | .valueBackQuote => .attributeValueQuote 96
  tokenStart := 0
  tokenLen := 0
  tokenType := .dataText

/-- `libinjection_h5_next` -/
def next (hs : H5State) : Option (Bool × H5State) :=
  (Loop.run turn (4 * hs.s.length + 4) (hs.state, hs)).join

structure Token where
  type : TokenType
  start : Nat
  length : Nat
  deriving DecidableEq

/-- The tokens that the loop of `libinjection_is_xss` looks at. -/
def tokens : Nat → H5State → Option (List Token)
  | 0, _ => none
  | fuel + 1, hs =>
    match hs.next with
    | none => none
    | some (false, _) => some []
    | some (true, hs) =>
      (tokens fuel hs).map (⟨hs.tokenType, hs.tokenStart, hs.tokenLen⟩ :: ·)

end H5State

end Cookbook.ModSecurity.Html5
