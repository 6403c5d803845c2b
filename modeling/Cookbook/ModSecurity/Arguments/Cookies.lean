import Mathlib.Data.List.Induction
import Cookbook.Lib.Loop
import Cookbook.ModSecurity.AprTable
import Cookbook.ModSecurity.Text.Hex

/-!
# Version 1 cookies

`parse_cookies_v1` takes a cookie header apart in place: separators are written
over with zeros, so that names and values become strings of the buffer, and
white space at their ends is taken off.
-/

namespace Cookbook.ModSecurity.Cookies

open Cookbook.Lib Cookbook.Lib.CText
open Cookbook.ModSecurity.Text (Bytes)

def quote : UInt8 := 0x22

def dollar : UInt8 := 0x24

def equals : UInt8 := 0x3d

/-- `,` or `;` -/
def isSeparator (c : UInt8) : Bool :=
  c = 0x2c || c = 0x3b

def inName (c : UInt8) : Bool := c ≠ 0 && c ≠ equals && !isSeparator c

def inQuotes (c : UInt8) : Bool := c ≠ 0 && c ≠ quote

/-- The bytes of a value without quotes. -/
def inValue (c : UInt8) : Bool := c ≠ 0 && !isSeparator c

def inGap (c : UInt8) : Bool := isSeparator c || isSpace c

/-- The variables of the loop, with pointers as offsets from
`cookie_header`. -/
structure CookieParsing where
  buf : Bytes
  p : Nat
  prevAttrName : Option Nat
  cookies : AprTable Bytes
  cookieCount : Nat

section

variable (buf : Bytes)

/-- `*p`, of a buffer that ends with a zero. -/
def cell (p : Nat) : UInt8 := buf.getD p 0

/-- `while (condition(*p)) p++` -/
def scan (condition : UInt8 → Bool) (p : Nat) : Nat :=
  p + ((buf.drop p).takeWhile condition).length

def stringAt (p : Nat) : Bytes := cString (buf.drop p)

/-- `if (*p != 0) *p++ = 0` -/
def terminate (p : Nat) : Bytes × Nat :=
  if cell buf p ≠ 0 then (buf.set p 0, p + 1) else (buf, p)

end

/-- `while((i-- > 0)&&(isspace(*(--t)))) *t = 0` -/
def trimLoop : Nat → Nat → Bytes → Bytes
  | 0, _, buf => buf
  | i + 1, t, buf =>
    if isSpace (cell buf (t - 1)) then
      trimLoop i (t - 1) (buf.set (t - 1) 0)
    else buf

/-- Remove the white space from the end of a string.  Its bytes are counted in
an `int`. -/
def trim (buf : Bytes) (start : Nat) : Bytes :=
  let length := (stringAt buf start).length
  trimLoop (wrapInt length).toNat (start + length) buf

/-- The name of a table entry: we change the name of a cookie keyword, so
they can have a unique name in the cookie table. -/
def keywordName (buf : Bytes) (prevAttrName : Option Nat) (name : Bytes) :
    Bytes :=
  if name.head? = some dollar then
    match prevAttrName with
    | some prev => dollar :: stringAt buf prev ++ 0x5f :: name.drop 1
    | none => name
  else name

/-- What follows the label `add_cookie`. -/
def addCookie (state : CookieParsing) (buf : Bytes) (p attrName : Nat)
    (attrValue : Option Nat) : CookieParsing :=
  let buf := trim buf attrName
  let name := stringAt buf attrName
  let value := (attrValue.map (stringAt buf)).getD []
  let state :=
    if name ≠ [] then
      let renamed := keywordName buf state.prevAttrName name
      { state with
        cookies := state.cookies.addn renamed value
        cookieCount := state.cookieCount + 1
        -- only keep the cookie names for later
        prevAttrName :=
          if renamed.head? ≠ some dollar then some attrName
          else state.prevAttrName }
    else state
  { state with buf := buf, p := scan buf inGap p }

/-- The value, with `p` behind the equals sign. -/
def turnValue (state : CookieParsing) (buf : Bytes) (p attrName : Nat) :
    CookieParsing :=
  let p := scan buf isSpace p
  if cell buf p = 0 then
    addCookie state buf p attrName none
  else if cell buf p = quote then
    if cell buf (p + 1) = 0 then
      addCookie state buf (p + 1) attrName none
    else
      let (buf, next) := terminate buf (scan buf inQuotes (p + 1))
      addCookie state buf next attrName (some (p + 1))
  else
    let (buf, next) := terminate buf (scan buf inValue p)
    addCookie state (trim buf p) next attrName (some p)

def turn (state : CookieParsing) : CookieParsing :=
  let buf := state.buf
  let attrName := scan buf isSpace state.p
  let p := scan buf inName attrName
  if cell buf p = 0 then
    addCookie state buf p attrName none
  else if isSeparator (cell buf p) then
    addCookie state (buf.set p 0) (p + 1) attrName none
  else
    turnValue state (buf.set p 0) (p + 1) attrName

def body (state : CookieParsing) : CookieParsing ⊕ CookieParsing :=
  if cell state.buf state.p ≠ 0 then .inr (turn state) else .inl state

def start (cookieHeader : Bytes) (cookies : AprTable Bytes) :
    CookieParsing where
  buf := cookieHeader ++ [0]
  p := 0
  prevAttrName := none
  cookies := cookies
  cookieCount := 0

/-- `parse_cookies_v1`: the table of cookies and the result. -/
def parseCookiesV1 (cookieHeader : Bytes) (cookies : AprTable Bytes) :
    Option (AprTable Bytes × Int) :=
  (Loop.run body (cookieHeader.length + 1) (start cookieHeader cookies)).map
    fun final => (final.cookies, wrapInt final.cookieCount)

/-- The bytes of a name: no zero, no white space and none of `=;,`. -/
def isNameByte (c : UInt8) : Bool :=
  inName c && !isSpace c

abbrev Spaces := { text : Bytes // ∀ c ∈ text, isSpace c = true }

abbrev Gap := { text : Bytes // ∀ c ∈ text, inGap c = true }

/-- A value without quotes: not empty, not starting with a quote, without
separators and without white space at its ends. -/
structure BareText where
  text : Bytes
  all : ∀ c ∈ text, inValue c = true
  nonempty : text ≠ []
  notQuoted : text.head? ≠ some quote
  first : ∀ c ∈ text.head?, isSpace c = false
  last : ∀ c ∈ text.getLast?, isSpace c = false

inductive Value where
  | bare (text : BareText)
  | quoted (text : { text : Bytes // ∀ c ∈ text, inQuotes c = true })

def Value.text : Value → Bytes
  | .bare text => text.text
  | .quoted text => text.1

def Value.rendered : Value → Bytes
  | .bare text => text.text
  | .quoted text => quote :: text.1 ++ [quote]

/-- What is sent behind a name, with the white space around `=` and the
separators and white space behind it. -/
structure Sent where
  value : Value
  beforeEquals : Spaces
  behindEquals : Spaces
  gap : Gap

def Sent.rendered (sent : Sent) : Bytes := sent.beforeEquals.1 ++ equals ::
    (sent.behindEquals.1 ++ (sent.value.rendered ++ sent.gap.1))

/-- A cookie with its attributes, whose names are sent behind a `$`. -/
structure Cookie where
  name : { text : Bytes // text ≠ [] ∧ text.head? ≠ some dollar ∧
    ∀ c ∈ text, isNameByte c = true }
  sent : Sent
  attributes : List ({ text : Bytes // ∀ c ∈ text, isNameByte c = true } × Sent)

def Cookie.items (cookie : Cookie) : List (Bytes × Sent) :=
  (cookie.name.1, cookie.sent) :: cookie.attributes.map fun other =>
      (dollar :: other.1.1, other.2)

def Cookie.entries (cookie : Cookie) : List (Bytes × Bytes) :=
  (cookie.name.1, cookie.sent.value.text) :: cookie.attributes.map fun other =>
      (dollar :: cookie.name.1 ++ 0x5f :: other.1.1, other.2.value.text)

structure Header where
  lead : Spaces
  cookies : List Cookie
  separated : ∀ item ∈ (cookies.flatMap Cookie.items).dropLast,
      ∃ c ∈ item.2.gap.1, isSeparator c = true

def Header.rendered (header : Header) : Bytes := header.lead.1 ++
    (header.cookies.flatMap Cookie.items).flatMap fun item =>
      item.1 ++ item.2.rendered

def AddsCookies (header : Header) (cookies : AprTable Bytes) : Prop := ∃ result,
    parseCookiesV1 header.rendered cookies =
      some (cookies ++ header.cookies.flatMap Cookie.entries, result)

section

variable {front text rest : Bytes} {c : UInt8}

theorem cell_append (front : Bytes) (c : UInt8) (rest : Bytes) :
    cell (front ++ c :: rest) front.length = c := by
  rw [cell, List.getD_eq_getElem?_getD, List.getElem?_append_right le_rfl, Nat.sub_self]
  rfl

theorem set_append (front : Bytes) (c : UInt8) (rest : Bytes) (new : UInt8) :
    (front ++ c :: rest).set front.length new = front ++ new :: rest := by
  rw [List.set_append_right _ _ le_rfl, Nat.sub_self]
  rfl

theorem scan_append {condition : UInt8 → Bool} (front : Bytes)
    (all : ∀ byte ∈ text, condition byte = true)
    (stops : condition c = false) (rest : Bytes) :
    scan (front ++ (text ++ c :: rest)) condition front.length = (front ++ text).length := by
  rw [scan, List.drop_left, List.takeWhile_append_of_pos all,
    List.takeWhile_cons_of_neg (by simp [stops]), List.append_nil,
    List.length_append]

theorem stringAt_append (front : Bytes) (noNul : 0 ∉ text) (rest : Bytes) :
    stringAt (front ++ (text ++ 0 :: rest)) front.length = text := by
  rw [stringAt, List.drop_left, cString_append_zero noNul]

def trimTimes : Nat → Bytes → Bytes
  | 0, text => text
  | i + 1, text =>
    if text.getLast?.any isSpace then trimTimes i text.dropLast else text

def trimmed (text : Bytes) : Bytes := trimTimes (wrapInt text.length).toNat text

def trimmedPlace (text : Bytes) : Bytes := trimmed text ++
    List.replicate (text.length - (trimmed text).length) 0

theorem length_trimTimes_le (i : Nat) (text : Bytes) :
    (trimTimes i text).length ≤ text.length := by
  induction i generalizing text with
  | zero => exact le_rfl
  | succ i ih =>
    rw [trimTimes]
    split
    · exact (ih _).trans (List.dropLast_sublist _).length_le
    · exact le_rfl

theorem length_trimmedPlace (text : Bytes) : (trimmedPlace text).length = text.length := by
  have le := length_trimTimes_le (wrapInt text.length).toNat text
  rw [trimmedPlace, List.length_append, List.length_replicate, trimmed]
  omega

theorem trimLoop_append
    {i : Nat} (enough : i ≤ text.length) (front rest : Bytes) :
    trimLoop i (front.length + text.length) (front ++ (text ++ rest)) = front ++
        (trimTimes i text ++ List.replicate (text.length - (trimTimes i text).length) 0 ++
          rest) := by
  induction i generalizing text rest with
  | zero => simp [trimLoop, trimTimes]
  | succ i ih =>
    obtain ⟨init, last, rfl⟩ := (List.eq_nil_or_concat' text).resolve_left
        (by rintro rfl; cases enough)
    rw [List.length_append, List.length_singleton] at enough
    have place : front.length + (init ++ [last]).length - 1 = (front ++ init).length := by
      rw [List.length_append, List.length_append, List.length_singleton]
      omega
    have split : front ++ (init ++ [last] ++ rest) = (front ++ init) ++ last :: rest :=
      by simp only [List.append_assoc, List.singleton_append]
    rw [trimLoop, place, split, cell_append, set_append, trimTimes,
      List.getLast?_concat, Option.any_some, List.dropLast_concat]
    by_cases space : isSpace last = true
    · have le := length_trimTimes_le i init
      have more : (init ++ [last]).length - (trimTimes i init).length =
          init.length - (trimTimes i init).length + 1 := by
        rw [List.length_append, List.length_singleton]
        omega
      rw [if_pos space, if_pos space, List.length_append, List.append_assoc front,
        ih (Nat.le_of_succ_le_succ enough), more,
        List.replicate_succ']
      simp only [List.append_assoc, List.singleton_append]
    · rw [if_neg space, if_neg space, Nat.sub_self]
      simp only [List.append_assoc, List.replicate_zero, List.singleton_append]

theorem toNat_wrapInt_le (number : Nat) : (wrapInt number).toNat ≤ number := by
  have range := wrapInt_range (number : Int)
  by_cases short : number < 2 ^ 31
  · rw [wrapInt_of_range (by omega) (by omega), Int.toNat_natCast]
  · omega

theorem trim_append (front : Bytes) (noNul : 0 ∉ text) (rest : Bytes) :
    trim (front ++ (text ++ 0 :: rest)) front.length =
      front ++ (trimmedPlace text ++ 0 :: rest) := by
  rw [trim, stringAt_append front noNul, trimLoop_append (toNat_wrapInt_le text.length)]
  rfl

variable {core spaces name : Bytes}

theorem trimTimes_append (last : ∀ c ∈ core.getLast?, isSpace c = false)
    (all : ∀ c ∈ spaces, isSpace c = true) (i : Nat) :
    trimTimes i (core ++ spaces) = core ++ spaces.take (spaces.length - i) := by
  induction i generalizing spaces with
  | zero => rw [trimTimes, Nat.sub_zero, List.take_length]
  | succ i ih =>
    cases spaces using List.reverseRecOn with
    | nil =>
      rw [List.append_nil, trimTimes, if_neg]
      · simp
      · cases isLast : core.getLast? with
        | none => simp
        | some c => simp [last c isLast]
    | append_singleton spaces c =>
      rw [List.forall_mem_append] at all
      have space : isSpace c = true := all.2 c List.mem_cons_self
      rw [← List.append_assoc, trimTimes, List.getLast?_concat,
        Option.any_some, if_pos space, List.dropLast_concat,
        ih all.1, List.length_append,
        List.length_singleton, Nat.add_sub_add_right,
        List.take_append_of_le_length (Nat.sub_le _ _)]

def leftOver (core spaces : Bytes) : Bytes :=
  spaces.take (spaces.length - (wrapInt (core ++ spaces).length).toNat)

theorem trimmed_append (last : ∀ c ∈ core.getLast?, isSpace c = false)
    (all : ∀ c ∈ spaces, isSpace c = true) :
    trimmed (core ++ spaces) = core ++ leftOver core spaces :=
  trimTimes_append last all _

theorem leftOver_eq_nil_iff : leftOver core spaces = [] ↔
    spaces.length ≤ (wrapInt (core ++ spaces).length).toNat := by
  rw [leftOver, List.take_eq_nil_iff, ← List.length_eq_zero_iff]
  omega

/-! ## What is read -/

def readItem (item : Bytes × Sent) : Bytes × Bytes :=
  (item.1 ++ leftOver item.1 item.2.beforeEquals.1,
    match item.2.value with
    | .bare text =>
      text.text ++ leftOver text.text (item.2.gap.1.takeWhile isSpace)
    | .quoted text => text.1)

def entryName (last : Option Bytes) (name : Bytes) : Bytes :=
  if name.head? = some dollar then
    match last with
    | some last => dollar :: last ++ 0x5f :: name.drop 1
    | none => name
  else name

def nextLast (last : Option Bytes) (name : Bytes) : Option Bytes :=
  if name.head? = some dollar then last else some name

def entriesBehind (read : Bytes × Sent → Bytes × Bytes) :
    Option Bytes → List (Bytes × Sent) → List (Bytes × Bytes)
  | _, [] => []
  | last, item :: items =>
    (entryName last (read item).1, (read item).2) ::
      entriesBehind read (nextLast last (read item).1) items

def Remembers (done : Bytes) : Option Nat → Option Bytes → Prop
  | none, none => True
  | some place, some last =>
    ∃ before behind, done = before ++ (last ++ 0 :: behind) ∧ place = before.length ∧ 0 ∉ last
  | _, _ => False

theorem Remembers.stringAt {done last : Bytes} {place : Nat}
    (remembers : Remembers done (some place) (some last)) (rest : Bytes) :
    stringAt (done ++ rest) place = last := by
  obtain ⟨before, behind, rfl, rfl, noNul⟩ := remembers
  rw [List.append_assoc, List.append_assoc, List.cons_append, stringAt_append before noNul]

theorem Remembers.append
    {done : Bytes} {prev : Option Nat} {last : Option Bytes}
    (remembers : Remembers done prev last) (more : Bytes) :
    Remembers (done ++ more) prev last := by
  match prev, last, remembers with
  | none, none, _ => trivial
  | some place, some last, remembers =>
    obtain ⟨before, behind, rfl, isPlace, noNul⟩ := remembers
    refine ⟨before, behind ++ more, ?_, isPlace, noNul⟩
    simp only [List.append_assoc, List.cons_append]

structure Reads (state : CookieParsing) (done rest : Bytes)
    (last : Option Bytes) : Prop where
  buf : state.buf = done ++ rest
  p : state.p = done.length
  prev : Remembers done state.prevAttrName last

variable {state : CookieParsing} {done : Bytes} {last : Option Bytes}

def Resumes (rest : Bytes) : Prop :=
  ∃ c tail, rest = c :: tail ∧ inGap c = false

theorem zeros_append (count : Nat) (rest : Bytes) : List.replicate count 0 ++ 0 :: rest =
    0 :: (List.replicate count 0 ++ rest) := by
  rw [← List.singleton_append, ← List.append_assoc, ← List.replicate_succ', List.replicate_succ]
  rfl

theorem keywordName_append
    {prev : Option Nat} (remembers : Remembers done prev last)
    (rest : Bytes) : keywordName (done ++ rest) prev name = entryName last name
    := by
  rw [keywordName.eq_def, entryName.eq_def]
  match prev, last, remembers with
  | none, none, _ => rfl
  | some place, some last, remembers =>
    dsimp only
    rw [remembers.stringAt]

theorem head_entryName (last : Option Bytes) (name : Bytes) :
    (entryName last name).head? = some dollar ↔ name.head? = some dollar := by
  rw [entryName.eq_def]
  split
  · rename_i special
    cases last with
    | none => rfl
    | some last => exact iff_of_true rfl special
  · rfl

theorem addCookie_append {D be R G rest : Bytes} {k : Nat} {value : Bytes}
    (remembers : Remembers D state.prevAttrName last)
    (nonempty : name ≠ []) (noNul : 0 ∉ name ++ be)
    (endsName : ∀ c ∈ name.getLast?, isSpace c = false)
    (spaces : ∀ c ∈ be, isSpace c = true)
    (gap : ∀ c ∈ G, inGap c = true) (resumes : Resumes rest)
    (isValue : cString ((R ++ (G ++ rest)).drop k) = value) :
    let read := name ++ leftOver name be
    let next := addCookie state (D ++ (name ++ be ++ 0 :: (R ++ (G ++ rest))))
        ((D ++ (name ++ be)).length + 1 + R.length) D.length
        (some ((D ++ (name ++ be)).length + 1 + k))
    ∃ done', Reads next done' rest (nextLast last read) ∧
        next.cookies = state.cookies ++ [(entryName last read, value)] := by
  intro read next
  obtain ⟨c, tail, rfl, stops⟩ := resumes
  have isRead : trimmed (name ++ be) = read := trimmed_append endsName spaces
  have readNonempty : read ≠ [] := fun isNil => nonempty (List.append_eq_nil_iff.mp isNil).1
  have sameHead : read.head? = name.head? := List.head?_append_of_ne_nil _ nonempty
  have noNulRead : 0 ∉ read := fun inside => by
    rcases List.mem_append.mp inside with inName | inSpaces
    · exact noNul (List.mem_append_left _ inName)
    · exact noNul (List.mem_append_right _ (List.mem_of_mem_take inSpaces))
  have size := length_trimmedPlace (name ++ be)
  -- the buffer when the name is trimmed
  have isBuf : trim (D ++ (name ++ be ++ 0 :: (R ++ (G ++ c :: tail)))) D.length =
      (D ++ (trimmedPlace (name ++ be) ++ 0 :: R)) ++ (G ++ c :: tail) := by
    rw [trim_append D noNul]
    simp only [List.append_assoc, List.cons_append]
  have isName : stringAt ((D ++ (trimmedPlace (name ++ be) ++ 0 :: R)) ++ (G ++ c :: tail))
      D.length = read := by
    rw [trimmedPlace, isRead, List.append_assoc, List.append_assoc,
      List.append_assoc, List.cons_append, zeros_append,
      stringAt_append D noNulRead]
  have isValueAt : stringAt
      ((D ++ (trimmedPlace (name ++ be) ++ 0 :: R)) ++ (G ++ c :: tail))
      ((D ++ (name ++ be)).length + 1 + k) = value := by
    have split : (D ++ (trimmedPlace (name ++ be) ++ 0 :: R)) ++ (G ++ c :: tail) =
        (D ++ (trimmedPlace (name ++ be) ++ [0])) ++ (R ++ (G ++ c :: tail)) := by
      simp only [List.append_assoc, List.cons_append, List.nil_append]
    have place : (D ++ (name ++ be)).length + 1 =
        (D ++ (trimmedPlace (name ++ be) ++ [0])).length := by
      simp only [List.length_append, size, List.length_singleton]
      omega
    rw [stringAt, split, place, ← List.drop_drop, List.drop_left, isValue]
  have isPlace : (D ++ (name ++ be)).length + 1 + R.length =
      (D ++ (trimmedPlace (name ++ be) ++ 0 :: R)).length := by
    simp only [List.length_append, size, List.length_cons]
    omega
  have isEntry : keywordName
      ((D ++ (trimmedPlace (name ++ be) ++ 0 :: R)) ++ (G ++ c :: tail))
      state.prevAttrName read = entryName last read := by
    rw [List.append_assoc, keywordName_append remembers]
  have isNext : next =
      { buf :=
          (D ++ (trimmedPlace (name ++ be) ++ 0 :: R)) ++ (G ++ c :: tail)
        p := ((D ++ (trimmedPlace (name ++ be) ++ 0 :: R)) ++ G).length
        prevAttrName := if (entryName last read).head? ≠ some dollar then some D.length
          else state.prevAttrName
        cookies := state.cookies.addn (entryName last read) value
        cookieCount := state.cookieCount + 1 } := by
    change addCookie _ _ _ _ _ = _
    unfold addCookie
    simp only [isBuf, isName, Option.map_some, Option.getD_some, isValueAt,
      readNonempty, ne_eq, not_false_eq_true, if_true, isEntry, isPlace,
      scan_append _ gap stops]
  refine ⟨(D ++ (trimmedPlace (name ++ be) ++ 0 :: R)) ++ G, ⟨?_, ?_, ?_⟩, ?_⟩
  · rw [isNext]
    simp only [List.append_assoc]
  · rw [isNext]
  · rw [isNext, nextLast]
    dsimp only
    by_cases special : read.head? = some dollar
    · rw [if_pos special, if_neg (not_not.mpr ((head_entryName _ _).mpr special)),
        List.append_assoc]
      exact remembers.append _
    · rw [if_neg special, if_pos (mt (head_entryName _ _).mp special)]
      refine ⟨D, List.replicate ((name ++ be).length - read.length) 0 ++ (R ++ G),
          ?_, rfl, noNulRead⟩
      rw [trimmedPlace, isRead]
      simp only [List.append_assoc, zeros_append, List.cons_append]
  · rw [isNext]
    rfl

theorem byteClasses (c : UInt8) :
    (isSpace c = true → inValue c = true ∧ inName c = true ∧ c ≠ 0 ∧ isSeparator c = false) ∧
      (inGap c = true → isSpace c = false → isSeparator c = true) ∧
      (isSeparator c = true → inValue c = false ∧ c ≠ 0) :=
  Bits.forall_byte (fun c =>
      (isSpace c = true → inValue c = true ∧ inName c = true ∧ c ≠ 0 ∧ isSeparator c = false) ∧
        (inGap c = true → isSpace c = false → isSeparator c = true) ∧
        (isSeparator c = true → inValue c = false ∧ c ≠ 0))
    (by decide +kernel) c

theorem cString_trimmedPlace
    {text : Bytes} (noNul : 0 ∉ trimmed text) (rest : Bytes) :
    cString (trimmedPlace text ++ 0 :: rest) = trimmed text := by
  rw [trimmedPlace, List.append_assoc, zeros_append, cString_append_zero noNul]

structure ReadsValue (turned : CookieParsing) (state : CookieParsing)
    (F rest : Bytes) (attrName : Nat) (value R G : Bytes) (k : Nat) : Prop where
  turned : turned =
      addCookie state (F ++ (R ++ (G ++ rest))) (F.length + R.length) attrName
        (some (F.length + k))
  gap : ∀ c ∈ G, inGap c = true
  value : cString ((R ++ (G ++ rest)).drop k) = value

/-- A turn of the loop reads a quoted value up to its second quote. -/
theorem turnValue_quoted {F text gap : Bytes} (attrName : Nat)
    (isSpaces : ∀ c ∈ spaces, isSpace c = true) (quoted : ∀ c ∈ text, inQuotes c = true)
    (isGap : ∀ c ∈ gap, inGap c = true) :
    ReadsValue (turnValue state
        (F ++ (spaces ++ (quote :: text ++ [quote] ++ (gap ++ rest)))) F.length
        attrName)
      state F rest attrName text (spaces ++ quote :: (text ++ [0])) gap
      (spaces.length + 1) := by
  have noNul : 0 ∉ text := fun inside => by
    have := quoted 0 inside
    simp [inQuotes] at this
  have opening : F ++ (spaces ++ (quote :: text ++ [quote] ++ (gap ++ rest))) =
      (F ++ spaces) ++ quote :: (text ++ quote :: (gap ++ rest)) := by
    simp only [List.append_assoc, List.cons_append, List.nil_append]
  have first : scan ((F ++ spaces) ++ quote :: (text ++ quote :: (gap ++ rest))) isSpace
      F.length = (F ++ spaces).length := by
    rw [List.append_assoc]
    exact scan_append F isSpaces (by decide) _
  have shifted : (F ++ spaces) ++ quote :: (text ++ quote :: (gap ++ rest)) =
      (F ++ spaces ++ [quote]) ++ (text ++ quote :: (gap ++ rest)) := by
    simp only [List.append_assoc, List.cons_append, List.nil_append]
  have place : (F ++ spaces).length + 1 = (F ++ spaces ++ [quote]).length := by
    simp only [List.length_append, List.length_singleton]
  have second : cell ((F ++ spaces ++ [quote]) ++ (text ++ quote :: (gap ++ rest)))
      (F ++ spaces ++ [quote]).length ≠ 0 := by
    cases text with
    | nil =>
      rw [List.nil_append, cell_append]
      decide
    | cons c text =>
      rw [List.cons_append, cell_append]
      exact fun isNul => noNul (isNul ▸ List.mem_cons_self)
  have closing : scan ((F ++ spaces ++ [quote]) ++ (text ++ quote :: (gap ++ rest)))
      inQuotes (F ++ spaces ++ [quote]).length = (F ++ spaces ++ [quote] ++ text).length :=
    scan_append _ quoted (by decide) _
  have ended : terminate ((F ++ spaces ++ [quote]) ++ (text ++ quote :: (gap ++ rest)))
      (F ++ spaces ++ [quote] ++ text).length =
        ((F ++ spaces ++ [quote] ++ text) ++ 0 :: (gap ++ rest),
          (F ++ spaces ++ [quote] ++ text).length + 1) := by
    rw [terminate, ← List.append_assoc _ text, cell_append, set_append, if_pos (by decide)]
  have sameBuf : (F ++ spaces ++ [quote] ++ text) ++ 0 :: (gap ++ rest) =
      F ++ ((spaces ++ quote :: (text ++ [0])) ++ (gap ++ rest)) := by
    simp only [List.append_assoc, List.cons_append, List.nil_append]
  have sameEnd : (F ++ spaces ++ [quote] ++ text).length + 1 =
      F.length + (spaces ++ quote :: (text ++ [0])).length := by
    simp only [List.length_append, List.length_cons, List.length_nil]
    omega
  have sameStart : (F ++ spaces ++ [quote]).length = F.length + (spaces.length + 1) := by
    simp only [List.length_append, List.length_cons, List.length_nil]
    omega
  refine ⟨?_, isGap, ?_⟩
  · rw [turnValue]
    dsimp only
    rw [opening, first, cell_append, if_neg (by decide), if_pos rfl, shifted,
      place, if_neg second, closing, ended]
    dsimp only
    rw [sameBuf, sameEnd, sameStart]
  · rw [List.append_assoc, ← List.drop_drop, List.drop_left, List.cons_append,
      List.drop_succ_cons, List.drop_zero, List.append_assoc]
    exact cString_append_zero noNul _

/-- A turn of the loop reads a bare value, and drops the white space behind it
if the count has not wrapped. -/
theorem turnValue_bare {F gap : Bytes} (text : BareText) (attrName : Nat)
    (isSpaces : ∀ c ∈ spaces, isSpace c = true) (isGap : ∀ c ∈ gap, inGap c = true)
    (separated : (∃ c ∈ gap, isSeparator c = true) ∨ rest = [0]) :
    ∃ R G, ReadsValue (turnValue state
        (F ++ (spaces ++ (text.text ++ (gap ++ rest)))) F.length attrName)
        state F rest attrName
        (text.text ++ leftOver text.text (gap.takeWhile isSpace)) R G
        spaces.length := by
  have nulFree : 0 ∉ text.text := fun inside => by
    have := text.all 0 inside
    simp [inValue] at this
  have split := List.takeWhile_append_dropWhile (p := isSpace) (l := gap)
  have isWhite : ∀ c ∈ gap.takeWhile isSpace, isSpace c = true :=
    fun c member => List.mem_takeWhile_imp member
  generalize gap.takeWhile isSpace = white at *
  have noNul : 0 ∉ text.text ++ white := fun inside => by
    rcases List.mem_append.mp inside with inText | inWhite
    · exact nulFree inText
    · exact ((byteClasses 0).1 (isWhite 0 inWhite)).2.2.1 rfl
  have inside : ∀ c ∈ text.text ++ white, inValue c = true := by
    rw [List.forall_mem_append]
    exact ⟨text.all, fun c member => ((byteClasses c).1 (isWhite c member)).1⟩
  have isValue := trimmed_append text.last isWhite
  have noNulValue : 0 ∉ trimmed (text.text ++ white) := by
    rw [isValue]
    exact fun inValue => noNul
        ((List.Sublist.append_left (List.take_sublist _ _) _).subset inValue)
  obtain ⟨h, t, isText⟩ := List.exists_cons_of_ne_nil text.nonempty
  have firstByte : cell (F ++ (spaces ++ (text.text ++ (gap ++ rest))))
      (F ++ spaces).length = h := by
    rw [isText, List.cons_append, ← List.append_assoc]
    exact cell_append _ _ _
  have notNul : h ≠ 0 := fun isNul =>
    nulFree (by rw [isText, isNul]; exact List.mem_cons_self)
  have notQuote : h ≠ quote := fun isQuote => text.notQuoted (by rw [isText, isQuote]; rfl)
  have first : scan (F ++ (spaces ++ (text.text ++ (gap ++ rest)))) isSpace
      F.length = (F ++ spaces).length := by
    rw [isText, List.cons_append]
    exact scan_append F isSpaces (text.first h (by rw [isText]; rfl)) _
  cases isBehind : gap.dropWhile isSpace with
  | nil =>
    rw [isBehind, List.append_nil] at split
    subst split
    have isEnd : rest = [0] := separated.resolve_left fun ⟨c, member, separator⟩ => by
        have := ((byteClasses c).1 (isWhite c member)).2.2.2
        simp [separator] at this
    subst isEnd
    have layout : F ++ (spaces ++ (text.text ++ (white ++ [0]))) =
        (F ++ spaces) ++ (text.text ++ white ++ 0 :: []) := by
      simp only [List.append_assoc]
    have ended : terminate ((F ++ spaces) ++ (text.text ++ white ++ 0 :: []))
        (F ++ spaces ++ (text.text ++ white)).length =
          ((F ++ spaces) ++ (text.text ++ white ++ 0 :: []),
            (F ++ spaces ++ (text.text ++ white)).length) := by
      rw [terminate, ← List.append_assoc _ (text.text ++ white), cell_append]
      rfl
    refine ⟨spaces ++ trimmedPlace (text.text ++ white), [], ?_, ?_, ?_⟩
    · rw [turnValue]
      dsimp only
      rw [first, firstByte, if_neg notNul, if_neg notQuote, layout,
        scan_append _ inside (by decide), ended]
      dsimp only
      rw [trim_append _ noNul]
      simp only [List.length_append, length_trimmedPlace, List.append_assoc, List.nil_append]
    · exact fun c member => absurd member List.not_mem_nil
    · rw [List.append_assoc, List.drop_left, List.nil_append,
        cString_trimmedPlace noNulValue, isValue]
  | cons s more =>
    rw [isBehind] at split
    subst split
    rw [List.forall_mem_append, List.forall_mem_cons] at isGap
    have notSpace : isSpace s = false := by
      have := List.head?_dropWhile_not isSpace (white ++ s :: more)
      rw [isBehind] at this
      simpa using this
    have separator := (byteClasses s).2.1 isGap.2.1 notSpace
    obtain ⟨stops, notZero⟩ := (byteClasses s).2.2 separator
    have layout : F ++ (spaces ++ (text.text ++ (white ++ s :: more ++ rest))) =
        (F ++ spaces) ++ (text.text ++ white ++ s :: (more ++ rest)) := by
      simp only [List.append_assoc, List.cons_append]
    have ended : terminate ((F ++ spaces) ++ (text.text ++ white ++ s :: (more ++ rest)))
        (F ++ spaces ++ (text.text ++ white)).length =
          ((F ++ spaces) ++ (text.text ++ white ++ 0 :: (more ++ rest)),
            (F ++ spaces ++ (text.text ++ white)).length + 1) := by
      rw [terminate, ← List.append_assoc _ (text.text ++ white), cell_append,
        set_append, if_pos notZero,
        ← List.append_assoc _ (text.text ++ white)]
    refine ⟨spaces ++ (trimmedPlace (text.text ++ white) ++ [0]), more, ?_, isGap.2.2, ?_⟩
    · rw [turnValue]
      dsimp only
      rw [first, firstByte, if_neg notNul, if_neg notQuote, layout,
        scan_append _ inside stops, ended]
      dsimp only
      rw [trim_append _ noNul]
      simp only [List.length_append, length_trimmedPlace, List.append_assoc,
        List.cons_append, List.nil_append, Nat.add_assoc,
        List.length_singleton]
    · rw [List.append_assoc, List.drop_left, List.append_assoc,
        List.singleton_append, cString_trimmedPlace noNulValue, isValue]

theorem exists_turnValue
    (state : CookieParsing) (F name : Bytes) (sent : Sent) (attrName : Nat)
    (separated : (∃ c ∈ sent.gap.1, isSeparator c = true) ∨ rest = [0]) :
    ∃ R G k, ReadsValue (turnValue state (F ++ (sent.behindEquals.1 ++
        (sent.value.rendered ++ (sent.gap.1 ++ rest)))) F.length attrName)
        state F rest attrName (readItem (name, sent)).2 R G k := by
  unfold readItem
  cases isValue : sent.value with
  | bare text =>
    obtain ⟨R, G, reads⟩ :=
      turnValue_bare text attrName sent.behindEquals.2 sent.gap.2 separated
    exact ⟨R, G, _, reads⟩
  | quoted text =>
    exact ⟨_, _, _, turnValue_quoted attrName sent.behindEquals.2 text.2 sent.gap.2⟩

/-- A turn of the loop reads one rendered cookie. -/
theorem Reads.turn {lead : Spaces} {sent : Sent} (reads :
    Reads state done (lead.1 ++ (name ++ (sent.rendered ++ rest))) last)
    (nonempty : name ≠ []) (all : ∀ c ∈ name, isNameByte c = true)
    (separated : (∃ c ∈ sent.gap.1, isSeparator c = true) ∨ rest = [0])
    (resumes : Resumes rest) :
    ∃ done', Reads (turn state) done' rest (nextLast last (readItem (name, sent)).1) ∧
        (turn state).cookies = state.cookies ++
            [(entryName last (readItem (name, sent)).1, (readItem (name, sent)).2)] := by
  have notSpace : ∀ c ∈ name, isSpace c = false := fun c member => by
    have := all c member
    simp [isNameByte] at this
    exact this.2
  have isWhite := sent.beforeEquals.2
  have inside : ∀ c ∈ name ++ sent.beforeEquals.1, inName c = true := by
    rw [List.forall_mem_append]
    refine ⟨fun c member => ?_, fun c member => ((byteClasses c).1 (isWhite c member)).2.1⟩
    have := all c member
    simp [isNameByte] at this
    exact this.1
  have noNul : 0 ∉ name ++ sent.beforeEquals.1 := fun member =>
    absurd (inside 0 member) (by decide)
  obtain ⟨R, G, k, value⟩ :=
    exists_turnValue state
      (done ++ lead.1 ++ (name ++ sent.beforeEquals.1) ++ [0]) name sent
      (done ++ lead.1).length separated
  have isTurn : Cookies.turn state = addCookie state ((done ++ lead.1) ++
      (name ++ sent.beforeEquals.1 ++ 0 :: (R ++ (G ++ rest))))
          (((done ++ lead.1) ++ (name ++ sent.beforeEquals.1)).length + 1 + R.length)
          (done ++ lead.1).length
          (some (((done ++ lead.1) ++ (name ++ sent.beforeEquals.1)).length + 1 + k)) := by
    have isBuf : state.buf =
        ((done ++ lead.1) ++ (name ++ sent.beforeEquals.1)) ++ equals ::
            (sent.behindEquals.1 ++ (sent.value.rendered ++ (sent.gap.1 ++ rest))) := by
      rw [reads.buf, Sent.rendered]
      simp only [List.append_assoc, List.cons_append]
    have start : scan state.buf isSpace done.length = (done ++ lead.1).length := by
      obtain ⟨h, t, isName⟩ := List.exists_cons_of_ne_nil nonempty
      rw [reads.buf, isName, List.cons_append]
      exact scan_append done lead.2 (notSpace h (by rw [isName]; exact List.mem_cons_self)) _
    have stop : scan state.buf inName (done ++ lead.1).length =
        ((done ++ lead.1) ++ (name ++ sent.beforeEquals.1)).length := by
      rw [isBuf, List.append_assoc _ (name ++ _)]
      exact scan_append _ inside (by decide) _
    have place : ((done ++ lead.1) ++ (name ++ sent.beforeEquals.1)).length + 1 =
        (done ++ lead.1 ++ (name ++ sent.beforeEquals.1) ++ [0]).length := by
      simp only [List.length_append, List.length_singleton]
    have behind (others : Bytes) :
        ((done ++ lead.1) ++ (name ++ sent.beforeEquals.1)) ++ 0 :: others =
          (done ++ lead.1 ++ (name ++ sent.beforeEquals.1) ++ [0]) ++ others := by
      rw [List.append_assoc _ [0], List.singleton_append]
    rw [Cookies.turn, reads.p, start, stop, isBuf, cell_append,
      if_neg (by decide), if_neg (by decide), set_append,
      ← List.append_assoc _ (name ++ _),
      behind (sent.behindEquals.1 ++ _), behind (R ++ (G ++ rest)), place,
      value.turned]
  rw [isTurn]
  exact addCookie_append (reads.prev.append _) nonempty noNul
      (fun c isLast => notSpace c (List.mem_of_getLast? isLast)) isWhite
      value.gap resumes value.value

/-! ## The whole header -/

def renderItems (items : List (Bytes × Sent)) : Bytes :=
  items.flatMap fun item => item.1 ++ item.2.rendered

def NamedItems (items : List (Bytes × Sent)) : Prop :=
  ∀ item ∈ items, item.1 ≠ [] ∧ ∀ c ∈ item.1, isNameByte c = true

def Separated (items : List (Bytes × Sent)) : Prop :=
  ∀ item ∈ items.dropLast, ∃ c ∈ item.2.gap.1, isSeparator c = true

theorem Separated.cons {item : Bytes × Sent} {items : List (Bytes × Sent)}
    (separated : Separated (item :: items)) :
    ((∃ c ∈ item.2.gap.1, isSeparator c = true) ∨ renderItems items ++ [0] = [0]) ∧
      Separated items := by
  cases items with
  | nil => exact ⟨Or.inr rfl, by rintro item ⟨⟩⟩
  | cons next items =>
    exact ⟨Or.inl (separated item List.mem_cons_self),
        fun other member => separated other (List.mem_cons_of_mem _ member)⟩

theorem resumes_renderItems
    {items : List (Bytes × Sent)} (named : NamedItems items) :
    Resumes (renderItems items ++ [0]) := by
  cases items with
  | nil => exact ⟨0, [], rfl, by decide⟩
  | cons item items =>
    obtain ⟨nonempty, all⟩ := named item List.mem_cons_self
    obtain ⟨h, t, isName⟩ := List.exists_cons_of_ne_nil nonempty
    refine ⟨h, t ++ (item.2.rendered ++ (renderItems items ++ [0])), ?_, ?_⟩
    · rw [renderItems, List.flatMap_cons, isName]
      simp only [List.append_assoc, List.cons_append]
      rfl
    · have := all h (by rw [isName]; exact List.mem_cons_self)
      simp [isNameByte, inName, inGap] at this ⊢
      exact ⟨this.1.2, this.2⟩

theorem run_items {items : List (Bytes × Sent)} (lead : Spaces) {fuel : Nat}
    (reads : Reads state done (lead.1 ++ (renderItems items ++ [0])) last)
    (noLead : items = [] → lead.1 = []) (named : NamedItems items)
    (separated : Separated items) (enough : items.length < fuel) :
    ∃ final, Loop.run body fuel state = some final ∧ final.cookies =
        state.cookies ++ entriesBehind readItem last items := by
  induction items generalizing state done last lead fuel with
  | nil =>
    obtain ⟨fuel, rfl⟩ := Nat.exists_eq_add_of_lt enough
    have ended : body state = .inl state := by
      rw [body, reads.buf, reads.p, noLead rfl, List.nil_append]
      exact if_neg (not_not.mpr (cell_append done 0 []))
    exact ⟨state, Loop.run_of_result _ ended, (List.append_nil _).symm⟩
  | cons item items ih =>
    obtain ⟨fuel, rfl⟩ := Nat.exists_eq_add_of_lt enough
    obtain ⟨nonempty, all⟩ := named item List.mem_cons_self
    have namedRest : NamedItems items :=
      fun other member => named other (List.mem_cons_of_mem _ member)
    obtain ⟨here, separatedRest⟩ := separated.cons
    have isText : lead.1 ++ (renderItems (item :: items) ++ [0]) = lead.1 ++
        (item.1 ++ (item.2.rendered ++ (renderItems items ++ [0]))) := by
      rw [renderItems, List.flatMap_cons]
      simp only [List.append_assoc]
      rfl
    rw [isText] at reads
    have notAtEnd : cell state.buf state.p ≠ 0 := by
      rw [reads.buf, reads.p]
      obtain ⟨h, t, isName⟩ := List.exists_cons_of_ne_nil nonempty
      cases isLead : lead.1 with
      | nil =>
        have := all h (by rw [isName]; exact List.mem_cons_self)
        rw [List.nil_append, isName, List.cons_append, cell_append]
        simp [isNameByte, inName] at this
        exact this.1.1.1
      | cons c others =>
        rw [List.cons_append, cell_append]
        exact ((byteClasses c).1
            (lead.2 c (by rw [isLead]; exact List.mem_cons_self))).2.2.1
    obtain ⟨done', nextReads, isCookies⟩ :=
      reads.turn nonempty all here (resumes_renderItems namedRest)
    obtain ⟨final, ran, finalCookies⟩ := ih ⟨[], by rintro c ⟨⟩⟩ nextReads (fun _ => rfl)
        namedRest separatedRest
        (by omega : items.length < items.length + 1 + fuel)
    refine ⟨final, ?_, ?_⟩
    · rw [List.length_cons]
      have stepped : body state = .inr (Cookies.turn state) := if_pos notAtEnd
      exact (Loop.run_of_next _ stepped).trans ran
    · rw [finalCookies, isCookies, List.append_assoc]
      rfl

def sentItem (item : Bytes × Sent) : Bytes × Bytes :=
  (item.1, item.2.value.text)

def Counted (item : Bytes × Sent) : Prop := item.2.beforeEquals.1.length ≤
    (wrapInt (item.1 ++ item.2.beforeEquals.1).length).toNat ∧
    match item.2.value with
    | .bare text =>
      (item.2.gap.1.takeWhile isSpace).length ≤
        (wrapInt (text.text ++ item.2.gap.1.takeWhile isSpace).length).toNat
    | .quoted _ => True

theorem readItem_eq_iff (item : Bytes × Sent) :
    readItem item = sentItem item ↔ Counted item := by
  unfold readItem sentItem Counted
  rw [Prod.mk.injEq, List.append_right_eq_self, leftOver_eq_nil_iff]
  cases item.2.value with
  | bare text =>
    simp only [Value.text, List.append_right_eq_self, leftOver_eq_nil_iff]
  | quoted text => simp only [Value.text]

theorem entryName_inj
    {extra : Bytes} (last : Option Bytes) (nonempty : name ≠ []) :
    entryName last (name ++ extra) = entryName last name ↔ name ++ extra = name := by
  obtain ⟨h, t, rfl⟩ := List.exists_cons_of_ne_nil nonempty
  rw [entryName.eq_def, entryName.eq_def]
  cases last with
  | none => simp
  | some last =>
    by_cases special : h = dollar
    · simp [special]
    · simp [special]

theorem entriesBehind_eq_iff
    {items : List (Bytes × Sent)} (named : NamedItems items) (last : Option Bytes) :
    entriesBehind readItem last items = entriesBehind sentItem last items ↔
      ∀ item ∈ items, readItem item = sentItem item := by
  induction items generalizing last with
  | nil => exact iff_of_true rfl (by rintro item ⟨⟩)
  | cons item items ih =>
    have namedRest : NamedItems items :=
      fun other member => named other (List.mem_cons_of_mem _ member)
    rw [entriesBehind, entriesBehind, List.cons.injEq, Prod.mk.injEq, List.forall_mem_cons]
    have sameName : entryName last (readItem item).1 = entryName last (sentItem item).1 ↔
        (readItem item).1 = (sentItem item).1 :=
      entryName_inj last (named item List.mem_cons_self).1
    rw [sameName, ← Prod.ext_iff]
    constructor
    · rintro ⟨same, others⟩
      rw [same] at others
      exact ⟨same, (ih namedRest _).mp others⟩
    · rintro ⟨same, others⟩
      rw [same]
      exact ⟨rfl, (ih namedRest _).mpr others⟩

theorem entriesBehind_attributes (last : Bytes) (attributes :
    List ({ text : Bytes // ∀ c ∈ text, isNameByte c = true } × Sent))
    (items : List (Bytes × Sent)) :
    entriesBehind sentItem (some last)
        ((attributes.map fun other => (dollar :: other.1.1, other.2)) ++ items) =
      (attributes.map fun other =>
          (dollar :: last ++ 0x5f :: other.1.1, other.2.value.text)) ++
        entriesBehind sentItem (some last) items := by
  induction attributes with
  | nil => rfl
  | cons other attributes ih =>
    rw [List.map_cons, List.cons_append, List.map_cons, List.cons_append, ← ih]
    rfl

theorem entriesBehind_cookies (cookies : List Cookie) (last : Option Bytes) :
    entriesBehind sentItem last (cookies.flatMap Cookie.items) =
      cookies.flatMap Cookie.entries := by
  induction cookies generalizing last with
  | nil => rfl
  | cons cookie cookies ih =>
    have isName := cookie.name.2.2.1
    have isNext : nextLast last cookie.name.1 = some cookie.name.1 := if_neg isName
    have isEntry : entryName last cookie.name.1 = cookie.name.1 := by
      rw [entryName.eq_def]
      exact if_neg isName
    rw [List.flatMap_cons, List.flatMap_cons, Cookie.items, Cookie.entries,
      List.cons_append, entriesBehind]
    simp only [sentItem, isNext, isEntry]
    rw [entriesBehind_attributes, ih]
    rfl

theorem Header.named (header : Header) :
    NamedItems (header.cookies.flatMap Cookie.items) := by
  intro item member
  obtain ⟨cookie, -, inCookie⟩ := List.mem_flatMap.mp member
  rcases List.mem_cons.mp inCookie with rfl | inAttributes
  · exact ⟨cookie.name.2.1, cookie.name.2.2.2⟩
  · obtain ⟨other, -, rfl⟩ := List.mem_map.mp inAttributes
    refine ⟨List.cons_ne_nil _ _, ?_⟩
    rw [List.forall_mem_cons]
    exact ⟨by decide, other.1.2⟩

theorem run_spaces
    (state : CookieParsing) {lead : Spaces} (nonempty : lead.1 ≠ [])
    (isBuf : state.buf = lead.1 ++ [0]) (isStart : state.p = 0) (fuel : Nat) :
    ∃ final, Loop.run body (fuel + 2) state = some final ∧ final.cookies = state.cookies := by
  have notAtEnd : cell state.buf state.p ≠ 0 := by
    obtain ⟨h, t, isLead⟩ := List.exists_cons_of_ne_nil nonempty
    rw [isBuf, isStart, isLead, List.cons_append]
    exact ((byteClasses h).1 (lead.2 h (by rw [isLead]; exact List.mem_cons_self))).2.2.1
  have start : scan state.buf isSpace 0 = lead.1.length := by
    rw [isBuf]
    exact scan_append [] lead.2 (by decide) []
  have stop (condition : UInt8 → Bool) (stops : condition 0 = false) :
      scan (lead.1 ++ [0]) condition lead.1.length = lead.1.length := by
    have none : scan (lead.1 ++ ([] ++ 0 :: [])) condition lead.1.length =
        (lead.1 ++ []).length :=
      scan_append lead.1 (by rintro c ⟨⟩) stops []
    rwa [List.nil_append, List.append_nil] at none
  have noName : stringAt (lead.1 ++ [0]) lead.1.length = [] :=
    stringAt_append lead.1 List.not_mem_nil []
  have trims : trim (lead.1 ++ [0]) lead.1.length = lead.1 ++ [0] :=
    trim_append lead.1 List.not_mem_nil []
  have isTurn : turn state = { state with buf := lead.1 ++ [0], p := lead.1.length } := by
    rw [turn, isStart, start, isBuf, stop inName rfl, if_pos (cell_append lead.1 0 [])]
    unfold addCookie
    simp only [trims, noName, ne_eq, not_true_eq_false, if_false, stop inGap rfl]
  have ended : body { state with buf := lead.1 ++ [0], p := lead.1.length } =
      .inl { state with buf := lead.1 ++ [0], p := lead.1.length } :=
    if_neg (not_not.mpr (cell_append lead.1 0 []))
  have stepped : body state = .inr (turn state) := if_pos notAtEnd
  rw [isTurn] at stepped
  exact ⟨_, (Loop.run_of_next _ stepped).trans (Loop.run_of_result _ ended), rfl⟩

theorem length_le_renderItems
    {items : List (Bytes × Sent)} (named : NamedItems items) :
    items.length ≤ (renderItems items).length := by
  induction items with
  | nil => exact Nat.zero_le _
  | cons item items ih =>
    have rest := ih fun other member => named other (List.mem_cons_of_mem _ member)
    have positive := List.length_pos_of_ne_nil (named item List.mem_cons_self).1
    unfold renderItems at rest ⊢
    rw [List.flatMap_cons, List.length_append, List.length_append, List.length_cons]
    omega

theorem exists_parseCookiesV1 (header : Header) (cookies : AprTable Bytes) :
    ∃ result, parseCookiesV1 header.rendered cookies = some (cookies ++
        entriesBehind readItem none (header.cookies.flatMap Cookie.items), result) := by
  generalize isItems : header.cookies.flatMap Cookie.items = items
  have named : NamedItems items := isItems ▸ header.named
  have separated : Separated items := isItems ▸ header.separated
  have isRendered : header.rendered ++ [0] = header.lead.1 ++ (renderItems items ++ [0]) := by
    rw [Header.rendered, isItems, List.append_assoc]
    rfl
  have size := congrArg List.length isRendered
  have few := length_le_renderItems named
  simp only [List.length_append, List.length_singleton] at size
  unfold parseCookiesV1
  by_cases white : items = [] ∧ header.lead.1 ≠ []
  · obtain ⟨isNil, nonempty⟩ := white
    have positive := List.length_pos_of_ne_nil nonempty
    subst isNil
    obtain ⟨fuel, isFuel⟩ :=
      Nat.exists_eq_add_of_le' (by omega : 2 ≤ header.rendered.length + 1)
    obtain ⟨final, ran, isCookies⟩ :=
      run_spaces (start header.rendered cookies) nonempty isRendered rfl fuel
    rw [isFuel, ran, Option.map_some, isCookies, entriesBehind, List.append_nil]
    exact ⟨_, rfl⟩
  · have reads : Reads (start header.rendered cookies) []
        (header.lead.1 ++ (renderItems items ++ [0])) none :=
      ⟨isRendered, rfl, trivial⟩
    obtain ⟨final, ran, isCookies⟩ := run_items header.lead reads
        (fun isNil => by_contra fun nonempty => white ⟨isNil, nonempty⟩)
        named separated
        (by omega : items.length < header.rendered.length + 1)
    rw [ran, Option.map_some, isCookies]
    exact ⟨_, rfl⟩

theorem addsCookies_iff_readItem (header : Header) (cookies : AprTable Bytes) :
    AddsCookies header cookies ↔ ∀ item ∈ header.cookies.flatMap Cookie.items,
        readItem item = sentItem item := by
  obtain ⟨result, parsed⟩ := exists_parseCookiesV1 header cookies
  rw [← entriesBehind_eq_iff header.named none, entriesBehind_cookies]
  constructor
  · rintro ⟨other, added⟩
    rw [parsed, Option.some.injEq, Prod.mk.injEq] at added
    exact List.append_cancel_left added.1
  · intro same
    exact ⟨result, by rw [parsed, same]⟩

/-- Counts below `2 ^ 31` do not wrap. -/
theorem counted_of_short
    {item : Bytes × Sent} (short : (item.1 ++ item.2.rendered).length < 2 ^ 31) :
    Counted item := by
  have reaches {core spaces : Bytes} (fits : (core ++ spaces).length < 2 ^ 31) :
      spaces.length ≤ (wrapInt (core ++ spaces).length).toNat := by
    rw [wrapInt_of_range (by omega) (by omega), Int.toNat_natCast, List.length_append]
    exact Nat.le_add_left _ _
  simp only [Sent.rendered, List.length_append, List.length_cons] at short
  refine ⟨reaches (by rw [List.length_append]; omega), ?_⟩
  cases isValue : item.2.value with
  | bare text =>
    have run := (List.takeWhile_prefix (l := item.2.gap.1) isSpace).length_le
    have inside : text.text.length = item.2.value.rendered.length := by
      rw [isValue, Value.rendered]
    exact reaches (by rw [List.length_append]; omega)
  | quoted text => trivial

/-- Headers of fewer than `2 ^ 31` bytes are read as they were sent. -/
theorem addsCookies_of_short {header : Header}
    (short : header.rendered.length < 2 ^ 31) (cookies : AprTable Bytes) :
    AddsCookies header cookies := by
  refine (addsCookies_iff_readItem header cookies).mpr fun item member => ?_
  obtain ⟨before, behind, isItems⟩ := List.append_of_mem member
  rw [Header.rendered, isItems, List.flatMap_append, List.flatMap_cons] at short
  simp only [List.length_append] at short
  have inside : (item.1 ++ item.2.rendered).length = _ := List.length_append
  exact (readItem_eq_iff item).mpr (counted_of_short (by omega))

/-- The cookies of a header are added when every `int` that counts a name or a
value reaches over the white space behind it, and only then. -/
theorem addsCookies_iff (header : Header) (cookies : AprTable Bytes) :
    AddsCookies header cookies ↔
      ∀ item ∈ header.cookies.flatMap Cookie.items, Counted item := by
  simp only [addsCookies_iff_readItem, readItem_eq_iff]

end

/-- One cookie with white space behind its value. -/
def spaced (spaces : Nat) : Header where
  lead := ⟨[], by simp⟩
  cookies :=
    [{ name := ⟨[0x61], by simp, by decide, List.forall_mem_singleton.mpr rfl⟩
       sent :=
        { value :=
            .bare
              { text := [0x62]
                all := List.forall_mem_singleton.mpr rfl
                nonempty := by simp
                notQuoted := by decide
                first := by rintro c ⟨⟩; rfl
                last := by rintro c ⟨⟩; rfl }
          beforeEquals := ⟨[], by simp⟩
          behindEquals := ⟨[], by simp⟩
          gap := ⟨List.replicate spaces 0x20, fun c member => by
              rw [List.eq_of_mem_replicate member]
              rfl⟩ }
       attributes := [] }]
  separated := by simp [Cookie.items]

/-- Behind a value of `2 ^ 31` bytes with its white space the count is
negative, and the white space stays. -/
theorem not_addsCookies_spaced : ¬AddsCookies (spaced (2 ^ 31 - 1)) [] := by
  intro added
  have counted :=
    (readItem_eq_iff _).mp ((addsCookies_iff_readItem _ _).mp added _ List.mem_cons_self)
  have all : ∀ c ∈ List.replicate (2 ^ 31 - 1) (0x20 : UInt8), isSpace c := by
    intro c member
    rw [List.eq_of_mem_replicate member]
    rfl
  have reaches :
      (List.takeWhile isSpace (List.replicate (2 ^ 31 - 1) 0x20)).length ≤
        (wrapInt
          ([0x62] ++ List.takeWhile isSpace (List.replicate (2 ^ 31 - 1) 0x20)).length).toNat :=
    counted.2
  rw [List.takeWhile_eq_self_iff.mpr all, List.length_append, List.length_replicate] at reaches
  exact absurd reaches (by decide)

end Cookbook.ModSecurity.Cookies
