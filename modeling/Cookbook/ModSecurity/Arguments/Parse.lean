import Cookbook.ModSecurity.Text.LogEscape
import Cookbook.ModSecurity.Text.UrlDecode

/-!
# Parsing arguments

`parse_arguments` goes once over a query string or an urlencoded body.  It
copies names and values into one buffer, decodes them there, and records where
in the input they came from.
-/

namespace Cookbook.ModSecurity.Arguments

open Cookbook.Lib
open Cookbook.Lib.CText
open Cookbook.ModSecurity.Text

/-- The value that an `unsigned int` keeps of a number. -/
def unsigned (number : Nat) : Nat :=
  number % 2 ^ 32

structure MscArg where
  name : Bytes
  nameLen : Nat
  nameOriginOffset : Nat
  nameOriginLen : Nat
  value : Bytes
  valueLen : Nat
  valueOriginOffset : Nat
  valueOriginLen : Nat
  origin : Bytes
  deriving DecidableEq, Repr

/-- An argument from `apr_pcalloc`, with its origin. -/
def MscArg.fresh (origin : Bytes) : MscArg :=
  ⟨[], 0, 0, 0, [], 0, 0, 0, origin⟩

/-- `status` -/
inductive ParseStatus where
  | name
  | value
  deriving DecidableEq, Repr

structure ParseState where
  i : Nat
  j : Nat
  status : ParseStatus
  buf : Bytes
  /-- the pointer `value` into the buffer -/
  value : Nat
  arg : MscArg
  arguments : AprTable MscArg
  invalidCount : Int
  deriving DecidableEq, Repr

def addArgument (arguments : AprTable MscArg) (arg : MscArg) :
    AprTable MscArg :=
  arguments.addn (logEscapeNqEx arg.name) arg

section

variable (s : Bytes) (argumentSeparator : UInt8) (origin : Bytes)

/-- `s[i]`.  Behind the input stands the zero of a C string. -/
def charAt (i : Nat) : UInt8 :=
  s.getD i 0

def ParseState.finish (state : ParseState) (arg : MscArg) : ParseState :=
  { state with
    arguments := addArgument state.arguments arg
    arg := MscArg.fresh origin
    status := .name
    j := 0 }

/-- The result of decoding a name or a value: the buffer, the number of
invalid escapes so far, the decoded length and the copy of the decoded text. -/
def decodeField (buf : Bytes) (start originLen : Nat) (invalidCount : Int) :
    Option (Bytes × Int × Nat × Bytes) :=
  match urldecodeNonstrictInplaceEx start originLen buf invalidCount with
  | none => none
  | some decoded =>
    let len := unsigned decoded.count
    (Buffer.read? decoded.buf start len).map fun text =>
      (decoded.buf, decoded.invalidCount, len, text)

def nameTurn (state : ParseState) : Option ParseState :=
  let raw :=
    (s.drop state.i).takeWhile fun c => c ≠ 0x3d && c ≠ argumentSeparator
  let i := state.i + raw.length
  let j := state.j + raw.length + 1
  let nameOriginOffset := unsigned state.i
  let nameOriginLen := unsigned (i - nameOriginOffset)
  match Buffer.write? state.buf state.j (raw ++ [0]) with
  | none => none
  | some buf =>
    match decodeField buf 0 nameOriginLen state.invalidCount with
    | none => none
    | some (buf, invalidCount, nameLen, name) =>
      let arg :=
        { state.arg with
          nameOriginOffset := nameOriginOffset
          nameOriginLen := nameOriginLen
          nameLen := nameLen
          name := name }
      let state :=
        { state with
          i := i + 1, j := j, buf := buf, arg := arg
          invalidCount := invalidCount }
      if charAt s i = argumentSeparator then
        -- an empty parameter
        some (state.finish origin { arg with valueLen := 0, value := [] })
      else
        some { state with status := .value, value := j }

def valueTurn (state : ParseState) : Option ParseState :=
  let raw := (s.drop state.i).takeWhile fun c => c ≠ argumentSeparator
  let i := state.i + raw.length
  let valueOriginOffset := unsigned state.i
  let valueOriginLen := unsigned (i - valueOriginOffset)
  match Buffer.write? state.buf state.j (raw ++ [0]) with
  | none => none
  | some buf =>
    match decodeField buf state.value valueOriginLen state.invalidCount with
    | none => none
    | some (buf, invalidCount, valueLen, value) =>
      let arg :=
        { state.arg with
          valueOriginOffset := valueOriginOffset
          valueOriginLen := valueOriginLen
          valueLen := valueLen
          value := value }
      some
        ({ state with
            i := i + 1, buf := buf
            invalidCount := invalidCount }.finish origin arg)

/-- The loop goes on while there is input; `none` is an access outside the
buffer. -/
def parseBody (state : ParseState) : Option ParseState ⊕ ParseState :=
  if state.i < s.length then
    let turned :=
      match state.status with
      | .name => nameTurn s argumentSeparator origin state
      | .value => valueTurn s argumentSeparator origin state
    match turned with
    | none => .inl none
    | some next => .inr next
  else .inl (some state)

def addLast (state : ParseState) : AprTable MscArg :=
  match state.status with
  | .name => state.arguments
  | .value =>
    addArgument state.arguments { state.arg with valueLen := 0, value := [] }

/-- `parse_arguments`: the table of arguments and `*invalid_count`, for the
contents of the memory that `malloc` returns; `none` is an access outside the
buffer. -/
def parseArguments (fresh : Nat → UInt8) (arguments : AprTable MscArg)
    (invalidCount : Int) : Option (AprTable MscArg × Int) :=
  if s.length = 0 then
    some (arguments, invalidCount)
  else
    let start : ParseState :=
      { i := 0, j := 0, status := .name
        buf := (List.range (s.length + 1)).map fresh
        value := 0, arg := MscArg.fresh origin, arguments := arguments
        invalidCount := 0 }
    match
        (Loop.run (parseBody s argumentSeparator origin) (s.length + 1) start).join
      with
    | none => none
    | some done => some (addLast done, done.invalidCount)

end

/-- The pieces between the separators, but for an empty one at the end. -/
def pieces (s : Bytes) (argumentSeparator : UInt8) : List Bytes :=
  let all := s.splitOn argumentSeparator
  if all.getLast? = some [] then all.dropLast else all

def placed (offset : Nat) : List Bytes → List (Nat × Bytes)
  | [] => []
  | piece :: rest =>
    (offset, piece) :: placed (offset + piece.length + 1) rest

def rawName (piece : Bytes) : Bytes := piece.takeWhile fun c => c ≠ 0x3d

def rawValue (piece : Bytes) : Bytes :=
  (piece.dropWhile fun c => c ≠ 0x3d).drop 1

def pieceInvalid (piece : Bytes) : Nat :=
  invalidEscapes (rawName piece) + invalidEscapes (rawValue piece)

structure Describes (s origin : Bytes) (piece : Nat × Bytes)
    (arg : MscArg) : Prop where
  name : arg.name = urlDecode (rawName piece.2)
  nameLen : arg.nameLen = arg.name.length
  nameOriginOffset : arg.nameOriginOffset = piece.1
  nameOrigin : Buffer.read? s arg.nameOriginOffset arg.nameOriginLen = some (rawName piece.2)
  value : arg.value = urlDecode (rawValue piece.2)
  valueLen : arg.valueLen = arg.value.length
  valueOriginOffset : rawValue piece.2 ≠ [] →
      arg.valueOriginOffset = piece.1 + (rawName piece.2).length + 1
  valueOrigin : Buffer.read? s arg.valueOriginOffset arg.valueOriginLen =
      some (rawValue piece.2)
  origin : arg.origin = origin

theorem pieces_nil (argumentSeparator : UInt8) : pieces [] argumentSeparator = [] := by
  simp [pieces]

variable {piece : Bytes}

theorem pieces_last {argumentSeparator : UInt8}
    (without : argumentSeparator ∉ piece) (nonempty : piece ≠ []) :
    pieces piece argumentSeparator = [piece] := by
  rw [pieces, List.splitOn_eq_singleton without]
  simp [nonempty]

theorem pieces_cons {argumentSeparator : UInt8} (rest : Bytes)
    (without : argumentSeparator ∉ piece) :
    pieces (piece ++ argumentSeparator :: rest) argumentSeparator =
      piece :: pieces rest argumentSeparator := by
  have nonempty := List.splitOn_ne_nil argumentSeparator rest
  rw [pieces, pieces, List.splitOn_append_cons_self_of_not_mem without,
    List.getLast?_cons_of_ne_nil nonempty,
    List.dropLast_cons_of_ne_nil nonempty]
  split <;> rfl

theorem unsigned_of_lt {number : Nat} (small : number < 2 ^ 32) :
    unsigned number = number :=
  Nat.mod_eq_of_lt small

theorem decodeField_written (buf raw : Bytes) (start : Nat) {invalidCount : Int}
    (room : start + raw.length + 1 ≤ buf.length) (small : raw.length < 2 ^ 32)
    (inRange : wrapInt invalidCount = invalidCount) :
    ∃ written decoded, Buffer.write? buf start (raw ++ [0]) = some written ∧
        decodeField written start raw.length invalidCount = some
            (decoded, wrapInt (invalidCount + invalidEscapes raw),
              (urlDecode raw).length, urlDecode raw) ∧
        decoded.length = buf.length := by
  have before : (buf.take start).length = start := by
    rw [List.length_take]
    omega
  have fits : start + (raw ++ [0]).length ≤ buf.length := by
    rw [List.length_append, List.length_singleton]
    omega
  have written := Buffer.write?_eq_some_iff.mpr
      ⟨fits, (rfl : buf.take start ++ (raw ++ [0]) ++
        buf.drop (start + (raw ++ [0]).length) = _)⟩
  have shape : buf.take start ++ (raw ++ [0]) ++ buf.drop (start + (raw ++ [0]).length) =
      buf.take start ++ raw ++ 0 :: buf.drop (start + (raw ++ [0]).length) := by
    simp
  obtain ⟨final, others, decoded, count, invalid, isBuf, size⟩ :=
    urldecode_text (buf.take start) raw
      (buf.drop (start + (raw ++ [0]).length)) 0 invalidCount inRange
  rw [before, ← shape] at decoded
  have shorter := length_urlDecode_le raw
  have len : unsigned final.count = (urlDecode raw).length := by
    rw [count, unsigned_of_lt (by omega)]
  have read : Buffer.read? final.buf start (urlDecode raw).length = some (urlDecode raw) := by
    have here := Buffer.read?_append (buf.take start) (urlDecode raw) others
    rwa [before, ← isBuf] at here
  refine ⟨_, final.buf, written, ?_, ?_⟩
  · rw [decodeField, decoded]
    simp only [len, read, Option.map_some, invalid]
  · rw [size, ← shape]
    exact Buffer.length_of_write? written

def namedArg (origin : Bytes) (offset : Nat) (raw : Bytes) : MscArg :=
  { MscArg.fresh origin with
    nameOriginOffset := offset
    nameOriginLen := raw.length
    nameLen := (urlDecode raw).length
    name := urlDecode raw }

def valuedArg (arg : MscArg) (offset : Nat) (raw : Bytes) : MscArg :=
  { arg with
    valueOriginOffset := offset
    valueOriginLen := raw.length
    valueLen := (urlDecode raw).length
    value := urlDecode raw }

section

variable {s origin : Bytes} {argumentSeparator : UInt8}

variable {front raw tail : Bytes} {state : ParseState} {fuel : Nat}

theorem takeWhile_field
    {copied : UInt8 → Bool} (whole : s = front ++ raw ++ tail)
    (inside : ∀ c ∈ raw, copied c = true) (stops : ∀ c ∈ tail.head?, copied c = false) :
    (s.drop front.length).takeWhile copied = raw := by
  rw [whole, List.append_assoc, List.drop_left, List.takeWhile_append_of_pos inside]
  cases tail with
  | nil => simp
  | cons c rest =>
    rw [List.takeWhile_cons_of_neg (by simp [stops c rfl]), List.append_nil]

theorem unsigned_of_whole
    (small : s.length < 2 ^ 32) (whole : s = front ++ raw ++ tail) :
    front.length + raw.length ≤ s.length ∧ unsigned front.length = front.length ∧
        unsigned (front.length + raw.length - front.length) = raw.length := by
  have bound : front.length + raw.length + tail.length = s.length := by
    rw [whole]
    simp only [List.length_append]
  rw [Nat.add_sub_cancel_left]
  exact ⟨by omega, unsigned_of_lt (by omega), unsigned_of_lt (by omega)⟩

theorem nameTurn_eq
    (small : s.length < 2 ^ 32) (whole : s = front ++ raw ++ tail)
    (inside : ∀ c ∈ raw, c ≠ 0x3d ∧ c ≠ argumentSeparator)
    (stops : ∀ c ∈ tail.head?, c = 0x3d ∨ c = argumentSeparator)
    (index : state.i = front.length) (first : state.j = 0)
    (fresh : state.arg = MscArg.fresh origin) (size : state.buf.length = s.length + 1)
    (inRange : wrapInt state.invalidCount = state.invalidCount) :
    ∃ buf, buf.length = s.length + 1 ∧ nameTurn s argumentSeparator origin state =
        let named : ParseState :=
          { state with
            i := front.length + raw.length + 1
            j := raw.length + 1
            buf := buf
            arg := namedArg origin front.length raw
            invalidCount := wrapInt (state.invalidCount + invalidEscapes raw) }
        if charAt s (front.length + raw.length) = argumentSeparator then
          some (named.finish origin (namedArg origin front.length raw))
        else
          some { named with status := .value, value := raw.length + 1 } := by
  obtain ⟨bound, offset, length⟩ := unsigned_of_whole small whole
  have copied : (s.drop front.length).takeWhile
      (fun c => c ≠ 0x3d && c ≠ argumentSeparator) = raw := by
    refine takeWhile_field whole ?_ ?_
    · intro c member
      simp [inside c member]
    · intro c member
      rcases stops c member with rfl | rfl <;> simp
  obtain ⟨written, decoded, isWritten, isDecoded, sameSize⟩ :=
    decodeField_written state.buf raw 0 (by omega) (by omega) inRange
  refine ⟨decoded, sameSize.trans size, ?_⟩
  unfold nameTurn
  simp only [index, copied, first]
  rw [isWritten]
  simp only [offset, length, isDecoded, fresh, Nat.zero_add]
  rfl

theorem valueTurn_eq
    (small : s.length < 2 ^ 32) (whole : s = front ++ raw ++ tail)
    (inside : argumentSeparator ∉ raw) (stops : ∀ c ∈ tail.head?, c = argumentSeparator)
    (index : state.i = front.length) (place : state.value = state.j)
    (room : state.j + raw.length + 1 ≤ s.length + 1)
    (size : state.buf.length = s.length + 1)
    (inRange : wrapInt state.invalidCount = state.invalidCount) :
    ∃ buf, buf.length = s.length + 1 ∧ valueTurn s argumentSeparator origin state = some
        ({ state with
            i := front.length + raw.length + 1
            buf := buf
            invalidCount := wrapInt (state.invalidCount + invalidEscapes raw) }.finish
          origin (valuedArg state.arg front.length raw)) := by
  obtain ⟨bound, offset, length⟩ := unsigned_of_whole small whole
  have copied : (s.drop front.length).takeWhile (fun c => c ≠ argumentSeparator) = raw := by
    refine takeWhile_field whole ?_ ?_
    · intro c member
      simp only [ne_eq, decide_eq_true_eq]
      rintro rfl
      exact inside member
    · intro c member
      simp [stops c member]
  obtain ⟨written, decoded, isWritten, isDecoded, sameSize⟩ :=
    decodeField_written state.buf raw state.j (by omega) (by omega) inRange
  refine ⟨decoded, sameSize.trans size, ?_⟩
  unfold valueTurn
  simp only [index, copied, place]
  rw [isWritten]
  simp only [offset, length, isDecoded]
  rfl

/-! ## One piece -/

structure AtPiece (s origin : Bytes) (offset : Nat) (state : ParseState) :
    Prop where
  i : state.i = offset
  j : state.j = 0
  status : state.status = .name
  arg : state.arg = MscArg.fresh origin
  size : state.buf.length = s.length + 1
  inRange : wrapInt state.invalidCount = state.invalidCount

theorem run_turn {next : ParseState} (more : state.i < s.length)
    (turned : (match state.status with
        | .name => nameTurn s argumentSeparator origin state
        | .value => valueTurn s argumentSeparator origin state) =
        some next)
    (advances : state.i < next.i) (enough : s.length - state.i < fuel) :
    ∃ rest, Loop.run (parseBody s argumentSeparator origin) fuel state =
        Loop.run (parseBody s argumentSeparator origin) rest next ∧
        s.length - next.i < rest := by
  obtain ⟨rest, rfl⟩ : ∃ rest, fuel = rest + 1 := ⟨fuel - 1, by omega⟩
  refine ⟨rest, Loop.run_of_next rest ?_, by omega⟩
  rw [parseBody, if_pos more]
  simp only [turned]

theorem charAt_append (front tail : Bytes) :
    charAt (front ++ tail) front.length = tail.headD 0 := by
  cases tail with
  | nil => simp [charAt]
  | cons c rest => simp [charAt]

theorem describes_namedArg (raw ending : Bytes)
    (whole : s = front ++ piece ++ tail) (isPiece : piece = raw ++ ending)
    (name : rawName piece = raw) (value : rawValue piece = []) :
    Describes s origin (front.length, piece) (namedArg origin front.length raw) where
  name := congrArg urlDecode name.symm
  nameLen := rfl
  nameOriginOffset := rfl
  nameOrigin := by
    rw [name, whole, isPiece]
    have read := Buffer.read?_append front raw (ending ++ tail)
    simpa [namedArg] using read
  value := by
    rw [value]
    rfl
  valueLen := rfl
  valueOriginOffset := fun some => absurd value some
  valueOrigin := by
    rw [value, Buffer.read?_eq_some_iff]
    exact ⟨Nat.zero_le _, rfl⟩
  origin := rfl

theorem describes_valuedArg
    (raw value : Bytes) (whole : s = front ++ piece ++ tail)
    (isPiece : piece = raw ++ 0x3d :: value)
    (isName : rawName piece = raw) (isValue : rawValue piece = value) :
    Describes s origin (front.length, piece) (valuedArg (namedArg origin front.length raw)
        (front.length + raw.length + 1) value) where
  name := congrArg urlDecode isName.symm
  nameLen := rfl
  nameOriginOffset := rfl
  nameOrigin := by
    rw [isName, whole, isPiece]
    have read := Buffer.read?_append front raw (0x3d :: value ++ tail)
    simpa [valuedArg, namedArg] using read
  value := congrArg urlDecode isValue.symm
  valueLen := rfl
  valueOriginOffset := fun _ => by rw [isName]; rfl
  valueOrigin := by
    rw [isValue, whole, isPiece]
    have read := Buffer.read?_append (front ++ raw ++ [0x3d]) value tail
    simpa [valuedArg, Nat.add_assoc] using read
  origin := rfl

theorem raw_of_equals (value : Bytes) (without : 0x3d ∉ raw) :
    rawName (raw ++ 0x3d :: value) = raw ∧ rawValue (raw ++ 0x3d :: value) = value := by
  have all : ∀ c ∈ raw, (decide (c ≠ 0x3d)) = true := by
    intro c member
    simp only [ne_eq, decide_eq_true_eq]
    rintro rfl
    exact without member
  constructor
  · rw [rawName, List.takeWhile_append_of_pos all,
      List.takeWhile_cons_of_neg (by decide), List.append_nil]
  · rw [rawValue, List.dropWhile_append_of_pos all, List.dropWhile_cons_of_neg (by decide)]
    rfl

theorem raw_of_not_mem (without : 0x3d ∉ piece) :
    rawName piece = piece ∧ rawValue piece = [] := by
  have all : ∀ c ∈ piece, (decide (c ≠ 0x3d)) = true := by
    intro c member
    simp only [ne_eq, decide_eq_true_eq]
    rintro rfl
    exact without member
  refine ⟨List.takeWhile_eq_self_iff.mpr all, ?_⟩
  rw [rawValue, List.dropWhile_eq_nil_iff.mpr all]
  rfl

theorem piece_cases (piece : Bytes) :
    (0x3d ∉ piece ∧ rawName piece = piece ∧ rawValue piece = []) ∨ ∃ raw value,
        piece = raw ++ 0x3d :: value ∧ 0x3d ∉ raw ∧
          rawName piece = raw ∧ rawValue piece = value := by
  by_cases equals : 0x3d ∈ piece
  · right
    obtain ⟨raw, value, rfl, notIn⟩ := List.eq_append_cons_of_mem equals
    exact ⟨raw, value, rfl, notIn, raw_of_equals value notIn⟩
  · left
    exact ⟨equals, raw_of_not_mem equals⟩

structure PieceRead
    (s origin : Bytes) (argumentSeparator : UInt8) (offset : Nat)
    (piece tail : Bytes) (state next : ParseState) (fuel rest : Nat)
    (arg : MscArg) : Prop where
  describes : Describes s origin (offset, piece) arg
  ran : Loop.run (parseBody s argumentSeparator origin) fuel state =
      Loop.run (parseBody s argumentSeparator origin) rest next
  enough : s.length - next.i < rest
  added : addLast next = addArgument state.arguments arg
  invalidCount :
    next.invalidCount = wrapInt (state.invalidCount + pieceInvalid piece)
  atEnd : tail = [] → s.length ≤ next.i
  goesOn : tail ≠ [] → AtPiece s origin (offset + piece.length + 1) next

theorem read_name
    (small : s.length < 2 ^ 32) (whole : s = front ++ piece ++ tail)
    (nonempty : piece ++ tail ≠ []) (without : argumentSeparator ∉ piece)
    (tailSeparator : ∀ c ∈ tail.head?, c = argumentSeparator)
    (noEquals : 0x3d ∉ piece) (name : rawName piece = piece) (value : rawValue piece = [])
    (atPiece : AtPiece s origin front.length state) (enough : s.length - state.i < fuel) :
    ∃ next rest arg, PieceRead s origin argumentSeparator front.length piece tail state
        next fuel rest arg := by
  have bound : front.length + (piece ++ tail).length = s.length := by
    rw [whole]
    simp only [List.length_append]
    omega
  have positive := List.length_pos_of_ne_nil nonempty
  have more : state.i < s.length := by
    rw [atPiece.i]
    omega
  have inside : ∀ c ∈ piece, c ≠ 0x3d ∧ c ≠ argumentSeparator := by
    intro c member
    constructor
    · rintro rfl
      exact noEquals member
    · rintro rfl
      exact without member
  obtain ⟨buf, size, turned⟩ := nameTurn_eq small whole inside
      (fun c member => .inr (tailSeparator c member)) atPiece.i atPiece.j
      atPiece.arg atPiece.size atPiece.inRange
  have describes : Describes s origin (front.length, piece)
      (namedArg origin front.length piece) :=
    describes_namedArg piece [] whole (List.append_nil piece).symm name value
  have invalid : pieceInvalid piece = invalidEscapes piece := by
    rw [pieceInvalid, name, value]
    rfl
  have here : charAt s (front.length + piece.length) = tail.headD 0 := by
    rw [whole, ← List.length_append]
    exact charAt_append (front ++ piece) tail
  by_cases separated : charAt s (front.length + piece.length) = argumentSeparator
  · -- a separator, or the zero behind the input that looks like one
    rw [if_pos separated] at turned
    obtain ⟨rest, ran, left⟩ := run_turn more (by rw [atPiece.status]; exact turned)
        (by rw [atPiece.i]; simp only [ParseState.finish]; omega) enough
    refine ⟨_, rest, _, describes, ran, left, rfl, by rw [invalid]; rfl, ?_, ?_⟩
    · rintro rfl
      rw [List.append_nil] at bound
      simp only [ParseState.finish]
      omega
    · intro _
      exact ⟨rfl, rfl, rfl, rfl, size, wrapInt_wrapInt _⟩
  · rw [if_neg separated] at turned
    have isEnd : tail = [] := by
      cases tail with
      | nil => rfl
      | cons c rest =>
        exact absurd (here.trans (tailSeparator c rfl)) separated
    obtain ⟨rest, ran, left⟩ := run_turn more (by rw [atPiece.status]; exact turned)
        (by rw [atPiece.i]; simp only; omega) enough
    refine ⟨_, rest, _, describes, ran, left, rfl, by rw [invalid], ?_, ?_⟩
    · rintro rfl
      rw [List.append_nil] at bound
      simp only
      omega
    · intro someTail
      exact absurd isEnd someTail

/-- A piece with an equals sign becomes an argument with a name and a value. -/
theorem read_value {value : Bytes} (small : s.length < 2 ^ 32)
    (whole : s = front ++ (raw ++ 0x3d :: value) ++ tail)
    (without : argumentSeparator ∉ raw ++ 0x3d :: value)
    (tailSeparator : ∀ c ∈ tail.head?, c = argumentSeparator)
    (noEquals : 0x3d ∉ raw) (isName : rawName (raw ++ 0x3d :: value) = raw)
    (isValue : rawValue (raw ++ 0x3d :: value) = value)
    (atPiece : AtPiece s origin front.length state) (enough : s.length - state.i < fuel) :
    ∃ next rest arg, PieceRead s origin argumentSeparator front.length
        (raw ++ 0x3d :: value) tail state next fuel rest arg := by
  have bound : front.length + raw.length + 1 + (value ++ tail).length = s.length := by
    rw [whole]
    simp only [List.length_append, List.length_cons]
    omega
  have more : state.i < s.length := by
    rw [atPiece.i]
    omega
  have inside : ∀ c ∈ raw, c ≠ 0x3d ∧ c ≠ argumentSeparator := by
    intro c member
    constructor
    · rintro rfl
      exact noEquals member
    · rintro rfl
      exact without (by simp [member])
  have nameWhole : s = front ++ raw ++ (0x3d :: value ++ tail) := by
    rw [whole]
    simp
  obtain ⟨buf, size, turned⟩ := nameTurn_eq small nameWhole inside
      (by simp : ∀ c ∈ (0x3d :: value ++ tail).head?, c = 0x3d ∨ c = argumentSeparator)
      atPiece.i atPiece.j atPiece.arg atPiece.size atPiece.inRange
  have notSeparated : ¬ charAt s (front.length + raw.length) = argumentSeparator := by
    rw [nameWhole, ← List.length_append, charAt_append]
    rintro rfl
    exact without (by simp)
  rw [if_neg notSeparated] at turned
  obtain ⟨rest, ran, left⟩ := run_turn more (by rw [atPiece.status]; exact turned)
      (by rw [atPiece.i]; simp only; omega) enough
  by_cases ends : value ++ tail = []
  · -- nothing follows the equals sign
    obtain ⟨rfl, rfl⟩ := List.append_eq_nil_iff.mp ends
    have describes : Describes s origin (front.length, raw ++ [0x3d])
        (namedArg origin front.length raw) :=
      describes_namedArg raw [0x3d] whole rfl isName isValue
    refine ⟨_, rest, _, describes, ran, left, rfl, ?_, ?_, ?_⟩
    · rw [pieceInvalid, isName, isValue]
      rfl
    · intro _
      simp only [List.length_append, List.length_nil] at bound ⊢
      omega
    · intro someTail
      exact absurd rfl someTail
  · have positive := List.length_pos_of_ne_nil ends
    rw [List.length_append] at bound positive
    have valueWhole : s = (front ++ raw ++ [0x3d]) ++ value ++ tail := by
      rw [whole]
      simp
    have frontLength : (front ++ raw ++ [0x3d]).length = front.length + raw.length + 1 := by
      simp only [List.length_append, List.length_singleton]
    generalize isNamed :
      ({ state with
          i := front.length + raw.length + 1
          j := raw.length + 1
          status := .value
          buf := buf
          value := raw.length + 1
          arg := namedArg origin front.length raw
          invalidCount :=
            wrapInt (state.invalidCount + invalidEscapes raw) } : ParseState) = named at ran left
    have namedRange : wrapInt named.invalidCount = named.invalidCount := by
      rw [← isNamed]
      exact wrapInt_wrapInt _
    obtain ⟨lastBuf, lastSize, valueTurned⟩ : ∃ buf : Bytes, buf.length = s.length + 1 ∧
        valueTurn s argumentSeparator origin named = _ :=
      valueTurn_eq small valueWhole (fun member => without (by simp [member])) tailSeparator
        (by rw [← isNamed, frontLength]) (by rw [← isNamed])
        (by rw [← isNamed]; simp only; omega) (by rw [← isNamed]; exact size)
        namedRange
    rw [frontLength] at valueTurned
    have namedStatus : named.status = .value := by rw [← isNamed]
    have namedIndex : named.i = front.length + raw.length + 1 := by
      rw [← isNamed]
    have namedArguments : named.arguments = state.arguments := by
      rw [← isNamed]
    have namedCount : named.invalidCount =
        wrapInt (state.invalidCount + invalidEscapes raw) := by
      rw [← isNamed]
    have namedIs : named.arg = namedArg origin front.length raw := by
      rw [← isNamed]
    obtain ⟨last, lastRan, lastLeft⟩ :=
      run_turn (by omega) (by rw [namedStatus]; exact valueTurned)
        (by rw [namedIndex]; simp only [ParseState.finish]; omega) left
    have describes : Describes s origin (front.length, raw ++ 0x3d :: value)
        (valuedArg (namedArg origin front.length raw) (front.length + raw.length + 1) value) :=
      describes_valuedArg raw value whole rfl isName isValue
    rw [← namedIs] at describes
    refine ⟨_, last, _, describes, ran.trans lastRan, lastLeft, ?_, ?_, ?_, ?_⟩
    · simp only [ParseState.finish, addLast, namedArguments]
    · simp only [ParseState.finish, pieceInvalid, isName, isValue, namedCount]
      rw [Int.add_comm, wrapInt_add_wrapInt]
      congr 1
      push_cast
      omega
    · rintro rfl
      rw [List.length_nil] at bound
      simp only [ParseState.finish]
      omega
    · intro _
      refine ⟨?_, rfl, rfl, rfl, lastSize, wrapInt_wrapInt _⟩
      simp only [ParseState.finish, List.length_append, List.length_cons]
      omega

/-! ## The whole input -/

theorem read_piece
    (small : s.length < 2 ^ 32) (whole : s = front ++ piece ++ tail)
    (nonempty : piece ++ tail ≠ []) (without : argumentSeparator ∉ piece)
    (tailSeparator : ∀ c ∈ tail.head?, c = argumentSeparator)
    (atPiece : AtPiece s origin front.length state) (enough : s.length - state.i < fuel) :
    ∃ next rest arg, PieceRead s origin argumentSeparator front.length piece tail state
        next fuel rest arg := by
  rcases piece_cases piece with
    ⟨noEquals, name, value⟩ | ⟨raw, value, rfl, noEquals, isName, isValue⟩
  · exact read_name small whole nonempty without tailSeparator noEquals name
        value atPiece enough
  · exact read_value small whole without tailSeparator noEquals isName isValue atPiece enough

def argumentEntry (arg : MscArg) : Bytes × MscArg :=
  (logEscapeNqEx arg.name, arg)

variable (argumentSeparator) in
/-- The loop reads the pieces one by one. -/
theorem run_pieces
    {rest : Bytes} (small : s.length < 2 ^ 32) (whole : s = front ++ rest)
    (atPiece : AtPiece s origin front.length state) (enough : s.length - state.i < fuel) :
    ∃ final added, Loop.run (parseBody s argumentSeparator origin) fuel state =
        some (some final) ∧
        addLast final = state.arguments ++ added.map argumentEntry ∧
        final.invalidCount = wrapInt (state.invalidCount +
            ((pieces rest argumentSeparator).map pieceInvalid).sum) ∧
        List.Forall₂ (Describes s origin)
          (placed front.length (pieces rest argumentSeparator)) added := by
  induction length : rest.length using Nat.strong_induction_on
    generalizing front rest state fuel with
  | _ size ih =>
    have done : ∀ {state : ParseState} {fuel : Nat},
        s.length ≤ state.i → s.length - state.i < fuel →
          Loop.run (parseBody s argumentSeparator origin) fuel state = some (some state) := by
      intro state fuel ended enough
      obtain ⟨more, rfl⟩ : ∃ more, fuel = more + 1 := ⟨fuel - 1, by omega⟩
      refine Loop.run_of_result more ?_
      rw [parseBody, if_neg (by omega)]
    by_cases empty : rest = []
    · subst empty
      rw [List.append_nil] at whole
      refine ⟨state, [], done (by rw [atPiece.i, whole]) enough, ?_, ?_, ?_⟩
      · simp [addLast, atPiece.status]
      · rw [pieces_nil]
        simpa using atPiece.inRange.symm
      · rw [pieces_nil]
        exact List.Forall₂.nil
    · by_cases separated : argumentSeparator ∈ rest
      · obtain ⟨piece, more, rfl, without⟩ := List.eq_append_cons_of_mem separated
        obtain ⟨next, left, arg, read⟩ :=
          read_piece small (whole.trans (List.append_assoc _ _ _).symm)
            (by simp) without (by simp) atPiece enough
        have nextPiece := read.goesOn (by simp)
        have nextFront : (front ++ piece ++ [argumentSeparator]).length =
            front.length + piece.length + 1 := by
          simp only [List.length_append, List.length_singleton]
        rw [← nextFront] at nextPiece
        obtain ⟨final, added, ran, table, count, describes⟩ := ih more.length (by
            rw [← length, List.length_append, List.length_cons]
            omega)
            (by rw [whole]; simp) nextPiece read.enough rfl
        have arguments :
            next.arguments = addArgument state.arguments arg := by
          rw [← read.added, addLast, nextPiece.status]
        refine ⟨final, arg :: added, read.ran.trans ran, ?_, ?_, ?_⟩
        · rw [table, arguments]
          simp [addArgument, AprTable.addn, argumentEntry]
        · rw [count, read.invalidCount, pieces_cons more without,
            List.map_cons, List.sum_cons, Int.add_comm,
            wrapInt_add_wrapInt]
          congr 1
          push_cast
          omega
        · rw [pieces_cons more without, placed]
          rw [nextFront] at describes
          exact List.Forall₂.cons read.describes describes
      · obtain ⟨next, left, arg, read⟩ :=
          read_piece small (whole.trans (List.append_nil _).symm)
            (by simpa using empty) separated (by simp) atPiece enough
        refine ⟨next, [arg], read.ran.trans (done (read.atEnd rfl) read.enough), ?_, ?_, ?_⟩
        · rw [read.added]
          rfl
        · rw [read.invalidCount, pieces_last separated empty]
          simp
        · rw [pieces_last separated empty]
          exact List.Forall₂.cons read.describes List.Forall₂.nil

variable (argumentSeparator) in
theorem parseArguments_nonempty
    (origin : Bytes) (fresh : Nat → UInt8) (arguments : AprTable MscArg)
    (invalidCount : Int) (small : s.length < 2 ^ 32) (nonempty : s ≠ []) :
    ∃ added, parseArguments s argumentSeparator origin fresh arguments invalidCount =
        some (arguments ++ added.map argumentEntry, wrapInt
            ((pieces s argumentSeparator).map pieceInvalid).sum) ∧
        List.Forall₂ (Describes s origin) (placed 0 (pieces s argumentSeparator)) added := by
  have positive : s.length ≠ 0 := by simpa using nonempty
  generalize isStart :
    ({ i := 0, j := 0, status := .name
       buf := (List.range (s.length + 1)).map fresh
       value := 0, arg := MscArg.fresh origin, arguments := arguments
       invalidCount := 0 } : ParseState) = start
  have atPiece : AtPiece s origin ([] : Bytes).length start := by
    rw [← isStart]
    exact ⟨rfl, rfl, rfl, rfl, by simp, rfl⟩
  have startCount : start.invalidCount = 0 := by rw [← isStart]
  have startArguments : start.arguments = arguments := by rw [← isStart]
  have enough : s.length - start.i < s.length + 1 := by omega
  obtain ⟨final, added, ran, table, count, describes⟩ :=
    run_pieces argumentSeparator small (List.nil_append s).symm atPiece enough
  refine ⟨added, ?_, describes⟩
  rw [parseArguments, if_neg positive]
  simp only
  rw [isStart, ran, Option.join_some]
  simp only
  rw [table, startArguments, count, startCount, Int.zero_add]

end

/-- Parsing arguments gives one argument for every piece of the input, decoded
and with its place in the input, counts the invalid escapes, and never leaves
its buffer.  The lengths of an argument are `unsigned int` and the count is an
`int`. -/
theorem parseArguments_eq
    (s : Bytes) (argumentSeparator : UInt8) (origin : Bytes)
    (fresh : Nat → UInt8) (arguments : AprTable MscArg)
    (invalidCount : Int) (small : s.length < 2 ^ 32) :
    ∃ added count,
      parseArguments s argumentSeparator origin fresh arguments invalidCount =
        some (arguments ++ added.map argumentEntry, count) ∧
        (count =
          if s = [] then invalidCount
          else
            wrapInt ((pieces s argumentSeparator).map pieceInvalid).sum) ∧
        List.Forall₂ (Describes s origin) (placed 0 (pieces s argumentSeparator)) added := by
  by_cases empty : s = []
  · refine ⟨[], invalidCount, ?_, (if_pos empty).symm, ?_⟩
    · rw [parseArguments, if_pos (by rw [empty]; rfl)]
      simp
    · rw [empty, pieces_nil]
      exact List.Forall₂.nil
  · obtain ⟨added, parsed, describes⟩ :=
      parseArguments_nonempty argumentSeparator origin fresh arguments invalidCount small empty
    exact ⟨added, _, parsed, (if_neg empty).symm, describes⟩

/-- Two arguments, the first with an invalid escape and without a value, and an
empty piece at the end. -/
theorem parseArguments_eq_two :
    let s := ascii "a%2&b+c=%41=&".toList
    ∃ added,
      parseArguments s 0x26 (ascii "ARGS".toList) (fun _ => 7) [] 0 =
          some (added.map argumentEntry, 1) ∧
        List.Forall₂ (Describes s (ascii "ARGS".toList))
          (placed 0 (pieces s 0x26)) added := by
  intro s
  obtain ⟨added, count, parsed, isCount, describes⟩ :=
    parseArguments_eq s 0x26 (ascii "ARGS".toList) (fun _ => 7) [] 0
      (by decide +kernel)
  have one : count = 1 := by
    rw [isCount]
    decide +kernel
  rw [List.nil_append, one] at parsed
  exact ⟨added, parsed, describes⟩

/-- A name whose length an `unsigned int` keeps as zero is lost. -/
theorem parseArguments_long
    {s : Bytes} {argumentSeparator : UInt8} (origin : Bytes)
    (fresh : Nat → UInt8) (long : s.length = 2 ^ 32)
    (inside : ∀ c ∈ s, c ≠ 0x3d ∧ c ≠ argumentSeparator) (notZero : argumentSeparator ≠ 0) :
    ∃ arg, parseArguments s argumentSeparator origin fresh [] 0 =
        some ([argumentEntry arg], 0) ∧ arg.name = [] := by
  have copied : (s.drop 0).takeWhile (fun c => c ≠ 0x3d && c ≠ argumentSeparator) = s := by
    rw [List.drop_zero, List.takeWhile_eq_self_iff]
    intro c member
    simp [inside c member]
  have kept : unsigned (s.length - unsigned 0) = 0 := by
    rw [long]
    rfl
  generalize isBuf : (List.range (s.length + 1)).map fresh = buf
  have size : buf.length = s.length + 1 := by
    rw [← isBuf, List.length_map, List.length_range]
  have written : Buffer.write? buf 0 (s ++ [0]) = some (s ++ [0]) := by
    have whole := Buffer.write?_append [] (s ++ [0]) buf (by simp [size])
    rw [List.drop_of_length_le (by simp [size])] at whole
    simpa using whole
  obtain ⟨first, rest, isText⟩ :=
    List.exists_cons_of_ne_nil (List.concat_ne_nil (0 : UInt8) s)
  obtain ⟨final, others, decoded, count, invalid, -, -⟩ :=
    urldecode_text [] [] rest first 0 rfl
  have none : decodeField (s ++ [0]) 0 0 0 = some (final.buf, 0, 0, []) := by
    rw [decodeField, isText]
    simp only [List.length_nil, List.nil_append] at decoded
    rw [decoded]
    have noCount : final.count = 0 := by simpa [urlDecode] using count
    have noInvalid : final.invalidCount = 0 := by
      rw [invalid]
      rfl
    simp [noCount, noInvalid, unsigned, Buffer.read?]
  have zero : charAt s s.length ≠ argumentSeparator := by
    simpa [charAt] using notZero.symm
  let next : ParseState :=
    { i := s.length + 1, j := s.length + 1, status := .value
      buf := final.buf, value := s.length + 1, arg := MscArg.fresh origin
      arguments := [], invalidCount := 0 }
  have turned : nameTurn s argumentSeparator origin
      { i := 0, j := 0, status := .name, buf := buf, value := 0
        arg := MscArg.fresh origin, arguments := []
        invalidCount := 0 } = some next := by
    unfold nameTurn
    simp only [copied, written, Nat.zero_add, kept, none, if_neg zero]
    rfl
  have ended : parseBody s argumentSeparator origin next = .inl (some next) :=
    if_neg (by simp only [next]; omega)
  have ran : Loop.run (parseBody s argumentSeparator origin) (s.length + 1)
      { i := 0, j := 0, status := .name, buf := buf, value := 0
        arg := MscArg.fresh origin, arguments := []
        invalidCount := 0 } = some (some next) := by
    obtain ⟨more, fuel⟩ : ∃ more, s.length = more + 1 := ⟨s.length - 1, by omega⟩
    rw [fuel, Loop.run_of_next (more + 1), Loop.run_of_result more ended]
    rw [parseBody, if_pos (by simp only; omega)]
    simp only
    rw [turned]
  refine ⟨MscArg.fresh origin, ?_, rfl⟩
  rw [parseArguments, if_neg (by omega)]
  simp only
  rw [isBuf, ran]
  rfl

/-- The count of the caller is overwritten: it does not grow by the number of
invalid escapes.  A name of four gigabytes is lost. -/
theorem invalidCount_reset :
    (parseArguments (ascii "%zz".toList) 0x26 [] (fun _ => 0) [] 5 =
        some
          ([argumentEntry
            { name := ascii "%zz".toList, nameLen := 3
              nameOriginOffset := 0, nameOriginLen := 3
              value := [], valueLen := 0
              valueOriginOffset := 0, valueOriginLen := 0
              origin := [] }], 1) ∧
        ((pieces (ascii "%zz".toList) 0x26).map pieceInvalid).sum = 1 ∧
        (1 : Int) ≠ 5 + 1) ∧
      ∃ s arg,
        parseArguments s 0x26 [] (fun _ => 0) [] 0 = some ([argumentEntry arg], 0) ∧
          pieces s 0x26 = [s] ∧ arg.name ≠ urlDecode (rawName s) := by
  refine ⟨by decide +kernel, ?_⟩
  obtain ⟨s, isLong⟩ : ∃ s, s = List.replicate (2 ^ 32) (0x61 : UInt8) :=
    ⟨_, rfl⟩
  have long : s.length = 2 ^ 32 := by rw [isLong, List.length_replicate]
  have letters : ∀ c ∈ s, c = 0x61 := by
    rw [isLong]
    exact fun c member => List.eq_of_mem_replicate member
  have inside : ∀ c ∈ s, c ≠ 0x3d ∧ c ≠ 0x26 := by
    intro c member
    rw [letters c member]
    decide
  obtain ⟨arg, parsed, lost⟩ :=
    parseArguments_long [] (fun _ => 0) long inside (by decide)
  cases s with
  | nil => simp at long
  | cons c rest =>
    refine ⟨c :: rest, arg, parsed, pieces_last ?_ (by simp), ?_⟩
    · intro member
      exact absurd rfl (inside 0x26 member).2
    · rw [lost, rawName, letters c (by simp),
        List.takeWhile_cons_of_pos (by decide), urlDecode.eq_def]
      simp

end Cookbook.ModSecurity.Arguments
