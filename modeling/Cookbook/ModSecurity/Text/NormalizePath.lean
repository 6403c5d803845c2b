import Cookbook.Lib.Loop
import Cookbook.Lib.Memory
import Cookbook.ModSecurity.Text.Hex

/-!
# Path normalisation

`normalize_path_inplace` removes empty segments, self references and back
references from a path.  It decides with the help of the bytes around the two
places where it reads and writes, not on segments.
-/

namespace Cookbook.ModSecurity.Text.Path

open Cookbook.Lib Cookbook.Lib.Memory

def slash : UInt8 := 0x2f

def backslash : UInt8 := 0x5c

def dot : UInt8 := 0x2e

/-- `*p == '/'`, or on Windows `*p == '\\'`. -/
def isSeparator (win : Bool) (c : UInt8) : Bool :=
  c = slash || (win && c = backslash)

/-- The variables of the loop; the pointers are offsets from `input`.  A `dst`
in front of the input is as good as the input itself. -/
structure Variables where
  buf : Nat → UInt8
  src : Nat
  dst : Nat
  hitroot : Bool
  done : Bool
  changed : Bool

namespace Variables

section

variable (win relative : Bool) (last : Nat)

def convertAt (state : Variables) (i : Nat) : Variables :=
  if state.buf i = backslash then
    { state with buf := Function.update state.buf i slash, changed := true }
  else
    state

/-- The conversion at the head of the loop. -/
def convert (state : Variables) : Variables :=
  if win then
    let state := state.convertAt state.src
    if state.src < last then state.convertAt (state.src + 1) else state
  else
    state

/-- The last one of several slashes. -/
def skipSlashes (buf : Nat → UInt8) : Nat → Nat → Nat
  | 0, src => src
  | left + 1, src =>
    if src < last ∧ isSeparator win (buf (src + 1)) then
      skipSlashes buf left (src + 1)
    else
      src

/-- `*(dst++) = *(src++)` -/
def put (state : Variables) : Variables :=
  { state with
    buf := Function.update state.buf state.dst (state.buf state.src)
    src := state.src + 1
    dst := state.dst + 1 }

/-- What follows the label `copy`. -/
def copy (state : Variables) : Variables :=
  if state.buf state.src = slash then
    let src := skipSlashes win last state.buf (last - state.src) state.src
    let state :=
      { state with
        src := src
        changed := state.changed || decide (state.src ≠ src) }
    if relative ∧ state.dst = 0 then
      { state with src := state.src + 1 }
    else
      state.put
  else
    state.put

/-- `while ((dst > input) && (*dst != '/')) dst--` -/
def scanBack (buf : Nat → UInt8) : Nat → Nat
  | 0 => 0
  | dst + 1 => if buf (dst + 1) ≠ slash then scanBack buf dst else dst + 1

/-- The branch for a back reference. -/
def backReference (state : Variables) : Variables :=
  if relative ∧ (state.hitroot ∨ state.dst ≤ 2) then
    { state with hitroot := true }.copy win relative last
  else
    let dst := scanBack state.buf (state.dst - 3)
    let state := if dst = 0 then
        { state with
          hitroot := true
          dst := if !relative && decide (state.src = last) then 1 else 0 }
      else
        { state with dst := dst }
    if state.done then
      state
    else
      { state with src := state.src + 1, changed := true }.copy win relative
        last

def normalize (state : Variables) : Variables :=
  if state.src ≠ last ∧ state.buf state.src = slash then
    { state with changed := true }.copy win relative last
  else if state.buf state.src = dot then
    if 0 < state.dst ∧ state.buf (state.dst - 1) = dot then
      state.backReference win relative last
    else if state.dst = 0 then
      if state.done then
        { state with changed := true }
      else
        { state with src := state.src + 1, changed := true }.copy win relative
          last
    else if state.buf (state.dst - 1) = slash then
      if state.done then
        { state with changed := true }
      else
        { state with
          src := state.src + 1, dst := state.dst - 1, changed := true }.copy win relative last
    else
      state.copy win relative last
  else if 0 < state.dst then
    { state with hitroot := false }.copy win relative last
  else
    state.copy win relative last

def turn (state : Variables) : Variables ⊕ Variables :=
  if !state.done && decide (state.src ≤ last) && decide (state.dst ≤ last) then
    let state := state.convert win last
    if state.src = last then
      .inr ({ state with done := true }.normalize win relative last)
    else if state.buf (state.src + 1) ≠ slash then
      .inr (state.copy win relative last)
    else
      .inr (state.normalize win relative last)
  else
    .inl state

end

def start (buf : Nat → UInt8) : Variables where
  buf := buf
  src := 0
  dst := 0
  hitroot := false
  done := false
  changed := false

/-- The end of the function: a slash that the path did not end in is removed,
and the terminator is written. -/
def finish (trailing : Bool) (state : Variables) : Variables :=
  let dst := if !trailing && decide (0 < state.dst) &&
      decide (state.buf (state.dst - 1) = slash) then
      state.dst - 1
    else
      state.dst
  { state with buf := Function.update state.buf dst 0, dst := dst }

end Variables

/-- `normalize_path_inplace`: the variables at its end.  It returns `dst`. -/
def normalizePathInplace (buf : Nat → UInt8) (inputLen : Nat) (win : Bool) :
    Option Variables :=
  if inputLen = 0 then
    some (Variables.start buf)
  else
    let last := inputLen - 1
    let relative := !isSeparator win (buf 0)
    let trailing := isSeparator win (buf last)
    (Loop.run (Variables.turn win relative last) (inputLen + 1)
      (Variables.start buf)).map (Variables.finish trailing)

def normalizePath (win : Bool) (input : Bytes) : Option Bytes :=
  (normalizePathInplace (fun i => input.getD i 0) input.length win).map
    fun state => cells state.buf 0 state.dst

def segments (win : Bool) (input : Bytes) : List Bytes :=
  (input.splitOnP (isSeparator win)).filter fun segment => segment ≠ []

def dotdot : Bytes := [dot, dot]

def EndsOrdinary (remaining : List Bytes) : Prop :=
  ∃ segment ∈ remaining.getLast?, segment ≠ dotdot

instance (remaining : List Bytes) : Decidable (EndsOrdinary remaining) :=
  decidable_of_iff (remaining.getLast?.any fun segment => segment ≠ dotdot)
    (by
      unfold EndsOrdinary
      cases remaining.getLast? <;> simp)

/-- The segments that remain behind one more segment. -/
def meaningStep (relative : Bool) (remaining : List Bytes) (segment : Bytes) :
    List Bytes :=
  if segment = [dot] then remaining
  else if segment = dotdot then
    if EndsOrdinary remaining then remaining.dropLast
    else if relative then remaining ++ [segment]
    else remaining
  else remaining ++ [segment]

def isRelative (win : Bool) (input : Bytes) : Bool :=
  !input.head?.any (isSeparator win)

def namesDirectory (win : Bool) (input : Bytes) : Bool :=
  input.getLast?.any (isSeparator win)

def meaning (win : Bool) (input : Bytes) : List Bytes :=
  (segments win input).foldl (meaningStep (isRelative win input)) []

def render (relative directory : Bool) (remaining : List Bytes) : Bytes :=
  (if relative then [] else [slash]) ++ [slash].intercalate remaining ++
    if directory ∧ remaining ≠ [] then [slash] else []

def normalPath (win : Bool) (input : Bytes) : Bytes :=
  render (isRelative win input) (namesDirectory win input) (meaning win input)

end Cookbook.ModSecurity.Text.Path
