import Cookbook.ModSecurity.Arguments.Parse

/-!
# JSON bodies

The parser library reads a JSON body and calls a handler for each event.  The
handlers keep the names of the objects around an event in one dotted text and
the key in front of it in another.
-/

namespace Cookbook.ModSecurity.JsonBody

open Cookbook.Lib
open Cookbook.Lib.CText
open Cookbook.ModSecurity.Text
open Cookbook.ModSecurity.Arguments

/-- The part of `json_data` that the handlers use. -/
structure JsonData where
  /-- the field `prefix` -/
  outer : Option Bytes
  currentKey : Option Bytes
  deriving DecidableEq, Repr

/-- The fields of `modsec_rec` that the handlers use. -/
structure Msr where
  json : JsonData
  arguments : AprTable MscArg
  deriving DecidableEq, Repr

def separator : UInt8 := 0x2e

/-- `apr_psprintf(mp, "%s.%s", prefix, current_key)`, or the key alone. -/
def joinKey (outer : Option Bytes) (key : Bytes) : Bytes :=
  match outer with
  | none => key
  | some outer => outer ++ separator :: key

/-- The value of `origin`. -/
def jsonOrigin : Bytes := ascii ['J', 'S', 'O', 'N']

/-- The argument with some name; `length` is an `unsigned`. -/
def jsonArg (name value : Bytes) (length : Nat) : MscArg :=
  { MscArg.fresh jsonOrigin with
    name := name
    nameLen := unsigned name.length
    value := value.take length
    valueLen := length }

def jsonAddArgument (msr : Msr) (value : Bytes) (length : Nat) : Msr :=
  match msr.json.currentKey with
  | none => msr
  | some key =>
    let arg := jsonArg (joinKey msr.json.outer key) value length
    { msr with arguments := addArgument msr.arguments arg }

/-- `yajl_map_key`: `apr_pstrndup` ends the copy at a zero. -/
def yajlMapKey (msr : Msr) (key : Bytes) : Msr :=
  { msr with json := { msr.json with currentKey := some (cString key) } }

def yajlNull (msr : Msr) : Msr := jsonAddArgument msr [] 0

def yajlBoolean (msr : Msr) (value : Bool) : Msr :=
  if value then
    jsonAddArgument msr (ascii ['t', 'r', 'u', 'e']) 4
  else
    jsonAddArgument msr (ascii ['f', 'a', 'l', 's', 'e']) 5

def yajlString (msr : Msr) (value : Bytes) : Msr :=
  jsonAddArgument msr value (unsigned value.length)

def yajlNumber (msr : Msr) (value : Bytes) : Msr :=
  jsonAddArgument msr value (unsigned value.length)

def yajlStartMap (msr : Msr) : Msr :=
  match msr.json.currentKey with
  | none => msr
  | some key =>
    { msr with
      json := { msr.json with outer := some (joinKey msr.json.outer key) } }

def yajlEndMap (msr : Msr) : Msr :=
  match msr.json.outer with
  | none => msr
  | some outer =>
    match strrchr outer separator with
    | some place =>
      { msr with
        json :=
          { outer := some (outer.take place)
            currentKey := some (outer.drop (place + 1)) } }
    | none =>
      { msr with json := { outer := none, currentKey := some outer } }

inductive Scalar where
  | null
  | boolean (value : Bool)
  | number (text : Bytes)
  | string (text : Bytes)
  deriving DecidableEq, Repr

inductive Event where
  | scalar (value : Scalar)
  | startMap
  | mapKey (key : Bytes)
  | endMap
  deriving DecidableEq, Repr

/-- The handlers that `json_init` gives to the library. -/
def callbacks (msr : Msr) : Event → Msr
  | .scalar .null => yajlNull msr
  | .scalar (.boolean value) => yajlBoolean msr value
  | .scalar (.number text) => yajlNumber msr text
  | .scalar (.string text) => yajlString msr text
  | .startMap => yajlStartMap msr
  | .mapKey key => yajlMapKey msr key
  | .endMap => yajlEndMap msr

/-- The parser library: the events that are found in a chunk of the body or at
its end, and whether the status is `yajl_status_ok`. -/
structure Yajl (Handle : Type) where
  alloc : Handle
  parse : Handle → Bytes → List Event × Bool × Handle
  completeParse : Handle → List Event × Bool × Handle
  getError : Handle → Bytes

section

variable {Handle : Type} (yajl : Yajl Handle)

def jsonInit (arguments : AprTable MscArg) : Handle × Msr :=
  (yajl.alloc,
    { json := { outer := none, currentKey := none }, arguments := arguments })

def handleEvents (msr : Msr) (found : List Event × Bool × Handle) :
    Except Bytes (Handle × Msr) :=
  let (events, ok, handle) := found
  if ok then .ok (handle, events.foldl callbacks msr)
  else .error (yajl.getError handle)

def jsonProcessChunk (state : Handle × Msr) (buf : Bytes) :
    Except Bytes (Handle × Msr) :=
  handleEvents yajl state.2 (yajl.parse state.1 buf)

def jsonComplete (state : Handle × Msr) : Except Bytes (Handle × Msr) :=
  handleEvents yajl state.2 (yajl.completeParse state.1)

def jsonArguments (arguments : AprTable MscArg) (chunks : List Bytes) :
    Except Bytes (AprTable MscArg) := do
  let state ← chunks.foldlM (jsonProcessChunk yajl) (jsonInit yajl arguments)
  let (_, msr) ← jsonComplete yajl state
  return msr.arguments

end

end Cookbook.ModSecurity.JsonBody
