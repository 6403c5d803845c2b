import Cookbook.ModSecurity.JsonBody.Handlers

/-!
# JSON documents

A document, the events that it is delivered as, and the arguments that it
stands for: one for each scalar inside an object, named by the keys around it.
-/

namespace Cookbook.ModSecurity.JsonBody

open Cookbook.Lib
open Cookbook.Lib.CText
open Cookbook.ModSecurity.Text
open Cookbook.ModSecurity.Arguments

mutual

inductive Json where
  | scalar (value : Scalar)
  | array (items : Items)
  | object (members : Members)

inductive Items where
  | nil
  | cons (first : Json) (rest : Items)

inductive Members where
  | nil
  | cons (key : Bytes) (value : Json) (rest : Members)

end

def Scalar.text : Scalar → Bytes
  | .null => []
  | .boolean true => ascii ['t', 'r', 'u', 'e']
  | .boolean false => ascii ['f', 'a', 'l', 's', 'e']
  | .number text => text
  | .string text => text

mutual

def Json.events : Json → List Event
  | .scalar value => [.scalar value]
  | .array items => items.events
  | .object members => .startMap :: members.events ++ [.endMap]

def Items.events : Items → List Event
  | .nil => []
  | .cons first rest => first.events ++ rest.events

def Members.events : Members → List Event
  | .nil => []
  | .cons key value rest => .mapKey key :: value.events ++ rest.events

end

/-- The keys around a value, from the outermost one on, with dots between
them. -/
def dotted (path : List Bytes) : Bytes := [separator].intercalate path

mutual

/-- The names and values of the arguments that a value under some keys stands
for. -/
def Json.named (path : List Bytes) : Json → List (Bytes × Bytes)
  | .scalar value => if path = [] then [] else [(dotted path, value.text)]
  | .array items => items.named path
  | .object members => members.named path

def Items.named (path : List Bytes) : Items → List (Bytes × Bytes)
  | .nil => []
  | .cons first rest => first.named path ++ rest.named path

def Members.named (path : List Bytes) : Members → List (Bytes × Bytes)
  | .nil => []
  | .cons key value rest =>
    value.named (path ++ [key]) ++ rest.named path

end

mutual

/-- The value is an object, or an array with one in it. -/
def Json.hasObject : Json → Bool
  | .scalar _ => false
  | .array items => items.hasObject
  | .object _ => true

def Items.hasObject : Items → Bool
  | .nil => false
  | .cons first rest => first.hasObject || rest.hasObject

end

def Members.isNil : Members → Bool
  | .nil => true
  | .cons _ _ _ => false

mutual

/-- Behind the value the names are wrong: somewhere in it an object stands
under a key with a dot, or it is at the top and an object with members. -/
def Json.spoils (top : Bool) : Json → Bool
  | .scalar _ => false
  | .array items => items.spoils top
  | .object members => members.spoils || (top && !members.isNil)

def Items.spoils (top : Bool) : Items → Bool
  | .nil => false
  | .cons first rest => first.spoils top || rest.spoils top

def Members.spoils : Members → Bool
  | .nil => false
  | .cons key value rest =>
    value.spoils false ||
      (value.hasObject && decide (separator ∈ cString key)) ||
      rest.spoils

end

/-- A scalar under some keys becomes the right argument where no names are
wrong: its keys hold no zero, and its length is an `unsigned`. -/
def ScalarRight (path : List Bytes) (spoiled : Bool) (value : Scalar) : Prop :=
  spoiled = false ∧ (path ≠ [] → (∀ key ∈ path, 0 ∉ key) ∧ value.text.length < 2 ^ 32)

instance (path : List Bytes) (spoiled : Bool) (value : Scalar) :
    Decidable (ScalarRight path spoiled value) :=
  inferInstanceAs (Decidable (_ ∧ (_ → _)))

mutual

/-- Every scalar becomes the right argument, if the names are wrong in front
of the value or are not. -/
def Json.Right (path : List Bytes) (spoiled : Bool) : Json → Prop
  | .scalar value => ScalarRight path spoiled value
  | .array items => items.Right path spoiled
  | .object members => members.Right path spoiled

def Items.Right (path : List Bytes) (spoiled : Bool) : Items → Prop
  | .nil => True
  | .cons first rest =>
    first.Right path spoiled ∧ rest.Right path (spoiled || first.spoils path.isEmpty)

def Members.Right (path : List Bytes) (spoiled : Bool) : Members → Prop
  | .nil => True
  | .cons key value rest =>
    value.Right (path ++ [key]) spoiled ∧ rest.Right path (spoiled ||
        (value.spoils false || (value.hasObject && decide (separator ∈ cString key))))

end

end Cookbook.ModSecurity.JsonBody
