import Mathlib
import Statsdcc.Lib.Double

/-!
# JSON documents as a program reads them

`JsonValue V` lists the operations of `Json::Value` on a type `V` of documents. An
operation that throws is `none`. `JsonMembers V` adds when a default is taken, and what
the size of a document is. `Json` is an instance, for documents without fractional
numbers.
-/

open Bytes

/-- The operations of `Json::Value`. -/
class JsonValue (V : Type) where
  ofInt : Int32 → V
  ofBool : Bool → V
  ofString : Bytes → V
  /-- `value[key]` of a `const` value. -/
  subscript : V → Bytes → Option V
  /-- `value.get(key, default)` -/
  get : V → Bytes → V → Option V
  asInt : V → Option Int32
  asBool : V → Option Bool
  asString : V → Option Bytes
  size : V → ℕ
  /-- The values from `begin()` to `end()`. -/
  values : V → List V
  getMemberNames : V → Option (List Bytes)

namespace JsonValue

variable {V : Type} [JsonValue V]

/-- `value.get(key, default).asInt()` -/
def getInt (json : V) (key : Bytes) (default : Int32) : Option Int32 :=
  (get json key (ofInt default)).bind asInt

def getBool (json : V) (key : Bytes) (default : Bool) : Option Bool :=
  (get json key (ofBool default)).bind asBool

def getString (json : V) (key : Bytes) (default : Bytes) : Option Bytes :=
  (get json key (ofString default)).bind asString

end JsonValue

/-- Documents in which a default takes the place of an absent member, and whose size is
the number of their values. -/
class JsonMembers (V : Type) extends JsonValue V where
  /-- The member of an object, if it has one of this name. -/
  member : V → Bytes → Option (Option V)
  get_eq (json : V) (key : Bytes) (default : V) :
    get json key default = (member json key).map fun found => found.getD default
  asString_ofString (s : Bytes) : asString (ofString s) = some s
  length_values (json : V) : (values json).length = size json

/-- A document; the members of an object stand in the order of their names. -/
inductive Json
  | null
  | bool (b : Bool)
  | int (i : ℤ)
  | string (s : Bytes)
  | array (elements : List Json)
  | object (members : List (Bytes × Json))

namespace Json

/-- The value of a member; only objects and `null` have members. -/
def find : Json → Bytes → Option (Option Json)
  | null, _ => some none
  | object members, key => some (members.lookup key)
  | _, _ => none

def asInt : Json → Option Int32
  | null => some 0
  | bool b => some (if b then 1 else 0)
  | int i => if -2 ^ 31 ≤ i ∧ i < 2 ^ 31 then some (.ofInt i) else none
  | _ => none

def asBool : Json → Option Bool
  | null => some false
  | bool b => some b
  | int i => some (i ≠ 0)
  | _ => none

def asString : Json → Option Bytes
  | null => some []
  | bool b => some (if b then ascii "true" else ascii "false")
  | int i => some (intText i)
  | string s => some s
  | _ => none

def values : Json → List Json
  | array elements => elements
  | object members => members.map Prod.snd
  | _ => []

def getMemberNames : Json → Option (List Bytes)
  | null => some []
  | object members => some (members.map Prod.fst).dedup
  | _ => none

instance : JsonValue Json where
  ofInt i := int i.toInt
  ofBool := bool
  ofString := string
  subscript json key := (json.find key).map (Option.getD · null)
  get json key default := (json.find key).map (Option.getD · default)
  asInt := asInt
  asBool := asBool
  asString := asString
  size json := json.values.length
  values := values
  getMemberNames := getMemberNames

instance : JsonMembers Json where
  member := find
  get_eq _ _ _ := rfl
  asString_ofString _ := rfl
  length_values _ := rfl

end Json
