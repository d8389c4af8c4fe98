-- JSON values, with integers kept apart from other numbers, and how values of other types are
-- written as JSON and read from it. The text of a JSON value is the business of a serialiser
-- outside of the library. The forms of the values are assumed to be those that it gives them and
-- expects: what is shown of them is true of stored texts as far as this assumption is.
namespace Caret

inductive Json
  | null
  | bool (value : Bool)
  | int (value : Int)
  | decimal (mantissa : Int) (places : Nat)
  | str (value : String)
  | arr (values : List Json)
  | obj (fields : List (String × Json))
deriving Inhabited

class Serial (α : Type) where
  encode : α → Json
  decode : Json → Option α

namespace Serial

-- The value survives being written and read.
def isStable {α : Type} [Serial α] [DecidableEq α] (a : α) : Bool :=
  decode (encode a) = some a

instance : Serial String where
  encode := .str
  decode
    | .str s => some s
    | _      => none

-- An integer from `min` to `max`.
def intBetween? (min max : Int) : Json → Option Int
  | .int n => if min ≤ n ∧ n ≤ max then some n else none
  | _      => none

instance : Serial Int32 where
  encode n := .int n.toInt
  decode j := (intBetween? Int32.minValue.toInt Int32.maxValue.toInt j).map Int32.ofInt

instance : Serial UInt32 where
  encode n := .int n.toNat
  decode j := (intBetween? 0 (UInt32.size - 1) j).map fun n => .ofNat n.toNat

instance : Serial UInt64 where
  encode n := .int n.toNat
  decode j := (intBetween? 0 (UInt64.size - 1) j).map fun n => .ofNat n.toNat

-- Offsets, lines and indices fit into 64 bits.
instance : Serial Nat where
  encode n := .int n
  decode j := (intBetween? 0 (UInt64.size - 1) j).map Int.toNat

instance {α : Type} [Serial α] : Serial (Option α) where
  encode
    | none   => .null
    | some a => encode a
  decode
    | .null => some none
    | j     => (decode j).map some

instance {α : Type} [Serial α] : Serial (List α) where
  encode as := .arr (as.map encode)
  decode
    | .arr js => js.mapM decode
    | _       => none

-- A field of a record, with the value it has when it is missing, if it may be.
structure Field where
  name    : String
  default : Option Json

def required (name : String) : Field :=
  ⟨name, none⟩

def optional (name : String) : Field :=
  ⟨name, some .null⟩

-- The values of the fields of a record that is written as an object. Other fields are ignored.
def object? (fields : List Field) : Json → Option (List Json)
  | .obj members => fields.mapM fun f => members.lookup f.name <|> f.default
  | _            => none

-- As `object?`, but the record may also be an array of exactly its fields.
def record? (fields : List Field) : Json → Option (List Json)
  | .arr values => if values.length = fields.length then some values else none
  | j           => object? fields j

-- The name of a variant without data: a string, or an object that holds nothing under it.
def variantName? : Json → Option String
  | .str name           => some name
  | .obj [(name, .null)] => some name
  | _                   => none

-- One of some variants without data.
def variant? {α : Type} (variants : List (String × α)) (j : Json) : Option α := do
  variants.lookup (← variantName? j)

-- The integer that a key of an object spells, if it is written the way integers are.
def keyOf? (key : String) : Option Int := do
  let n ← key.toInt?
  if n.repr = key then some n else none

-- A map from integers, which are written as the keys of an object.
def encodeMap {α β : Type} [Serial β] (key : α → Int) (entries : List (α × β)) : Json :=
  .obj (entries.map fun (a, b) => ((key a).repr, encode b))

def decodeMap {α β : Type} [Serial α] [Serial β] : Json → Option (List (α × β))
  | .obj members => members.mapM fun (key, value) => do
    return (← decode (.int (← keyOf? key)), ← decode value)
  | _            => none

end Serial
end Caret
