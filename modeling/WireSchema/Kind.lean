/-!
# Data model kinds

The kinds a value can have on the wire, whatever type describes it.  A kinded
union tells its members apart by them, and every compiled type but a kinded union
has one: the kind that its representation produces.
-/

namespace WireSchema

/-- A kind of the data model. -/
inductive Kind where
  | map
  | list
  | null
  | bool
  | int
  | float
  | string
  | bytes
  | link
  deriving DecidableEq

namespace Kind

/-- The word for a kind. -/
def name : Kind → String
  | .map => "map"
  | .list => "list"
  | .null => "null"
  | .bool => "bool"
  | .int => "int"
  | .float => "float"
  | .string => "string"
  | .bytes => "bytes"
  | .link => "link"

/-- Every kind, in the order in which messages list them. -/
def all : List Kind :=
  [.map, .list, .null, .bool, .int, .float, .string, .bytes, .link]

/-- Every kind under its word. -/
def byName : List (String × Kind) :=
  all.map fun k => (k.name, k)

/-- The kind of a word. -/
def ofName? (word : String) : Option Kind :=
  byName.lookup word

theorem ofName?_name (k : Kind) : ofName? k.name = some k := by
  cases k <;> decide

/-- Different kinds have different words. -/
theorem name_injective {k l : Kind} (h : k.name = l.name) : k = l := by
  have found := ofName?_name k
  rw [h, ofName?_name] at found
  exact (Option.some.inj found).symm

end Kind
end WireSchema
