import Resumable.Value.Arity

/-!
This module contains the primitives by name, with what is known about each of them without calling
it.
-/

namespace Resumable

/--
The built-in functions.
-/
inductive Primitive where
  | add | sub | mul | div | mod | inc | dec
  | vector | list | hashMap | hashSet | get | count | conj | first | rest
  | equal | notEqual | less | greater | atMost | atLeast
  | throw | error | exKind | exMessage | exData
  | str | not | isNil | typeOf | record | println
  deriving Repr, DecidableEq

namespace Primitive

structure Signature where
  name : String
  arity : Arity
  doc : String
  params : List String
  category : String
  aliases : List String := []

def Signature.usage (s : Signature) : String :=
  "(" ++ " ".intercalate (s.name :: s.params) ++ ")"

def all : List Primitive :=
  [.add, .sub, .mul, .div, .mod, .inc, .dec,
   .vector, .list, .hashMap, .hashSet, .get, .count, .conj, .first, .rest,
   .equal, .notEqual, .less, .greater, .atMost, .atLeast,
   .throw, .error, .exKind, .exMessage, .exData,
   .str, .not, .isNil, .typeOf, .record, .println]

def signature : Primitive → Signature
  | .add => ⟨"+", .atLeast 0, "Sum all arguments. Returns 0 for no arguments.", ["xs"],
      "arithmetic", []⟩
  | .sub => ⟨"-", .atLeast 1, "Subtract arguments left-to-right. Single arg negates.", ["x", "ys"],
      "arithmetic", []⟩
  | .mul => ⟨"*", .atLeast 0, "Multiply all arguments. Returns 1 for no arguments.", ["xs"],
      "arithmetic", []⟩
  | .div => ⟨"/", .atLeast 1, "Divide arguments left-to-right. Integer division truncates.",
      ["x", "ys"], "arithmetic", []⟩
  | .mod => ⟨"mod", .exactly 2, "Modulus with the sign of the divisor.", ["x", "y"],
      "arithmetic", ["%"]⟩
  | .inc => ⟨"inc", .exactly 1, "Add one.", ["x"], "arithmetic", []⟩
  | .dec => ⟨"dec", .exactly 1, "Subtract one.", ["x"], "arithmetic", []⟩
  | .vector => ⟨"vector", .atLeast 0, "Build a vector from the arguments.", ["xs"],
      "collections", []⟩
  | .list => ⟨"list", .atLeast 0, "Build a list from the arguments.", ["xs"], "collections", []⟩
  | .hashMap => ⟨"hash-map", .atLeast 0, "Build a map from alternating keys and values.", ["kvs"],
      "collections", []⟩
  | .hashSet => ⟨"hash-set", .atLeast 0, "Build a set from the arguments.", ["xs"],
      "collections", []⟩
  | .get => ⟨"get", .range 2 3, "Look up a key in a map, record, vector or set.",
      ["coll", "key", "default"], "collections", []⟩
  | .count => ⟨"count", .exactly 1,
      "Number of elements in a collection or characters in a string.", ["coll"],
      "collections", ["length"]⟩
  | .conj => ⟨"conj", .atLeast 1, "Add elements to a collection.", ["coll", "xs"],
      "collections", []⟩
  | .first => ⟨"first", .exactly 1, "First element of a sequence, or nil.", ["coll"],
      "collections", []⟩
  | .rest => ⟨"rest", .exactly 1, "All but the first element, as a list.", ["coll"],
      "collections", []⟩
  | .equal => ⟨"=", .atLeast 1, "True when all arguments are structurally equal.", ["x", "ys"],
      "comparison", []⟩
  | .notEqual => ⟨"not=", .exactly 2, "True when the arguments differ.", ["x", "y"],
      "comparison", []⟩
  | .less => ⟨"<", .atLeast 1, "True when the numbers strictly increase.", ["xs"],
      "comparison", []⟩
  | .greater => ⟨">", .atLeast 1, "True when the numbers strictly decrease.", ["xs"],
      "comparison", []⟩
  | .atMost => ⟨"<=", .atLeast 1, "True when the numbers never decrease.", ["xs"],
      "comparison", []⟩
  | .atLeast => ⟨">=", .atLeast 1, "True when the numbers never increase.", ["xs"],
      "comparison", []⟩
  | .throw => ⟨"throw", .exactly 1, "Raise a value as a fault. The value may not be nil.",
      ["value"], "exception", []⟩
  | .error => ⟨"error", .range 1 3, "Build an error value of the given kind.",
      ["kind", "message", "data"], "exception", []⟩
  | .exKind => ⟨"ex-kind", .exactly 1, "Kind keyword of an error value.", ["err"],
      "exception", []⟩
  | .exMessage => ⟨"ex-message", .exactly 1, "Message string of an error value.", ["err"],
      "exception", []⟩
  | .exData => ⟨"ex-data", .exactly 1, "Data payload of an error value, or nil.", ["err"],
      "exception", []⟩
  | .str => ⟨"str", .atLeast 0, "Concatenate the printed forms of the arguments.", ["xs"],
      "utility", []⟩
  | .not => ⟨"not", .exactly 1, "True for nil and false.", ["x"], "utility", []⟩
  | .isNil => ⟨"nil?", .exactly 1, "True only for nil.", ["x"], "utility", []⟩
  | .typeOf => ⟨"type-of", .exactly 1, "Type name of a value as a keyword.", ["x"],
      "utility", []⟩
  | .record => ⟨"record", .atLeast 1, "Build a mutable record with a type name and fields.",
      ["type", "fields"], "utility", []⟩
  | .println => ⟨"println", .atLeast 0, "Print the arguments separated by spaces.", ["xs"],
      "utility", []⟩

def name (p : Primitive) : String :=
  p.signature.name

def names (p : Primitive) : List String :=
  p.name :: p.signature.aliases

def find? (name : String) : Option Primitive :=
  all.find? (·.names.contains name)

end Primitive

end Resumable
