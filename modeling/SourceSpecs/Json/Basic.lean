/-!
JSON values. The members of an object keep their order.
-/
namespace SourceSpecs

inductive Json where
  | null
  | bool (b : Bool)
  | number (n : Nat)
  | string (s : String)
  | array (items : List Json)
  | object (members : List (String × Json))
  deriving Repr

namespace Json

def ofOption (s : Option String) : Json := s.elim null string

def strings (ss : List String) : Json := array (ss.map string)

def append : Json → Json → Json
  | object ms, object ns => object (ms ++ ns)
  | j, _ => j

end Json

end SourceSpecs
