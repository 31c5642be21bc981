/-!
# JSON values

A value keeps the members of an object in the order in which they are written, repetitions
included, and a number as it is written.

* `Value`  the six kinds of value.
-/

namespace HtmlTree.Json

inductive Value where
  | null
  | bool (b : Bool)
  | number (literal : String)
  | string (text : String)
  | array (items : List Value)
  | object (members : List (String × Value))
  deriving Inhabited

namespace Value

def bool? : Value → Option Bool
  | bool b => some b
  | _ => none

def string? : Value → Option String
  | string s => some s
  | _ => none

def array? : Value → Option (List Value)
  | array items => some items
  | _ => none

end Value

end HtmlTree.Json
