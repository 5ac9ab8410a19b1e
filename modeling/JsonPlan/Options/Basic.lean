import JsonPlan.Options.DateFormat

/-! What a caller asks of an encoder. -/

namespace JsonPlan

structure Options where
  dateFormat : DateFormat
  /-- The function that the output is handed to, as a script would call it. -/
  jsonpCallback : Option String
  excludeNulls : Bool
  /-- Whether members of embedded base types are written. -/
  includeInherited : Bool
  prettyPrint : Bool
  /-- Whether the sizes of outputs are remembered. -/
  recordSizes : Bool
  deriving DecidableEq, Repr

namespace Options

def default : Options := ⟨.iso8601, none, false, false, false, true⟩

/-- The options that matter for the length of an output, as bits. -/
def flags (o : Options) : OptionFlags :=
  o.dateFormat.flag ||| .jsonp o.jsonpCallback.isSome ||| .excludeNulls o.excludeNulls |||
    .includeInherited o.includeInherited ||| .prettyPrint o.prettyPrint

/-- Whether a character can begin an identifier. -/
def isIdentStart (c : Char) : Bool := c.isAlpha || c = '_' || c = '$'

/-- Whether a character can stand later in an identifier. -/
def isIdentRest (c : Char) : Bool := isIdentStart c || c.isDigit

def isIdent : List Char → Bool
  | [] => false
  | c :: cs => isIdentStart c && cs.all isIdentRest

/-- The parts of a text between its dots. -/
def segments : List Char → List (List Char)
  | [] => [[]]
  | c :: cs =>
    if c = '.' then [] :: segments cs
    else
      match segments cs with
      | [] => [[c]]
      | s :: ss => (c :: s) :: ss

/-- Whether a callback is a path of ASCII identifiers joined by dots. -/
def isCallbackPath (callback : String) : Bool := (segments callback.toList).all isIdent

/-- Refuses the options that a compiled program cannot honour. -/
def checkEncodable (o : Options) : Except Error Unit :=
  if o.prettyPrint then .error (.unsupportedOption "pretty_print")
  else if o.excludeNulls then .error (.unsupportedOption "exclude_nulls")
  else
    match o.jsonpCallback with
    | some callback => if isCallbackPath callback then .ok () else .error (.invalidCallback callback)
    | none => .ok ()

end Options
end JsonPlan
