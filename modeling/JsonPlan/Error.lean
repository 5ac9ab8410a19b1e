import JsonPlan.Program.Fault

/-! Why a program cannot be built, an option not be honoured or a value not be written. -/

namespace JsonPlan

inductive Error where
  /-- The destination refused a chunk. -/
  | io (reason : String)
  /-- The map's keys are not texts. -/
  | nonStringKey (map key : String)
  | unsupportedShape (name : String)
  | recursiveShape (name : String)
  | malformedProgram (fault : Fault)
  | unknownDateFormat (selector : String)
  | unsupportedOption (option : String)
  | invalidCallback (callback : String)
  /-- A value does not look the way its shape announced. -/
  | shapeMismatch (expected : String)
  | custom (reason : String)
  deriving DecidableEq, Repr

namespace Error

def message : Error → String
  | io reason => "IO error: " ++ reason
  | nonStringKey map key =>
      "Map `" ++ map ++ "` has key type `" ++ key ++
        "`; only string keys can be encoded as JSON object members"
  | unsupportedShape name => "Construction not supported for shape `" ++ name ++ "`"
  | recursiveShape name =>
      "Shape `" ++ name ++ "` is recursive and cannot be compiled into an inline program"
  | malformedProgram fault => "Malformed program: " ++ fault.message
  | unknownDateFormat selector =>
      "Unrecognized date format `" ++ selector ++
        "` (expected one of: iso8601, milliseconds, seconds, newtonsoft, rfc1123)"
  | unsupportedOption option => "Option `" ++ option ++ "` is not supported by compiled encoders"
  | invalidCallback callback =>
      "JSONP callback `" ++ callback ++ "` is not a JavaScript identifier"
  | shapeMismatch expected => "Shape mismatch: expected " ++ expected
  | custom reason => "Error: " ++ reason

end Error
end JsonPlan
