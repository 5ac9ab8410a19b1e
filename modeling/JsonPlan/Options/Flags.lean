/-! The option bits that can change the length or the form of an output. -/

namespace JsonPlan

/-- One bit for each date style, then four switches. -/
abbrev OptionFlags := BitVec 9

namespace OptionFlags

/-- The names of the bits, lowest first. -/
def names : List String :=
  ["DATE_ISO8601", "DATE_MILLISECONDS", "DATE_SECONDS", "DATE_NEWTONSOFT", "DATE_RFC1123",
   "JSONP", "EXCLUDE_NULLS", "INCLUDE_INHERITED", "PRETTY_PRINT"]

/-- The flags with bit `i` alone, or none. -/
def bit (i : Nat) (on : Bool) : OptionFlags := if on then BitVec.twoPow 9 i else 0

def jsonp (on : Bool) : OptionFlags := bit 5 on
def excludeNulls (on : Bool) : OptionFlags := bit 6 on
def includeInherited (on : Bool) : OptionFlags := bit 7 on
def prettyPrint (on : Bool) : OptionFlags := bit 8 on

/-- The names of the bits that are set. -/
def namesOf (f : OptionFlags) : List String :=
  (names.zipIdx.filter fun (_, i) => f.getLsbD i).map (·.1)

end OptionFlags
end JsonPlan
