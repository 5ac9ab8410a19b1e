/-!
Powers by naturals as the core library has them. These instances come before those of any other
library, so that a power is one and the same term wherever it is written.
-/

namespace JsonPlan

instance (priority := high) natPow : Pow Nat Nat := instPowNat

instance (priority := high) intPow : Pow Int Nat := instPowNat

end JsonPlan
