import Mathlib

/-!
# Constants of the storage layout

Row counts that the storage and the processor share (`common/constants.h`, `common/system_config.h`).
-/

namespace CycleJoin

/-- `DEFAULT_VECTOR_CAPACITY`. -/
def defaultVectorCapacity : Nat := 2 ^ 11

/-- `StorageConfig::CHUNKED_NODE_GROUP_CAPACITY`. -/
def chunkedNodeGroupCapacity : Nat := 2048

end CycleJoin
