/-!
# The form of oneof properties

A contract writes a oneof group as one property, whose value tells under the discriminator which
member it holds. Contracts are compiled to this form, and the arguments of calls are taken back
from it.
-/

set_option autoImplicit false

namespace ToolContract

def oneofSuffix : String := "OneOfType"

def discriminatorKey : String := "object_type"

end ToolContract
