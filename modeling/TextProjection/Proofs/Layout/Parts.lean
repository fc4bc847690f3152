import TextProjection.Proofs.Layout.Hidden

/-! How a region falls into shown and hidden parts. Both lists are lists of runs, of the characters that
are shown and of the others, so each character of the region is in just one part of just one list.
-/

set_option autoImplicit false

namespace TextProjection

namespace Runs

variable {property : Nat → Prop} {low stop : Nat} {list : List Region}

end Runs

namespace Layout

namespace WellFormed

variable {layout : Layout} {size : Nat} {region : Region}

end WellFormed

end Layout

end TextProjection
