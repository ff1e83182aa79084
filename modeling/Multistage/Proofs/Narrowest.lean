import Multistage.Proofs.Lookup
import Multistage.Proofs.Recovered

/-!
The stage above a table has entries of the fewest bytes that hold its block numbers, and stores
positions where these fit as well. Either way a block number is written in full, and what a lookup
makes of the entry is the position of the block.
-/

namespace Multistage.Stage

open Formula

variable (length nextBits shift : Nat)

end Multistage.Stage
