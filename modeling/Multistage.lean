import Multistage.Record
import Multistage.Decoded
import Multistage.Proofs.Decoded
import Multistage.Proofs.ZeroWidths
import Multistage.Proofs.Feasible
import Multistage.Proofs.Merged
import Multistage.Proofs.Relabelled
import Multistage.Proofs.Refusal
import Multistage.Proofs.Outside
import Multistage.Proofs.Names
import Multistage.Proofs.Recovered
import Multistage.Proofs.Literal.Language
import Multistage.Proofs.Literal.Shortest
import Multistage.Proofs.Complaints
import Multistage.Proofs.Odometer
import Multistage.Proofs.Oversized
import Multistage.Proofs.Literal.Concatenation
import Multistage.Proofs.Literal.Blame
import Multistage.Proofs.Literal.Chunks
import Multistage.Proofs.Literal.Verdict
import Multistage.Proofs.Narrowest
import Multistage.Proofs.FirstAppearance
import Multistage.Proofs.Nested
import Multistage.Proofs.Charges
import Multistage.Proofs.Unambiguous
