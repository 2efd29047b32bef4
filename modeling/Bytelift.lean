import Bytelift.Functions.Rename
import Bytelift.Main
import Bytelift.Proofs.Arithmetic.Refinement
import Bytelift.Proofs.Brace.Function
import Bytelift.Proofs.Conditional.Recovery
import Bytelift.Proofs.Lexical.Addressing
import Bytelift.Proofs.Listing.Reading
import Bytelift.Proofs.Substitution.Hiding
import Bytelift.Proofs.Slot.Reordering
import Bytelift.Proofs.Listing.Independence
import Bytelift.Proofs.TableSwitch.Chain
import Bytelift.Proofs.Output.Families
import Bytelift.Proofs.Output.Coverage
import Bytelift.Proofs.ComparisonSwitch.Recovery
import Bytelift.Proofs.FarTest
import Bytelift.Proofs.LoopBody.Recovery
import Bytelift.Proofs.Reach
import Bytelift.Proofs.Globals.Naming
