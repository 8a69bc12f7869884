import FortranIR.Flow.Printer
import FortranIR.Proofs.Multiway
import FortranIR.Proofs.Folding.Totality
import FortranIR.Proofs.Folding.Trees
import FortranIR.Proofs.Folding.Soundness
import FortranIR.Proofs.Flow.Entries
import FortranIR.Proofs.Storage.Overlaps
import FortranIR.Proofs.Flow.Arms
import FortranIR.Proofs.Flow.Totality
import FortranIR.Proofs.Intrinsic.Marks
import FortranIR.Proofs.Intrinsic.Search
import FortranIR.Proofs.Deletion
import FortranIR.Proofs.Incomplete
import FortranIR.Proofs.Extents
import FortranIR.Proofs.Placing
