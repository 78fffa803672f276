import Dandelion.FileSystem.OpenTrace
import Dandelion.FileSystem.SteadyRuns

/-! # Failed opens

A call that fails before it creates anything leaves everything as it was. After
that only the way to the file, its permissions and the free descriptors decide.
-/

namespace Dandelion.FileSystem

open Foundation.Runs Foundation.Triples

variable {P : Platform} {s : State} {L : Ptr → List Ptr} {name : List UInt8} {flags mode : Nat}
  {refused : Nat → Bool}

section Law

end Law

end Dandelion.FileSystem
