import Toolflow.Notice

/-!
# Collecting notices

A `Collector` holds the notices so far.  One collector is handed from pass to pass, so a pass is
a `Collecting` computation; a computation can see all that was collected before it, but the passes
do no more than add a notice (`warn`).
-/

namespace Toolflow

structure Collector where
  notices : List Notice
  deriving Repr, DecidableEq

def Collector.empty : Collector := ⟨[]⟩

abbrev Collecting := StateM Collector

/-- one more notice, behind all others -/
def warn (n : Notice) : Collecting Unit := modify fun c => ⟨c.notices ++ [n]⟩

end Toolflow
