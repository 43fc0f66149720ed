import ProgrammableCaching.ServerlessSystemView
import ProgrammableCaching.StorageMaster

/-! `scheduler/scheduler.cc`: the RPC handlers of the scheduler and the start of
its control loop. The methods of `JobView` have empty bodies, so the view of the
system is all the state there is. -/

namespace ProgrammableCaching

structure Scheduler where
  systemView : ServerlessSystemView :=
    { ephemeral := .ephemeral, persistant := .fakePersistant }

namespace Scheduler

def introduce (s : Scheduler) (request : SchedulerIntroduceRequest) :
    Except Failure (Status × Scheduler) := do
  let systemView ← s.systemView.addExecutionEngine request.rpcUri request.clientRpcUri
    request.maximumTasks.toInt
  return (.ok, { systemView })

/-- Only removes the task from the job view. -/
def done (s : Scheduler) (_task : Task) : Status × Scheduler := (.ok, s)

/-- One pass of `SchedulerControlThread` up to the call of `GetPendingTasks`: what comes back of the
call to the storage master, its status and its reply, is not looked at. -/
def controlPass (s : Scheduler) (_getView : Except Failure (Status × GetViewReply)) : Scheduler := s

end Scheduler

end ProgrammableCaching
