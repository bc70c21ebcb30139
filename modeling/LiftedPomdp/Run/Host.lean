import LiftedPomdp.Memory

/-!
# Hosts

A batch is played on a host, which has memory for its queues and tables and starts its threads.  A
host may refuse either: without memory there is no answer, and a thread that cannot be started is
an error with the reason that the host gives.
-/

namespace LiftedPomdp

/-- What a batch keeps in memory. -/
inductive Storage where
  /-- The queue of the episodes that wait for a worker. -/
  | waiting
  /-- The queue of the reports that wait to be gathered. -/
  | reports
  /-- The threads of the workers. -/
  | threads
  /-- The returns of the episodes. -/
  | returns
  /-- For each episode, whether it has been reported. -/
  | marks
  deriving DecidableEq, Repr

/-- The bytes of an item at least. -/
def Storage.itemBytes : Storage → Nat
  | .waiting => 24
  | .reports => 112
  | .threads => 24
  | .returns => 8
  | .marks => 1

/-- The machine that a batch is played on. -/
structure Host where
  /-- Whether there is memory for some items. -/
  grants : Storage → Nat → Bool
  /-- Starts the thread of the worker with an index, or says why it cannot. -/
  startWorker : Nat → Except String Unit
  /-- Starts the thread that hands out the episodes, or says why it cannot. -/
  startFeeder : Except String Unit

namespace Host

/-- Asks for memory for some items. -/
def reserve (h : Host) (s : Storage) (items : Nat) : Except (Fault SimError) Unit :=
  if h.grants s items then .ok () else .error (.abort (.outOfMemory items))

/-- Starts some workers, from the first one on. -/
def startWorkers (h : Host) (workers : Nat) : Except (Fault SimError) Unit :=
  (List.range workers).forM fun k =>
    (h.startWorker k).mapError fun reason => .error (.internal (.workerNotStarted reason))

/-- Starts to hand out the episodes. -/
def feed (h : Host) : Except (Fault SimError) Unit :=
  h.startFeeder.mapError fun reason => .error (.internal (.feederNotStarted reason))

/-- A host that starts every thread and refuses only what no piece of memory holds. -/
def ample : Host where
  grants s items := (Memory.reserve items s.itemBytes).isOk
  startWorker _ := .ok ()
  startFeeder := .ok ()

end Host
end LiftedPomdp
