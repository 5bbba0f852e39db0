import HabaneroUpc.State

namespace HabaneroUpc

open ThiefQueue

variable {n : Nat}

def hcppAsync (P : Place n) : Place n :=
  { P with asyncs := P.asyncs + 1, finishCounter := P.finishCounter + 1 }

def queueSourcePlaceOfRemoteTask (i : Fin n) (P : Place n) : Place n :=
  { P with
    outOfWork := false
    tasksReceived := P.tasksReceived + 1
    receivedTasksOrigin := Function.update P.receivedTasksOrigin i (P.receivedTasksOrigin i + 1) }

def unmarkVictimContacted (v : Fin n) (P : Place n) (g : Shared n) : Place n × Shared n :=
  ({ P with contactedVictims := Function.update P.contactedVictims v .popped },
    g.check .victimContacted (P.contactedVictims v = .queued))

def queueThief (c : Config n) (i : Fin n) (P : Place n) (g : Shared n) : Place n × Shared n :=
  let g := g.check .queueNotFull (!fullThiefQueue P.thiefQueue)
  let P := { P with thiefQueue := pushThief i P.thiefQueue }
  if c.cancelCyclicSteals && P.victimAlreadyContacted i then unmarkVictimContacted i P g else (P, g)

def markVictimContacted (c : Config n) (v : Fin n) (P : Place n) (g : Shared n) :
    Place n × Shared n :=
  let g := g.check .victimNotContacted (P.contactedVictims v = .popped)
  let P := { P with contactedVictims := Function.update P.contactedVictims v .queued }
  let q := P.thiefQueue
  let ret := checkCyclicSteals v q.queuedThieves (sizeThiefQueue q) q.head
  if c.cancelCyclicSteals && ret then
    ({ P with thiefQueue := cancelThief v q },
      g.check .copyInBounds ((copyOthers v q.queuedThieves (sizeThiefQueue q) q.head).length ≤ n))
  else (P, g)

def unwrapNAsyncAnyTasks : List Nat → Place n → Shared n → Place n × Shared n
  | [], P, g => (P, g)
  | t :: tasks, P, g => unwrapNAsyncAnyTasks tasks (hcppAsync P) { g with started := t :: g.started }

def asyncAtReceived (me source : Fin n) (P : Place n) (g : Shared n) : Place n × Shared n :=
  (queueSourcePlaceOfRemoteTask source (hcppAsync P), g.check .lambdaIsRemote (source ≠ me))

def asyncAfterAsyncCopy (me : Fin n) (ddf : Option Nat) (P : Place n) (g : Shared n) :
    Place n × Shared n :=
  let P := queueSourcePlaceOfRemoteTask me P
  ({ P with ddfPuts := ddf.toList ++ P.ddfPuts }, g)

/-- The lambda shipped to a thief. In the baseline its last two statements are
separate actions, since the first of them acquires a lock of the source. -/
def lambdaForThief (me source : Fin n) (tasks : List Nat) (baselineWS : Bool) (P : Place n)
    (g : Shared n) : Place n × Shared n :=
  let (P, g) := unwrapNAsyncAnyTasks tasks P (g.check .sourceIsRemote (source ≠ me))
  if baselineWS then ({ P with frames := .decrement source :: P.frames }, g)
  else unmarkVictimContacted source (queueSourcePlaceOfRemoteTask source P) g

def receiveStealRequest (c : Config n) (me thief : Fin n) (P : Place n) (g : Shared n) :
    Place n × Shared n :=
  let (P, g) := queueThief c thief P g
  (P, g.send (.receipt me thief))

def receiptOfStealRequest (P : Place n) (g : Shared n) : Place n × Shared n :=
  ({ P with waitingForReturnAsync := false }, g)

def receive (c : Config n) (me : Fin n) (P : Place n) (g : Shared n) : Msg n → Place n × Shared n
  | .asyncAt source _ => asyncAtReceived me source P g
  | .asyncCopy _ ddf => asyncAfterAsyncCopy me ddf P g
  | .shipment source _ tasks baselineWS => lambdaForThief me source tasks baselineWS P g
  | .stealRequest thief _ => receiveStealRequest c me thief P g
  | .receipt _ _ => receiptOfStealRequest P g

def polls (P : Place n) : Bool :=
  match P.frames with
  | [] => P.pc.polls
  | .decrement _ :: _ => true
  | .clearWait _ :: _ => false

def deliver (c : Config n) (me : Fin n) (m : Msg n) (P : Place n) (g : Shared n) :
    Option (Place n × Shared n) :=
  if m ∈ g.net ∧ m.target = me ∧ polls P = true then
    some (receive c me P { g with net := g.net.erase m } m)
  else none

/-- The rest of a baseline shipment: DECREMENT_TASK_IN_FLIGHT(source), then
waitForTaskFromVictim[dest] = false. -/
def resume (me : Fin n) (P : Place n) (g : Shared n) : Option (Place n × Shared n) :=
  match P.frames with
  | [] => none
  | .decrement source :: rest =>
      some ({ P with frames := .clearWait source :: rest }, g.decrementTaskInFlight source 1)
  | .clearWait _ :: rest =>
      some ({ P with frames := rest }, (g.setWaitForTask me false).record (.clear me))

def executeCommTask (me : Fin n) (g : Shared n) : CommTask n → Shared n
  | .asyncAt dest | .asyncAfter dest => g.send (.asyncAt me dest)
  | .asyncCopy ddf => g.send (.asyncCopy me ddf)
  | .intraPlace => g

def popExecuteCommTask (c : Config n) (me : Fin n) (P : Place n) (g : Shared n) :
    ExecPc n → Option (Place n × Shared n)
  | .pop => match P.deque with
    | [] => some (P.goto (if c.distWS then .loop .advance else .publish .read), g)
    | task :: rest =>
        some ({ P with
          deque := rest
          pc := .exec (if task.involveCommunication then .inc task else .exec task) }, g)
  | .inc task => some (P.goto (.exec (.exec task)), g.incrementTaskInFlight me)
  | .exec task => some (P.goto (.exec .dec), executeCommTask me g task)
  | .dec => some ({ P with finishCounter := P.finishCounter - 1, pc := .exec .pop }, g)

/-- One step of a running task: of a computation worker, or of the lambda
passed to finish_spmd. Every program is some choice of such steps. -/
inductive WorkerAct (n : Nat)
  | async
  | asyncAny (task : Nat)
  | send (task : CommTask n)
  | push (task : CommTask n)
  | finish
  | runAny (task : Nat)
  deriving DecidableEq

def CommTask.wellFormed (me : Fin n) : CommTask n → Bool
  | .asyncAt dest | .asyncAfter dest => dest ≠ me
  | _ => true

def taskRunning (P : Place n) : Bool := 0 < P.asyncs ∨ P.pc = .spmd .lambda

def work (c : Config n) (me : Fin n) (P : Place n) (g : Shared n) :
    WorkerAct n → Option (Place n × Shared n)
  | .async => if taskRunning P then some (hcppAsync P, g) else none
  | .asyncAny t =>
      if taskRunning P ∧ c.distWS ∧ t ∉ g.created then
        some ({ P with asyncAnys := t :: P.asyncAnys, finishCounter := P.finishCounter + 1 },
          { g with created := t :: g.created })
      else none
  | .send task =>
      if taskRunning P ∧ task.wellFormed me then
        some ({ P with sending := task :: P.sending, finishCounter := P.finishCounter + 1 }, g)
      else none
  | .push task =>
      if task ∈ P.sending then
        some ({ P with sending := P.sending.erase task, deque := P.deque ++ [task] }, g)
      else none
  | .finish =>
      if 0 < P.asyncs then
        some ({ P with asyncs := P.asyncs - 1, finishCounter := P.finishCounter - 1 }, g)
      else none
  | .runAny t =>
      if t ∈ P.asyncAnys then
        some ({ P with asyncAnys := P.asyncAnys.erase t, asyncs := P.asyncs + 1 },
          { g with started := t :: g.started })
      else none

end HabaneroUpc
