import HabaneroUpc.ThiefQueue
import HabaneroUpc.Lib.Interleaving

namespace HabaneroUpc

inductive Mode
  | noDistWS | successOnly | successOnlyGlb | glb | baseline
  deriving DecidableEq

/-- What is fixed for a whole job of n places. HCPP_STEAL_N may be a fraction;
only the number of iterations it allows matters. -/
structure Config (n : Nat) where
  mode : Mode
  cancelCyclicSteals : Bool
  assertionCheck : Bool
  numWorkers : Fin n → Nat
  totalTasksStolenInOneShot : Nat
  glbMaxRandAttempts : Fin n → Nat
  logRanks : Nat
  workers_pos : ∀ p, 0 < numWorkers p
  stolen_le : totalTasksStolenInOneShot ≤ 5

namespace Config

variable {n : Nat} (c : Config n)

def distWS : Bool := c.mode ≠ .noDistWS

def synchronous : Bool := c.mode = .baseline ∨ c.mode = .glb

def lifelines : Bool := c.mode = .successOnlyGlb ∨ c.mode = .glb

def taskTransferThreshold (me : Fin n) : Int := 2 * c.numWorkers me

def idleWorkersThreshold (me : Fin n) : Nat := if 12 < c.numWorkers me then 2 else 0

end Config

def notWorking : Int := -1

inductive Req (n : Nat)
  | available | unavailable | thief (t : Fin n)
  deriving DecidableEq

inductive Entry
  | queued | popped
  deriving DecidableEq

inductive CommTask (n : Nat)
  | asyncAt (dest : Fin n)
  | asyncAfter (dest : Fin n)
  | asyncCopy (ddf : Option Nat)
  | intraPlace
  deriving DecidableEq

def CommTask.involveCommunication {n : Nat} : CommTask n → Bool
  | .intraPlace => false
  | _ => true

inductive Msg (n : Nat)
  | asyncAt (source dest : Fin n)
  | asyncCopy (source : Fin n) (ddf : Option Nat)
  | shipment (source dest : Fin n) (tasks : List Nat) (baselineWS : Bool)
  | stealRequest (me victim : Fin n)
  | receipt (victim me : Fin n)
  deriving DecidableEq

def Msg.target {n : Nat} : Msg n → Fin n
  | .asyncAt _ dest => dest
  | .asyncCopy source _ => source
  | .shipment _ dest _ _ => dest
  | .stealRequest _ victim => victim
  | .receipt _ me => me

inductive Frame (n : Nat)
  | decrement (source : Fin n)
  | clearWait (source : Fin n)
  deriving DecidableEq

inductive SpmdPc
  | outside | startBarrier | startWait | lambda | loopBarrier | loopWait
  | endBarrier | endWait | endFinish
  deriving DecidableEq

inductive ExecPc (n : Nat)
  | pop | inc (task : CommTask n) | exec (task : CommTask n) | dec
  deriving DecidableEq

inductive PublishPc
  | read | write (load : Int)
  deriving DecidableEq

inductive LoopPc
  | advance | checkIncoming | branch | test | scan (i : Nat) (pendingAsyncs : Int)
  deriving DecidableEq

inductive DrainPc (n : Nat)
  | loop | dec (victim : Fin n) (tasks : Nat)
  deriving DecidableEq

inductive CbarrierPc
  | inc | incTest | received | detectWork | dec | advance | test
  deriving DecidableEq

inductive ServePc
  | successonly | renew | renewWrite | synchronous | glb
  deriving DecidableEq

inductive ShipPc (n : Nat)
  | steal (requestor : Option (Fin n)) (tasks : List Nat)
  | inc (requestor : Option (Fin n)) (tasks : List Nat)
  | ship (requestor : Option (Fin n)) (tasks : List Nat)
  | reopen (thief : Fin n)
  | advance
  deriving DecidableEq

inductive IdlePc (n : Nat)
  | mark | lock | read | write (pendingReq : Req n) | unlock (pendingReq : Req n)
  | invalidate (thief : Fin n)
  deriving DecidableEq

inductive StealPc (n : Nat)
  | loop (i : Nat)
  | probe (i : Nat) (v : Fin n)
  | lock (i : Nat) (v : Fin n)
  | test (i : Nat) (v : Fin n)
  | flag (i : Nat) (v : Fin n)
  | register (i : Nat) (v : Fin n)
  | unlock (i : Nat) (v : Fin n) (success : Bool)
  | wait (v : Fin n)
  | received
  | reopen
  deriving DecidableEq

inductive LifelinePc (n : Nat)
  | loop (i victimsContacted : Nat)
  | probe (i victimsContacted : Nat) (v : Fin n)
  | send (i victimsContacted : Nat) (v : Fin n)
  | wait (i victimsContacted : Nat)
  deriving DecidableEq

/-- Where the communication worker stands: the function it executes, and the
statement there with the values of the locals that are still used. -/
inductive PC (n : Nat)
  | spmd (l : SpmdPc)
  | exec (l : ExecPc n)
  | publish (l : PublishPc)
  | loop (l : LoopPc)
  | drain (l : DrainPc n)
  | cbarrier (l : CbarrierPc)
  | serve (l : ServePc)
  | ship (l : ShipPc n)
  | idle (l : IdlePc n)
  | steal (l : StealPc n)
  | lifeline (l : LifelinePc n)
  deriving DecidableEq

/-- Statements at which the communication worker runs incoming asyncs: the
calls of upcxx::advance and the lock acquisitions, which poll. -/
def PC.polls {n : Nat} : PC n → Bool
  | .spmd .outside => true
  | .exec (.inc _) => true
  | .loop .advance => true
  | .drain (.dec _ _) => true
  | .cbarrier .inc | .cbarrier .dec | .cbarrier .advance => true
  | .ship (.inc _ _) | .ship .advance => true
  | .idle .lock => true
  | .steal (.lock _ _) | .steal (.wait _) => true
  | .lifeline (.wait _ _) => true
  | _ => false

/-- The private state of a place. The finish counter counts the local asyncs
and the asyncAny tasks that have not ended, the communication tasks, and
the task that runs hcpp_finish_barrier. -/
structure Place (n : Nat) where
  pc : PC n
  frames : List (Frame n)
  finishCounter : Int
  asyncs : Nat
  asyncAnys : List Nat
  sending : List (CommTask n)
  deque : List (CommTask n)
  idleWorkers : Nat
  ddfPuts : List Nat
  contactedVictims : Fin n → Entry
  thiefQueue : ThiefQueue n
  outOfWork : Bool
  currentGlbMaxRandAttempts : Nat
  receivedTasksOrigin : Fin n → Nat
  headRto : Fin n
  tasksReceived : Int
  waitingForReturnAsync : Bool
  regions : Nat

inductive Assertion
  | victimNotContacted | victimContacted | queueNotFull | noThiefWaiting | thiefPopped
  | lambdaIsRemote | sourceIsRemote | shipmentSize | copyInBounds | allTasksEnded
  deriving DecidableEq

/-- Assertions that do not depend on HC_ASSERTION_CHECK, and the writes past
the end of an array, after which C++ defines no behaviour. -/
def Assertion.always : Assertion → Bool
  | .sourceIsRemote | .shipmentSize | .copyInBounds => true
  | _ => false

inductive SlotEvent (n : Nat)
  | register (t v : Fin n)
  | ship (v t : Fin n)
  | invalidate (v t : Fin n)
  | clear (t : Fin n)
  deriving DecidableEq

/-- The shared state: the arrays and variables in the global address space,
the operations in flight, the arrivals at hupcpp::barrier, and the history. -/
structure Shared (n : Nat) where
  workAvail : Fin n → Int
  waitForTaskFromVictim : Fin n → Bool
  reqThread : Fin n → Req n
  reqLock : Fin n → Option (Fin n)
  asyncsInFlight : Fin n → Int
  cbCount : Int
  arrivals : Fin n → Nat
  net : List (Msg n)
  failures : List Assertion
  created : List Nat
  started : List Nat
  slotEvents : List (SlotEvent n)

abbrev State (n : Nat) := Interleaving.Global (Fin n) (Place n) (Shared n)

namespace Place

variable {n : Nat}

def goto (P : Place n) (pc : PC n) : Place n := { P with pc := pc }

/-- hcpp counts the task that runs the termination detection as well. -/
def totalPendingLocalAsyncs (P : Place n) : Int := P.finishCounter - 1

def totalAsyncAnyAvailable (P : Place n) : Nat := P.asyncAnys.length

def receivedTasksFromVictim (P : Place n) : Bool := 0 < P.tasksReceived

def victimAlreadyContacted (P : Place n) (v : Fin n) : Bool := P.contactedVictims v = .queued

end Place

namespace Shared

variable {n : Nat}

def check (g : Shared n) (a : Assertion) (holds : Bool) : Shared n :=
  if holds then g else { g with failures := a :: g.failures }

def send (g : Shared n) (m : Msg n) : Shared n := { g with net := m :: g.net }

def incrementTaskInFlight (g : Shared n) (me : Fin n) : Shared n :=
  { g with asyncsInFlight := Function.update g.asyncsInFlight me (g.asyncsInFlight me + 1) }

def decrementTaskInFlight (g : Shared n) (place : Fin n) (tasks : Nat) : Shared n :=
  { g with asyncsInFlight := Function.update g.asyncsInFlight place (g.asyncsInFlight place - tasks) }

def setWorkAvail (g : Shared n) (p : Fin n) (load : Int) : Shared n :=
  { g with workAvail := Function.update g.workAvail p load }

def setReq (g : Shared n) (p : Fin n) (r : Req n) : Shared n :=
  { g with reqThread := Function.update g.reqThread p r }

def setReqLock (g : Shared n) (p : Fin n) (holder : Option (Fin n)) : Shared n :=
  { g with reqLock := Function.update g.reqLock p holder }

def setWaitForTask (g : Shared n) (p : Fin n) (b : Bool) : Shared n :=
  { g with waitForTaskFromVictim := Function.update g.waitForTaskFromVictim p b }

def record (g : Shared n) (e : SlotEvent n) : Shared n :=
  { g with slotEvents := g.slotEvents ++ [e] }

end Shared

/-- A run goes on until an assertion that is compiled in has failed. -/
def running {n : Nat} (c : Config n) (g : Shared n) : Bool :=
  g.failures.all fun a => !(a.always || c.assertionCheck)

end HabaneroUpc
