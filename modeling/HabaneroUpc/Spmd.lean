import HabaneroUpc.DistWs
import Mathlib.Data.Fintype.Basic

namespace HabaneroUpc

open Interleaving

variable {n : Nat}

def cbarrier (me : Fin n) (P : Place n) (g : Shared n) : CbarrierPc → Option (Place n × Shared n)
  | .inc => some (P.goto (.cbarrier .incTest), { g with cbCount := g.cbCount + 1 })
  | .incTest => some (P.goto (if g.cbCount = n then .spmd .endBarrier else .cbarrier .received), g)
  | .received =>
      some (P.goto (.cbarrier (if P.receivedTasksFromVictim then .dec else .detectWork)), g)
  | .detectWork =>
      let neighbor : Fin n := ⟨(me.val + 1) % n, Nat.mod_lt _ (Fin.pos me)⟩
      some (P.goto (.cbarrier (if notWorking ≠ g.workAvail neighbor then .dec else .advance)), g)
  | .dec =>
      if g.cbCount < n then some (P.goto (.exec .pop), { g with cbCount := g.cbCount - 1 })
      else some (P.goto (.cbarrier .advance), g)
  | .advance => some (P.goto (.cbarrier .test), g)
  | .test => some (P.goto (if g.cbCount = n then .spmd .endBarrier else .cbarrier .received), g)

/-- The rest of the main loop of hcpp_finish_barrier. In the baseline
checkIncomingTasksFromLifelines does nothing. -/
def finishLoop (c : Config n) (me : Fin n) (P : Place n) (g : Shared n) :
    LoopPc → Option (Place n × Shared n)
  | .advance => some (P.goto (.loop .checkIncoming), g)
  | .checkIncoming =>
      if c.mode ≠ .baseline ∧ P.receivedTasksFromVictim then some (P.goto (.drain .loop), g)
      else some (P.goto (if c.distWS then .loop .branch else .loop .test), g)
  | .branch =>
      -- initiate_global_steal()
      if c.idleWorkersThreshold me < P.idleWorkers then some (P.goto (.idle .mark), g)
      else some (feedRemoteThieves c P, g)
  | .test =>
      some (P.goto (if P.totalPendingLocalAsyncs = 0 then .loop (.scan 0 0) else .exec .pop), g)
  | .scan i pendingAsyncs =>
      if h : i < n then
        some (P.goto (.loop (.scan (i + 1) (pendingAsyncs + g.asyncsInFlight ⟨i, h⟩))), g)
      else if pendingAsyncs = 0 then
        some (P.goto (if n = 1 then .spmd .endBarrier else .cbarrier .inc), g)
      else some (P.goto (.exec .pop), g)

/-- hupcpp::barrier is entered once and left when every place has entered it. -/
def enterBarrier (me : Fin n) (g : Shared n) : Shared n :=
  { g with arrivals := Function.update g.arrivals me (g.arrivals me + 1) }

def leaveBarrier (me : Fin n) (P : Place n) (g : Shared n) (pc : PC n) :
    Option (Place n × Shared n) :=
  if ∀ q, g.arrivals me ≤ g.arrivals q then some (P.goto pc, g) else none

/-- finish_spmd, and the barriers around the main loop. The finish scope of
lambda also holds the task that runs hcpp_finish_barrier. -/
def finishSpmd (me : Fin n) (P : Place n) (g : Shared n) : SpmdPc → Option (Place n × Shared n)
  | .outside =>
      some ({ P with regions := P.regions + 1, pc := .spmd .startBarrier }, { g with cbCount := 0 })
  | .startBarrier => some (P.goto (.spmd .startWait), enterBarrier me g)
  | .startWait => leaveBarrier me P g (.spmd .lambda)
  | .lambda => some ({ P with finishCounter := P.finishCounter + 1, pc := .spmd .loopBarrier }, g)
  | .loopBarrier => some (P.goto (.spmd .loopWait), enterBarrier me g)
  | .loopWait => leaveBarrier me P g (.exec .pop)
  | .endBarrier =>
      some (P.goto (.spmd .endWait),
        enterBarrier me (g.check .allTasksEnded (P.totalPendingLocalAsyncs = 0)))
  | .endWait =>
      leaveBarrier me { P with finishCounter := P.finishCounter - 1 } g (.spmd .endFinish)
  | .endFinish => if P.finishCounter = 0 then some (P.goto (.spmd .outside), g) else none

def commStep (c : Config n) (me : Fin n) (ch : Choice n) (P : Place n) (g : Shared n) :
    Option (Place n × Shared n) :=
  match P.pc with
  | .spmd l => finishSpmd me P g l
  | .exec l => popExecuteCommTask c me P g l
  | .publish l => publishLocalLoadInfo c me P g l
  | .loop l => finishLoop c me P g l
  | .drain l => decrementTasksInFlightCount c P g l
  | .cbarrier l => cbarrier me P g l
  | .serve l => serve c me P g l
  | .ship l => shipAsyncAny c me ch P g l
  | .idle l => markMyPlaceAsIdle c me P g l
  | .steal l => searchTasksGloballySynchronous c me ch P g l
  | .lifeline l => searchForLifelines c me ch P g l

inductive Act (n : Nat)
  | comm (ch : Choice n)
  | resume
  | deliver (m : Msg n)
  | work (a : WorkerAct n)
  | idle (workers : Nat)
  deriving DecidableEq

def act (c : Config n) (me : Fin n) (a : Act n) (P : Place n) (g : Shared n) :
    Option (Place n × Shared n) :=
  if running c g then
    match a with
    | .comm ch => if P.frames = [] then commStep c me ch P g else none
    | .resume => resume me P g
    | .deliver m => deliver c me m P g
    | .work a => work c me P g a
    | .idle workers => some ({ P with idleWorkers := workers }, g)
  else none

theorem act_comm {c : Config n} {me : Fin n} {ch : Choice n} {P : Place n} {g : Shared n}
    {r : Place n × Shared n} (h : act c me (.comm ch) P g = some r) :
    P.frames = [] ∧ commStep c me ch P g = some r := by
  simp only [act] at h
  split at h
  · split at h
    · exact ⟨‹_›, h⟩
    · cases h
  · cases h

def Place.init (me : Fin n) : Place n where
  pc := .spmd .outside
  frames := []
  finishCounter := 0
  asyncs := 0
  asyncAnys := []
  sending := []
  deque := []
  idleWorkers := 0
  ddfPuts := []
  contactedVictims := fun _ => .popped
  thiefQueue := ThiefQueue.init n
  outOfWork := false
  currentGlbMaxRandAttempts := 0
  receivedTasksOrigin := fun _ => 0
  headRto := ⟨0, Fin.pos me⟩
  tasksReceived := 0
  waitingForReturnAsync := false
  regions := 0

def Shared.init (n : Nat) : Shared n where
  workAvail := fun _ => notWorking
  waitForTaskFromVictim := fun _ => false
  reqThread := fun _ => .unavailable
  reqLock := fun _ => none
  asyncsInFlight := fun _ => 0
  cbCount := 0
  arrivals := fun _ => 0
  net := []
  failures := []
  created := []
  started := []
  slotEvents := []

def job (c : Config n) : System (Fin n) (Act n) (Place n) (Shared n) where
  init := ⟨Place.init, Shared.init n⟩
  act := act c

def twoPlaces (mode : Mode) (cancelCyclicSteals : Bool) : Config 2 where
  mode := mode
  cancelCyclicSteals := cancelCyclicSteals
  assertionCheck := true
  numWorkers := fun _ => 1
  totalTasksStolenInOneShot := 1
  glbMaxRandAttempts := fun _ => 1
  logRanks := 0
  workers_pos := by decide
  stolen_le := by decide

-- The literals of Fin 2 in the runs below share this instance.
instance neZeroTwo : NeZero 2 := ⟨by decide⟩

def comms (p : Fin 2) (k : Nat) : List (Fin 2 × Act 2) := List.replicate k (p, .comm ⟨1 - p, none⟩)

def throughBarrier : List (Fin 2 × Act 2) := comms 0 2 ++ comms 1 2 ++ comms 0 1 ++ comms 1 1

end HabaneroUpc
