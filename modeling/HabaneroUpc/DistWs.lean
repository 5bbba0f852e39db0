import HabaneroUpc.CommTask

namespace HabaneroUpc

open ThiefQueue

variable {n : Nat}

/-- What hcpp and the victim selection return to the communication worker. -/
structure Choice (n : Nat) where
  victim : Fin n
  stolen : Option Nat
  deriving DecidableEq

/-- The value is read and then written; the owner is the only writer. -/
def publishLocalLoadInfo (c : Config n) (me : Fin n) (P : Place n) (g : Shared n) :
    PublishPc → Option (Place n × Shared n)
  | .read =>
      let totalAany := P.totalAsyncAnyAvailable
      let load := if c.distWS ∧ 0 < totalAany then (totalAany : Int) else P.totalPendingLocalAsyncs
      some (P.goto (.publish (.write load)), g)
  | .write load =>
      some (P.goto (if c.distWS then .loop .test else .loop .advance), g.setWorkAvail me load)

def nextOrigin (i : Fin n) : Fin n :=
  if h : i.val + 1 < n then ⟨i.val + 1, h⟩ else ⟨0, Fin.pos i⟩

/-- decrement_tasks_in_flight_count, with pop_source_place_of_remoteTask. -/
def decrementTasksInFlightCount (c : Config n) (P : Place n) (g : Shared n) :
    DrainPc n → Option (Place n × Shared n)
  | .loop =>
      if 0 < P.tasksReceived then
        let victim := P.headRto
        let tasks := P.receivedTasksOrigin victim
        let P := { P with
          headRto := nextOrigin victim
          receivedTasksOrigin := Function.update P.receivedTasksOrigin victim 0
          tasksReceived := P.tasksReceived - tasks }
        some (P.goto (.drain (if 0 < tasks then .dec victim tasks else .loop)), g)
      else some (P.goto (if c.distWS then .loop .branch else .loop .test), g)
  -- the own entry is written under another lock, and in the same way
  | .dec victim tasks => some (P.goto (.drain .loop), g.decrementTaskInFlight victim tasks)

def afterShipment (c : Config n) : PC n :=
  match c.mode with
  | .glb => .serve .glb
  | .baseline => .publish .read
  | _ => .serve .successonly

theorem afterShipment_cases (c : Config n) : afterShipment c = .serve .glb ∨
    afterShipment c = .publish .read ∨ afterShipment c = .serve .successonly := by
  cases hmode : c.mode <;> simp [afterShipment, hmode]

/-- steal_from_my_computation_workers and ship_asyncAny_to_remote_thief. A
task taken from the deques leaves the finish scope. -/
def shipAsyncAny (c : Config n) (me : Fin n) (ch : Choice n) (P : Place n) (g : Shared n) :
    ShipPc n → Option (Place n × Shared n)
  | .steal requestor tasks =>
      let ended := some (P.goto (if tasks = [] then .publish .read else .ship (.inc requestor tasks)), g)
      if tasks.length < c.totalTasksStolenInOneShot ∧ ¬(0 < tasks.length ∧ P.idleWorkers ≠ 0) then
        match ch.stolen with
        | none => ended
        | some t =>
            if t ∈ P.asyncAnys then
              some ({ P with
                asyncAnys := P.asyncAnys.erase t
                finishCounter := P.finishCounter - 1
                pc := .ship (.steal requestor (tasks ++ [t])) }, g)
            else none
      else ended
  | .inc requestor tasks =>
      some (P.goto (.ship (.ship requestor tasks)), g.incrementTaskInFlight me)
  | .ship none tasks =>
      let g := g.check .noThiefWaiting
        (P.thiefQueue.head ≠ P.thiefQueue.tail ∨ !P.thiefQueue.thievesWaiting)
      let (thief, q) := popThief P.thiefQueue
      let g := (g.check .thiefPopped thief.isSome).check .shipmentSize (tasks.length ≤ 5)
      let P := { P with thiefQueue := q }
      match thief with
      | some thief => some (P.goto (.ship .advance), g.send (.shipment me thief tasks false))
      | none => some (P.goto (.ship .advance), g)
  | .ship (some thief) tasks =>
      let g := g.check .shipmentSize (tasks.length ≤ 5)
      some (P.goto (.ship (.reopen thief)),
        (g.send (.shipment me thief tasks true)).record (.ship me thief))
  | .reopen _ => some (P.goto (.ship .advance), g.setReq me .available)
  | .advance => some (P.goto (afterShipment c), g)

/-- The serving branch. Its local assignments are made together with the
step before the next access to a shared variable. -/
def serve (c : Config n) (me : Fin n) (P : Place n) (g : Shared n) :
    ServePc → Option (Place n × Shared n)
  | .successonly =>
      if P.idleWorkers = 0 ∧ P.thiefQueue.thievesWaiting then
        some ({ P with outOfWork := false, pc := .ship (.steal none []) }, g)
      else some (P.goto (.publish .read), g)
  | .renew =>
      if P.totalAsyncAnyAvailable = 0 then some (P.goto (.publish .read), g)
      else if g.reqThread me = .unavailable then some (P.goto (.serve .renewWrite), g)
      else some ({ P with
        outOfWork := false, pc := .serve (if c.mode = .glb then .glb else .synchronous) }, g)
  | .renewWrite =>
      some ({ P with outOfWork := false, pc := .serve (if c.mode = .glb then .glb else .synchronous) },
        g.setReq me .available)
  | .synchronous => match g.reqThread me with
    | .thief t => some (P.goto (.ship (.steal (some t) [])), g)
    | _ => some (P.goto (.publish .read), g)
  | .glb => match g.reqThread me with
    | .thief _ => some ({ P with outOfWork := false, pc := .serve .synchronous }, g)
    | _ =>
        if P.idleWorkers = 0 ∧ P.thiefQueue.thievesWaiting then
          some ({ P with outOfWork := false, pc := .ship (.steal none []) }, g)
        else some (P.goto (.publish .read), g)

def feedRemoteThieves (c : Config n) (P : Place n) : Place n :=
  match c.mode with
  | .glb => { P with currentGlbMaxRandAttempts := 0, outOfWork := false, pc := .serve .renew }
  | .baseline => P.goto (.serve .renew)
  | _ => P.goto (.serve .successonly)

def searchTasksGlobally (c : Config n) (me : Fin n) (P : Place n) : PC n :=
  match c.mode with
  | .glb =>
      if P.currentGlbMaxRandAttempts < c.glbMaxRandAttempts me then .steal (.loop 1)
      else .lifeline (.loop 0 0)
  | .baseline => .steal (.loop 1)
  | _ => .lifeline (.loop 0 0)

theorem searchTasksGlobally_cases (c : Config n) (me : Fin n) (P : Place n) :
    searchTasksGlobally c me P = .steal (.loop 1) ∧ c.synchronous = true ∨
      searchTasksGlobally c me P = .lifeline (.loop 0 0) ∧ c.mode ≠ .baseline := by
  by_cases hattempts : P.currentGlbMaxRandAttempts < c.glbMaxRandAttempts me <;>
    cases hmode : c.mode <;> simp [searchTasksGlobally, Config.synchronous, hmode, hattempts]

def markMyPlaceAsIdle (c : Config n) (me : Fin n) (P : Place n) (g : Shared n) :
    IdlePc n → Option (Place n × Shared n)
  | .mark =>
      if P.outOfWork then some (P.goto (searchTasksGlobally c me P), g)
      else
        some ({ P with
          outOfWork := true
          pc := if c.synchronous then .idle .lock else searchTasksGlobally c me P },
          g.setWorkAvail me notWorking)
  | .lock =>
      if g.reqLock me = none then some (P.goto (.idle .read), g.setReqLock me (some me)) else none
  | .read => some (P.goto (.idle (.write (g.reqThread me))), g)
  | .write pendingReq =>
      some (P.goto (.idle (.unlock pendingReq)),
        match pendingReq with
        | .thief t => (g.setReq me .unavailable).record (.invalidate me t)
        | _ => g.setReq me .unavailable)
  | .unlock pendingReq =>
      some (P.goto (match pendingReq with
        | .thief t => .idle (.invalidate t)
        | _ => searchTasksGlobally c me P), g.setReqLock me none)
  | .invalidate t =>
      some (P.goto (searchTasksGlobally c me P), (g.setWaitForTask t false).record (.clear t))

def searchFailed (c : Config n) (me : Fin n) (attempts : Nat) : PC n :=
  if c.mode = .glb ∧ c.glbMaxRandAttempts me ≤ attempts then .lifeline (.loop 0 0) else .loop .test

theorem searchFailed_cases (c : Config n) (me : Fin n) (attempts : Nat) :
    searchFailed c me attempts = .loop .test ∨
      searchFailed c me attempts = .lifeline (.loop 0 0) ∧ c.mode = .glb := by
  by_cases hattempts : c.mode = .glb ∧ c.glbMaxRandAttempts me ≤ attempts
  · exact .inr ⟨if_pos hattempts, hattempts.1⟩
  · exact .inl (if_neg hattempts)

def nextVictim (c : Config n) (me : Fin n) (attempts i : Nat) : PC n :=
  if c.mode = .glb ∧ c.glbMaxRandAttempts me ≤ attempts then searchFailed c me attempts
  else .steal (.loop (i + 1))

theorem nextVictim_cases (c : Config n) (me : Fin n) (attempts i : Nat) :
    nextVictim c me attempts i = searchFailed c me attempts ∨
      nextVictim c me attempts i = .steal (.loop (i + 1)) :=
  ite_eq_or_eq ..

def searchTasksGloballySynchronous (c : Config n) (me : Fin n) (ch : Choice n) (P : Place n)
    (g : Shared n) : StealPc n → Option (Place n × Shared n)
  | .loop i =>
      if i < n then
        if ch.victim = me then none else some (P.goto (.steal (.probe i ch.victim)), g)
      else some (P.goto (searchFailed c me P.currentGlbMaxRandAttempts), g)
  | .probe i v =>
      let workProbe := g.workAvail v
      if workProbe ≠ notWorking ∧ c.taskTransferThreshold me < workProbe then
        some (P.goto (.steal (.lock i v)), g)
      else some (P.goto (nextVictim c me P.currentGlbMaxRandAttempts i), g)
  | .lock i v =>
      if g.reqLock v = none then some (P.goto (.steal (.test i v)), g.setReqLock v (some me)) else none
  | .test i v =>
      some (P.goto (.steal (if g.reqThread v = .available then .flag i v else .unlock i v false)), g)
  | .flag i v => some (P.goto (.steal (.register i v)), g.setWaitForTask me true)
  | .register i v =>
      some (P.goto (.steal (.unlock i v true)), (g.setReq v (.thief me)).record (.register me v))
  | .unlock _ v true => some (P.goto (.steal (.wait v)), g.setReqLock v none)
  | .unlock i v false =>
      let attempts := P.currentGlbMaxRandAttempts + (if c.mode = .glb then 1 else 0)
      some ({ P with currentGlbMaxRandAttempts := attempts, pc := nextVictim c me attempts i },
        g.setReqLock v none)
  | .wait _ => if g.waitForTaskFromVictim me then none else some (P.goto (.steal .received), g)
  | .received => some (P.goto (.steal .reopen), g.setWorkAvail me 0)
  | .reopen =>
      some ({ P with
        outOfWork := false
        currentGlbMaxRandAttempts := if c.mode = .glb then 0 else P.currentGlbMaxRandAttempts
        pc := .exec .pop }, g.setReq me .available)

def lifelineVictim (c : Config n) (me : Fin n) (ch : Choice n) (i : Nat) : Fin n :=
  if c.lifelines then ⟨(2 ^ i + me.val) % n, Nat.mod_lt _ (Fin.pos me)⟩ else ch.victim

def searchForLifelines (c : Config n) (me : Fin n) (ch : Choice n) (P : Place n) (g : Shared n) :
    LifelinePc n → Option (Place n × Shared n)
  | .loop i k =>
      let upperBound := if c.lifelines then c.logRanks else n
      if i < upperBound ∧ !P.receivedTasksFromVictim then
        -- selectvictim never returns the own rank
        if !c.lifelines ∧ ch.victim = me then none
        else
          let v := lifelineVictim c me ch i
          if v = me ∨ P.victimAlreadyContacted v then some (P.goto (.lifeline (.loop (i + 1) k)), g)
          else some (P.goto (.lifeline (.probe i k v)), g)
      else some (P.goto (if 0 < k then .exec .pop else .loop .test), g)
  | .probe i k v =>
      some (P.goto (.lifeline (if c.taskTransferThreshold me < g.workAvail v then .send i k v
        else .loop (i + 1) k)), g)
  | .send i k v =>
      let (P, g) := markVictimContacted c v P g
      some ({ P with waitingForReturnAsync := true, pc := .lifeline (.wait i k) },
        g.send (.stealRequest me v))
  | .wait i k =>
      if P.waitingForReturnAsync then none
      else some (P.goto (.lifeline (.loop (i + 1) (k + 1))), g)

end HabaneroUpc
