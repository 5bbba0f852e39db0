import HabaneroUpc.Control

namespace HabaneroUpc

open Interleaving ThiefQueue

variable {n : Nat}

/-- Everything one step of a place can do, with what enables it. The steps
that move no task and no operation are one case. -/
inductive Step (c : Config n) (me : Fin n) (P : Place n) (g : Shared n) :
    Act n → Place n × Shared n → Prop
  | control {ch P' g'} (h : commStep c me ch P g = some (P', g')) (hc : ControlStep P P' g g') :
      Step c me P g (.comm ch) (P', g')
  | idle (workers : Nat) : Step c me P g (.idle workers) ({ P with idleWorkers := workers }, g)
  | pop {ch task rest} (hpc : P.pc = .exec .pop) (hdeque : P.deque = task :: rest) :
      Step c me P g (.comm ch) ({ P with
        deque := rest
        pc := .exec (if task.involveCommunication then .inc task else .exec task) }, g)
  | inc {ch task} (hpc : P.pc = .exec (.inc task)) :
      Step c me P g (.comm ch) (P.goto (.exec (.exec task)), g.incrementTaskInFlight me)
  | exec {ch task} (hpc : P.pc = .exec (.exec task)) :
      Step c me P g (.comm ch) (P.goto (.exec .dec), executeCommTask me g task)
  | ended {ch} (hpc : P.pc = .exec .dec) :
      Step c me P g (.comm ch) ({ P with finishCounter := P.finishCounter - 1, pc := .exec .pop }, g)
  | popOrigin {ch} (hpc : P.pc = .drain .loop) (hreceived : 0 < P.tasksReceived) :
      Step c me P g (.comm ch) ({ P with
        headRto := nextOrigin P.headRto
        receivedTasksOrigin := Function.update P.receivedTasksOrigin P.headRto 0
        tasksReceived := P.tasksReceived - P.receivedTasksOrigin P.headRto
        pc := .drain (if 0 < P.receivedTasksOrigin P.headRto then
          .dec P.headRto (P.receivedTasksOrigin P.headRto) else .loop) }, g)
  | returnOrigin {ch victim tasks} (hpc : P.pc = .drain (.dec victim tasks)) :
      Step c me P g (.comm ch) (P.goto (.drain .loop), g.decrementTaskInFlight victim tasks)
  | steal {ch requestor tasks t} (hpc : P.pc = .ship (.steal requestor tasks))
      (hlen : tasks.length < c.totalTasksStolenInOneShot) (ht : t ∈ P.asyncAnys) :
      Step c me P g (.comm ch) ({ P with
        asyncAnys := P.asyncAnys.erase t
        finishCounter := P.finishCounter - 1
        pc := .ship (.steal requestor (tasks ++ [t])) }, g)
  | stolen {ch requestor tasks} (hpc : P.pc = .ship (.steal requestor tasks)) (hne : tasks ≠ []) :
      Step c me P g (.comm ch) (P.goto (.ship (.inc requestor tasks)), g)
  | shipInc {ch requestor tasks} (hpc : P.pc = .ship (.inc requestor tasks)) :
      Step c me P g (.comm ch) (P.goto (.ship (.ship requestor tasks)), g.incrementTaskInFlight me)
  | shipQueued {ch tasks thief q fs} (hpc : P.pc = .ship (.ship none tasks))
      (hpop : popThief P.thiefQueue = (some thief, q))
      (hfs : ∀ a ∈ fs, a ∈ g.failures ∨ a = .noThiefWaiting ∨ a = .shipmentSize) :
      Step c me P g (.comm ch) ({ P with thiefQueue := q, pc := .ship .advance },
        { g with failures := fs }.send (.shipment me thief tasks false))
  | shipNowhere {ch tasks q fs} (hpc : P.pc = .ship (.ship none tasks))
      (hpop : popThief P.thiefQueue = (none, q)) :
      Step c me P g (.comm ch) ({ P with thiefQueue := q, pc := .ship .advance }, { g with failures := fs })
  | shipSlot {ch thief tasks fs} (hpc : P.pc = .ship (.ship (some thief) tasks))
      (hfs : ∀ a ∈ fs, a ∈ g.failures ∨ a = .shipmentSize) :
      Step c me P g (.comm ch) (P.goto (.ship (.reopen thief)),
        ({ g with failures := fs }.send (.shipment me thief tasks true)).record (.ship me thief))
  | request {ch i k v fs} (hpc : P.pc = .lifeline (.send i k v))
      (hfs : ∀ a ∈ fs, a ∈ g.failures ∨
        a = .victimNotContacted ∧ P.contactedVictims v = .queued ∨ a = .copyInBounds) :
      Step c me P g (.comm ch) ({ P with
        thiefQueue := if cancelsThief c v P then cancelThief v P.thiefQueue else P.thiefQueue
        contactedVictims := Function.update P.contactedVictims v .queued
        waitingForReturnAsync := true
        pc := .lifeline (.wait i k) },
        { g with failures := fs }.send (.stealRequest me v))
  | decrement {source rest} (hframes : P.frames = .decrement source :: rest) :
      Step c me P g .resume ({ P with frames := .clearWait source :: rest }, g.decrementTaskInFlight source 1)
  | clearWait {source rest} (hframes : P.frames = .clearWait source :: rest) :
      Step c me P g .resume ({ P with frames := rest }, (g.setWaitForTask me false).record (.clear me))
  | asyncAt {source fs} (hm : .asyncAt source me ∈ g.net) (hpolls : polls P = true)
      (hfs : ∀ a ∈ fs, a ∈ g.failures ∨ a = .lambdaIsRemote ∧ source = me) :
      Step c me P g (.deliver (.asyncAt source me)) (queueSourcePlaceOfRemoteTask source (hcppAsync P),
        { g with net := g.net.erase (.asyncAt source me), failures := fs })
  | asyncCopy {ddf} (hm : .asyncCopy me ddf ∈ g.net) (hpolls : polls P = true) :
      Step c me P g (.deliver (.asyncCopy me ddf))
        ({ queueSourcePlaceOfRemoteTask me P with ddfPuts := ddf.toList ++ P.ddfPuts },
        { g with net := g.net.erase (.asyncCopy me ddf) })
  | shipmentSlot {source tasks fs} (hm : .shipment source me tasks true ∈ g.net)
      (hpolls : polls P = true)
      (hfs : ∀ a ∈ fs, a ∈ g.failures ∨ a = .sourceIsRemote ∧ source = me) :
      Step c me P g (.deliver (.shipment source me tasks true)) ({ P with
        asyncs := P.asyncs + tasks.length
        finishCounter := P.finishCounter + tasks.length
        frames := .decrement source :: P.frames },
        { g with
          net := g.net.erase (.shipment source me tasks true)
          failures := fs
          started := tasks.reverse ++ g.started })
  | shipmentQueued {source tasks fs} (hm : .shipment source me tasks false ∈ g.net)
      (hpolls : polls P = true)
      (hfs : ∀ a ∈ fs, a ∈ g.failures ∨ a = .sourceIsRemote ∧ source = me ∨
        a = .victimContacted ∧ P.contactedVictims source = .popped) :
      Step c me P g (.deliver (.shipment source me tasks false)) ({ queueSourcePlaceOfRemoteTask source P with
        asyncs := P.asyncs + tasks.length
        finishCounter := P.finishCounter + tasks.length
        contactedVictims := Function.update P.contactedVictims source .popped },
        { g with
          net := g.net.erase (.shipment source me tasks false)
          failures := fs
          started := tasks.reverse ++ g.started })
  | stealRequest {thief fs} (hm : .stealRequest thief me ∈ g.net) (hpolls : polls P = true)
      (hfs : ∀ a ∈ fs, a ∈ g.failures ∨ a = .queueNotFull ∧ fullThiefQueue P.thiefQueue = true) :
      Step c me P g (.deliver (.stealRequest thief me)) ({ P with
        thiefQueue := pushThief thief P.thiefQueue
        contactedVictims := if cancelsMark c thief P then
          Function.update P.contactedVictims thief .popped else P.contactedVictims },
        { g with
          net := g.net.erase (.stealRequest thief me), failures := fs }.send (.receipt me thief))
  | receipt {victim} (hm : .receipt victim me ∈ g.net) (hpolls : polls P = true) :
      Step c me P g (.deliver (.receipt victim me)) ({ P with waitingForReturnAsync := false },
        { g with net := g.net.erase (.receipt victim me) })
  | async (hrun : taskRunning P = true) : Step c me P g (.work .async) (hcppAsync P, g)
  | asyncAny {t} (hrun : taskRunning P = true) (hfresh : t ∉ g.created) :
      Step c me P g (.work (.asyncAny t))
        ({ P with asyncAnys := t :: P.asyncAnys, finishCounter := P.finishCounter + 1 },
          { g with created := t :: g.created })
  | send {task} (hrun : taskRunning P = true) (hwf : task.wellFormed me = true) :
      Step c me P g (.work (.send task))
        ({ P with sending := task :: P.sending, finishCounter := P.finishCounter + 1 }, g)
  | push {task} (hsending : task ∈ P.sending) :
      Step c me P g (.work (.push task))
        ({ P with sending := P.sending.erase task, deque := P.deque ++ [task] }, g)
  | finish (hasyncs : 0 < P.asyncs) :
      Step c me P g (.work .finish)
        ({ P with asyncs := P.asyncs - 1, finishCounter := P.finishCounter - 1 }, g)
  | runAny {t} (ht : t ∈ P.asyncAnys) :
      Step c me P g (.work (.runAny t)) ({ P with asyncAnys := P.asyncAnys.erase t, asyncs := P.asyncs + 1 },
        { g with started := t :: g.started })

variable {c : Config n} {me : Fin n} {ch : Choice n} {P P' : Place n} {g g' : Shared n}

theorem exec_step {l : ExecPc n} (hpc : P.pc = .exec l) (hcomm : commStep c me ch P g = some (P', g'))
    (h : popExecuteCommTask c me P g l = some (P', g')) : Step c me P g (.comm ch) (P', g') := by
  cases l with
  | pop =>
      simp only [popExecuteCommTask] at h
      split at h <;> cases h
      · exact .control hcomm (.of_atRest (hpc ▸ ⟨trivial, rfl⟩)
          (atRest_ite ⟨trivial, rfl⟩ ⟨trivial, rfl⟩) rfl rfl (.inl rfl))
      · exact .pop hpc ‹_›
  | inc task =>
      cases h
      exact .inc hpc
  | exec task =>
      cases h
      exact .exec hpc
  | dec =>
      cases h
      exact .ended hpc

theorem drain_step {l : DrainPc n} (hpc : P.pc = .drain l)
    (hcomm : commStep c me ch P g = some (P', g'))
    (h : decrementTasksInFlightCount c P g l = some (P', g')) : Step c me P g (.comm ch) (P', g') := by
  cases l with
  | loop =>
      simp only [decrementTasksInFlightCount] at h
      split at h <;> cases h
      · exact .popOrigin hpc ‹_›
      · exact .control hcomm (.of_atRest (hpc ▸ ⟨trivial, rfl⟩)
          (atRest_ite ⟨trivial, rfl⟩ ⟨trivial, rfl⟩) rfl rfl (.inl rfl))
  | dec victim tasks =>
      cases h
      exact .returnOrigin hpc

theorem ship_step {l : ShipPc n} (hpc : P.pc = .ship l) (hcomm : commStep c me ch P g = some (P', g'))
    (h : shipAsyncAny c me ch P g l = some (P', g')) : Step c me P g (.comm ch) (P', g') := by
  cases l with
  | steal requestor tasks =>
      have hended (h : some (P.goto (if tasks = [] then .publish .read
          else .ship (.inc requestor tasks)), g) = some (P', g')) : Step c me P g (.comm ch) (P', g') := by
        split at h <;> cases h
        · exact .control hcomm (.of_atRest (hpc ▸ ⟨‹tasks = []›, rfl⟩) ⟨trivial, rfl⟩ rfl rfl (.inl rfl))
        · exact .stolen hpc ‹_›
      simp only [shipAsyncAny] at h
      split at h
      · split at h
        · exact hended h
        · split at h <;> cases h
          exact .steal hpc (And.left ‹_›) ‹_›
      · exact hended h
  | inc requestor tasks =>
      cases h
      exact .shipInc hpc
  | ship requestor tasks =>
      cases requestor with
      | none =>
          obtain ⟨thief, q, hq⟩ : ∃ thief q, popThief P.thiefQueue = (thief, q) := ⟨_, _, rfl⟩
          simp only [shipAsyncAny, hq] at h
          cases thief with
          | none =>
              cases h
              rw [check_check_eq, check_eq]
              exact .shipNowhere hpc hq
          | some thief =>
              cases h
              rw [check_check_eq, check_eq]
              refine .shipQueued hpc hq ?_
              intro a ha
              rcases mem_check ha with ha | ⟨rfl, -⟩
              · rcases mem_check ha with ha | ⟨-, hf⟩
                · exact (mem_check ha).imp_right fun h => .inl h.1
                · cases hf
              · exact .inr (.inr rfl)
      | some thief =>
          cases h
          rw [check_eq]
          exact .shipSlot hpc fun a ha => (mem_check ha).imp_right And.left
  | reopen thief =>
      cases h
      exact .control hcomm (.of_atRest (hpc ▸ ⟨trivial, rfl⟩) ⟨trivial, rfl⟩ rfl rfl (.inl rfl))
  | advance =>
      cases h
      exact .control hcomm (.of_atRest (hpc ▸ ⟨trivial, rfl⟩) (atRest_afterShipment c) rfl rfl (.inl rfl))

theorem commStep_step (h : commStep c me ch P g = some (P', g')) :
    Step c me P g (.comm ch) (P', g') := by
  by_cases hc : Controls P.pc
  · exact .control h (commStep_control hc h)
  · have hcomm := h
    cases hl : P.pc with
    | exec l =>
        simp only [commStep, hl] at h
        exact exec_step hl hcomm h
    | drain l =>
        simp only [commStep, hl] at h
        exact drain_step hl hcomm h
    | ship l =>
        simp only [commStep, hl] at h
        exact ship_step hl hcomm h
    | lifeline l =>
        cases l with
        | send i k v =>
            simp only [commStep, hl, searchForLifelines] at h
            rw [markVictimContacted_eq] at h
            cases h
            exact .request hl fun a ha => markVictimContacted_failures ha
        | loop | probe | wait => exact absurd (hl ▸ trivial) hc
    | spmd | publish | loop | cbarrier | serve | idle | steal => exact absurd (hl ▸ trivial) hc

theorem work_step {a : WorkerAct n} (h : work c me P g a = some (P', g')) :
    Step c me P g (.work a) (P', g') := by
  cases a <;> simp only [work] at h <;> split at h <;> cases h
  case async hrun => exact .async hrun
  case asyncAny hrun => exact .asyncAny hrun.1 hrun.2.2
  case send hrun => exact .send hrun.1 hrun.2
  case push ht => exact .push ht
  case finish hasyncs => exact .finish hasyncs
  case runAny ht => exact .runAny ht

theorem resume_step (h : resume me P g = some (P', g')) : Step c me P g .resume (P', g') := by
  rw [resume] at h
  split at h <;> cases h
  · exact .decrement ‹_›
  · exact .clearWait ‹_›

theorem receive_step {m : Msg n} (hm : m ∈ g.net) (htarget : m.target = me)
    (hpolls : polls P = true) :
    Step c me P g (.deliver m) (receive c me P { g with net := g.net.erase m } m) := by
  cases m with
  | asyncAt source dest =>
      cases htarget
      simp only [receive, asyncAtReceived]
      rw [check_eq]
      refine .asyncAt hm hpolls ?_
      intro a ha
      exact (mem_check ha).imp_right fun h => ⟨h.1, by simpa using h.2⟩
  | asyncCopy source ddf =>
      cases htarget
      exact .asyncCopy hm hpolls
  | shipment source dest tasks baselineWS =>
      obtain rfl : me = dest := htarget.symm
      simp only [receive, lambdaForThief, unwrapNAsyncAnyTasks_eq]
      have hsource {a : Assertion} {net : List (Msg n)}
          (ha : a ∈ (Shared.check { g with net := net } .sourceIsRemote (source ≠ me)).failures) :
          a ∈ g.failures ∨ a = .sourceIsRemote ∧ source = me :=
        (mem_check ha).imp_right fun h => ⟨h.1, by simpa using h.2⟩
      cases baselineWS with
      | true =>
          simp only [if_true]
          rw [check_eq]
          exact .shipmentSlot hm hpolls fun a ha => hsource ha
      | false =>
          simp only [Bool.false_eq_true, if_false]
          rw [unmarkVictimContacted_eq, check_eq]
          refine .shipmentQueued hm hpolls ?_
          intro a ha
          rcases unmarkVictimContacted_failures ha with ha | ha
          · exact (hsource ha).imp_right .inl
          · exact .inr (.inr ha)
  | stealRequest thief victim =>
      cases htarget
      simp only [receive, receiveStealRequest]
      rw [queueThief_eq]
      refine .stealRequest hm hpolls ?_
      intro a ha
      have hfs := queueThief_failures ha
      exact hfs
  | receipt victim dest =>
      cases htarget
      exact .receipt hm hpolls

theorem act_step {a : Act n} (h : act c me a P g = some (P', g')) : Step c me P g a (P', g') := by
  cases a with
  | comm ch => exact commStep_step (act_comm h).2
  | resume =>
      simp only [act] at h
      split at h
      · exact resume_step h
      · cases h
  | deliver m =>
      simp only [act, deliver] at h
      split at h
      · split at h
        · obtain ⟨hm, htarget, hpolls⟩ := ‹_ ∧ _›
          rw [← Option.some.inj h]
          exact receive_step hm htarget hpolls
        · cases h
      · cases h
  | work a =>
      simp only [act] at h
      split at h
      · exact work_step h
      · cases h
  | idle workers =>
      simp only [act] at h
      split at h <;> cases h
      exact .idle workers

end HabaneroUpc
