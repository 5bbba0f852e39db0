import HabaneroUpc.Spmd

namespace HabaneroUpc

open Interleaving

variable {n : Nat}

theorem check_eq (g : Shared n) (a : Assertion) (b : Bool) :
    g.check a b = { g with failures := (g.check a b).failures } := by
  cases b <;> rfl

theorem mem_check {g : Shared n} {a b : Assertion} {p : Bool} (h : a ∈ (g.check b p).failures) :
    a ∈ g.failures ∨ a = b ∧ p = false := by
  cases p with
  | true => exact .inl h
  | false =>
      rcases List.mem_cons.mp h with rfl | h
      · exact .inr ⟨rfl, rfl⟩
      · exact .inl h

theorem check_check_eq (g : Shared n) (a b : Assertion) (p q : Bool) :
    (g.check a p).check b q = { g with failures := ((g.check a p).check b q).failures } := by
  cases p <;> cases q <;> rfl

theorem queued_of_ne_popped {e : Entry} (h : decide (e = .popped) = false) : e = .queued := by
  cases e with
  | popped => cases h
  | queued => rfl

theorem popped_of_ne_queued {e : Entry} (h : decide (e = .queued) = false) : e = .popped := by
  cases e with
  | popped => rfl
  | queued => cases h

theorem unmarkVictimContacted_eq (v : Fin n) (P : Place n) (g : Shared n) :
    unmarkVictimContacted v P g =
      ({ P with contactedVictims := Function.update P.contactedVictims v .popped },
        { g with failures := (unmarkVictimContacted v P g).2.failures }) :=
  Prod.ext rfl (check_eq ..)

theorem unmarkVictimContacted_failures {v : Fin n} {P : Place n} {g : Shared n} {a : Assertion}
    (h : a ∈ (unmarkVictimContacted v P g).2.failures) :
    a ∈ g.failures ∨ a = .victimContacted ∧ P.contactedVictims v = .popped :=
  (mem_check h).imp_right fun h => ⟨h.1, popped_of_ne_queued h.2⟩

def cancelsMark (c : Config n) (i : Fin n) (P : Place n) : Bool :=
  c.cancelCyclicSteals && P.victimAlreadyContacted i

theorem queueThief_eq (c : Config n) (i : Fin n) (P : Place n) (g : Shared n) :
    queueThief c i P g =
      ({ P with
          thiefQueue := ThiefQueue.pushThief i P.thiefQueue
          contactedVictims := if cancelsMark c i P then Function.update P.contactedVictims i .popped
            else P.contactedVictims },
        { g with failures := (queueThief c i P g).2.failures }) := by
  by_cases hcancel : cancelsMark c i P = true
  · have heq : queueThief c i P g = unmarkVictimContacted i
        { P with thiefQueue := ThiefQueue.pushThief i P.thiefQueue }
        (g.check .queueNotFull (!ThiefQueue.fullThiefQueue P.thiefQueue)) := if_pos hcancel
    rw [heq, if_pos hcancel]
    exact Prod.ext rfl (check_check_eq ..)
  · have heq : queueThief c i P g = ({ P with thiefQueue := ThiefQueue.pushThief i P.thiefQueue },
        g.check .queueNotFull (!ThiefQueue.fullThiefQueue P.thiefQueue)) := if_neg hcancel
    rw [heq, if_neg hcancel]
    exact Prod.ext rfl (check_eq ..)

theorem queueThief_failures {c : Config n} {i : Fin n} {P : Place n} {g : Shared n} {a : Assertion}
    (h : a ∈ (queueThief c i P g).2.failures) :
    a ∈ g.failures ∨ a = .queueNotFull ∧ ThiefQueue.fullThiefQueue P.thiefQueue = true := by
  have hfull (h : a ∈ (g.check .queueNotFull (!ThiefQueue.fullThiefQueue P.thiefQueue)).failures) :
      a ∈ g.failures ∨ a = .queueNotFull ∧ ThiefQueue.fullThiefQueue P.thiefQueue = true :=
    (mem_check h).imp_right fun h => ⟨h.1, by simpa using h.2⟩
  simp only [queueThief] at h
  split at h
  · rcases unmarkVictimContacted_failures h with h | ⟨-, hpopped⟩
    · exact hfull h
    · simp_all [Place.victimAlreadyContacted]
  · exact hfull h

def cancelsThief (c : Config n) (v : Fin n) (P : Place n) : Bool :=
  c.cancelCyclicSteals && ThiefQueue.checkCyclicSteals v P.thiefQueue.queuedThieves
    (ThiefQueue.sizeThiefQueue P.thiefQueue) P.thiefQueue.head

theorem markVictimContacted_eq (c : Config n) (v : Fin n) (P : Place n) (g : Shared n) :
    markVictimContacted c v P g =
      ({ P with
          thiefQueue := if cancelsThief c v P then ThiefQueue.cancelThief v P.thiefQueue
            else P.thiefQueue
          contactedVictims := Function.update P.contactedVictims v .queued },
        { g with failures := (markVictimContacted c v P g).2.failures }) := by
  by_cases hcancel : cancelsThief c v P = true
  · have heq : markVictimContacted c v P g = (_, _) := if_pos hcancel
    rw [heq, if_pos hcancel]
    exact Prod.ext rfl (check_check_eq ..)
  · have heq : markVictimContacted c v P g = (_, _) := if_neg hcancel
    rw [heq, if_neg hcancel]
    exact Prod.ext rfl (check_eq ..)

theorem markVictimContacted_failures {c : Config n} {v : Fin n} {P : Place n} {g : Shared n}
    {a : Assertion} (h : a ∈ (markVictimContacted c v P g).2.failures) :
    a ∈ g.failures ∨ a = .victimNotContacted ∧ P.contactedVictims v = .queued ∨ a = .copyInBounds := by
  have hmark (h : a ∈ (g.check .victimNotContacted (P.contactedVictims v = .popped)).failures) :
      a ∈ g.failures ∨ a = .victimNotContacted ∧ P.contactedVictims v = .queued :=
    (mem_check h).imp_right fun h => ⟨h.1, queued_of_ne_popped h.2⟩
  rw [markVictimContacted] at h
  simp only at h
  split at h
  · rcases mem_check h with h | ⟨h, -⟩
    · exact (hmark h).imp_right .inl
    · exact .inr (.inr h)
  · exact (hmark h).imp_right .inl

theorem unwrapNAsyncAnyTasks_eq (tasks : List Nat) (P : Place n) (g : Shared n) :
    unwrapNAsyncAnyTasks tasks P g =
      ({ P with
          asyncs := P.asyncs + tasks.length
          finishCounter := P.finishCounter + tasks.length },
        { g with started := tasks.reverse ++ g.started }) := by
  induction tasks generalizing P g with
  | nil => simp [unwrapNAsyncAnyTasks]
  | cons t tasks ih =>
      rw [unwrapNAsyncAnyTasks, ih]
      simp only [hcppAsync, List.length_cons, List.reverse_cons, List.append_assoc, List.cons_append,
        List.nil_append]
      congr 2
      · omega
      · omega

def EmptyHanded : PC n → Prop
  | .exec .pop => True
  | .exec _ => False
  | .drain (.dec _ _) => False
  | .ship (.steal _ tasks) => tasks = []
  | .ship (.inc _ _) | .ship (.ship _ _) => False
  | _ => True

def finishBarrierTask : PC n → Int
  | .spmd .outside | .spmd .startBarrier | .spmd .startWait | .spmd .lambda | .spmd .endFinish => 0
  | _ => 1

/-- The statements between which the main loop moves without a task. -/
def AtRest (pc : PC n) : Prop := EmptyHanded pc ∧ finishBarrierTask pc = 1

theorem atRest_afterShipment (c : Config n) : AtRest (afterShipment c) := by
  rcases afterShipment_cases c with h | h | h <;> rw [h] <;> exact ⟨trivial, rfl⟩

theorem atRest_search (c : Config n) (me : Fin n) (P : Place n) :
    AtRest (searchTasksGlobally c me P) := by
  rcases searchTasksGlobally_cases c me P with ⟨h, -⟩ | ⟨h, -⟩ <;> rw [h] <;> exact ⟨trivial, rfl⟩

theorem atRest_searchFailed (c : Config n) (me : Fin n) (attempts : Nat) :
    AtRest (searchFailed c me attempts) := by
  rcases searchFailed_cases c me attempts with h | ⟨h, -⟩ <;> rw [h] <;> exact ⟨trivial, rfl⟩

theorem atRest_nextVictim (c : Config n) (me : Fin n) (attempts i : Nat) :
    AtRest (nextVictim c me attempts i) := by
  rcases nextVictim_cases c me attempts i with h | h <;> rw [h]
  · exact atRest_searchFailed c me attempts
  · exact ⟨trivial, rfl⟩

theorem atRest_ite {p : Prop} [Decidable p] {pc pc' : PC n} (h : AtRest pc) (h' : AtRest pc') :
    AtRest (if p then pc else pc') := by
  split
  · exact h
  · exact h'

/-- A step of the control code: it moves between statements at which nothing
is held, and leaves every task and every operation in flight alone. -/
structure ControlStep (P P' : Place n) (g g' : Shared n) : Prop where
  pc : EmptyHanded P.pc
  pc' : EmptyHanded P'.pc
  frames : P'.frames = P.frames
  finish : P'.finishCounter - finishBarrierTask P'.pc = P.finishCounter - finishBarrierTask P.pc
  asyncs : P'.asyncs = P.asyncs
  asyncAnys : P'.asyncAnys = P.asyncAnys
  sending : P'.sending = P.sending
  deque : P'.deque = P.deque
  contactedVictims : P'.contactedVictims = P.contactedVictims
  thiefQueue : P'.thiefQueue = P.thiefQueue
  receivedTasksOrigin : P'.receivedTasksOrigin = P.receivedTasksOrigin
  tasksReceived : P'.tasksReceived = P.tasksReceived
  waiting : P'.waitingForReturnAsync = P.waitingForReturnAsync
  asyncsInFlight : g'.asyncsInFlight = g.asyncsInFlight
  net : g'.net = g.net
  failures : ∀ a ∈ g'.failures, a ∈ g.failures ∨ a = .allTasksEnded
  created : g'.created = g.created
  started : g'.started = g.started
  phase : (∃ l, P.pc = .spmd l) ∨ P'.regions = P.regions ∧ g'.arrivals = g.arrivals
  cbCount : g'.cbCount = g.cbCount ∨ (∃ l, P.pc = .spmd l) ∨ ∃ l, P.pc = .cbarrier l

variable {c : Config n} {me : Fin n} {ch : Choice n} {P P' : Place n} {g g' : Shared n}

theorem ControlStep.of_atRest (hpc : AtRest P.pc) (hpc' : AtRest P'.pc)
    (hP : P' = { P with pc := P'.pc, outOfWork := P'.outOfWork,
                        currentGlbMaxRandAttempts := P'.currentGlbMaxRandAttempts })
    (hg : g' = { g with workAvail := g'.workAvail, waitForTaskFromVictim := g'.waitForTaskFromVictim,
                        reqThread := g'.reqThread, reqLock := g'.reqLock, cbCount := g'.cbCount,
                        slotEvents := g'.slotEvents })
    (hcb : g'.cbCount = g.cbCount ∨ (∃ l, P.pc = .spmd l) ∨ ∃ l, P.pc = .cbarrier l) :
    ControlStep P P' g g' where
  pc := hpc.1
  pc' := hpc'.1
  frames := by rw [hP]
  finish := by rw [hpc.2, hpc'.2, hP]
  asyncs := by rw [hP]
  asyncAnys := by rw [hP]
  sending := by rw [hP]
  deque := by rw [hP]
  contactedVictims := by rw [hP]
  thiefQueue := by rw [hP]
  receivedTasksOrigin := by rw [hP]
  tasksReceived := by rw [hP]
  waiting := by rw [hP]
  asyncsInFlight := by rw [hg]
  net := by rw [hg]
  failures := fun _ ha => .inl (by rwa [hg] at ha)
  created := by rw [hg]
  started := by rw [hg]
  phase := .inr ⟨by rw [hP], by rw [hg]⟩
  cbCount := hcb

theorem publish_control {l : PublishPc} (hpc : P.pc = .publish l)
    (h : publishLocalLoadInfo c me P g l = some (P', g')) : ControlStep P P' g g' := by
  have hrest : AtRest P.pc := hpc ▸ by cases l <;> exact ⟨trivial, rfl⟩
  cases l with
  | read =>
      cases h
      exact .of_atRest hrest ⟨trivial, rfl⟩ rfl rfl (.inl rfl)
  | write load =>
      cases h
      exact .of_atRest hrest (atRest_ite ⟨trivial, rfl⟩ ⟨trivial, rfl⟩) rfl rfl (.inl rfl)

theorem serve_control {l : ServePc} (hpc : P.pc = .serve l)
    (h : serve c me P g l = some (P', g')) : ControlStep P P' g g' := by
  have hrest : AtRest P.pc := hpc ▸ by cases l <;> exact ⟨trivial, rfl⟩
  cases l <;> simp only [serve] at h <;> (repeat' split at h) <;> cases h
  all_goals
    refine .of_atRest hrest ?_ rfl rfl (.inl rfl)
    first | exact ⟨trivial, rfl⟩ | exact ⟨rfl, rfl⟩

theorem idle_control {l : IdlePc n} (hpc : P.pc = .idle l)
    (h : markMyPlaceAsIdle c me P g l = some (P', g')) : ControlStep P P' g g' := by
  have hrest : AtRest P.pc := hpc ▸ by cases l <;> exact ⟨trivial, rfl⟩
  have hs := atRest_search c me P
  cases l with
  | mark =>
      simp only [markMyPlaceAsIdle] at h
      split at h <;> cases h
      · exact .of_atRest hrest hs rfl rfl (.inl rfl)
      · exact .of_atRest hrest (atRest_ite ⟨trivial, rfl⟩ hs) rfl rfl (.inl rfl)
  | lock =>
      simp only [markMyPlaceAsIdle] at h
      split at h <;> cases h
      exact .of_atRest hrest ⟨trivial, rfl⟩ rfl rfl (.inl rfl)
  | read =>
      cases h
      exact .of_atRest hrest ⟨trivial, rfl⟩ rfl rfl (.inl rfl)
  | write r =>
      cases r <;> cases h <;> exact .of_atRest hrest ⟨trivial, rfl⟩ rfl rfl (.inl rfl)
  | unlock r =>
      cases r <;> cases h
      · exact .of_atRest hrest hs rfl rfl (.inl rfl)
      · exact .of_atRest hrest hs rfl rfl (.inl rfl)
      · exact .of_atRest hrest ⟨trivial, rfl⟩ rfl rfl (.inl rfl)
  | invalidate t =>
      cases h
      exact .of_atRest hrest hs rfl rfl (.inl rfl)

theorem steal_control {l : StealPc n} (hpc : P.pc = .steal l)
    (h : searchTasksGloballySynchronous c me ch P g l = some (P', g')) : ControlStep P P' g g' := by
  have hrest : AtRest P.pc := hpc ▸ by cases l <;> exact ⟨trivial, rfl⟩
  have hf := atRest_searchFailed c me P.currentGlbMaxRandAttempts
  have hv := atRest_nextVictim c me
  cases l <;> simp only [searchTasksGloballySynchronous] at h <;> (repeat' split at h) <;> cases h
  all_goals
    refine .of_atRest hrest ?_ rfl rfl (.inl rfl)
    first | exact ⟨trivial, rfl⟩ | exact hf | exact hv _ _

theorem lifeline_control {l : LifelinePc n} (hpc : P.pc = .lifeline l)
    (hl : ∀ i k v, l ≠ .send i k v) (h : searchForLifelines c me ch P g l = some (P', g')) :
    ControlStep P P' g g' := by
  have hrest : AtRest P.pc := hpc ▸ by cases l <;> exact ⟨trivial, rfl⟩
  cases l with
  | send i k v => exact absurd rfl (hl i k v)
  | loop | probe | wait =>
      simp only [searchForLifelines] at h
      repeat' split at h
      all_goals cases h
      all_goals exact .of_atRest hrest ⟨trivial, rfl⟩ rfl rfl (.inl rfl)

theorem loop_control {l : LoopPc} (hpc : P.pc = .loop l) (h : finishLoop c me P g l = some (P', g')) :
    ControlStep P P' g g' := by
  have hrest : AtRest P.pc := hpc ▸ by cases l <;> exact ⟨trivial, rfl⟩
  cases l <;> simp only [finishLoop, feedRemoteThieves] at h <;> (repeat' split at h) <;> cases h
  all_goals exact .of_atRest hrest ⟨trivial, rfl⟩ rfl rfl (.inl rfl)

theorem cbarrier_control {l : CbarrierPc} (hpc : P.pc = .cbarrier l)
    (h : cbarrier me P g l = some (P', g')) : ControlStep P P' g g' := by
  have hrest : AtRest P.pc := hpc ▸ by cases l <;> exact ⟨trivial, rfl⟩
  cases l <;> simp only [cbarrier] at h <;> (repeat' split at h) <;> cases h
  all_goals exact .of_atRest hrest ⟨trivial, rfl⟩ rfl rfl (.inr (.inr ⟨_, hpc⟩))

theorem ControlStep.of_spmd {l : SpmdPc} (hpc : P.pc = .spmd l) (hpc' : EmptyHanded P'.pc)
    (hfinish : P'.finishCounter - finishBarrierTask P'.pc =
      P.finishCounter - finishBarrierTask (.spmd l : PC n))
    (hP : P' = { P with pc := P'.pc, finishCounter := P'.finishCounter, regions := P'.regions })
    (hg : g' = { g with cbCount := g'.cbCount, arrivals := g'.arrivals, failures := g'.failures })
    (hfs : ∀ a ∈ g'.failures, a ∈ g.failures ∨ a = .allTasksEnded) : ControlStep P P' g g' where
  pc := hpc ▸ trivial
  pc' := hpc'
  frames := by rw [hP]
  finish := hpc ▸ hfinish
  asyncs := by rw [hP]
  asyncAnys := by rw [hP]
  sending := by rw [hP]
  deque := by rw [hP]
  contactedVictims := by rw [hP]
  thiefQueue := by rw [hP]
  receivedTasksOrigin := by rw [hP]
  tasksReceived := by rw [hP]
  waiting := by rw [hP]
  asyncsInFlight := by rw [hg]
  net := by rw [hg]
  failures := hfs
  created := by rw [hg]
  started := by rw [hg]
  phase := .inl ⟨l, hpc⟩
  cbCount := .inr (.inl ⟨l, hpc⟩)

theorem spmd_control {l : SpmdPc} (hpc : P.pc = .spmd l) (h : finishSpmd me P g l = some (P', g')) :
    ControlStep P P' g g' := by
  cases l with
  | outside =>
      cases h
      exact .of_spmd hpc trivial rfl rfl rfl fun _ => .inl
  | startBarrier =>
      cases h
      exact .of_spmd hpc trivial rfl rfl rfl fun _ => .inl
  | lambda =>
      cases h
      exact .of_spmd hpc trivial (by simp [finishBarrierTask]) rfl rfl fun _ => .inl
  | loopBarrier =>
      cases h
      exact .of_spmd hpc trivial rfl rfl rfl fun _ => .inl
  | startWait | loopWait =>
      simp only [finishSpmd, leaveBarrier] at h
      split at h <;> cases h
      exact .of_spmd hpc trivial rfl rfl rfl fun _ => .inl
  | endBarrier =>
      cases h
      rw [check_eq]
      exact .of_spmd hpc trivial rfl rfl rfl fun a ha => (mem_check ha).imp_right And.left
  | endWait =>
      simp only [finishSpmd, leaveBarrier] at h
      split at h <;> cases h
      exact .of_spmd hpc trivial (by simp [finishBarrierTask, Place.goto]) rfl rfl fun _ => .inl
  | endFinish =>
      simp only [finishSpmd] at h
      split at h <;> cases h
      exact .of_spmd hpc trivial rfl rfl rfl fun _ => .inl

def Controls : PC n → Prop
  | .lifeline (.send _ _ _) => False
  | .publish _ | .serve _ | .idle _ | .steal _ | .lifeline _ | .loop _ | .cbarrier _ | .spmd _ => True
  | _ => False

theorem commStep_control (hpc : Controls P.pc) (h : commStep c me ch P g = some (P', g')) :
    ControlStep P P' g g' := by
  cases hl : P.pc with
  | spmd l =>
      simp only [commStep, hl] at h
      exact spmd_control hl h
  | publish l =>
      simp only [commStep, hl] at h
      exact publish_control hl h
  | loop l =>
      simp only [commStep, hl] at h
      exact loop_control hl h
  | cbarrier l =>
      simp only [commStep, hl] at h
      exact cbarrier_control hl h
  | serve l =>
      simp only [commStep, hl] at h
      exact serve_control hl h
  | idle l =>
      simp only [commStep, hl] at h
      exact idle_control hl h
  | steal l =>
      simp only [commStep, hl] at h
      exact steal_control hl h
  | lifeline l =>
      simp only [commStep, hl] at h
      refine lifeline_control hl ?_ h
      rintro i k v rfl
      rw [hl] at hpc
      exact hpc
  | exec | drain | ship =>
      rw [hl] at hpc
      exact hpc.elim

def follows : PC n → PC n → Bool
  | .spmd _, .spmd _ | .spmd _, .exec _ => true
  | .exec _, .exec _ | .exec _, .publish _ | .exec _, .loop .advance => true
  | .publish _, .publish _ | .publish _, .loop .advance | .publish _, .loop .test => true
  | .loop _, .loop _ | .loop _, .drain _ | .loop _, .idle _ | .loop _, .serve _ | .loop _, .exec _
  | .loop _, .cbarrier _ | .loop _, .spmd _ => true
  | .drain _, .drain _ | .drain _, .loop .branch | .drain _, .loop .test => true
  | .cbarrier _, .cbarrier _ | .cbarrier _, .exec _ | .cbarrier _, .spmd _ => true
  | .serve _, .serve _ | .serve _, .ship _ | .serve _, .publish _ => true
  | .ship _, .ship _ | .ship _, .serve _ | .ship _, .publish _ => true
  | .idle _, .idle _ | .idle _, .steal _ | .idle _, .lifeline _ => true
  | .steal _, .steal _ | .steal _, .lifeline _ | .steal _, .loop .test | .steal _, .exec _ => true
  | .lifeline _, .lifeline _ | .lifeline _, .loop .test | .lifeline _, .exec _ => true
  | _, _ => false

theorem follows_search (c : Config n) (me : Fin n) (P : Place n) (l : IdlePc n) :
    follows (.idle l) (searchTasksGlobally c me P) = true := by
  rcases searchTasksGlobally_cases c me P with ⟨h, -⟩ | ⟨h, -⟩ <;> rw [h] <;> rfl

theorem follows_searchFailed (c : Config n) (me : Fin n) (attempts : Nat) (l : StealPc n) :
    follows (.steal l) (searchFailed c me attempts) = true := by
  rcases searchFailed_cases c me attempts with h | ⟨h, -⟩ <;> rw [h] <;> rfl

theorem follows_nextVictim (c : Config n) (me : Fin n) (attempts i : Nat) (l : StealPc n) :
    follows (.steal l) (nextVictim c me attempts i) = true := by
  rcases nextVictim_cases c me attempts i with h | h <;> rw [h]
  · exact follows_searchFailed c me attempts l
  · rfl

theorem commStep_follows (h : commStep c me ch P g = some (P', g')) : follows P.pc P'.pc = true := by
  cases hl : P.pc with
  | spmd l =>
      simp only [commStep, hl] at h
      cases l <;> simp only [finishSpmd, leaveBarrier] at h <;> (repeat' split at h) <;> cases h <;> rfl
  | exec l =>
      simp only [commStep, hl] at h
      cases l <;> simp only [popExecuteCommTask] at h <;> (repeat' split at h) <;> cases h <;> rfl
  | publish l =>
      simp only [commStep, hl] at h
      cases l <;> simp only [publishLocalLoadInfo] at h <;> cases h
      · rfl
      · dsimp only [Place.goto]
        split <;> rfl
  | loop l =>
      simp only [commStep, hl] at h
      cases l <;> simp only [finishLoop, feedRemoteThieves] at h <;> (repeat' split at h) <;>
        cases h <;> rfl
  | drain l =>
      simp only [commStep, hl] at h
      cases l <;> simp only [decrementTasksInFlightCount] at h <;> (repeat' split at h) <;>
        cases h <;> rfl
  | cbarrier l =>
      simp only [commStep, hl] at h
      cases l <;> simp only [cbarrier] at h <;> (repeat' split at h) <;> cases h <;> rfl
  | serve l =>
      simp only [commStep, hl] at h
      cases l <;> simp only [serve] at h <;> (repeat' split at h) <;> cases h <;> rfl
  | ship l =>
      simp only [commStep, hl] at h
      cases l <;> simp only [shipAsyncAny, afterShipment] at h <;> (repeat' split at h) <;>
        cases h <;> rfl
  | idle l =>
      simp only [commStep, hl] at h
      cases l <;> simp only [markMyPlaceAsIdle] at h <;> (repeat' split at h) <;> cases h <;>
        first | rfl | exact follows_search c me P _
  | steal l =>
      simp only [commStep, hl] at h
      cases l <;> simp only [searchTasksGloballySynchronous] at h <;> (repeat' split at h) <;>
        cases h <;> first | rfl | exact follows_searchFailed c me _ _ | exact follows_nextVictim c me _ _ _
  | lifeline l =>
      simp only [commStep, hl] at h
      cases l <;> simp only [searchForLifelines] at h <;> (repeat' split at h) <;> cases h <;> rfl

theorem enters_ship {l : ShipPc n} (h : commStep c me ch P g = some (P', g')) (hpc' : P'.pc = .ship l) :
    (∃ l, P.pc = .ship l) ∨ ∃ l, P.pc = .serve l := by
  have hf := commStep_follows h
  rw [hpc'] at hf
  cases hpc : P.pc with
  | ship l => exact .inl ⟨l, rfl⟩
  | serve l => exact .inr ⟨l, rfl⟩
  | _ =>
      rw [hpc] at hf
      cases hf

theorem enters_lifeline {l : LifelinePc n} (h : commStep c me ch P g = some (P', g'))
    (hpc' : P'.pc = .lifeline l) :
    (∃ l, P.pc = .lifeline l) ∨ (∃ l, P.pc = .idle l) ∨ ∃ l, P.pc = .steal l := by
  have hf := commStep_follows h
  rw [hpc'] at hf
  cases hpc : P.pc with
  | lifeline l => exact .inl ⟨l, rfl⟩
  | idle l => exact .inr (.inl ⟨l, rfl⟩)
  | steal l => exact .inr (.inr ⟨l, rfl⟩)
  | _ =>
      rw [hpc] at hf
      cases hf

end HabaneroUpc
