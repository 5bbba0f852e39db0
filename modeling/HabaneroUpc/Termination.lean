import HabaneroUpc.Requests
import HabaneroUpc.Barrier
import HabaneroUpc.InFlight

namespace HabaneroUpc.Termination

open Interleaving InFlight

variable {n : Nat}

def finished : PC n → Bool
  | .cbarrier _ | .spmd .endBarrier | .spmd .endWait | .spmd .endFinish | .spmd .outside => true
  | _ => false

def detecting (pc : PC n) : Bool :=
  match pc with
  | .loop (.scan _ _) => true
  | _ => finished pc

inductive DetectStep (me : Fin n) (P : Place n) (g : Shared n) (P' : Place n) : Prop
  | away (hpc' : detecting P'.pc = false)
  | began (hpc : P.pc = .loop .test) (hpc' : P'.pc = .loop (.scan 0 0))
      (hlocal : P.totalPendingLocalAsyncs = 0)
  | read (i : Nat) (pendingAsyncs : Int) (hi : i < n) (hpc : P.pc = .loop (.scan i pendingAsyncs))
      (hpc' : P'.pc = .loop (.scan (i + 1) (pendingAsyncs + g.asyncsInFlight ⟨i, hi⟩)))
  | found (i : Nat) (hi : ¬i < n) (hpc : P.pc = .loop (.scan i 0)) (hpc' : finished P'.pc = true)
  | stayed (hpc : finished P.pc = true) (hpc' : finished P'.pc = true)

variable {c : Config n} {me p : Fin n} {ch : Choice n} {P P' : Place n} {g g' : Shared n} {s : State n}

theorem detecting_of_follows {pc pc' : PC n} (hloop : ∀ l, pc ≠ .loop l)
    (hcbarrier : ∀ l, pc ≠ .cbarrier l) (hspmd : ∀ l, pc ≠ .spmd l)
    (h : follows pc pc' = true) : detecting pc' = false := by
  cases pc with
  | loop l => exact absurd rfl (hloop l)
  | cbarrier l => exact absurd rfl (hcbarrier l)
  | spmd l => exact absurd rfl (hspmd l)
  | exec | publish | drain | serve | ship | idle | steal | lifeline =>
      cases pc' with
      | loop l' => cases l' <;> first | rfl | cases h
      | _ => first | rfl | cases h

theorem loop_detect {l : LoopPc} (hpc : P.pc = .loop l) (h : finishLoop c me P g l = some (P', g')) :
    DetectStep me P g P' := by
  cases l with
  | test =>
      simp only [finishLoop] at h
      split at h <;> cases h
      · exact .began hpc rfl ‹_›
      · exact .away rfl
  | scan i pendingAsyncs =>
      simp only [finishLoop] at h
      split at h
      · cases h
        exact .read i pendingAsyncs ‹_› hpc rfl
      · split at h
        · obtain rfl := ‹pendingAsyncs = 0›
          split at h <;> cases h <;> exact .found i ‹_› hpc rfl
        · cases h
          exact .away rfl
  | advance | checkIncoming | branch =>
      simp only [finishLoop, feedRemoteThieves] at h
      repeat' split at h
      all_goals cases h
      all_goals exact .away rfl

theorem detect_step (h : commStep c me ch P g = some (P', g')) : DetectStep me P g P' := by
  cases hl : P.pc with
  | loop l =>
      simp only [commStep, hl] at h
      exact loop_detect hl h
  | cbarrier l =>
      have hpc : finished P.pc = true := by rw [hl]; rfl
      simp only [commStep, hl] at h
      cases l <;> simp only [cbarrier] at h <;> (repeat' split at h) <;> cases h
      all_goals first | exact .stayed hpc rfl | exact .away rfl
  | spmd l =>
      simp only [commStep, hl] at h
      cases l <;> simp only [finishSpmd, leaveBarrier] at h <;> (repeat' split at h) <;> cases h
      all_goals first | exact .stayed (by rw [hl]; rfl) rfl | exact .away rfl
  | exec | publish | drain | serve | ship | idle | steal | lifeline =>
      exact .away (detecting_of_follows (by simp [hl]) (by simp [hl]) (by simp [hl])
        (commStep_follows h))

def Idle (P : Place n) : Prop := P.asyncs = 0 ∧ P.asyncAnys = [] ∧ P.sending = [] ∧ P.deque = []

/-- What a place that detects termination has seen. Its own counter is zero
once it has been read as zero, as only the place itself increments it; and a
task that it still has came with an operation it has not returned. -/
structure Detected (me : Fin n) (P : Place n) (g : Shared n) : Prop where
  scanned : ∀ i pendingAsyncs, P.pc = .loop (.scan i pendingAsyncs) →
    0 ≤ pendingAsyncs ∧ (pendingAsyncs = 0 → me.val < i → g.asyncsInFlight me ≤ 0)
  passed : finished P.pc = true → g.asyncsInFlight me ≤ 0
  idle : detecting P.pc = true → Idle P ∨ 0 < P.tasksReceived

theorem detecting_finished {pc : PC n} (h : finished pc = true) : detecting pc = true := by
  unfold detecting
  split
  · rfl
  · exact h

theorem Detected.away (h : detecting P'.pc = false) : Detected me P' g' := by
  refine ⟨?_, ?_, ?_⟩
  · intro i pendingAsyncs hpc
    rw [hpc] at h
    cases h
  · intro hf
    rw [detecting_finished hf] at h
    cases h
  · intro hd
    rw [hd] at h
    cases h

theorem Detected.kept (hP : Detected me P g) (hpc : P'.pc = P.pc)
    (hcount : g'.asyncsInFlight me ≤ g.asyncsInFlight me)
    (hidle : detecting P.pc = true → Idle P ∨ 0 < P.tasksReceived → Idle P' ∨ 0 < P'.tasksReceived) :
    Detected me P' g' := by
  refine ⟨?_, ?_, ?_⟩
  · intro i pendingAsyncs h
    obtain ⟨hnonneg, hown⟩ := hP.scanned i pendingAsyncs (hpc ▸ h)
    exact ⟨hnonneg, fun hzero hi => hcount.trans (hown hzero hi)⟩
  · exact fun h => hcount.trans (hP.passed (hpc ▸ h))
  · exact fun h => hidle (hpc ▸ h) (hP.idle (hpc ▸ h))

theorem idle_of_counted (hP : Counted P) (hpc : P.pc = .loop .test) (h : P.totalPendingLocalAsyncs = 0) :
    Idle P := by
  have hfinish := hP.finish
  simp only [Place.totalPendingLocalAsyncs] at h
  rw [hpc] at hfinish
  simp only [executing, finishBarrierTask] at hfinish
  refine ⟨by omega, ?_, ?_, ?_⟩ <;> apply List.length_eq_zero_iff.mp <;> omega

theorem control_detected (hc : ControlStep P P' g g') (h : DetectStep me P g P') (hcounted : Counted P)
    (hnonneg : ∀ i, 0 ≤ g.asyncsInFlight i) (hP : Detected me P g) : Detected me P' g' := by
  have hidle (hI : Idle P ∨ 0 < P.tasksReceived) : Idle P' ∨ 0 < P'.tasksReceived := by
    simpa only [Idle, hc.asyncs, hc.asyncAnys, hc.sending, hc.deque, hc.tasksReceived] using hI
  cases h with
  | away hpc' => exact .away hpc'
  | began hpc hpc' hlocal =>
      refine ⟨?_, ?_, fun _ => hidle (.inl (idle_of_counted hcounted hpc hlocal))⟩
      · intro i pendingAsyncs h
        rw [hpc'] at h
        cases h
        exact ⟨le_rfl, fun _ hi => absurd hi (Nat.not_lt_zero _)⟩
      · intro h
        rw [hpc'] at h
        cases h
  | read i pendingAsyncs hi hpc hpc' =>
      obtain ⟨hsum, hown⟩ := hP.scanned i pendingAsyncs hpc
      have hread := hnonneg ⟨i, hi⟩
      refine ⟨?_, ?_, fun _ => hidle (hP.idle (by rw [hpc]; rfl))⟩
      · intro j sum h
        rw [hpc'] at h
        cases h
        refine ⟨by omega, fun hzero hj => ?_⟩
        rw [hc.asyncsInFlight]
        -- the own counter has been read before, or is the one read now
        rcases Nat.lt_succ_iff_lt_or_eq.mp hj with hlt | heq
        · exact hown (by omega) hlt
        · have hme : (⟨i, hi⟩ : Fin n) = me := Fin.ext heq.symm
          rw [hme] at hzero hread
          omega
      · intro h
        rw [hpc'] at h
        cases h
  | found i hi hpc hpc' =>
      have hown := (hP.scanned i 0 hpc).2 rfl (by omega)
      refine ⟨?_, fun _ => hc.asyncsInFlight ▸ hown, fun _ => hidle (hP.idle (by rw [hpc]; rfl))⟩
      intro j sum h
      rw [h] at hpc'
      cases hpc'
  | stayed hpc hpc' =>
      refine ⟨?_, fun _ => hc.asyncsInFlight ▸ hP.passed hpc,
        fun _ => hidle (hP.idle (detecting_finished hpc))⟩
      intro j sum h
      rw [h] at hpc'
      cases hpc'

theorem decrement_le (g : Shared n) (p i : Fin n) (k : Nat) :
    (g.decrementTaskInFlight p k).asyncsInFlight i ≤ g.asyncsInFlight i := by
  by_cases hi : i = p
  · subst hi
    simp [Shared.decrementTaskInFlight]
  · simp [Shared.decrementTaskInFlight, hi]

/-- A place increments no counter but its own. -/
theorem others_le {a : Act n} {r : Place n × Shared n} (h : Step c me P g a r) (hp : p ≠ me) :
    r.2.asyncsInFlight p ≤ g.asyncsInFlight p := by
  cases h with
  | control h hc => exact (congrFun hc.asyncsInFlight p).le
  | inc | shipInc =>
      simp only [Shared.incrementTaskInFlight]
      rw [Function.update_of_ne hp]
  | returnOrigin | decrement => exact decrement_le ..
  | @exec ch task => cases task <;> exact le_rfl
  | _ => exact le_rfl

theorem not_running (hpc : detecting P.pc = true) (hI : Idle P) : taskRunning P = false := by
  have hlambda : P.pc ≠ .spmd .lambda := fun h => by
    rw [h] at hpc
    cases hpc
  simp [taskRunning, hI.1, hlambda]

theorem own_detected {a : Act n} {r : Place n × Shared n} (h : Step c me P g a r) (hcounted : Counted P)
    (hnonneg : ∀ i, 0 ≤ g.asyncsInFlight i)
    (hslot : ∀ source tasks, .shipment source me tasks true ∈ g.net → detecting P.pc = false)
    (hP : Detected me P g) : Detected me r.1 r.2 := by
  have hreceived : 0 ≤ P.tasksReceived := by
    rw [hcounted.received]
    exact Int.natCast_nonneg _
  have hqueued : 0 < P.tasksReceived + 1 := by omega
  cases h with
  | @control ch P' g' h hc => exact control_detected hc (detect_step h) hcounted hnonneg hP
  | idle | clearWait | stealRequest | receipt => exact hP.kept rfl le_rfl fun _ => id
  | decrement => exact hP.kept rfl (decrement_le ..) fun _ => id
  | pop hpc | popOrigin hpc =>
      refine .away ?_
      dsimp only
      split <;> rfl
  | inc | exec | ended | returnOrigin | steal | stolen | shipInc | shipQueued | shipNowhere | shipSlot
  | request => exact .away rfl
  | asyncAt | asyncCopy | shipmentQueued => exact hP.kept rfl le_rfl fun _ _ => .inr hqueued
  | shipmentSlot hm => exact .away (hslot _ _ hm)
  | async hrun | asyncAny hrun | send hrun =>
      refine hP.kept rfl le_rfl fun hpc hI => hI.imp_left fun hI => ?_
      rw [not_running hpc hI] at hrun
      cases hrun
  | push hsending =>
      refine hP.kept rfl le_rfl fun hpc hI => hI.imp_left fun hI => ?_
      rw [hI.2.2.1] at hsending
      cases hsending
  | finish hasyncs =>
      refine hP.kept rfl le_rfl fun hpc hI => hI.imp_left fun hI => ?_
      exact absurd hI.1 (by omega)
  | runAny ht =>
      refine hP.kept rfl le_rfl fun hpc hI => hI.imp_left fun hI => ?_
      rw [hI.2.1] at ht
      cases ht

theorem detected_init (me : Fin n) : Detected me (Place.init me) (Shared.init n) := by
  refine ⟨?_, fun _ => le_rfl, fun _ => .inl ⟨rfl, rfl, rfl, rfl⟩⟩
  intro i pendingAsyncs h
  cases h

theorem not_detecting {pc : PC n} (h : Slot.Awaiting pc) : detecting pc = false := by
  unfold Slot.Awaiting at h
  split at h
  · rfl
  · rfl
  · rfl
  · exact h.elim

/-- A place that detects termination awaits no baseline shipment. -/
theorem no_slot_shipment (hs : Reachable (job c) s) {t source : Fin n} {tasks : List Nat}
    (hm : .shipment source t tasks true ∈ s.shared.net) : detecting (s.proc t).pc = false := by
  have hone := Slot.oneReason_reachable hs t
  refine not_detecting ((Slot.slotInv_reachable hs t).waiting (hone.wait_of_answers ?_))
  have hpos : 0 < s.shared.net.countP (Slot.boundFor t) :=
    List.countP_pos_iff.mpr ⟨_, hm, by simp [Slot.boundFor]⟩
  rw [Slot.answers]
  omega

theorem no_frames (hs : Reachable (job c) s) {t : Fin n} (hpc : detecting (s.proc t).pc = true) :
    (s.proc t).frames = [] := by
  by_contra hframes
  have hwait := (Slot.oneReason_reachable hs t).wait_of_answers (by
    have hpos := List.length_pos_iff.mpr hframes
    rw [Slot.answers]
    omega)
  rw [not_detecting ((Slot.slotInv_reachable hs t).waiting hwait)] at hpc
  cases hpc

theorem detected_reachable (hs : Reachable (job c) s) (me : Fin n) : Detected me (s.proc me) s.shared := by
  refine hs.local_invariant (I := Detected) detected_init ?_ ?_ me
  · intro s me a P g hs _ hI ha
    exact own_detected (act_step ha) (counted_reachable hs me) (accounted_reachable hs).nonneg
      (fun _ _ hm => no_slot_shipment hs hm) (hI me)
  · intro s me a P g hs _ hI ha p hp
    exact (hI p).kept rfl (others_le (act_step ha) hp) fun _ => id

/-- Nothing is left anywhere: no task, no communication task, no operation in
flight, and nothing received that has not been returned. -/
structure Quiescent (s : State n) : Prop where
  tasks : ∀ q, (s.proc q).asyncs = 0 ∧ (s.proc q).asyncAnys = []
  commTasks : ∀ q, (s.proc q).sending = [] ∧ (s.proc q).deque = [] ∧ executing (s.proc q).pc = 0
  messages : ∀ m ∈ s.shared.net, ∃ p q, m = .stealRequest p q ∨ m = .receipt p q
  received : ∀ q, (s.proc q).tasksReceived = 0 ∧ (∀ i, (s.proc q).receivedTasksOrigin i = 0) ∧
    (∀ i, returning i (s.proc q).pc = 0) ∧ (s.proc q).frames = []
  counters : ∀ i, s.shared.asyncsInFlight i = 0

/-- When all places have passed the scan of the counters, nothing is left. -/
theorem quiescent_of_finished (hs : Reachable (job c) s) (hall : ∀ q, finished (s.proc q).pc = true) :
    Quiescent s := by
  have haccounted := accounted_reachable hs
  have hdetected := detected_reachable hs
  have hzero (i : Fin n) : s.shared.asyncsInFlight i = 0 :=
    le_antisymm ((hdetected i).passed (hall i)) (haccounted.nonneg i)
  have horigin (q i : Fin n) : (s.proc q).receivedTasksOrigin i = 0 := by
    by_contra hne
    have hpos := haccounted.outstanding i (.inr ⟨q, Nat.pos_of_ne_zero hne⟩)
    rw [hzero i] at hpos
    omega
  have hreceived (q : Fin n) : (s.proc q).tasksReceived = 0 := by
    rw [haccounted.received q]
    simp [horigin]
  have hidle (q : Fin n) : Idle (s.proc q) := by
    apply ((hdetected q).idle (detecting_finished (hall q))).resolve_right
    rw [hreceived q]
    omega
  have hpc (q : Fin n) : executing (s.proc q).pc = 0 ∧ ∀ i, returning i (s.proc q).pc = 0 := by
    have hf := hall q
    unfold finished at hf
    split at hf
    all_goals first | (rename_i hq; rw [hq]; exact ⟨rfl, fun _ => rfl⟩) | cases hf
  refine ⟨fun q => ⟨(hidle q).1, (hidle q).2.1⟩, fun q => ⟨(hidle q).2.2.1, (hidle q).2.2.2, (hpc q).1⟩, ?_,
    fun q => ⟨hreceived q, horigin q, (hpc q).2, no_frames hs (detecting_finished (hall q))⟩, hzero⟩
  intro m hm
  have hsource (i : Fin n) (hi : ofSource i m = 1) : False := by
    have hle := List.single_le_sum (l := s.shared.net.map (ofSource i)) (fun _ _ => Nat.zero_le _) _
      (List.mem_map_of_mem hm)
    have hpos := haccounted.outstanding i (.inl (by rw [travelling]; omega))
    rw [hzero i] at hpos
    omega
  cases m with
  | asyncAt source | asyncCopy source | shipment source => exact (hsource source (if_pos rfl)).elim
  | stealRequest p q => exact ⟨p, q, .inl rfl⟩
  | receipt p q => exact ⟨p, q, .inr rfl⟩

/-- When a place leaves the loop of hcpp_finish_barrier, nothing is left. -/
theorem terminated (hs : Reachable (job c) s) {p : Fin n} (hp : (s.proc p).pc = .spmd .endBarrier) :
    Quiescent s := by
  apply quiescent_of_finished hs
  intro q
  rcases Nat.lt_or_ge n 2 with hone | hn
  · have hq : q = p := Fin.ext (by omega)
    rw [hq, hp]
    rfl
  · have hcounting := Barrier.counting_reachable hn hs
    have hentered := (hcounting.inside (hcounting.done p hp) q).1
    rw [Barrier.entered] at hentered
    split at hentered
    all_goals first | (rename_i hq; rw [hq]; rfl) | cases hentered

def ended : List (Fin 2 × Act 2) :=
  throughBarrier ++ [(0, .work (.send (.asyncAt 1))), (0, .work (.push (.asyncAt 1)))] ++ throughBarrier ++
    comms 0 4 ++ comms 1 3 ++ [(1, .deliver (.asyncAt 0 1)), (1, .work .finish)] ++ comms 1 10 ++ comms 0 11

set_option maxRecDepth 20000 in
theorem terminated_ended : Quiescent ((job (twoPlaces .noDistWS false)).after ended) :=
  terminated (after_reachable _ ended) (p := 0) (by decide)

end HabaneroUpc.Termination
