import HabaneroUpc.Steps
import HabaneroUpc.Lib.Tally

namespace HabaneroUpc

open Interleaving Tally

variable {n : Nat}

def executing : PC n → Nat
  | .exec (.inc _) | .exec (.exec _) | .exec .dec => 1
  | _ => 0

/-- What the counters of a place count: everything spawned in the finish scope
and not ended, and the operations received and not yet returned. -/
structure Counted (P : Place n) : Prop where
  finish : P.finishCounter = P.asyncs + P.asyncAnys.length + P.sending.length + P.deque.length +
    executing P.pc + finishBarrierTask P.pc
  received : P.tasksReceived = (∑ i, P.receivedTasksOrigin i : Nat)
  involved : ∀ task, P.pc = .exec (.inc task) → task.involveCommunication = true

variable {c : Config n} {me : Fin n} {P P' : Place n} {g g' : Shared n}

theorem executing_emptyHanded {pc : PC n} (h : EmptyHanded pc) : executing pc = 0 := by
  unfold executing
  split
  · exact h.elim
  · exact h.elim
  · exact h.elim
  · rfl

theorem involved_emptyHanded {pc : PC n} (h : EmptyHanded pc) (task : CommTask n)
    (hpc : pc = .exec (.inc task)) : task.involveCommunication = true := by
  subst hpc
  exact h.elim

theorem sum_update (o : Fin n → Nat) (i : Fin n) (k : Nat) :
    ∑ j, Function.update o i k j + o i = ∑ j, o j + k :=
  total_update (fun _ k => k) o i k

theorem queueSource_received {source : Fin n} (hr : P.tasksReceived = (∑ i, P.receivedTasksOrigin i : Nat)) :
    (queueSourcePlaceOfRemoteTask source P).tasksReceived =
      (∑ i, (queueSourcePlaceOfRemoteTask source P).receivedTasksOrigin i : Nat) := by
  have hsum := sum_update P.receivedTasksOrigin source (P.receivedTasksOrigin source + 1)
  simp only [queueSourcePlaceOfRemoteTask]
  omega

theorem counted_step {a : Act n} {r : Place n × Shared n} (h : Step c me P g a r) (hP : Counted P) :
    Counted r.1 := by
  have hfinish := hP.finish
  cases h with
  | control h hc =>
      have hf := hc.finish
      refine ⟨?_, ?_, involved_emptyHanded hc.pc'⟩
      · dsimp only
        rw [hc.asyncs, hc.asyncAnys, hc.sending, hc.deque, executing_emptyHanded hc.pc']
        rw [executing_emptyHanded hc.pc] at hfinish
        omega
      · dsimp only
        rw [hc.tasksReceived, hc.receivedTasksOrigin]
        exact hP.received
  | idle | decrement | clearWait | stealRequest | receipt => exact ⟨hfinish, hP.received, hP.involved⟩
  | @pop ch task rest hpc hdeque =>
      refine ⟨?_, hP.received, ?_⟩
      · rw [hpc, hdeque] at hfinish
        dsimp only
        split <;> simp only [executing, finishBarrierTask, List.length_cons] at hfinish ⊢ <;> omega
      · intro t ht
        dsimp only at ht
        split at ht <;> cases ht
        assumption
  | inc hpc | exec hpc | returnOrigin hpc | stolen hpc | shipInc hpc | shipQueued hpc | shipNowhere hpc
  | shipSlot hpc | request hpc =>
      refine ⟨?_, hP.received, fun t ht => by cases ht⟩
      rw [hpc] at hfinish
      exact hfinish
  | ended hpc =>
      refine ⟨?_, hP.received, fun t ht => by cases ht⟩
      rw [hpc] at hfinish
      simp only [executing, finishBarrierTask] at hfinish ⊢
      omega
  | popOrigin hpc hreceived =>
      refine ⟨?_, ?_, ?_⟩
      · rw [hpc] at hfinish
        dsimp only
        split <;> exact hfinish
      · have hsum := sum_update P.receivedTasksOrigin P.headRto 0
        have hr := hP.received
        dsimp only
        omega
      · intro t ht
        dsimp only at ht
        split at ht <;> cases ht
  | @steal ch requestor tasks t hpc hlen ht =>
      have herase := List.length_erase_add_one ht
      refine ⟨?_, hP.received, fun t ht => by cases ht⟩
      rw [hpc] at hfinish
      simp only [executing, finishBarrierTask] at hfinish ⊢
      omega
  | asyncAt =>
      refine ⟨?_, queueSource_received hP.received, hP.involved⟩
      simp only [queueSourcePlaceOfRemoteTask, hcppAsync]
      omega
  | asyncCopy => exact ⟨hfinish, queueSource_received hP.received, hP.involved⟩
  | shipmentSlot =>
      refine ⟨?_, hP.received, hP.involved⟩
      dsimp only
      omega
  | shipmentQueued =>
      refine ⟨?_, queueSource_received hP.received, hP.involved⟩
      simp only [queueSourcePlaceOfRemoteTask]
      omega
  | async =>
      refine ⟨?_, hP.received, hP.involved⟩
      simp only [hcppAsync]
      omega
  | asyncAny | send =>
      refine ⟨?_, hP.received, hP.involved⟩
      simp only [List.length_cons]
      omega
  | push hsending =>
      have herase := List.length_erase_add_one hsending
      refine ⟨?_, hP.received, hP.involved⟩
      simp only [List.length_append, List.length_singleton]
      omega
  | finish hasyncs =>
      refine ⟨?_, hP.received, hP.involved⟩
      dsimp only
      omega
  | runAny ht =>
      have herase := List.length_erase_add_one ht
      refine ⟨?_, hP.received, hP.involved⟩
      dsimp only
      omega

theorem counted_init (me : Fin n) : Counted (Place.init me) := by
  refine ⟨rfl, ?_, fun task ht => by cases ht⟩
  simp [Place.init]

theorem counted_reachable {ok} {s : State n} (hs : ReachableWhen (job c) ok s) (me : Fin n) :
    Counted (s.proc me) := by
  refine (hs.split_invariant (J := fun _ => True) counted_init trivial ?_).1 me
  intro s me a P g _ _ hI _ ha
  exact ⟨counted_step (act_step ha) (hI me), trivial⟩

end HabaneroUpc
