import HabaneroUpc.FinishScope
import HabaneroUpc.Thieves
import Mathlib.Algebra.BigOperators.Group.Finset.Piecewise
import Mathlib.Algebra.BigOperators.Ring.Finset

namespace HabaneroUpc.InFlight

open Interleaving Tally

variable {n : Nat}

def issuing : PC n → Nat
  | .exec (.exec task) => if task.involveCommunication then 1 else 0
  | .ship (.ship _ _) => 1
  | _ => 0

def returning (i : Fin n) : PC n → Nat
  | .drain (.dec victim tasks) => if victim = i then tasks else 0
  | _ => 0

def held (i me : Fin n) (P : Place n) : Int :=
  (if me = i then issuing P.pc else 0) + returning i P.pc + P.receivedTasksOrigin i +
    P.frames.countP (· = .decrement i)

def ofSource (i : Fin n) : Msg n → Nat
  | .asyncAt source _ | .asyncCopy source _ | .shipment source _ _ _ => if source = i then 1 else 0
  | .stealRequest _ _ | .receipt _ _ => 0

def travelling (i : Fin n) (net : List (Msg n)) : Nat := (net.map (ofSource i)).sum

def surplus (i : Fin n) (g : Shared n) : Int := g.asyncsInFlight i - travelling i g.net

def balance (i me : Fin n) (P : Place n) (g : Shared n) : Int := surplus i g - held i me P

@[simp] theorem surplus_failures (i : Fin n) (g : Shared n) (fs : List Assertion) :
    surplus i { g with failures := fs } = surplus i g := rfl

@[simp] theorem surplus_started (i : Fin n) (g : Shared n) (ts : List Nat) :
    surplus i { g with started := ts } = surplus i g := rfl

@[simp] theorem surplus_record (i : Fin n) (g : Shared n) (e : SlotEvent n) :
    surplus i (g.record e) = surplus i g := rfl

@[simp] theorem surplus_send (i : Fin n) (g : Shared n) (m : Msg n) :
    surplus i (g.send m) = surplus i g - ofSource i m := by
  simp only [surplus, Shared.send, travelling, List.map_cons, List.sum_cons]
  omega

@[simp] theorem surplus_increment (i me : Fin n) (g : Shared n) :
    surplus i (g.incrementTaskInFlight me) = surplus i g + if me = i then 1 else 0 := by
  by_cases h : me = i
  · subst h
    simp [surplus, Shared.incrementTaskInFlight]
    omega
  · simp [surplus, Shared.incrementTaskInFlight, h, Ne.symm h]

@[simp] theorem surplus_decrement (i p : Fin n) (k : Nat) (g : Shared n) :
    surplus i (g.decrementTaskInFlight p k) = surplus i g - if p = i then (k : Int) else 0 := by
  by_cases h : p = i
  · subst h
    simp [surplus, Shared.decrementTaskInFlight]
    omega
  · simp [surplus, Shared.decrementTaskInFlight, h, Ne.symm h]

theorem surplus_received {i : Fin n} {g : Shared n} {m : Msg n} (hm : m ∈ g.net)
    (fs : List Assertion) (ts : List Nat) :
    surplus i { g with net := g.net.erase m, failures := fs, started := ts } =
      surplus i g + ofSource i m := by
  have h := List.sum_map_erase (ofSource i) hm
  simp only [surplus, travelling]
  omega

variable {c : Config n} {me i : Fin n} {P P' : Place n} {g g' : Shared n}

theorem issuing_emptyHanded {pc : PC n} (h : EmptyHanded pc) : issuing pc = 0 := by
  unfold issuing
  split
  · exact h.elim
  · exact h.elim
  · rfl

theorem returning_emptyHanded {pc : PC n} (h : EmptyHanded pc) : returning i pc = 0 := by
  unfold returning
  split
  · exact h.elim
  · rfl

theorem returning_popped (v : Fin n) (k : Nat) :
    returning i (.drain (if 0 < k then .dec v k else .loop)) = if v = i then k else 0 := by
  rcases Nat.eq_zero_or_pos k with rfl | hk
  · simp [returning]
  · simp [returning, hk]

theorem held_received (source : Fin n) (P : Place n) :
    held i me (queueSourcePlaceOfRemoteTask source P) = held i me P + if source = i then 1 else 0 := by
  by_cases h : source = i
  · subst h
    simp [held, queueSourcePlaceOfRemoteTask]
    omega
  · simp [held, queueSourcePlaceOfRemoteTask, h, Ne.symm h]

/-- One step moves an operation between what the counter of i records, what is
in the network and what the acting place holds. -/
theorem step_balance {a : Act n} {r : Place n × Shared n} (h : Step c me P g a r) (hP : Counted P)
    (hq : Queueing me P) : balance i me r.1 r.2 = balance i me P g := by
  cases h with
  | control h hc =>
      simp [balance, held, surplus, issuing_emptyHanded hc.pc, issuing_emptyHanded hc.pc',
        returning_emptyHanded hc.pc, returning_emptyHanded hc.pc', hc.receivedTasksOrigin, hc.frames,
        hc.asyncsInFlight, hc.net]
  | idle | async | send | push | finish => rfl
  | @pop ch task rest hpc hdeque =>
      cases ht : task.involveCommunication <;> simp [balance, held, issuing, returning, hpc, ht]
  | inc hpc =>
      simp [balance, held, issuing, returning, hpc, Place.goto, hP.involved _ hpc]
      omega
  | @exec ch task hpc =>
      cases task <;> simp [balance, held, issuing, returning, hpc, Place.goto, executeCommTask,
        CommTask.involveCommunication, ofSource] <;> omega
  | ended hpc => simp [balance, held, issuing, returning, hpc]
  | popOrigin hpc hreceived =>
      -- the entry moves from the table to the pending decrement
      by_cases hv : P.headRto = i
      · subst hv
        simp [balance, held, returning_popped, issuing]
        simp [returning, hpc]
      · simp [balance, held, returning_popped, hv, Ne.symm hv, issuing]
        simp [returning, hpc]
  | @returnOrigin ch victim tasks hpc =>
      by_cases hv : victim = i <;> simp [balance, held, issuing, returning, hpc, Place.goto, hv]
      omega
  | steal hpc => simp [balance, held, issuing, returning, hpc]
  | stolen hpc => simp [balance, held, issuing, returning, hpc, Place.goto]
  | shipInc hpc =>
      simp [balance, held, issuing, returning, hpc, Place.goto]
      omega
  | shipQueued hpc =>
      simp [balance, held, issuing, returning, hpc, ofSource]
      omega
  | @shipNowhere ch tasks q fs hpc hpop =>
      have hw := hq.waiting (by rw [hpc]; trivial)
      obtain ⟨t, ht, _⟩ := ThiefQueue.popThief_some hq.sound hw
      rw [hpop] at ht
      cases ht
  | shipSlot hpc =>
      simp [balance, held, issuing, returning, hpc, Place.goto, ofSource]
      omega
  | request hpc => simp [balance, held, issuing, returning, hpc, ofSource]
  | @decrement source rest hframes =>
      by_cases hs : source = i <;> simp [balance, held, hframes, hs]
      omega
  | clearWait hframes =>
      simp [balance, held, hframes, surplus, Shared.record, Shared.setWaitForTask]
  | @asyncAt source fs hm =>
      have hs : surplus i { g with net := _, failures := fs } = _ := surplus_received hm fs g.started
      have hheld : held i me (hcppAsync P) = held i me P := rfl
      simp only [balance, hs, held_received, hheld, ofSource]
      split <;> omega
  | @asyncCopy ddf hm =>
      have hs : surplus i { g with net := _ } = _ := surplus_received hm g.failures g.started
      have hheld : held i me { queueSourcePlaceOfRemoteTask me P with ddfPuts := ddf.toList ++ P.ddfPuts }
          = held i me (queueSourcePlaceOfRemoteTask me P) := rfl
      simp only [balance, hs, hheld, held_received, ofSource]
      split <;> omega
  | @shipmentSlot source tasks fs hm =>
      have hs := surplus_received (i := i) hm fs (tasks.reverse ++ g.started)
      simp only [balance, hs, ofSource]
      by_cases h : source = i <;> simp [held, h]
      omega
  | @shipmentQueued source tasks fs hm =>
      have hs := surplus_received (i := i) hm fs (tasks.reverse ++ g.started)
      have hheld : held i me { queueSourcePlaceOfRemoteTask source P with
          asyncs := P.asyncs + tasks.length
          finishCounter := P.finishCounter + tasks.length
          contactedVictims := Function.update P.contactedVictims source .popped } =
          held i me (queueSourcePlaceOfRemoteTask source P) := rfl
      simp only [balance, hs, hheld, held_received, ofSource]
      split <;> omega
  | @stealRequest thief fs hm =>
      have hs : surplus i { g with net := _, failures := fs } = _ := surplus_received hm fs g.started
      simp only [balance, surplus_send, hs, ofSource]
      simp [held]
  | @receipt victim hm =>
      have hs : surplus i { g with net := _ } = _ := surplus_received hm g.failures g.started
      simp only [balance, hs, ofSource]
      simp [held]
  | asyncAny | runAny => rfl

/-- The counter of i is what the places hold of it and what travels. -/
theorem asyncsInFlight_eq {ok} {s : State n} (hs : ReachableWhen (job c) ok s) (i : Fin n) :
    s.shared.asyncsInFlight i = total (held i) s.proc + travelling i s.shared.net := by
  have hw : surplus i s.shared = total (held i) s.proc := by
    refine conserved (S := job c) (surplus i) (held i) ?_ ?_ hs
    · simp [job, surplus, travelling, Shared.init, total, held, issuing, returning, Place.init]
    · intro s me a P g hs _ _ ha
      exact step_balance (act_step ha) (counted_reachable hs me) ((queueing_reachable hs).1 me)
  simp only [surplus] at hw
  omega

theorem total_held (i : Fin n) (procs : Fin n → Place n) :
    total (held i) procs = (issuing (procs i).pc + ∑ d, (procs d).receivedTasksOrigin i +
      ∑ d, returning i (procs d).pc + ∑ d, (procs d).frames.countP (· = .decrement i) : Nat) := by
  have hissuing : ∑ p, (if p = i then (issuing (procs p).pc : Int) else 0) = issuing (procs i).pc :=
    Fintype.sum_ite_eq' i fun p => (issuing (procs p).pc : Int)
  simp only [total, held, Finset.sum_add_distrib]
  push_cast
  omega

/-- What the counters mean in every state. The operations of place i counted in
asyncsInFlight are the one it has counted and not launched yet, those in flight,
and at every place those received, those popped for the decrement, and the
baseline shipments whose lambda has not decremented yet. -/
structure Accounted (s : State n) : Prop where
  inFlight : ∀ i, s.shared.asyncsInFlight i =
    (issuing (s.proc i).pc + travelling i s.shared.net + ∑ d, (s.proc d).receivedTasksOrigin i +
      ∑ d, returning i (s.proc d).pc + ∑ d, (s.proc d).frames.countP (· = .decrement i) : Nat)
  nonneg : ∀ i, 0 ≤ s.shared.asyncsInFlight i
  outstanding : ∀ i, 0 < travelling i s.shared.net ∨ (∃ d, 0 < (s.proc d).receivedTasksOrigin i) →
    0 < s.shared.asyncsInFlight i
  received : ∀ p, (s.proc p).tasksReceived = (∑ i, (s.proc p).receivedTasksOrigin i : Nat)
  finish : ∀ p, (s.proc p).finishCounter = (s.proc p).asyncs + (s.proc p).asyncAnys.length +
    (s.proc p).sending.length + (s.proc p).deque.length + executing (s.proc p).pc +
    finishBarrierTask (s.proc p).pc

theorem accounted_reachable {s : State n} (hs : Reachable (job c) s) : Accounted s := by
  have hexact (i : Fin n) := (asyncsInFlight_eq hs i).trans (by rw [total_held i s.proc])
  refine ⟨?_, ?_, ?_, fun p => (counted_reachable hs p).received, fun p => (counted_reachable hs p).finish⟩
  · intro i
    have h := hexact i
    push_cast at h ⊢
    omega
  · intro i
    have h := hexact i
    omega
  · intro i hout
    have h := hexact i
    rcases hout with hnet | ⟨d, hd⟩
    · omega
    · have hle := Finset.single_le_sum (f := fun d => (s.proc d).receivedTasksOrigin i)
        (fun _ _ => Nat.zero_le _) (Finset.mem_univ d)
      omega

def popped : List (Fin 2 × Act 2) :=
  throughBarrier ++ [(0, .work (.send (.asyncAt 1))), (0, .work (.push (.asyncAt 1)))] ++
    throughBarrier ++ comms 0 4 ++ comms 1 1 ++ [(1, .deliver (.asyncAt 0 1))] ++ comms 1 3

set_option maxRecDepth 10000 in
theorem accounted_popped :
    ((job (twoPlaces .successOnly false)).after popped).shared.asyncsInFlight 0 = 1 ∧
      Accounted ((job (twoPlaces .successOnly false)).after popped) :=
  ⟨by decide, accounted_reachable (after_reachable _ popped)⟩

set_option maxRecDepth 10000 in
/-- While a popped entry waits for its decrement, it is in no table and no message. -/
theorem popped_in_no_table : ∃ s : State 2, Reachable (job (twoPlaces .successOnly false)) s ∧
    s.shared.net = [] ∧ (∀ p, issuing (s.proc p).pc = 0) ∧
    s.shared.asyncsInFlight 0 ≠ travelling 0 s.shared.net + ∑ d, (s.proc d).receivedTasksOrigin 0 :=
  ⟨_, after_reachable _ popped, by decide, by decide, by decide⟩

end HabaneroUpc.InFlight
