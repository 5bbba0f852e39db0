import HabaneroUpc.Lifeline

namespace HabaneroUpc.Lifeline

open Interleaving ThiefQueue ContactTable

variable {n : Nat} {c : Config n} {s : State n}

abbrev UncrossedRun (c : Config n) : State n → Prop :=
  ReachableWhen (job c) fun s p a => uncrossed c s p a = true

theorem safe_reachable (hcancel : c.cancelCyclicSteals = true) (hs : UncrossedRun c s) :
    (table s).Safe ∧ ∀ x ∈ s.shared.failures, x.lifeline = false := by
  refine hs.invariant (I := fun s => (table s).Safe ∧ ∀ x ∈ s.shared.failures, x.lifeline = false)
    ⟨table_init.2, fun x hx => by cases hx⟩ ?_
  intro s me a P g hs hcross hI ha
  obtain ⟨hsafe, hold⟩ := hI
  obtain ⟨hqueueing, hnet⟩ := queueing_reachable hs
  have hchange := act_contact ha (hqueueing me)
  have hasking := asking_reachable hs me
  refine ⟨?_, no_failure hsafe.located (hqueueing me) hasking hchange hold⟩
  rcases table_step hsafe.contacts_le (hqueueing me) hnet hasking hchange hcross with hsame | hmove
  · rw [hsame]
    exact hsafe
  · rw [hcancel] at hmove
    exact safe_move hmove hsafe

/-- Cancellation is safe: a shipment on its way finds the mark it is to clear,
which stands for nothing else; queues have no repetitions and are never full;
and no two places are queued at each other. -/
structure CancelSafe (s : State n) : Prop where
  shipment : ∀ v t tasks, .shipment v t tasks false ∈ s.shared.net →
    (s.proc t).contactedVictims v = .queued ∧ s.shared.net.countP (shipmentTo v t) = 1 ∧
      s.shared.net.countP (requestOf t v) = 0 ∧ t ∉ thieves (s.proc v).thiefQueue
  nodup : ∀ v, (thieves (s.proc v).thiefQueue).Nodup
  notFull : ∀ v, fullThiefQueue (s.proc v).thiefQueue = false
  oneWay : ∀ a b, a ∈ thieves (s.proc b).thiefQueue → b ∉ thieves (s.proc a).thiefQueue
  assertions : ∀ x ∈ s.shared.failures, x.lifeline = false

theorem cancelSafe_of_uncrossed (hcancel : c.cancelCyclicSteals = true) (hs : UncrossedRun c s) :
    CancelSafe s := by
  obtain ⟨hsafe, hfailures⟩ := safe_reachable hcancel hs
  have hqueueing := (queueing_reachable hs).1
  refine ⟨?_, nodup_thieves hsafe.contacts_le, fun v => not_full hsafe.contacts_le (hqueueing v), ?_,
    hfailures⟩
  · intro v t tasks hm
    have hpos : 0 < s.shared.net.countP (shipmentTo v t) :=
      List.countP_pos_iff.mpr ⟨_, hm, by simp [shipmentTo]⟩
    have hlocated := hsafe.located t v
    have hle := hsafe.le_one t v
    simp only [Table.contacts, table, queuedAt] at hlocated hle
    refine ⟨?_, by omega, by omega, List.count_eq_zero.mp (by omega)⟩
    by_contra hne
    simp only [mark, if_neg hne] at hlocated
    omega
  · intro a b ha hb
    have hone := hsafe.oneWay a b
    have hapos := List.count_pos_iff.mpr ha
    have hbpos := List.count_pos_iff.mpr hb
    simp only [table, queuedAt] at hone
    omega

def crossing : List (Fin 2 × Act 2) :=
  throughBarrier ++ (List.range 4).map (fun t => (0, .work (.asyncAny t))) ++
    [(0, .work (.send (.asyncAt 1))), (0, .work (.push (.asyncAt 1)))] ++ throughBarrier ++ comms 0 11 ++
    [(1, .idle 1)] ++ comms 1 8 ++ comms 0 2 ++
    [(0, .deliver (.stealRequest 1 0)), (1, .deliver (.receipt 0 1))] ++ comms 1 4 ++
    [(1, .deliver (.asyncAt 0 1)), (1, .idle 0)] ++
    (List.range 4).map (fun t => (1, .work (.asyncAny (10 + t)))) ++ [(1, .work .finish)] ++ comms 1 9

def asked (k : Nat) : List (Fin 2 × Act 2) :=
  (List.range' k (4 - k)).flatMap (fun t => [(0, .work (.runAny t)), (0, .work .finish)]) ++ [(0, .idle 1)]

set_option maxRecDepth 20000 in
theorem cancelSafe_crossing : ∃ s : State 2, UncrossedRun (twoPlaces .successOnly true) s ∧
    thieves (s.proc 1).thiefQueue = [0] ∧ thieves (s.proc 0).thiefQueue = [] ∧ CancelSafe s := by
  have hs := after_reachableWhen (job (twoPlaces .successOnly true)) (uncrossed (twoPlaces .successOnly true))
    (crossing ++ asked 0 ++ comms 0 7 ++ comms 1 2 ++ [(1, .deliver (.stealRequest 0 1))]) (by decide)
  exact ⟨_, hs, by decide, by decide, cancelSafe_of_uncrossed rfl hs⟩

set_option maxRecDepth 20000 in
/-- The request of place 0 overtakes its own shipment, and clears the mark that
the shipment is to clear. -/
theorem overtaken : ∃ s : State 2, Reachable (job (twoPlaces .successOnly true)) s ∧
    .victimContacted ∈ s.shared.failures :=
  ⟨_, after_reachable _ (crossing ++ comms 0 4 ++ [(0, .comm ⟨1, some 0⟩)] ++ comms 0 7 ++ asked 1 ++
    comms 0 12 ++ comms 1 2 ++ [(1, .deliver (.stealRequest 0 1)), (1, .deliver (.shipment 0 1 [0] false))]),
    by decide⟩

end HabaneroUpc.Lifeline
