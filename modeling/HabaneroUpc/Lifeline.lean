import HabaneroUpc.Contacts
import HabaneroUpc.Lib.Contacts
import Mathlib.Data.Fintype.Card

namespace HabaneroUpc.Lifeline

open Interleaving ThiefQueue ContactTable

variable {n : Nat}

def requestOf (t v : Fin n) : Msg n → Bool
  | .stealRequest me victim => me = t ∧ victim = v
  | _ => false

def shipmentTo (v t : Fin n) : Msg n → Bool
  | .shipment source dest _ false => source = v ∧ dest = t
  | _ => false

def mark (P : Place n) (v : Fin n) : Nat := if P.contactedVictims v = .queued then 1 else 0

def queuedAt (P : Place n) (t : Fin n) : Nat := (thieves P.thiefQueue).count t

def table (s : State n) : Table (Fin n) where
  marked t v := mark (s.proc t) v
  requested t v := s.shared.net.countP (requestOf t v)
  queued t v := queuedAt (s.proc v) t
  shipping t v := s.shared.net.countP (shipmentTo v t)

variable {c : Config n} {me : Fin n} {a : Act n} {P P' : Place n} {g g' : Shared n} {s : State n}

theorem mark_le (P : Place n) (v : Fin n) : mark P v ≤ 1 := by
  rw [mark]
  split <;> omega

theorem mark_update {v : Fin n} {e : Entry}
    (h : P'.contactedVictims = Function.update P.contactedVictims v e) (w : Fin n) :
    mark P' w = if w = v then (if e = .queued then 1 else 0) else mark P w := by
  by_cases hw : w = v
  · subst hw
    simp [mark, h]
  · simp [mark, h, hw]

theorem nodup_thieves (h : ∀ t v, (table s).contacts t v ≤ 1) (v : Fin n) :
    (thieves (s.proc v).thiefQueue).Nodup := by
  apply List.nodup_iff_count.mpr
  intro t
  have htv := h t v
  simp only [Table.contacts, table, queuedAt] at htv
  omega

/-- A queue without repetitions has room for every other place. -/
theorem thieves_lt (h : ∀ t v, (table s).contacts t v ≤ 1) {v : Fin n} (hq : Queueing v (s.proc v)) :
    (thieves (s.proc v).thiefQueue).length + 1 ≤ n := by
  have hv : v ∉ thieves (s.proc v).thiefQueue := fun hv => mem_thieves hq.sound hv rfl
  have hnodup := List.nodup_cons.mpr ⟨hv, nodup_thieves h v⟩
  simpa using hnodup.length_le_card

theorem not_full (h : ∀ t v, (table s).contacts t v ≤ 1) {v : Fin n} (hq : Queueing v (s.proc v)) :
    fullThiefQueue (s.proc v).thiefQueue = false := by
  have hlt := thieves_lt h hq
  cases hfull : fullThiefQueue (s.proc v).thiefQueue with
  | false => rfl
  | true =>
      have hn := (full_iff hq.sound).mp hfull
      omega

theorem marked_set (r : Place n × Shared n) (t v : Fin n) :
    (table (s.set me r)).marked t v = if t = me then mark r.1 v else (table s).marked t v := by
  by_cases ht : t = me
  · subst ht
    simp [table]
  · simp [table, set_proc_of_ne s r ht, ht]

theorem queued_set (r : Place n × Shared n) (t v : Fin n) :
    (table (s.set me r)).queued t v = if v = me then queuedAt r.1 t else (table s).queued t v := by
  by_cases hv : v = me
  · subst hv
    simp [table]
  · simp [table, set_proc_of_ne s r hv, hv]

theorem marked_same (hmarks : P'.contactedVictims = (s.proc me).contactedVictims) (t v : Fin n) :
    (table (s.set me (P', g'))).marked t v = (table s).marked t v := by
  rw [marked_set, mark, hmarks]
  split
  · subst t
    rfl
  · rfl

theorem queued_same (hqueue : P'.thiefQueue = (s.proc me).thiefQueue) (t v : Fin n) :
    (table (s.set me (P', g'))).queued t v = (table s).queued t v := by
  rw [queued_set, queuedAt, hqueue]
  split
  · subst v
    rfl
  · rfl

theorem requestOf_lifeline (t v : Fin n) (m : Msg n) (hm : requestOf t v m = true) :
    m.lifeline = true := by
  unfold requestOf at hm
  split at hm
  · rfl
  · cases hm

theorem shipmentTo_lifeline (v t : Fin n) (m : Msg n) (hm : shipmentTo v t m = true) :
    m.lifeline = true := by
  unfold shipmentTo at hm
  split at hm
  · rfl
  · cases hm

theorem requested_cons (t v me w : Fin n) (net : List (Msg n)) :
    (.stealRequest me w :: net : List (Msg n)).countP (requestOf t v) =
      if t = me ∧ v = w then net.countP (requestOf me w) + 1 else net.countP (requestOf t v) := by
  split
  · obtain ⟨rfl, rfl⟩ := ‹_ ∧ _›
    exact List.countP_cons_of_pos (by simp [requestOf])
  · exact List.countP_cons_of_neg (by simp [requestOf]; grind)

theorem requested_erase (t v me w : Fin n) {net : List (Msg n)} (hm : .stealRequest me w ∈ net) :
    (net.erase (.stealRequest me w)).countP (requestOf t v) =
      if t = me ∧ v = w then net.countP (requestOf me w) - 1 else net.countP (requestOf t v) := by
  have hcons := requested_cons t v me w (net.erase (.stealRequest me w))
  have hself := requested_cons me w me w (net.erase (.stealRequest me w))
  rw [← (List.perm_cons_erase hm).countP_eq] at hcons hself
  split <;> simp_all

theorem shipping_cons (v t me w : Fin n) (tasks : List Nat) (net : List (Msg n)) :
    (.shipment w me tasks false :: net : List (Msg n)).countP (shipmentTo v t) =
      if t = me ∧ v = w then net.countP (shipmentTo w me) + 1 else net.countP (shipmentTo v t) := by
  split
  · obtain ⟨rfl, rfl⟩ := ‹_ ∧ _›
    exact List.countP_cons_of_pos (by simp [shipmentTo])
  · exact List.countP_cons_of_neg (by simp [shipmentTo]; grind)

theorem shipping_erase (v t me w : Fin n) {tasks : List Nat} {net : List (Msg n)}
    (hm : .shipment w me tasks false ∈ net) :
    (net.erase (.shipment w me tasks false)).countP (shipmentTo v t) =
      if t = me ∧ v = w then net.countP (shipmentTo w me) - 1 else net.countP (shipmentTo v t) := by
  have hcons := shipping_cons v t me w tasks (net.erase (.shipment w me tasks false))
  have hself := shipping_cons w me me w tasks (net.erase (.shipment w me tasks false))
  rw [← (List.perm_cons_erase hm).countP_eq] at hcons hself
  split <;> simp_all

/-- A request drops its victim from the queue when cyclic steals are cancelled. -/
theorem queuedAt_request (hq : Queueing me P) (hle : (thieves P.thiefQueue).length ≤ n) (v t : Fin n)
    (h : P'.thiefQueue = if cancelsThief c v P then cancelThief v P.thiefQueue else P.thiefQueue) :
    queuedAt P' t = if c.cancelCyclicSteals ∧ t = v then 0 else queuedAt P t := by
  have hcheck := check_iff hq.sound v
  have hfilter := thieves_cancel hq.sound v ((List.length_filter_le _ _).trans hle)
  simp only [queuedAt, h, cancelsThief, hcheck]
  cases hc : c.cancelCyclicSteals with
  | false => simp
  | true =>
      by_cases hv : v ∈ thieves P.thiefQueue
      · simp only [hv, decide_true, Bool.and_self, if_true, hfilter]
        by_cases ht : t = v
        · subst ht
          simp [List.count_eq_zero]
        · simp [ht, List.count_filter]
      · by_cases ht : t = v
        · subst ht
          simp [hv, List.count_eq_zero]
        · simp [hv, ht]

theorem mark_arrived (t v : Fin n) (h : P'.contactedVictims = if cancelsMark c t P then
      Function.update P.contactedVictims t .popped else P.contactedVictims) :
    mark P' v = if c.cancelCyclicSteals ∧ v = t then 0 else mark P v := by
  by_cases hcancel : cancelsMark c t P = true
  · rw [if_pos hcancel] at h
    have hc : c.cancelCyclicSteals = true := (Bool.and_eq_true_iff.mp hcancel).1
    rw [mark_update h]
    simp [hc]
  · rw [if_neg hcancel] at h
    have hsame : mark P' v = mark P v := by rw [mark, h, mark]
    rw [hsame]
    split
    · obtain ⟨hc, rfl⟩ := ‹_ ∧ _›
      simpa [cancelsMark, hc, Place.victimAlreadyContacted, mark] using hcancel
    · rfl

/-- A request arrives at a place whose mark for the thief, if there is one, does
not stand for a request or a shipment on its way. -/
def uncrossed (c : Config n) (s : State n) (p : Fin n) : Act n → Bool
  | .deliver (.stealRequest t _) => c.cancelCyclicSteals = true → (s.proc p).contactedVictims t = .queued →
      s.shared.net.countP (requestOf p t) = 0 ∧ s.shared.net.countP (shipmentTo t p) = 0
  | _ => true

theorem table_step (hs : ∀ t v, (table s).contacts t v ≤ 1) (hq : Queueing me (s.proc me))
    (hnet : RemoteNet s.shared) (hasking : Asking (s.proc me))
    (h : ContactChange c me a (s.proc me) s.shared P' g')
    (hcross : uncrossed c s me a = true) :
    table (s.set me (P', g')) = table s ∨
      Move c.cancelCyclicSteals (table s) (table (s.set me (P', g'))) := by
  have hlt := thieves_lt hs hq
  cases h with
  | still hmarks hqueue hwaiting hwait hcontacting hnet =>
      left
      ext t v
      · exact marked_same hmarks t v
      · exact hnet _ (requestOf_lifeline t v)
      · exact queued_same hqueue t v
      · exact hnet _ (shipmentTo_lifeline v t)
  | request i k w hpc hpc' hmarks hqueue hwaiting hnet =>
      have hw : w ≠ me := hq.remote w (by rw [hpc]; rfl)
      have hfresh := hasking.fresh w (by rw [hpc]; rfl)
      right
      have heq : table (s.set me (P', g')) = { table s with
          marked := set₂ (table s).marked me w 1
          requested := set₂ (table s).requested me w ((table s).requested me w + 1)
          queued := if c.cancelCyclicSteals then set₂ (table s).queued w me 0 else (table s).queued } := by
        ext t v
        · rw [marked_set, mark_update hmarks]
          by_cases ht : t = me <;> by_cases hv : v = w <;> simp [set₂, ht, hv, table]
        · simp only [table, set_shared, hnet, requested_cons, set₂]
        · rw [queued_set, queuedAt_request hq (by omega) w t hqueue]
          cases hc : c.cancelCyclicSteals <;> by_cases ht : t = w <;> by_cases hv : v = me <;>
            simp [set₂, ht, hv, table]
        · simp [table, hnet, shipmentTo]
      rw [heq]
      exact .request me w hw.symm (by simp [table, mark, hfresh])
  | arrived u ha hm hpc hmarks hqueue hwaiting hnet' =>
      have hu : u ≠ me := hnet _ hm
      right
      have heq : table (s.set me (P', g')) = { table s with
          requested := set₂ (table s).requested u me ((table s).requested u me - 1)
          queued := set₂ (table s).queued u me ((table s).queued u me + 1)
          marked := if c.cancelCyclicSteals then set₂ (table s).marked me u 0 else (table s).marked } := by
        ext t v
        · rw [marked_set, mark_arrived u v hmarks]
          cases hc : c.cancelCyclicSteals <;> by_cases ht : t = me <;> by_cases hv : v = u <;>
            simp [set₂, ht, hv, table]
        · simp only [table, set_shared, hnet', set₂]
          rw [List.countP_cons_of_neg (by simp [requestOf])]
          exact requested_erase t v u me hm
        · rw [queued_set, queuedAt, hqueue, thieves_push hq.sound u (by omega)]
          by_cases ht : t = u <;> by_cases hv : v = me <;>
            simp [set₂, ht, hv, table, queuedAt, List.count_append, List.count_eq_zero]
        · simp [table, hnet', shipmentTo, List.countP_erase]
      rw [heq]
      refine .arrive u me hu (List.countP_pos_iff.mpr ⟨_, hm, by simp [requestOf]⟩) fun hc hmark => ?_
      subst ha
      apply of_decide_eq_true hcross hc
      by_contra hne
      simp [table, mark, hne] at hmark
  | popped u tasks hcontacting hpc hmarks hqueue hwaiting hnet =>
      obtain ⟨hhead, htail⟩ := popThief_thieves hq.sound
      rw [hqueue] at hhead htail
      have hthieves : thieves (s.proc me).thiefQueue = u :: thieves P'.thiefQueue := by
        rw [htail]
        exact (List.cons_head?_tail hhead.symm).symm
      right
      have heq : table (s.set me (P', g')) = { table s with
          queued := set₂ (table s).queued u me ((table s).queued u me - 1)
          shipping := set₂ (table s).shipping u me ((table s).shipping u me + 1) } := by
        ext t v
        · exact marked_same hmarks t v
        · simp [table, hnet, requestOf]
        · rw [queued_set]
          by_cases ht : u = t <;> by_cases hv : v = me <;>
            simp [set₂, ht, hv, table, queuedAt, hthieves, eq_comm]
        · simp only [table, set_shared, hnet, shipping_cons, set₂]
      rw [heq]
      exact .pop u me (by simp [table, queuedAt, hthieves])
  | shipped w tasks hm hpc hmarks hqueue hwaiting hnet =>
      right
      have heq : table (s.set me (P', g')) = { table s with
          shipping := set₂ (table s).shipping me w ((table s).shipping me w - 1)
          marked := set₂ (table s).marked me w 0 } := by
        ext t v
        · rw [marked_set, mark_update hmarks]
          by_cases ht : t = me <;> by_cases hv : v = w <;> simp [set₂, ht, hv, table]
        · simp [table, hnet, requestOf, List.countP_erase]
        · exact queued_same hqueue t v
        · simp only [table, set_shared, hnet, set₂]
          exact shipping_erase v t me w hm
      rw [heq]
      exact .deliver me w (List.countP_pos_iff.mpr ⟨_, hm, by simp [shipmentTo]⟩)
  | received w hm hpc hmarks hqueue hwaiting hnet =>
      left
      ext t v
      · exact marked_same hmarks t v
      · simp [table, hnet, requestOf, List.countP_erase]
      · exact queued_same hqueue t v
      · simp [table, hnet, shipmentTo, List.countP_erase]

theorem marked_le (s : State n) (t v : Fin n) : (table s).marked t v ≤ 1 := mark_le _ v

/-- No assertion about marks and queues fails while every contact is marked. -/
theorem no_failure (hs : ∀ t v, (table s).contacts t v ≤ (table s).marked t v)
    (hq : Queueing me (s.proc me)) (hasking : Asking (s.proc me))
    (h : ContactChange c me a (s.proc me) s.shared P' g')
    (hold : ∀ x ∈ s.shared.failures, x.lifeline = false) : ∀ x ∈ g'.failures, x.lifeline = false := by
  have hle (t v : Fin n) := (hs t v).trans (marked_le s t v)
  intro x hx
  cases h with
  | still _ _ _ _ _ _ hfs | popped _ _ _ _ _ _ _ _ hfs =>
      cases hl : x.lifeline with
      | false => rfl
      | true =>
          rw [hold x (hfs x hx hl)] at hl
          cases hl
  | request i k w hpc hpc' hmarks hqueue hwaiting hnet hfs =>
      rcases hfs x hx with hx | ⟨-, hmark⟩ | rfl
      · exact hold x hx
      · rw [hasking.fresh w (by rw [hpc]; rfl)] at hmark
        cases hmark
      · rfl
  | arrived u ha hm hpc hmarks hqueue hwaiting hnet hfs =>
      rcases hfs x hx with hx | ⟨-, hfull⟩
      · exact hold x hx
      · rw [not_full hle hq] at hfull
        cases hfull
  | shipped w tasks hm hpc hmarks hqueue hwaiting hnet hfs =>
      rcases hfs x hx with hx | rfl | ⟨-, hmark⟩
      · exact hold x hx
      · rfl
      · have hpos : 0 < s.shared.net.countP (shipmentTo w me) :=
          List.countP_pos_iff.mpr ⟨_, hm, by simp [shipmentTo]⟩
        have hlocated := hs me w
        simp only [Table.contacts, table, mark, hmark, reduceCtorEq, if_false] at hlocated
        omega
  | received w hm hpc hmarks hqueue hwaiting hnet hfs => exact hold x (hfs ▸ hx)

theorem table_init : (table (job c).init).Exact ∧ (table (job c).init).Safe := by
  constructor <;> constructor <;> intro t v <;>
    simp [table, Table.contacts, job, Place.init, Shared.init, mark, queuedAt]

theorem exact_reachable (hcancel : c.cancelCyclicSteals = false) {ok} (hs : ReachableWhen (job c) ok s) :
    (table s).Exact ∧ ∀ x ∈ s.shared.failures, x.lifeline = false := by
  refine hs.invariant (I := fun s => (table s).Exact ∧ ∀ x ∈ s.shared.failures, x.lifeline = false)
    ⟨table_init.1, fun x hx => by cases hx⟩ ?_
  intro s me a P g hs _ hI ha
  obtain ⟨hexact, hold⟩ := hI
  obtain ⟨hqueueing, hnet⟩ := queueing_reachable hs
  have hchange := act_contact ha (hqueueing me)
  have hasking := asking_reachable hs me
  refine ⟨?_, no_failure (fun t v => (hexact.located t v).ge) (hqueueing me) hasking hchange hold⟩
  have hcross : uncrossed c s me a = true := by
    unfold uncrossed
    split <;> simp [hcancel]
  rcases table_step hexact.contacts_le (hqueueing me) hnet hasking hchange hcross with hsame | hmove
  · rw [hsame]
    exact hexact
  · rw [hcancel] at hmove
    exact exact_move hmove hexact

/-- The asynchronous protocol in every state. A victim is marked as contacted
exactly when there is one contact with it: a request on its way, a place in its
queue or a shipment on its way back. Queues have no repetitions and room for
every request, and a place awaits a receipt exactly when it or its request is
on its way. -/
structure LifelineInv (s : State n) : Prop where
  queued : ∀ t v, (s.proc t).contactedVictims v = .queued ↔ (table s).contacts t v = 1
  popped : ∀ t v, (s.proc t).contactedVictims v = .popped ↔ (table s).contacts t v = 0
  nodup : ∀ v, (thieves (s.proc v).thiefQueue).Nodup
  room : ∀ v, (thieves (s.proc v).thiefQueue).length + 1 ≤ n
  notFull : ∀ v, fullThiefQueue (s.proc v).thiefQueue = false
  thievesWaiting : ∀ v, (s.proc v).thiefQueue.thievesWaiting = true ↔ thieves (s.proc v).thiefQueue ≠ []
  assertions : ∀ x ∈ s.shared.failures, x.lifeline = false
  awaited : ∀ t, (s.proc t).waitingForReturnAsync.toNat = s.shared.net.countP (awaitedBy t)

theorem lifelineInv_reachable (hcancel : c.cancelCyclicSteals = false) (hs : Reachable (job c) s) :
    LifelineInv s := by
  obtain ⟨hexact, hfailures⟩ := exact_reachable hcancel hs
  have hqueueing := (queueing_reachable hs).1
  have hmark (t v : Fin n) : (if (s.proc t).contactedVictims v = .queued then 1 else 0) =
      (table s).contacts t v := hexact.located t v
  refine ⟨?_, ?_, nodup_thieves hexact.contacts_le, fun v => thieves_lt hexact.contacts_le (hqueueing v),
    fun v => not_full hexact.contacts_le (hqueueing v), fun v => waiting_iff (hqueueing v).sound, hfailures,
    waiting_reachable hs⟩
  · intro t v
    rw [← hmark]
    split <;> simp_all
  · intro t v
    rw [← hmark]
    cases (s.proc t).contactedVictims v <;> simp

def requested : List (Fin 2 × Act 2) :=
  throughBarrier ++ (List.range 4).map (fun t => (0, .work (.asyncAny t))) ++ throughBarrier ++
    comms 0 7 ++ [(1, .idle 1)] ++ comms 1 8 ++ comms 0 2 ++ [(0, .deliver (.stealRequest 1 0))]

set_option maxRecDepth 10000 in
theorem lifelineInv_requested :
    (((job (twoPlaces .successOnly false)).after requested).proc 1).contactedVictims 0 = .queued ∧
      LifelineInv ((job (twoPlaces .successOnly false)).after requested) :=
  ⟨by decide, lifelineInv_reachable rfl (after_reachable _ requested)⟩

end HabaneroUpc.Lifeline
