import HabaneroUpc.InFlight
import HabaneroUpc.Modes

namespace HabaneroUpc.Draining

open Interleaving Tally InFlight

variable {n : Nat}

def Quiet (s : State n) : Prop :=
  (∀ i, travelling i s.shared.net = 0) ∧
    ∀ p, (s.proc p).deque = [] ∧ executing (s.proc p).pc = 0 ∧ issuing (s.proc p).pc = 0

instance (s : State n) : Decidable (Quiet s) := inferInstanceAs (Decidable (_ ∧ _))

def endsAccounting : PC n → PC n → Bool
  | .loop .checkIncoming, .loop .branch | .loop .checkIncoming, .loop .test
  | .drain .loop, .loop .branch | .drain .loop, .loop .test => true
  | _, _ => false

/-- A run through quiet states, with the places that have ended the accounting
of an iteration since it began. -/
def settle (c : Config n) (s : State n) (ended : Finset (Fin n)) :
    List (Fin n × Act n) → Option (State n × Finset (Fin n))
  | [] => some (s, ended)
  | (p, a) :: rest =>
      if Quiet s then
        match (job c).next s p a with
        | none => none
        | some s' =>
            settle c s' (if endsAccounting (s.proc p).pc (s'.proc p).pc then insert p ended else ended) rest
      else none

def Accountable (c : Config n) (a : Act n) : Prop :=
  c.mode = .baseline → ∀ task, a = .work (.send task) → task.involveCommunication = false

abbrev AccountableRun (c : Config n) : State n → Prop :=
  ReachableWhen (job c) fun _ _ a => Accountable c a

structure Returned (P : Place n) : Prop where
  received : P.tasksReceived = 0
  returning : ∀ i, returning i P.pc = 0
  frames : ∀ i, P.frames.countP (· = .decrement i) = 0

variable {c : Config n} {me : Fin n} {P P' : Place n} {g g' : Shared n}

theorem travelling_pos {m : Msg n} {i : Fin n} {net : List (Msg n)} (hm : m ∈ net)
    (hi : ofSource i m = 1) : 0 < travelling i net := by
  have hle := List.single_le_sum (l := net.map (ofSource i)) (fun _ _ => Nat.zero_le _) _
    (List.mem_map_of_mem hm)
  simp only [travelling]
  omega

theorem returned_step {a : Act n} {r : Place n × Shared n} (h : Step c me P g a r)
    (hquiet : ∀ i, travelling i g.net = 0) (hP : Returned P) : Returned r.1 := by
  have hnet {m : Msg n} {i : Fin n} (hm : m ∈ g.net) (hi : ofSource i m = 1) : False := by
    have hpos := travelling_pos hm hi
    have hzero := hquiet i
    omega
  cases h with
  | control h hc =>
      refine ⟨hc.tasksReceived.trans hP.received, fun i => returning_emptyHanded hc.pc', ?_⟩
      intro i
      rw [hc.frames]
      exact hP.frames i
  | pop => refine ⟨hP.received, fun i => ?_, hP.frames⟩; dsimp only; split <;> rfl
  | popOrigin hpc hreceived =>
      rw [hP.received] at hreceived
      cases hreceived
  | @decrement source rest hframes =>
      have hf := hP.frames source
      simp [hframes] at hf
  | clearWait hframes =>
      refine ⟨hP.received, hP.returning, ?_⟩
      intro i
      have hf := hP.frames i
      simpa [hframes] using hf
  | asyncAt hm => exact (hnet hm (if_pos rfl)).elim
  | asyncCopy hm => exact (hnet hm (if_pos rfl)).elim
  | shipmentSlot hm => exact (hnet hm (if_pos rfl)).elim
  | shipmentQueued hm => exact (hnet hm (if_pos rfl)).elim
  | idle | stealRequest | receipt | async | asyncAny | send | push | finish | runAny =>
      exact ⟨hP.received, hP.returning, hP.frames⟩
  | inc | exec | ended | returnOrigin | steal | stolen | shipInc | shipQueued | shipNowhere | shipSlot
  | request => exact ⟨hP.received, fun _ => rfl, hP.frames⟩

structure Uninvolved (P : Place n) : Prop where
  sending : ∀ task ∈ P.sending, task.involveCommunication = false
  deque : ∀ task ∈ P.deque, task.involveCommunication = false
  executed : ∀ task, P.pc = .exec (.inc task) ∨ P.pc = .exec (.exec task) →
    task.involveCommunication = false
  received : P.tasksReceived = 0

def Msg.Settled : Msg n → Prop
  | .shipment _ _ _ true | .stealRequest _ _ | .receipt _ _ => True
  | _ => False

theorem settled_mono (hg : ∀ m ∈ g.net, Msg.Settled m)
    (hnet : ∀ m ∈ g'.net, m ∈ g.net ∨ Msg.Settled m) : ∀ m ∈ g'.net, Msg.Settled m :=
  fun m hm => (hnet m hm).elim (hg m) id

theorem uninvolved_step {a : Act n} {r : Place n × Shared n} (h : Step c me P g a r)
    (hmode : c.mode = .baseline) (hallowed : allowed c.mode P.pc = true)
    (hok : Accountable c a) (hcounted : Counted P) (hP : Uninvolved P)
    (hg : ∀ m ∈ g.net, Msg.Settled m) : Uninvolved r.1 ∧ ∀ m ∈ r.2.net, Msg.Settled m := by
  have hframe {P' : Place n} (hs : P'.sending = P.sending) (hd : P'.deque = P.deque)
      (hpc : ∀ task, ¬(P'.pc = .exec (.inc task) ∨ P'.pc = .exec (.exec task)))
      (hr : P'.tasksReceived = P.tasksReceived) : Uninvolved P' :=
    ⟨hs ▸ hP.sending, hd ▸ hP.deque, fun task ht => absurd ht (hpc task), hr ▸ hP.received⟩
  have herase {m : Msg n} : ∀ m' ∈ g.net.erase m, Msg.Settled m' :=
    fun m' hm => hg m' (List.mem_of_mem_erase hm)
  cases h with
  | control h hc =>
      refine ⟨hframe hc.sending hc.deque ?_ hc.tasksReceived, hc.net ▸ hg⟩
      intro task ht
      have hpc := hc.pc'
      rcases ht with ht | ht <;> rw [ht] at hpc <;> exact hpc
  | @pop ch task rest hpc hdeque =>
      have htask := hP.deque task (by simp [hdeque])
      refine ⟨⟨hP.sending, fun t ht => hP.deque t (by simp [hdeque, ht]), ?_, hP.received⟩, hg⟩
      intro t ht
      simp only [htask, Bool.false_eq_true, if_false, PC.exec.injEq, ExecPc.exec.injEq, reduceCtorEq,
        false_or] at ht
      exact ht ▸ htask
  | @inc ch task hpc =>
      have htask := hcounted.involved task hpc
      rw [hP.executed task (.inl hpc)] at htask
      cases htask
  | @exec ch task hpc =>
      have htask := hP.executed task (.inr hpc)
      refine ⟨hframe rfl rfl (by intro t; simp [Place.goto]) rfl, ?_⟩
      cases task with
      | intraPlace => exact hg
      | asyncAt | asyncAfter | asyncCopy => cases htask
  | popOrigin hpc hreceived =>
      rw [hP.received] at hreceived
      cases hreceived
  | ended | returnOrigin | steal | stolen | shipInc | shipNowhere =>
      exact ⟨hframe rfl rfl (by intro t; simp [Place.goto]) rfl, hg⟩
  | shipQueued hpc =>
      simp [hpc, hmode, allowed, Mode.serves] at hallowed
  | shipSlot hpc =>
      refine ⟨hframe rfl rfl (by intro t; simp [Place.goto]) rfl, settled_mono hg ?_⟩
      intro m hm
      rcases List.mem_cons.mp hm with rfl | hm
      · exact .inr trivial
      · exact .inl hm
  | request hpc =>
      simp [hpc, hmode, allowed] at hallowed
  | asyncAt hm => exact (hg _ hm).elim
  | asyncCopy hm => exact (hg _ hm).elim
  | shipmentQueued hm => exact (hg _ hm).elim
  | shipmentSlot | receipt => exact ⟨⟨hP.sending, hP.deque, hP.executed, hP.received⟩, herase⟩
  | stealRequest =>
      refine ⟨⟨hP.sending, hP.deque, hP.executed, hP.received⟩, settled_mono hg ?_⟩
      intro m hm
      rcases List.mem_cons.mp hm with rfl | hm
      · exact .inr trivial
      · exact .inl (List.mem_of_mem_erase hm)
  | @send task =>
      refine ⟨⟨?_, hP.deque, hP.executed, hP.received⟩, hg⟩
      intro t ht
      rcases List.mem_cons.mp ht with rfl | ht
      · exact hok hmode t rfl
      · exact hP.sending t ht
  | @push task hsending =>
      refine ⟨⟨?_, ?_, hP.executed, hP.received⟩, hg⟩
      · exact fun t ht => hP.sending t (List.mem_of_mem_erase ht)
      · intro t ht
        rcases List.mem_append.mp ht with ht | ht
        · exact hP.deque t ht
        · exact List.mem_singleton.mp ht ▸ hP.sending task hsending
  | idle | decrement | clearWait | async | asyncAny | finish | runAny =>
      exact ⟨⟨hP.sending, hP.deque, hP.executed, hP.received⟩, hg⟩

theorem uninvolved_reachable {s : State n} (hmode : c.mode = .baseline)
    (hs : AccountableRun c s) (me : Fin n) : Uninvolved (s.proc me) := by
  refine (hs.split_invariant (I := fun _ P => Uninvolved P) (J := fun g => ∀ m ∈ g.net, Msg.Settled m)
    ?_ (fun m hm => by cases hm) ?_).1 me
  · intro me
    refine ⟨?_, ?_, ?_, rfl⟩
    · exact fun t ht => absurd ht List.not_mem_nil
    · exact fun t ht => absurd ht List.not_mem_nil
    · intro t ht
      rcases ht with ht | ht <;> cases ht
  · intro s me a P g hs hok hI hJ ha
    exact uninvolved_step (act_step ha) hmode (allowed_reachable hs me) hok (counted_reachable hs me)
      (hI me) hJ

/-- When a place ends the accounting, it has returned all it had received. -/
theorem returned_of_ends {a : Act n} (h : act c me a P g = some (P', g'))
    (hends : endsAccounting P.pc P'.pc = true) (hcounted : Counted P)
    (hbaseline : c.mode = .baseline → P.tasksReceived = 0) : Returned P' := by
  have hnonneg : 0 ≤ P.tasksReceived := by
    rw [hcounted.received]
    exact Int.natCast_nonneg _
  rcases act_pc h with hpc | ⟨hframes, ch, hcomm⟩
  · rw [hpc] at hends
    unfold endsAccounting at hends
    split at hends <;> simp_all
  · have hgoto (pc : PC n) (hret : ∀ i, returning i pc = 0) (hr : P.tasksReceived = 0) :
        Returned (P.goto pc) :=
      ⟨hr, hret, fun i => by simp [Place.goto, hframes]⟩
    have hnext (i : Fin n) : returning i (if c.distWS then .loop .branch else .loop .test) = 0 := by
      split <;> rfl
    cases hl : P.pc with
    | loop l =>
        cases l with
        | checkIncoming =>
            simp only [commStep, hl, finishLoop] at hcomm
            split at hcomm <;> cases hcomm
            · rw [hl] at hends
              cases hends
            · have hnot := ‹¬(c.mode ≠ .baseline ∧ P.receivedTasksFromVictim = true)›
              apply hgoto _ hnext
              by_contra hne
              refine hnot ⟨fun hmode => hne (hbaseline hmode), ?_⟩
              simp only [Place.receivedTasksFromVictim, decide_eq_true_eq]
              omega
        | advance | branch | test | scan =>
            rw [hl] at hends
            simp [endsAccounting] at hends
    | drain l =>
        cases l with
        | loop =>
            simp only [commStep, hl, decrementTasksInFlightCount] at hcomm
            split at hcomm <;> cases hcomm
            · rw [hl] at hends
              cases hends
            · exact hgoto _ hnext (by omega)
        | dec victim tasks =>
            rw [hl] at hends
            simp [endsAccounting] at hends
    | spmd | exec | publish | cbarrier | serve | ship | idle | steal | lifeline =>
        rw [hl] at hends
        simp [endsAccounting] at hends

theorem settle_returned {acts : List (Fin n × Act n)} {s : State n} {ended : Finset (Fin n)}
    {r : State n × Finset (Fin n)} (hs : AccountableRun c s) (hacts : ∀ x ∈ acts, Accountable c x.2)
    (hsettle : settle c s ended acts = some r) (hended : ∀ p ∈ ended, Returned (s.proc p)) :
    AccountableRun c r.1 ∧ ∀ p ∈ r.2, Returned (r.1.proc p) := by
  induction acts generalizing s ended with
  | nil =>
      cases hsettle
      exact ⟨hs, hended⟩
  | cons x acts ih =>
      obtain ⟨p, a⟩ := x
      simp only [settle] at hsettle
      split at hsettle
      · have hquiet := ‹Quiet s›
        split at hsettle
        · cases hsettle
        · rename_i s' hnext
          have hok := hacts (p, a) List.mem_cons_self
          refine ih (.next hs hok hnext) (fun x hx => hacts x (List.mem_cons_of_mem _ hx)) hsettle ?_
          obtain ⟨P', g', hact, rfl⟩ := next_eq_some.mp hnext
          have hbaseline (hmode : c.mode = .baseline) := (uninvolved_reachable hmode hs p).received
          have hkept (q : Fin n) (hq : Returned (s.proc q)) : Returned ((s.set p (P', g')).proc q) := by
            by_cases hqp : q = p
            · subst hqp
              simpa using returned_step (act_step hact) hquiet.1 hq
            · rwa [set_proc_of_ne s _ hqp]
          intro q hq
          split at hq
          · rcases Finset.mem_insert.mp hq with rfl | hq
            · have hends := ‹endsAccounting _ _ = true›
              simp only [set_proc_self] at hends ⊢
              exact returned_of_ends hact hends (counted_reachable hs q) hbaseline
            · exact hkept q (hended q hq)
          · exact hkept q (hended q hq)
      · cases hsettle

/-- The counters drain in every run in which the baseline hands over no task
that involves communication. -/
theorem drained {acts : List (Fin n × Act n)} {s : State n} {r : State n × Finset (Fin n)}
    (hs : AccountableRun c s) (hacts : ∀ x ∈ acts, Accountable c x.2)
    (hsettle : settle c s ∅ acts = some r) (hall : r.2 = Finset.univ) (hquiet : Quiet r.1) :
    ∑ i, r.1.shared.asyncsInFlight i = 0 ∧
      ∀ p, (r.1.proc p).receivedTasksFromVictim = false := by
  obtain ⟨hr, hreturned⟩ := settle_returned hs hacts hsettle
    (fun p hp => absurd hp (Finset.notMem_empty p))
  have hreturned (p : Fin n) : Returned (r.1.proc p) := hreturned p (hall ▸ Finset.mem_univ p)
  constructor
  · apply Finset.sum_eq_zero
    intro i _
    have hheld (p : Fin n) : held i p (r.1.proc p) = 0 := by
      have horigin := Finset.single_le_sum (f := (r.1.proc p).receivedTasksOrigin)
        (fun _ _ => Nat.zero_le _) (Finset.mem_univ i)
      have hsum := (counted_reachable hr p).received
      rw [(hreturned p).received] at hsum
      simp only [held, (hquiet.2 p).2.2, (hreturned p).returning i, (hreturned p).frames i, ite_self]
      omega
    rw [asyncsInFlight_eq hr i, hquiet.1 i, total]
    simp [hheld]
  · intro p
    simp [Place.receivedTasksFromVictim, (hreturned p).received]

def received : List (Fin 2 × Act 2) :=
  throughBarrier ++ [(0, .work (.send (.asyncAt 1))), (0, .work (.push (.asyncAt 1)))] ++
    throughBarrier ++ comms 0 4 ++ comms 1 1 ++ [(1, .deliver (.asyncAt 0 1)), (1, .work .finish)]

def accounting : List (Fin 2 × Act 2) := comms 0 3 ++ comms 1 5

def settledIn (mode : Mode) : Option (State 2 × Finset (Fin 2)) :=
  settle (twoPlaces mode false) ((job (twoPlaces mode false)).after received) ∅ accounting

set_option maxRecDepth 10000 in
theorem drained_successOnly : ∃ r, settledIn .successOnly = some r ∧
    ∑ i, r.1.shared.asyncsInFlight i = 0 ∧ ∀ p, (r.1.proc p).receivedTasksFromVictim = false := by
  have hrun : (settledIn .successOnly).any (fun r => r.2 = Finset.univ ∧ Quiet r.1) = true := by decide
  obtain ⟨r, hr, hend⟩ := (Option.any_eq_true ..).mp hrun
  obtain ⟨hall, hquiet⟩ := of_decide_eq_true hend
  have hok (a : Act 2) : Accountable (twoPlaces .successOnly false) a := fun hmode => by cases hmode
  exact ⟨r, hr, drained ((after_reachable _ received).mono fun _ _ a _ => hok a) (fun x _ => hok x.2)
    hr hall hquiet⟩

set_option maxRecDepth 10000 in
/-- In the baseline the same asyncAt stays counted for ever. -/
theorem baseline_not_drained : ∃ s r, Reachable (job (twoPlaces .baseline false)) s ∧
    settle (twoPlaces .baseline false) s ∅ accounting = some r ∧ r.2 = Finset.univ ∧ Quiet r.1 ∧
    ∑ i, r.1.shared.asyncsInFlight i = 1 ∧ (r.1.proc 1).receivedTasksFromVictim = true := by
  have hrun : (settledIn .baseline).any (fun r => r.2 = Finset.univ ∧ Quiet r.1 ∧
      ∑ i, r.1.shared.asyncsInFlight i = 1 ∧ (r.1.proc 1).receivedTasksFromVictim = true) = true := by
    decide
  obtain ⟨r, hr, hend⟩ := (Option.any_eq_true ..).mp hrun
  exact ⟨_, r, after_reachable _ received, hr, of_decide_eq_true hend⟩

end HabaneroUpc.Draining
