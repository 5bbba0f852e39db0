import HabaneroUpc.Advertising
import HabaneroUpc.Draining
import HabaneroUpc.Migration
import HabaneroUpc.Termination

namespace HabaneroUpc.Quiescence

open Interleaving InFlight Draining Termination Advertising

variable {n : Nat}

def past : PC n → Bool
  | .spmd .startBarrier | .spmd .startWait | .spmd .lambda => false
  | _ => true

def Unburdened : PC n → Prop
  | .exec .pop => True
  | .exec _ => False
  | .ship (.steal _ tasks) => tasks = []
  | .ship (.inc _ _) | .ship (.ship _ _) => False
  | _ => True

structure Resting (c : Config n) (me : Fin n) (P : Place n) : Prop where
  idle : Idle P
  hands : Unburdened P.pc
  returned : Returned P
  region : past P.pc = true
  workers : c.distWS = true → c.idleWorkersThreshold me < P.idleWorkers

def Control (g : Shared n) : Prop := ∀ m ∈ g.net, ∃ p q, m = .stealRequest p q ∨ m = .receipt p q

structure Rest (c : Config n) (s : State n) : Prop where
  places : ∀ p, Resting c p (s.proc p)
  messages : Control s.shared

/-- What is assumed of the steps: the workers stay idle, and the next region
does not begin. -/
def Stays (c : Config n) (s : State n) (p : Fin n) (a : Act n) : Prop :=
  (∀ workers, a = .idle workers → c.distWS = true → c.idleWorkersThreshold p < workers) ∧
    (s.proc p).pc ≠ .spmd .outside

/-- No place has a pending local async, no task message or async_copy is
outstanding, all in-flight counters are 0 and all workers are idle. A task that
has been stolen and not yet shipped counts as a message. -/
structure Calm (c : Config n) (s : State n) : Prop where
  inside : ∀ p, finishBarrierTask (s.proc p).pc = 1
  locals : ∀ p, (s.proc p).totalPendingLocalAsyncs = 0
  inHand : ∀ p, Migration.batch (s.proc p).pc = []
  messages : Control s.shared
  counters : ∀ i, s.shared.asyncsInFlight i = 0
  workers : ∀ p, c.distWS = true → c.idleWorkersThreshold p < (s.proc p).idleWorkers

/-- The history of a run from a calm state: the places whose published load has
overtaken out_of_work, those that have run the load-advertising part of their
loop, and those that had already found work when the last of them did so and
have not yet gone on. -/
structure Watch (n : Nat) where
  overtaken : Finset (Fin n)
  advertised : Finset (Fin n)
  leaving : Finset (Fin n)

def advertises (c : Config n) (pc : PC n) : Act n → Bool
  | .comm _ => match pc with
    | .publish (.write _) => !c.distWS
    | .idle .mark => c.distWS
    | _ => false
  | _ => false

def watch (c : Config n) (s : State n) (p : Fin n) (a : Act n) (s' : State n) (w : Watch n) :
    Watch n where
  overtaken := overtaken s p a s' w.overtaken
  advertised := if advertises c (s.proc p).pc a then insert p w.advertised else w.advertised
  leaving := (if w.advertised = Finset.univ then w.leaving else Finset.univ).filter fun q =>
    (s'.proc q).pc = .cbarrier .dec

/-- The early return of mark_myPlace_asIdle leaves no published load, and no
place that has advertised itself as idle takes an invalidated request for a
successful steal. -/
def Spared (s : State n) (p : Fin n) (a : Act n) (w : Watch n) : Prop :=
  ∀ ch, a = .comm ch →
    ((s.proc p).pc = .idle .mark → (s.proc p).outOfWork = true → p ∉ w.overtaken) ∧
      ((s.proc p).pc = .steal .received → p ∉ w.advertised)

abbrev Watched (c : Config n) (ok : State n → Fin n → Act n → Watch n → Prop) (s₀ : State n)
    (st₀ : Finset (Fin n)) : State n → Watch n → Prop :=
  Traced (job c) (fun s p a w => Stays c s p a ∧ ok s p a w) (watch c) s₀ ⟨st₀, ∅, ∅⟩

variable {c : Config n} {me : Fin n} {ch : Choice n} {P P' : Place n} {g g' : Shared n} {s : State n}
  {ok : State n → Fin n → Act n → Watch n → Prop} {s₀ : State n} {st₀ : Finset (Fin n)}
    {w : Watch n}

theorem unburdened_emptyHanded {pc : PC n} (h : EmptyHanded pc) : Unburdened pc := by
  unfold Unburdened
  split
  · trivial
  · unfold EmptyHanded at h
    split at h <;> simp_all
  · exact h
  · exact h
  · exact h
  · trivial

theorem Control.travelling (h : Control g) (i : Fin n) : travelling i g.net = 0 := by
  rw [InFlight.travelling]
  apply List.sum_eq_zero
  intro k hk
  obtain ⟨m, hm, rfl⟩ := List.mem_map.mp hk
  obtain ⟨p, q, rfl | rfl⟩ := h m hm <;> rfl

theorem Control.erase (h : Control g) {fs : List Assertion} (m : Msg n) :
    Control { g with net := g.net.erase m, failures := fs } :=
  fun m' hm => h m' (List.mem_of_mem_erase hm)

theorem Control.send (h : Control g) {m : Msg n}
    (hm : ∃ p q, m = .stealRequest p q ∨ m = .receipt p q) :
    Control (g.send m) := by
  intro m' hm'
  rcases List.mem_cons.mp hm' with rfl | hm'
  · exact hm
  · exact h m' hm'

theorem past_step (h : commStep c me ch P g = some (P', g')) (hpast : past P.pc = true)
    (hout : P.pc ≠ .spmd .outside) : past P'.pc = true := by
  have hf := commStep_follows h
  cases hpc : P.pc with
  | spmd l =>
      simp only [commStep, hpc] at h
      rw [hpc] at hpast hout
      cases l with
      | outside => exact absurd rfl hout
      | startBarrier | startWait | lambda => cases hpast
      | loopBarrier | endBarrier | loopWait | endWait | endFinish =>
          simp only [finishSpmd, leaveBarrier] at h
          repeat' split at h
          all_goals cases h
          all_goals rfl
  | loop l =>
      simp only [commStep, hpc] at h
      cases l <;> simp only [finishLoop, feedRemoteThieves] at h <;> (repeat' split at h) <;>
        cases h <;> rfl
  | cbarrier l =>
      simp only [commStep, hpc] at h
      cases l <;> simp only [cbarrier] at h <;> (repeat' split at h) <;> cases h <;> rfl
  | _ =>
      rw [hpc] at hf
      cases hpc' : P'.pc with
      | spmd l =>
          rw [hpc'] at hf
          cases hf
      | _ => rfl

theorem comm_workers (h : commStep c me ch P g = some (P', g')) :
    P'.idleWorkers = P.idleWorkers := by
  cases hl : P.pc with
  | spmd l =>
      simp only [commStep, hl] at h
      cases l <;> simp only [finishSpmd, leaveBarrier] at h <;> (repeat' split at h) <;> cases h <;>
        rfl
  | exec l =>
      simp only [commStep, hl] at h
      cases l <;> simp only [popExecuteCommTask] at h <;> (repeat' split at h) <;> cases h <;> rfl
  | publish l =>
      simp only [commStep, hl] at h
      cases l <;> cases h <;> rfl
  | loop l =>
      simp only [commStep, hl] at h
      cases l <;> simp only [finishLoop, feedRemoteThieves] at h <;> (repeat' split at h) <;>
        cases h <;> rfl
  | drain l =>
      simp only [commStep, hl] at h
      cases l <;> simp only [decrementTasksInFlightCount] at h <;> (repeat' split at h) <;>
        cases h <;> rfl
  | cbarrier l =>
      simp only [commStep, hl] at h
      cases l <;> simp only [cbarrier] at h <;> (repeat' split at h) <;> cases h <;> rfl
  | serve l =>
      simp only [commStep, hl] at h
      cases l <;> simp only [serve] at h <;> (repeat' split at h) <;> cases h <;> rfl
  | ship l =>
      simp only [commStep, hl] at h
      cases l with
      | ship requestor tasks =>
          cases requestor with
          | none =>
              obtain ⟨thief, q, hq⟩ : ∃ thief q, ThiefQueue.popThief P.thiefQueue = (thief, q) :=
                ⟨_, _, rfl⟩
              simp only [shipAsyncAny, hq] at h
              split at h <;> cases h <;> rfl
          | some thief =>
              cases h
              rfl
      | steal | inc | reopen | advance =>
          simp only [shipAsyncAny] at h
          repeat' split at h
          all_goals cases h
          all_goals rfl
  | idle l =>
      simp only [commStep, hl] at h
      cases l <;> simp only [markMyPlaceAsIdle] at h <;> (repeat' split at h) <;> cases h <;> rfl
  | steal l =>
      simp only [commStep, hl] at h
      cases l with
      | unlock i v success => cases success <;> cases h <;> rfl
      | _ =>
          simp only [searchTasksGloballySynchronous] at h
          repeat' split at h
          all_goals cases h
          all_goals rfl
  | lifeline l =>
      simp only [commStep, hl] at h
      cases l with
      | send i k v =>
          simp only [searchForLifelines] at h
          rw [markVictimContacted_eq] at h
          cases h
          rfl
      | loop | probe | wait =>
          simp only [searchForLifelines] at h
          repeat' split at h
          all_goals cases h
          all_goals rfl

/-- Where nothing is left, a step leaves nothing. -/
theorem resting_step {a : Act n} {r : Place n × Shared n} (h : Step c me P g a r)
    (hworkers : ∀ workers,
      a = .idle workers → c.distWS = true → c.idleWorkersThreshold me < workers)
    (hout : P.pc ≠ .spmd .outside) (hP : Resting c me P) (hg : Control g) :
    Resting c me r.1 ∧ Control r.2 := by
  have hreturned := returned_step h hg.travelling hP.returned
  have hrunning : taskRunning P = false := by
    have hlambda : P.pc ≠ .spmd .lambda := fun h => by
      have hpast := hP.region
      rw [h] at hpast
      cases hpast
    simp [taskRunning, hP.idle.1, hlambda]
  have hhands := hP.hands
  have hmessage {m : Msg n} (hm : m ∈ g.net)
    (hne : ∀ p q, m ≠ .stealRequest p q ∧ m ≠ .receipt p q) :
      False := by
    obtain ⟨p, q, h | h⟩ := hg m hm
    · exact (hne p q).1 h
    · exact (hne p q).2 h
  cases h with
  | control h hc =>
      refine ⟨⟨?_, unburdened_emptyHanded hc.pc', hreturned, past_step h hP.region hout, ?_⟩, ?_⟩
      · simpa only [Idle, hc.asyncs, hc.asyncAnys, hc.sending, hc.deque] using hP.idle
      · rw [comm_workers h]
        exact hP.workers
      · rw [Control, hc.net]
        exact hg
  | idle workers => exact ⟨⟨hP.idle, hP.hands, hreturned, hP.region, hworkers workers rfl⟩, hg⟩
  | pop hpc hdeque =>
      rw [hP.idle.2.2.2] at hdeque
      cases hdeque
  | returnOrigin hpc => exact ⟨⟨hP.idle, trivial, hreturned, rfl, hP.workers⟩, hg⟩
  | inc hpc | exec hpc | ended hpc | shipInc hpc | shipQueued hpc | shipNowhere hpc
  | shipSlot hpc =>
      rw [hpc] at hhands
      exact hhands.elim
  | popOrigin hpc hreceived =>
      rw [hP.returned.received] at hreceived
      cases hreceived
  | steal hpc hlen ht =>
      rw [hP.idle.2.1] at ht
      cases ht
  | stolen hpc hne =>
      rw [hpc] at hhands
      exact absurd hhands hne
  | request hpc =>
      exact ⟨⟨hP.idle, trivial, hreturned, rfl, hP.workers⟩, Control.send hg ⟨_, _, .inl rfl⟩⟩
  | @decrement source rest hframes =>
      have hf := hP.returned.frames source
      simp [hframes] at hf
  | clearWait hframes => exact ⟨⟨hP.idle, hP.hands, hreturned, hP.region, hP.workers⟩, hg⟩
  | asyncAt hm | asyncCopy hm | shipmentSlot hm | shipmentQueued hm =>
      exact (hmessage hm (by simp)).elim
  | stealRequest hm =>
      exact ⟨⟨hP.idle, hP.hands, hreturned, hP.region, hP.workers⟩,
        (hg.erase _).send ⟨_, _, .inr rfl⟩⟩
  | receipt hm => exact ⟨⟨hP.idle, hP.hands, hreturned, hP.region, hP.workers⟩, hg.erase _⟩
  | async hrun | asyncAny hrun | send hrun =>
      rw [hrunning] at hrun
      cases hrun
  | push hsending =>
      rw [hP.idle.2.2.1] at hsending
      cases hsending
  | finish hasyncs => exact absurd hP.idle.1 (by omega)
  | runAny ht =>
      rw [hP.idle.2.1] at ht
      cases ht

theorem rest_calm (hs : Reachable (job c) s) (hcalm : Calm c s) : Rest c s := by
  have haccounted := accounted_reachable hs
  refine ⟨fun p => ?_, hcalm.messages⟩
  have hinside := hcalm.inside p
  obtain ⟨hidle, hexecuting⟩ : Idle (s.proc p) ∧ executing (s.proc p).pc = 0 := by
    have hlocal := hcalm.locals p
    have hfinish := haccounted.finish p
    simp only [Place.totalPendingLocalAsyncs] at hlocal
    rw [hinside] at hfinish
    refine ⟨⟨by omega, ?_, ?_, ?_⟩, by omega⟩ <;> apply List.length_eq_zero_iff.mp <;> omega
  have hheld (i : Fin n) : (∑ d, (s.proc d).receivedTasksOrigin i) = 0 ∧
      (∑ d, returning i (s.proc d).pc) = 0 ∧
        (∑ d, (s.proc d).frames.countP (· = .decrement i)) = 0 := by
    have hflight := haccounted.inFlight i
    rw [hcalm.counters i] at hflight
    omega
  have hzero {f : Fin n → Nat} (hf : ∑ d, f d = 0) : f p = 0 :=
    (Finset.sum_eq_zero_iff.mp hf) p (Finset.mem_univ p)
  refine ⟨hidle, ?_, ⟨?_, fun i => hzero (hheld i).2.1, fun i => hzero (hheld i).2.2⟩, ?_,
    hcalm.workers p⟩
  · have hloaded := Migration.loaded_reachable hs p
    have hbatch := hcalm.inHand p
    unfold Unburdened
    split
    · trivial
    · rename_i l hne hpc
      rw [hpc] at hexecuting
      cases l with
      | pop => exact hne rfl
      | inc | exec | dec => cases hexecuting
    · rename_i hpc
      rw [hpc] at hbatch
      exact hbatch
    · rename_i hpc
      rw [hpc] at hbatch hloaded
      exact hloaded.1 hbatch
    · rename_i hpc
      rw [hpc] at hbatch hloaded
      exact hloaded.1 hbatch
    · trivial
  · rw [haccounted.received p, Nat.cast_eq_zero]
    exact Finset.sum_eq_zero fun i _ => hzero (hheld i).1
  · unfold past
    split
    all_goals first | rfl | (rename_i hpc; rw [hpc] at hinside; cases hinside)

theorem rest_step {a : Act n} (hstays : Stays c s me a) (hrest : Rest c s)
    (ha : act c me a (s.proc me) s.shared = some (P', g')) : Rest c (s.set me (P', g')) := by
  obtain ⟨hP, hg⟩ := resting_step (act_step ha) hstays.1 hstays.2 (hrest.places me) hrest.messages
  exact ⟨forall_set (Q := Resting c) hP fun q _ => hrest.places q, hg⟩

theorem rest_watched (hs₀ : Reachable (job c) s₀) (hcalm : Calm c s₀)
    (hw : Watched c ok s₀ st₀ s w) :
    Rest c s := by
  refine hw.invariant (I := fun s _ => Rest c s) hs₀ (rest_calm hs₀ hcalm) ?_
  intro s p a P g w hs hok hrest ha
  exact rest_step hok.1 hrest ha

theorem published_watched (hp₀ : Published c s₀ st₀) (hw : Watched c ok s₀ st₀ s w) :
    Published c s w.overtaken := by
  induction hw with
  | init => exact hp₀
  | next _ _ hn ih => exact .next ih trivial hn

def Retired (pc : PC n) : Prop := serving pc = false ∧ pc ≠ .steal .reopen

theorem retired_search (c : Config n) (me : Fin n) (P : Place n) :
    Retired (searchTasksGlobally c me P) := by
  rcases searchTasksGlobally_cases c me P with ⟨h, -⟩ | ⟨h, -⟩ <;> rw [h] <;> exact ⟨rfl, by simp⟩

theorem retired_failed (c : Config n) (me : Fin n) (attempts : Nat) :
    Retired (searchFailed c me attempts) := by
  rcases searchFailed_cases c me attempts with h | ⟨h, -⟩ <;> rw [h] <;> exact ⟨rfl, by simp⟩

theorem retired_nextVictim (c : Config n) (me : Fin n) (attempts i : Nat) :
    Retired (nextVictim c me attempts i) := by
  rcases nextVictim_cases c me attempts i with h | h <;> rw [h]
  · exact retired_failed c me attempts
  · exact ⟨rfl, by simp⟩

theorem retired_idle {l : IdlePc n} (h : markMyPlaceAsIdle c me P g l = some (P', g')) :
    Retired P'.pc ∧ (P.outOfWork = true ∨ l = .mark → P'.outOfWork = true) := by
  have hsearch := retired_search c me P
  cases l with
  | mark =>
      simp only [markMyPlaceAsIdle] at h
      split at h <;> cases h
      · exact ⟨hsearch, fun _ => ‹P.outOfWork = true›⟩
      · refine ⟨?_, fun _ => rfl⟩
        dsimp only
        split
        · exact ⟨rfl, by simp⟩
        · exact hsearch
  | lock =>
      simp only [markMyPlaceAsIdle] at h
      split at h <;> cases h
      exact ⟨⟨rfl, by simp [Place.goto]⟩, by simp [Place.goto]⟩
  | read | write =>
      cases h
      exact ⟨⟨rfl, by simp [Place.goto]⟩, by simp [Place.goto]⟩
  | unlock r =>
      cases r with
      | unavailable | available =>
          cases h
          exact ⟨hsearch, by simp [Place.goto]⟩
      | thief =>
          cases h
          exact ⟨⟨rfl, by simp [Place.goto]⟩, by simp [Place.goto]⟩
  | invalidate =>
      cases h
      exact ⟨hsearch, by simp [Place.goto]⟩

theorem retired_steal {l : StealPc n}
    (h : searchTasksGloballySynchronous c me ch P g l = some (P', g'))
    (hreopen : l ≠ .reopen) (hreceived : l ≠ .received) :
    Retired P'.pc ∧ P'.outOfWork = P.outOfWork := by
  have hfailed := retired_failed c me P.currentGlbMaxRandAttempts
  have hnext := retired_nextVictim c me
  cases l with
  | received => exact absurd rfl hreceived
  | reopen => exact absurd rfl hreopen
  | unlock i v success =>
      cases success with
      | true =>
          cases h
          exact ⟨⟨rfl, by simp [Place.goto]⟩, rfl⟩
      | false =>
          cases h
          exact ⟨hnext _ i, rfl⟩
  | loop | probe | lock | test | flag | register | wait =>
      simp only [searchTasksGloballySynchronous] at h
      repeat' split at h
      all_goals cases h
      all_goals
        refine ⟨?_, rfl⟩
        first | exact hfailed | exact hnext _ _ | exact ⟨rfl, by simp [Place.goto]⟩

theorem retired_lifeline {l : LifelinePc n} (h : searchForLifelines c me ch P g l = some (P', g')) :
    Retired P'.pc ∧ P'.outOfWork = P.outOfWork := by
  cases l with
  | send i k v =>
      simp only [searchForLifelines] at h
      rw [markVictimContacted_eq] at h
      cases h
      exact ⟨⟨rfl, by simp⟩, rfl⟩
  | loop | probe | wait =>
      simp only [searchForLifelines] at h
      repeat' split at h
      all_goals cases h
      all_goals exact ⟨⟨rfl, by simp [Place.goto]⟩, rfl⟩

/-- With DIST_WS a place with idle workers goes on searching, and resets
out_of_work at the end of a steal only. -/
theorem retired_comm (hdist : c.distWS = true)
    (hworkers : c.idleWorkersThreshold me < P.idleWorkers)
    (h : commStep c me ch P g = some (P', g')) (hpc : Retired P.pc)
    (hreceived : P.pc ≠ .steal .received) :
    Retired P'.pc ∧ (P.outOfWork = true ∨ P.pc = .idle .mark → P'.outOfWork = true) := by
  have hkept (hpc' : Retired P'.pc) (hmark : P.pc ≠ .idle .mark)
    (hout : P'.outOfWork = P.outOfWork) :
      Retired P'.pc ∧ (P.outOfWork = true ∨ P.pc = .idle .mark → P'.outOfWork = true) := by
    refine ⟨hpc', ?_⟩
    rintro (h | h)
    · rw [hout, h]
    · exact absurd h hmark
  rw [commStep] at h
  cases hl : P.pc with
  | publish | serve | ship =>
      rw [hl] at hpc
      cases hpc.1
  | idle l =>
      rw [hl] at h
      have hidle := retired_idle h
      simpa only [PC.idle.injEq] using hidle
  | steal l =>
      rw [hl] at h hpc hreceived
      obtain ⟨hpc', hout⟩ :=
        retired_steal h (fun hl => hpc.2 (hl ▸ rfl)) fun hl => hreceived (hl ▸ rfl)
      exact hl ▸ hkept hpc' (by simp [hl]) hout
  | lifeline l =>
      rw [hl] at h
      obtain ⟨hpc', hout⟩ := retired_lifeline h
      exact hl ▸ hkept hpc' (by simp [hl]) hout
  | loop l =>
      rw [← hl]
      rw [hl] at h
      cases l with
      | branch =>
          simp only [finishLoop, if_pos hworkers] at h
          cases h
          exact hkept ⟨rfl, by simp [Place.goto]⟩ (by simp [hl]) rfl
      | advance | checkIncoming | test | scan =>
          simp only [finishLoop] at h
          repeat' split at h
          all_goals cases h
          all_goals exact hkept ⟨rfl, by simp [Place.goto]⟩ (by simp [hl]) rfl
  | spmd l =>
      rw [← hl]
      rw [hl] at h
      cases l <;> simp only [finishSpmd, leaveBarrier] at h <;> (repeat' split at h) <;> cases h <;>
        exact hkept ⟨rfl, by simp [Place.goto]⟩ (by simp [hl]) rfl
  | exec l =>
      rw [← hl]
      rw [hl] at h
      cases l <;> simp only [popExecuteCommTask, hdist, if_true] at h <;> (repeat' split at h) <;>
        cases h <;>
        exact hkept ⟨rfl, by simp [Place.goto]⟩ (by simp [hl]) rfl
  | drain l =>
      rw [← hl]
      rw [hl] at h
      cases l <;> simp only [decrementTasksInFlightCount] at h <;> (repeat' split at h) <;>
        cases h <;>
        exact hkept ⟨rfl, by simp [Place.goto]⟩ (by simp [hl]) rfl
  | cbarrier l =>
      rw [← hl]
      rw [hl] at h
      cases l <;> simp only [cbarrier] at h <;> (repeat' split at h) <;> cases h <;>
        exact hkept ⟨rfl, by simp [Place.goto]⟩ (by simp [hl]) rfl

theorem rest_other {a : Act n} {r : Place n × Shared n} (h : Step c me P g a r)
    (hcomm : ∀ ch, a ≠ .comm ch)
    (hg : Control g) : r.1.pc = P.pc ∧ r.1.outOfWork = P.outOfWork ∧ r.2.cbCount = g.cbCount := by
  have hmessage {m : Msg n} (hm : m ∈ g.net)
    (hne : ∀ p q, m ≠ .stealRequest p q ∧ m ≠ .receipt p q) :
      False := by
    obtain ⟨p, q, h | h⟩ := hg m hm
    · exact (hne p q).1 h
    · exact (hne p q).2 h
  cases h with
  | asyncAt hm | asyncCopy hm | shipmentSlot hm | shipmentQueued hm =>
      exact (hmessage hm (by simp)).elim
  | decrement | clearWait | stealRequest | receipt | async | asyncAny | send | push | finish | runAny
  | idle => exact ⟨rfl, rfl, rfl⟩
  | _ => exact absurd rfl (hcomm _)

structure Told (p : Fin n) (P : Place n) (st : Finset (Fin n)) : Prop where
  out : P.outOfWork = true
  fresh : p ∉ st
  retired : Retired P.pc

theorem told_step {a : Act n} (hdist : c.distWS = true) (hrest : Rest c s)
    (hspared : Spared s me a w) (hpublished : Published c s w.overtaken)
    (hI : ∀ p ∈ w.advertised, Told p (s.proc p) w.overtaken)
    (ha : act c me a (s.proc me) s.shared = some (P', g')) :
    ∀ p ∈ (watch c s me a (s.set me (P', g')) w).advertised,
      Told p ((s.set me (P', g')).proc p) (watch c s me a (s.set me (P', g')) w).overtaken := by
  intro p hp
  have hmember : p ∈ w.advertised ∨ p = me ∧ advertises c (s.proc me).pc a = true := by
    simp only [watch] at hp
    split at hp
    · rcases Finset.mem_insert.mp hp with rfl | hp
      · exact .inr ⟨rfl, ‹_›⟩
      · exact .inl hp
    · exact .inl hp
  simp only [watch]
  by_cases hpme : p = me
  · subst hpme
    rw [set_proc_self]
    cases a with
    | comm ch =>
        have hcomm := (act_comm ha).2
        obtain ⟨hmark, hreceived⟩ := hspared ch rfl
        -- the place is told, or at the beginning of mark_myPlace_asIdle
        have hbefore : Retired (s.proc p).pc ∧ (s.proc p).pc ≠ .steal .received ∧ p ∉ w.overtaken ∧
            ((s.proc p).outOfWork = true ∨ (s.proc p).pc = .idle .mark) := by
          rcases hmember with hp | ⟨-, hadvertises⟩
          · have htold := hI p hp
            exact ⟨htold.retired, fun h => hreceived h hp, htold.fresh, .inl htold.out⟩
          · have hpc : (s.proc p).pc = .idle .mark := by
              simp only [advertises, hdist] at hadvertises
              split at hadvertises
              · cases hadvertises
              · assumption
              · cases hadvertises
            refine ⟨by rw [hpc]; exact ⟨rfl, by simp⟩, by simp [hpc], ?_, .inr hpc⟩
            intro hover
            exact hmark hpc ((advertised_published hpublished p).overtaken hover).1 hover
        obtain ⟨hretired, hreceived, hfresh, hout⟩ := hbefore
        obtain ⟨hretired', hout'⟩ :=
          retired_comm hdist ((hrest.places p).workers hdist) hcomm hretired
          hreceived
        refine ⟨hout' hout, ?_, hretired'⟩
        intro hover
        rcases (mem_overtaken_self.mp hover).2 with hpublishes | hover
        · unfold publishes at hpublishes
          simp only at hpublishes
          split at hpublishes
          · rename_i hpc
            rw [hpc] at hretired
            cases hretired.1
          · cases hpublishes
        · exact hfresh hover
    | resume | deliver | work | idle =>
        have htold := hI p (hmember.resolve_right fun h => by cases h.2)
        obtain ⟨hpc, hout, -⟩ := rest_other (act_step ha) (fun _ h => by cases h) hrest.messages
        refine ⟨hout.trans htold.out, ?_, hpc ▸ htold.retired⟩
        intro hover
        exact htold.fresh ((mem_overtaken_self.mp hover).2.resolve_left (by simp [publishes]))
  · have htold := hI p (hmember.resolve_right fun h => hpme h.1)
    rw [set_proc_of_ne s (P', g') hpme]
    exact ⟨htold.out, fun hover => htold.fresh ((mem_overtaken_of_ne hpme).mp hover), htold.retired⟩

theorem told_watched (hdist : c.distWS = true) (hs₀ : Reachable (job c) s₀)
    (hp₀ : Published c s₀ st₀) (hcalm : Calm c s₀) (hw : Watched c Spared s₀ st₀ s w) :
    ∀ p ∈ w.advertised, Told p (s.proc p) w.overtaken := by
  induction hw with
  | init => exact fun p hp => absurd hp (Finset.notMem_empty p)
  | next hw hok hn ih =>
      obtain ⟨P', g', ha, rfl⟩ := next_eq_some.mp hn
      exact told_step hdist (rest_watched hs₀ hcalm hw) hok.2 (published_watched hp₀ hw) ih ha

def detectWork (me : Fin n) (g : Shared n) : Bool :=
  ∃ neighbor : Fin n, neighbor.val = (me.val + 1) % n ∧ notWorking ≠ g.workAvail neighbor

theorem enters_dec (h : commStep c me ch P g = some (P', g')) (hpc' : P'.pc = .cbarrier .dec) :
    P.receivedTasksFromVictim = true ∨ detectWork me g = true := by
  have hf := commStep_follows h
  cases hl : P.pc with
  | cbarrier l =>
      simp only [commStep, hl] at h
      cases l with
      | received =>
          simp only [cbarrier] at h
          cases h
          simp only [Place.goto] at hpc'
          split at hpc'
          · exact .inl ‹_›
          · cases hpc'
      | detectWork =>
          simp only [cbarrier] at h
          cases h
          simp only [Place.goto] at hpc'
          split at hpc'
          · exact .inr (decide_eq_true ⟨_, rfl, ‹_›⟩)
          · cases hpc'
      | inc | incTest | dec | advance | test =>
          simp only [cbarrier] at h
          repeat' split at h
          all_goals cases h
          all_goals cases hpc'
  | loop l =>
      simp only [commStep, hl] at h
      cases l <;> simp only [finishLoop, feedRemoteThieves] at h <;> (repeat' split at h) <;>
        cases h <;>
        cases hpc'
  | _ =>
      rw [hl, hpc'] at hf
      cases hf

theorem cb_lowered {a : Act n} {r : Place n × Shared n} (h : Step c me P g a r)
    (hlt : r.2.cbCount < g.cbCount) : P.pc = .cbarrier .dec ∨ P.pc = .spmd .outside := by
  cases h with
  | control h hc =>
      rcases hc.cbCount with hsame | ⟨l, hl⟩ | ⟨l, hl⟩
      · exact absurd hlt (by simp [hsame])
      · simp only [commStep, hl] at h
        cases l with
        | outside => exact .inr hl
        | endBarrier =>
            cases h
            rw [check_eq] at hlt
            exact absurd hlt (lt_irrefl _)
        | startBarrier | startWait | lambda | loopBarrier | loopWait | endWait | endFinish =>
            simp only [finishSpmd, leaveBarrier] at h
            repeat' split at h
            all_goals cases h
            all_goals exact absurd hlt (lt_irrefl _)
      · simp only [commStep, hl] at h
        cases l with
        | dec => exact .inl hl
        | inc =>
            cases h
            exact absurd hlt (by simp)
        | incTest | received | detectWork | advance | test =>
            simp only [cbarrier] at h
            cases h
            exact absurd hlt (lt_irrefl _)
  | @exec ch task => cases task <;> exact absurd hlt (lt_irrefl _)
  | _ => exact absurd hlt (lt_irrefl _)

structure Stable (c : Config n) (s : State n) (w : Watch n) : Prop where
  received : ∀ p, (s.proc p).receivedTasksFromVictim = false
  detectWork : ∀ p, detectWork p s.shared = false
  decided : ∀ p, (s.proc p).pc = .cbarrier .dec → p ∈ w.leaving
  counts : ∀ p a s', (job c).next s p a = some s' → Stays c s p a → p ∉ w.leaving →
    s.shared.cbCount ≤ s'.shared.cbCount

theorem calm_received (hrest : Rest c s) (p : Fin n) :
    (s.proc p).receivedTasksFromVictim = false := by
  simp [Place.receivedTasksFromVictim, (hrest.places p).returned.received]

theorem told_detectWork (hpublished : Published c s w.overtaken) (hall : w.advertised = Finset.univ)
    (htold : ∀ p ∈ w.advertised, Told p (s.proc p) w.overtaken) (p : Fin n) :
    detectWork p s.shared = false := by
  apply decide_eq_false
  rintro ⟨q, -, hwork⟩
  have hq := htold q (hall ▸ Finset.mem_univ _)
  exact hwork ((advertised_published hpublished q).current hq.out hq.fresh hq.retired.2).symm

theorem decided_watched (hdist : c.distWS = true) (hp₀ : Published c s₀ st₀) (hcalm : Calm c s₀)
    (hw : Watched c Spared s₀ st₀ s w) (hall : w.advertised = Finset.univ) (p : Fin n)
    (hpc : (s.proc p).pc = .cbarrier .dec) : p ∈ w.leaving := by
  have hs₀ : Reachable (job c) s₀ := hp₀.reachable .init
  induction hw generalizing p with
  | init =>
      have hp : p ∈ (∅ : Finset (Fin n)) := by
        dsimp only at hall
        rw [hall]
        exact Finset.mem_univ p
      exact absurd hp (Finset.notMem_empty p)
  | @next s s' q a w hw hok hn ih =>
      obtain ⟨P', g', ha, rfl⟩ := next_eq_some.mp hn
      simp only [watch, Finset.mem_filter]
      refine ⟨?_, hpc⟩
      split
      · rename_i hbefore
        apply ih hbefore p
        by_cases hpq : p = q
        · subst hpq
          rw [set_proc_self] at hpc
          rcases act_pc ha with hsame | ⟨-, ch, hcomm⟩
          · exact hsame ▸ hpc
          · have hrest := rest_watched hs₀ hcalm hw
            have htold := told_watched hdist hs₀ hp₀ hcalm hw
            rcases enters_dec hcomm hpc with h | h
            · rw [calm_received hrest p] at h
              cases h
            · rw [told_detectWork (published_watched hp₀ hw) hbefore htold p] at h
              cases h
        · rwa [set_proc_of_ne s (P', g') hpq] at hpc
      · exact Finset.mem_univ p

theorem stable_watched (hdist : c.distWS = true) (hp₀ : Published c s₀ st₀) (hcalm : Calm c s₀)
    (hw : Watched c Spared s₀ st₀ s w) (hall : w.advertised = Finset.univ) : Stable c s w := by
  have hs₀ : Reachable (job c) s₀ := hp₀.reachable .init
  have hrest := rest_watched hs₀ hcalm hw
  have htold := told_watched hdist hs₀ hp₀ hcalm hw
  have hdecided := decided_watched hdist hp₀ hcalm hw hall
  refine ⟨calm_received hrest, told_detectWork (published_watched hp₀ hw) hall htold, hdecided, ?_⟩
  intro p a s' hn hstays hleaving
  obtain ⟨P', g', ha, rfl⟩ := next_eq_some.mp hn
  by_contra hlt
  rcases cb_lowered (act_step ha) (not_le.mp hlt) with hpc | hpc
  · exact hleaving (hdecided p hpc)
  · exact hstays.2 hpc

/-- Without DIST_WS a place that has published its load counts as working, with
whatever it had to publish. -/
theorem working_watched (hmode : c.mode = .noDistWS) (hs₀ : Reachable (job c) s₀)
    (hw : Watched c ok s₀ st₀ s w) : ∀ p ∈ w.advertised, s.shared.workAvail p ≠ notWorking := by
  refine hw.invariant (I := fun s w => ∀ p ∈ w.advertised, s.shared.workAvail p ≠ notWorking) hs₀
    (fun p hp => absurd hp (Finset.notMem_empty p)) ?_
  intro s q a P' g' w hs hok hI ha p hp
  have hchange := load_change ha
  by_cases hpq : p = q
  · subst hpq
    cases hchange with
    | other hload _ hpublishes =>
        simp only [watch] at hp
        rw [set_shared, hload]
        split at hp
        · rename_i hadvertises
          unfold advertises at hadvertises
          split at hadvertises
          · split at hadvertises
            · rename_i hpc
              rw [hpc] at hpublishes
              cases hpublishes
            · simp [Config.distWS, hmode] at hadvertises
            · cases hadvertises
          · cases hadvertises
        · exact hI p hp
    | mark hpc =>
        have hallowed := allowed_reachable hs p
        rw [hpc, hmode] at hallowed
        cases hallowed
    | publish load hpc _ hload =>
        have hnonneg := published_nonneg hs p hpc
        rw [set_shared, hload]
        simp only [Shared.setWorkAvail, Function.update_self, notWorking]
        omega
    | received _ _ _ hload =>
        rw [set_shared, hload]
        simp [Shared.setWorkAvail, notWorking]
  · rw [set_shared, hchange.others hpq]
    simp only [watch] at hp
    split at hp
    · exact hI p ((Finset.mem_insert.mp hp).resolve_left hpq)
    · exact hI p hp

/-- A step that is not spared leaves a place that has advertised itself with a
load that counts as work. -/
theorem unspared_working {a : Act n} (hdist : c.distWS = true)
    (hpublished : Published c s w.overtaken)
    (ha : act c me a (s.proc me) s.shared = some (P', g')) (h : ¬Spared s me a w) :
    me ∈ (watch c s me a (s.set me (P', g')) w).advertised ∧ g'.workAvail me ≠ notWorking := by
  simp only [Spared, not_forall, not_and_or, not_not, exists_prop] at h
  obtain ⟨ch, rfl, ⟨hpc, hout, hover⟩ | ⟨hpc, hadvertised⟩⟩ := h
  · have hcomm := (act_comm ha).2
    simp only [commStep, hpc, markMyPlaceAsIdle, if_pos hout] at hcomm
    cases hcomm
    refine ⟨?_, ((advertised_published hpublished me).overtaken hover).2⟩
    simp [watch, advertises, hpc, hdist]
  · have hcomm := (act_comm ha).2
    simp only [commStep, hpc, searchTasksGloballySynchronous] at hcomm
    cases hcomm
    refine ⟨?_, by simp [Shared.setWorkAvail, notWorking]⟩
    simpa [watch, advertises, hpc] using hadvertised

/-- Quiescence is stable in the runs of the DIST_WS modes that are spared the
two wrong loads, and never without DIST_WS. -/
theorem stable_iff (hn : 2 ≤ n) (hp₀ : Published c s₀ st₀) (hcalm : Calm c s₀)
    (hw : Watched c Spared s₀ st₀ s w) (hall : w.advertised = Finset.univ) :
    Stable c s w ↔ c.mode ≠ .noDistWS := by
  constructor
  · intro hstable hmode
    have hsilent := hstable.detectWork ⟨0, by omega⟩
    refine of_decide_eq_false hsilent ⟨⟨1 % n, Nat.mod_lt _ (by omega)⟩, by simp, ?_⟩
    exact (working_watched hmode (hp₀.reachable .init) hw _ (hall ▸ Finset.mem_univ _)).symm
  · intro hmode
    exact stable_watched (by simpa [Config.distWS] using hmode) hp₀ hcalm hw hall

def spared (s : State 2) (p : Fin 2) (a : Act 2) (w : Watch 2) : Bool :=
  match a with
  | .comm _ => (s.proc p).pc ≠ .spmd .outside ∧
      ((s.proc p).pc = .idle .mark → (s.proc p).outOfWork = true → p ∉ w.overtaken) ∧
      ((s.proc p).pc = .steal .received → p ∉ w.advertised)
  | _ => false

theorem spared_meets {c : Config 2} {s : State 2} {p : Fin 2} {a : Act 2} {w : Watch 2}
    (h : spared s p a w = true) : Stays c s p a ∧ Spared s p a w := by
  cases a with
  | comm ch =>
      obtain ⟨hout, hspared⟩ := of_decide_eq_true h
      exact ⟨⟨fun _ h => (by cases h), hout⟩, fun _ _ => hspared⟩
  | resume | deliver | work | idle => cases h

instance (g : Shared n) : Decidable (Control g) := inferInstanceAs (Decidable (∀ m ∈ g.net, _))

instance (c : Config n) (s : State n) : Decidable (Calm c s) :=
  decidable_of_iff ((∀ p, finishBarrierTask (s.proc p).pc = 1) ∧
      (∀ p, (s.proc p).totalPendingLocalAsyncs = 0) ∧ (∀ p, Migration.batch (s.proc p).pc = []) ∧
      Control s.shared ∧ (∀ i, s.shared.asyncsInFlight i = 0) ∧
      ∀ p, c.distWS = true → c.idleWorkersThreshold p < (s.proc p).idleWorkers)
    ⟨fun ⟨h₁, h₂, h₃, h₄, h₅, h₆⟩ => ⟨h₁, h₂, h₃, h₄, h₅, h₆⟩,
      fun ⟨h₁, h₂, h₃, h₄, h₅, h₆⟩ => ⟨h₁, h₂, h₃, h₄, h₅, h₆⟩⟩

def workless : List (Fin 2 × Act 2) :=
    throughBarrier ++ throughBarrier ++ [(0, .idle 1), (1, .idle 1)]

def onward (mode : Mode) (acts : List (Fin 2 × Act 2)) (ends : State 2 → Watch 2 → Bool) : Bool :=
  ((job (twoPlaces mode false)).trace (fun _ _ _ _ => true) overtaken (job (twoPlaces mode false)).init
      ∅ workless).any fun r => r.2 = ∅ ∧ Calm (twoPlaces mode false) r.1 ∧
    ((job (twoPlaces mode false)).trace spared (watch (twoPlaces mode false)) r.1
      ⟨∅, ∅, ∅⟩ acts).any (fun r' => r'.2.advertised = Finset.univ ∧ ends r'.1 r'.2 = true) = true

theorem onward_watched {mode : Mode} {acts : List (Fin 2 × Act 2)} {ends : State 2 → Watch 2 → Bool}
    (h : onward mode acts ends = true) : ∃ s₀ s w, Published (twoPlaces mode false) s₀ ∅ ∧
      Calm (twoPlaces mode false) s₀ ∧ Watched (twoPlaces mode false) Spared s₀ ∅ s w ∧
      w.advertised = Finset.univ ∧ ends s w = true := by
  obtain ⟨⟨s₀, st⟩, hr, hrest⟩ := (Option.any_eq_true ..).mp h
  obtain ⟨hst, hcalm, hgoes⟩ := of_decide_eq_true hrest
  obtain ⟨⟨s, w⟩, hr', hend⟩ := (Option.any_eq_true ..).mp hgoes
  obtain ⟨hall, hends⟩ := of_decide_eq_true hend
  dsimp only at hst hcalm hr'
  subst hst
  exact ⟨s₀, s, w, (traced_of_trace hr).mono fun _ _ _ _ _ => trivial, hcalm,
    (traced_of_trace hr').mono fun _ _ _ _ h => spared_meets h, hall, hends⟩

set_option maxRecDepth 10000 in
theorem stable_workless : ∃ s₀ s w, Watched (twoPlaces .successOnly false) Spared s₀ ∅ s w ∧
    w.advertised = Finset.univ ∧ Stable (twoPlaces .successOnly false) s w := by
  obtain ⟨s₀, s, w, hp₀, hcalm, hw, hall, -⟩ :=
    onward_watched (show onward .successOnly (comms 0 5 ++ comms 1 5) (fun _ _ => true) = true by
      decide)
  exact ⟨s₀, s, w, hw, hall, (stable_iff le_rfl hp₀ hcalm hw hall).mpr (by decide)⟩

def published : List (Fin 2 × Act 2) := comms 0 13 ++ comms 1 3 ++ comms 0 4

set_option maxRecDepth 10000 in
/-- Without DIST_WS a place that has found no other at work leaves the barrier. -/
theorem quiescence_left : ∃ s₀ s s' w, Published (twoPlaces .noDistWS false) s₀ ∅ ∧
    Calm (twoPlaces .noDistWS false) s₀ ∧ Watched (twoPlaces .noDistWS false) Spared s₀ ∅ s w ∧
    w.advertised = Finset.univ ∧ w.leaving = ∅ ∧ detectWork 0 s.shared = true ∧
    (job (twoPlaces .noDistWS false)).next s 0 (.comm ⟨1, none⟩) = some s' ∧
    s'.shared.cbCount < s.shared.cbCount := by
  obtain ⟨s₀, s, w, hp₀, hcalm, hw, hall, hends⟩ :=
    onward_watched (show onward .noDistWS published (fun s w => w.leaving = ∅ ∧
      detectWork 0 s.shared = true ∧
      ((job (twoPlaces .noDistWS false)).next s 0 (.comm ⟨1, none⟩)).any (fun s' =>
        s'.shared.cbCount < s.shared.cbCount) = true) = true by decide)
  obtain ⟨hleaving, hdetect, hlowers⟩ := of_decide_eq_true hends
  obtain ⟨s', hn, hlt⟩ := (Option.any_eq_true ..).mp hlowers
  exact ⟨s₀, s, s', w, hp₀, hcalm, hw, hall, hleaving, hdetect, hn, of_decide_eq_true hlt⟩

end HabaneroUpc.Quiescence
