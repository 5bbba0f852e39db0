import HabaneroUpc.Steps
import Mathlib.Data.Fintype.Card

namespace HabaneroUpc.Barrier

open Interleaving FullBarrier

variable {n : Nat}

/-- How many of the three calls of hupcpp::barrier in the region have been made. -/
def stage : PC n → Nat
  | .spmd .startBarrier => 0
  | .spmd .startWait | .spmd .lambda | .spmd .loopBarrier => 1
  | .spmd .endWait | .spmd .endFinish | .spmd .outside => 3
  | _ => 2

def Waiting : PC n → Prop
  | .spmd .startWait | .spmd .loopWait | .spmd .endWait => True
  | _ => False

def entered (P : Place n) : Bool :=
  match P.pc with
  | .cbarrier .inc => false
  | .cbarrier _ => true
  | .spmd .endBarrier | .spmd .endWait | .spmd .endFinish => true
  | .spmd .outside => 0 < P.regions
  | _ => false

inductive BarrierStep (me : Fin n) (P : Place n) (g : Shared n) (P' : Place n) (g' : Shared n) : Prop
  | other (hstage : stage P'.pc = stage P.pc) (hwaiting : Waiting P'.pc ↔ Waiting P.pc)
      (hentered : entered P' = entered P) (hregions : P'.regions = P.regions)
      (hend : P'.pc = .spmd .endBarrier → P.pc = .spmd .endBarrier ∨ g.cbCount = n)
      (houtside : P.pc = .spmd .outside → P'.pc = .spmd .outside)
      (hcb : g'.cbCount = g.cbCount) (harrivals : g'.arrivals = g.arrivals)
  | cbInit (hpc : P.pc = .spmd .outside) (hpc' : P'.pc = .spmd .startBarrier)
      (hregions : P'.regions = P.regions + 1) (hcb : g'.cbCount = 0)
      (harrivals : g'.arrivals = g.arrivals)
  | arrive (hstage : stage P'.pc = stage P.pc + 1) (hwaiting : ¬Waiting P.pc) (hwaiting' : Waiting P'.pc)
      (hentered : entered P' = entered P) (hregions : P'.regions = P.regions)
      (hcb : g'.cbCount = g.cbCount)
      (harrivals : g'.arrivals = Function.update g.arrivals me (g.arrivals me + 1))
  | leave (hall : ∀ q, g.arrivals me ≤ g.arrivals q) (hstage : stage P'.pc = stage P.pc)
      (hentered : entered P' = entered P) (hregions : P'.regions = P.regions)
      (hpc' : P'.pc ≠ .spmd .endBarrier) (hpc : Waiting P.pc)
      (hcb : g'.cbCount = g.cbCount) (harrivals : g'.arrivals = g.arrivals)
  | inc (hpc : P.pc = .cbarrier .inc) (hpc' : P'.pc = .cbarrier .incTest)
      (hregions : P'.regions = P.regions) (hcb : g'.cbCount = g.cbCount + 1)
      (harrivals : g'.arrivals = g.arrivals)
  | dec (hpc : P.pc = .cbarrier .dec) (hpc' : P'.pc = .exec .pop) (hlt : g.cbCount < n)
      (hregions : P'.regions = P.regions) (hcb : g'.cbCount = g.cbCount - 1)
      (harrivals : g'.arrivals = g.arrivals)
  | alone (hn : n = 1) (hstage : stage P'.pc = stage P.pc) (hwaiting : Waiting P'.pc ↔ Waiting P.pc)
      (hregions : P'.regions = P.regions) (hout : P.pc ≠ .spmd .outside)
      (harrivals : g'.arrivals = g.arrivals)

variable {c : Config n} {me : Fin n} {ch : Choice n} {P P' : Place n} {g g' : Shared n}

def Plain : PC n → Prop
  | .spmd _ | .cbarrier _ => False
  | _ => True

theorem BarrierStep.of_plain (hpc : Plain P.pc) (hpc' : Plain P'.pc) (hregions : P'.regions = P.regions)
    (hcb : g'.cbCount = g.cbCount) (harrivals : g'.arrivals = g.arrivals) :
    BarrierStep me P g P' g' := by
  have hstage (pc : PC n) (h : Plain pc) : stage pc = 2 := by cases pc <;> first | rfl | exact h.elim
  have hwaiting (pc : PC n) (h : Plain pc) : ¬Waiting pc := by
    cases pc <;> first | exact id | exact h.elim
  have hentered (P : Place n) (h : Plain P.pc) : entered P = false := by
    rw [entered]
    cases hp : P.pc <;> first | rfl | (rw [hp] at h; exact h.elim)
  refine .other ?_ ?_ ?_ hregions ?_ ?_ hcb harrivals
  · rw [hstage _ hpc, hstage _ hpc']
  · exact iff_of_false (hwaiting _ hpc') (hwaiting _ hpc)
  · rw [hentered _ hpc, hentered _ hpc']
  · intro h
    rw [h] at hpc'
    exact hpc'.elim
  · intro h
    rw [h] at hpc
    exact hpc.elim

theorem spmd_barrier {l : SpmdPc} (hpc : P.pc = .spmd l)
    (hbegun : P.pc ≠ .spmd .outside → 0 < P.regions) (h : finishSpmd me P g l = some (P', g')) :
    BarrierStep me P g P' g' := by
  cases l with
  | outside =>
      cases h
      exact .cbInit hpc rfl rfl rfl rfl
  | startBarrier | loopBarrier =>
      cases h
      refine .arrive ?_ ?_ trivial ?_ rfl rfl rfl <;> simp [hpc, stage, Waiting, entered, Place.goto]
  | endBarrier =>
      cases h
      rw [check_eq]
      refine .arrive ?_ ?_ trivial ?_ rfl rfl rfl <;> simp [hpc, stage, Waiting, entered, Place.goto]
  | startWait | loopWait | endWait =>
      simp only [finishSpmd, leaveBarrier] at h
      split at h <;> cases h
      refine .leave ‹_› ?_ ?_ rfl ?_ ?_ rfl rfl <;>
        simp [hpc, stage, Waiting, entered, Place.goto]
  | lambda =>
      cases h
      refine .other ?_ ?_ ?_ rfl ?_ ?_ rfl rfl <;> simp [hpc, stage, Waiting, entered]
  | endFinish =>
      simp only [finishSpmd] at h
      split at h <;> cases h
      refine .other ?_ ?_ ?_ rfl ?_ ?_ rfl rfl
      · simp [hpc, stage, Place.goto]
      · simp [hpc, Waiting, Place.goto]
      · have hpos := hbegun (by simp [hpc])
        simp [hpc, entered, Place.goto, hpos]
      · simp [Place.goto]
      · simp [hpc]

theorem cbarrier_barrier {l : CbarrierPc} (hpc : P.pc = .cbarrier l)
    (h : cbarrier me P g l = some (P', g')) : BarrierStep me P g P' g' := by
  cases l with
  | inc =>
      cases h
      exact .inc hpc rfl rfl rfl rfl
  | dec =>
      simp only [cbarrier] at h
      split at h <;> cases h
      · exact .dec hpc rfl ‹_› rfl rfl rfl
      · refine .other ?_ ?_ ?_ rfl ?_ ?_ rfl rfl <;> simp [hpc, stage, Waiting, entered, Place.goto]
  | incTest | test =>
      simp only [cbarrier] at h
      split at h <;> cases h
      · refine .other ?_ ?_ ?_ rfl (fun _ => .inr ‹_›) ?_ rfl rfl <;>
          simp [hpc, stage, Waiting, entered, Place.goto]
      · refine .other ?_ ?_ ?_ rfl ?_ ?_ rfl rfl <;> simp [hpc, stage, Waiting, entered, Place.goto]
  | received | detectWork =>
      simp only [cbarrier] at h
      split at h <;> cases h <;> refine .other ?_ ?_ ?_ rfl ?_ ?_ rfl rfl <;>
        simp [hpc, stage, Waiting, entered, Place.goto]
  | advance =>
      cases h
      refine .other ?_ ?_ ?_ rfl ?_ ?_ rfl rfl <;> simp [hpc, stage, Waiting, entered, Place.goto]

theorem loop_barrier {l : LoopPc} (hpc : P.pc = .loop l) (h : finishLoop c me P g l = some (P', g')) :
    BarrierStep me P g P' g' := by
  cases l with
  | scan i pendingAsyncs =>
      simp only [finishLoop] at h
      split at h
      · cases h
        exact .of_plain (hpc ▸ trivial) trivial rfl rfl rfl
      · split at h
        · split at h <;> cases h
          · refine .alone ‹_› ?_ ?_ rfl ?_ rfl <;> simp [hpc, stage, Waiting, Place.goto]
          · refine .other ?_ ?_ ?_ rfl ?_ ?_ rfl rfl <;> simp [hpc, stage, Waiting, entered, Place.goto]
        · cases h
          exact .of_plain (hpc ▸ trivial) trivial rfl rfl rfl
  | advance | checkIncoming | branch | test =>
      simp only [finishLoop, feedRemoteThieves] at h
      repeat' split at h
      all_goals cases h
      all_goals exact .of_plain (hpc ▸ trivial) trivial rfl rfl rfl

theorem plain_of_follows {pc pc' : PC n} (hpc : Plain pc) (hloop : ∀ l, pc ≠ .loop l)
    (h : follows pc pc' = true) : Plain pc' := by
  cases pc' with
  | spmd l' | cbarrier l' =>
      cases pc with
      | spmd l | cbarrier l => exact hpc.elim
      | loop l => exact absurd rfl (hloop l)
      | _ => cases h
  | _ => trivial

theorem barrier_step {a : Act n} {r : Place n × Shared n} (h : Step c me P g a r)
    (hbegun : P.pc ≠ .spmd .outside → 0 < P.regions) : BarrierStep me P g r.1 r.2 := by
  cases h with
  | control h hc =>
      cases hl : P.pc with
      | spmd l =>
          simp only [commStep, hl] at h
          exact spmd_barrier hl hbegun h
      | cbarrier l =>
          simp only [commStep, hl] at h
          exact cbarrier_barrier hl h
      | loop l =>
          simp only [commStep, hl] at h
          exact loop_barrier hl h
      | exec | publish | drain | serve | ship | idle | steal | lifeline =>
          have hplain : Plain P.pc := hl ▸ trivial
          have hplain' := plain_of_follows hplain (by simp [hl]) (commStep_follows h)
          have hphase := hc.phase.resolve_left (by simp [hl])
          have hcb := hc.cbCount.resolve_right (by simp [hl])
          exact .of_plain hplain hplain' hphase.1 hcb hphase.2
  | @exec ch task hpc =>
      refine .of_plain (hpc ▸ trivial) trivial rfl ?_ ?_ <;> cases task <;> rfl
  | pop hpc | inc hpc | ended hpc | popOrigin hpc | returnOrigin hpc | steal hpc | stolen hpc
  | shipInc hpc | shipQueued hpc | shipNowhere hpc | shipSlot hpc | request hpc =>
      exact .of_plain (hpc ▸ trivial) trivial rfl rfl rfl
  | idle | decrement | clearWait | asyncAt | asyncCopy | shipmentSlot | shipmentQueued | stealRequest
  | receipt | async | asyncAny | send | push | finish | runAny =>
      exact .other rfl Iff.rfl rfl rfl .inl id rfl rfl

structure Phased (s : State n) : Prop where
  arrived : ∀ p, s.shared.arrivals p + 3 = 3 * (s.proc p).regions + stage (s.proc p).pc
  begun : ∀ p, (s.proc p).pc ≠ .spmd .outside → 0 < (s.proc p).regions
  synced : Synced s.shared.arrivals fun p => Waiting (s.proc p).pc

theorem phased_init : Phased (job c).init := by
  refine ⟨fun _ => rfl, fun p hp => absurd rfl hp, synced_init _⟩

theorem arrived_step {arrivals : Fin n → Nat} {k : Nat} {s : State n} (hs : Phased s)
    (hself : k + 3 = 3 * P'.regions + stage P'.pc)
    (harrivals : arrivals = Function.update s.shared.arrivals me k) (q : Fin n) :
    arrivals q + 3 = 3 * ((s.set me (P', g')).proc q).regions +
      stage ((s.set me (P', g')).proc q).pc := by
  subst harrivals
  refine forall_set (Q := fun q (P : Place n) => Function.update s.shared.arrivals me k q + 3 =
    3 * P.regions + stage P.pc) ?_ ?_ q
  · simpa using hself
  · intro j hj
    rw [Function.update_of_ne hj]
    exact hs.arrived j

theorem begun_step {s : State n} (hs : Phased s) (hself : P'.pc ≠ .spmd .outside → 0 < P'.regions)
    (q : Fin n) :
    ((s.set me (P', g')).proc q).pc ≠ .spmd .outside → 0 < ((s.set me (P', g')).proc q).regions :=
  forall_set (Q := fun _ (P : Place n) => P.pc ≠ .spmd .outside → 0 < P.regions) hself
    (fun j _ => hs.begun j) q

theorem Phased.still {s : State n} (hs : Phased s) (harrivals : g'.arrivals = s.shared.arrivals)
    (hself : 3 * P'.regions + stage P'.pc = 3 * (s.proc me).regions + stage (s.proc me).pc)
    (hbegun : P'.pc ≠ .spmd .outside → 0 < P'.regions)
    (hwaiting : Waiting P'.pc ↔ Waiting (s.proc me).pc) : Phased (s.set me (P', g')) := by
  have hsame := (Function.update_eq_self me s.shared.arrivals).symm
  refine ⟨arrived_step hs ?_ (harrivals.trans hsame), begun_step hs hbegun, ?_⟩
  · rw [hself]
    exact hs.arrived me
  · rw [set_shared, harrivals]
    apply hs.synced.congr
    intro j
    by_cases hj : j = me
    · subst hj
      simpa using hwaiting
    · rw [set_proc_of_ne s _ hj]

theorem phased_step {s : State n} (hs : Phased s) (h : BarrierStep me (s.proc me) s.shared P' g') :
    Phased (s.set me (P', g')) := by
  have hme := hs.arrived me
  have hothers (j : Fin n) (hj : j ≠ me) :
      Waiting ((s.set me (P', g')).proc j).pc ↔ Waiting (s.proc j).pc := by
    rw [set_proc_of_ne s _ hj]
  cases h with
  | other hstage hwaiting hentered hregions hend houtside hcb harrivals =>
      apply hs.still harrivals (by rw [hregions, hstage]) ?_ hwaiting
      intro hpc'
      rw [hregions]
      exact hs.begun me fun hpc => hpc' (houtside hpc)
  | cbInit hpc hpc' hregions hcb harrivals =>
      apply hs.still harrivals ?_ (fun _ => by omega) (by simp [hpc, hpc', Waiting])
      rw [hregions, hpc', hpc]
      simp only [stage]
      omega
  | arrive hstage hwaiting hwaiting' hentered hregions hcb harrivals =>
      refine ⟨arrived_step hs ?_ harrivals, begun_step hs ?_, ?_⟩
      · rw [hregions, hstage]
        omega
      · intro _
        rw [hregions]
        apply hs.begun me
        intro hpc
        have hle : stage P'.pc ≤ 3 := by
          unfold stage
          split <;> omega
        rw [hstage, hpc] at hle
        simp [stage] at hle
      · rw [set_shared, harrivals]
        exact hs.synced.arrive hwaiting (by simpa using hwaiting') hothers
  | leave hall hstage hentered hregions hpc' hpc hcb harrivals =>
      have hsame := (Function.update_eq_self me s.shared.arrivals).symm
      refine ⟨arrived_step hs ?_ (harrivals.trans hsame), begun_step hs ?_, ?_⟩
      · rw [hregions, hstage]
        exact hme
      · intro _
        rw [hregions]
        apply hs.begun me
        intro hout
        rw [hout] at hpc
        exact hpc
      · rw [set_shared, harrivals]
        exact hs.synced.leave hall hothers
  | inc hpc hpc' hregions hcb harrivals | dec hpc hpc' _ hregions hcb harrivals =>
      apply hs.still harrivals (by rw [hregions, hpc', hpc]; rfl) ?_ (by simp [hpc, hpc', Waiting])
      intro _
      rw [hregions]
      exact hs.begun me (by simp [hpc])
  | alone hn hstage hwaiting hregions hout harrivals =>
      apply hs.still harrivals (by rw [hregions, hstage]) ?_ hwaiting
      intro _
      rw [hregions]
      exact hs.begun me hout

theorem phased_reachable {ok} {s : State n} (hs : ReachableWhen (job c) ok s) : Phased s := by
  apply hs.invariant phased_init
  intro s me a P' g' _ _ hphased ha
  exact phased_step hphased (barrier_step (act_step ha) (hphased.begun me))

theorem stage_le (pc : PC n) : stage pc ≤ 3 := by
  unfold stage
  split <;> omega

theorem stage_entered {P : Place n} (h : entered P = true) : 2 ≤ stage P.pc := by
  rw [entered] at h
  split at h <;> simp_all [stage]

theorem stage_waiting {pc : PC n} (h : Waiting pc) : 0 < stage pc := by
  unfold Waiting at h
  split at h <;> first | exact Nat.succ_pos _ | exact h.elim

/-- While one place is between the second and the third barrier of a region,
no place is in another region. -/
theorem same_region {s : State n} (hs : Phased s) {p : Fin n} (hstage : stage (s.proc p).pc = 2)
    (hp : ¬Waiting (s.proc p).pc) (q : Fin n) : (s.proc q).regions = (s.proc p).regions := by
  have harrived := hs.arrived p
  have harrived' := hs.arrived q
  have hle := stage_le (s.proc q).pc
  have hpassed := hs.synced.passed p hp q
  by_cases hq : Waiting (s.proc q).pc
  · have hpos := stage_waiting hq
    have hlead := hs.synced.lead q p
    omega
  · have hpassed' := hs.synced.passed q hq p
    omega

def Inside (s : State n) (p : Fin n) : Prop :=
  entered (s.proc p) = true ∧ ∀ q, (s.proc q).regions ≤ (s.proc p).regions

instance (s : State n) (p : Fin n) : Decidable (Inside s p) := inferInstanceAs (Decidable (_ ∧ _))

def insideCount (s : State n) : Nat := (Finset.univ.filter (Inside s)).card

theorem regions_set {s : State n} (hregions : P'.regions = (s.proc me).regions) (q : Fin n) :
    ((s.set me (P', g')).proc q).regions = (s.proc q).regions :=
  forall_set (Q := fun q (P : Place n) => P.regions = (s.proc q).regions) hregions (fun _ _ => rfl) q

theorem insideCount_same {s : State n} (hregions : P'.regions = (s.proc me).regions)
    (hentered : entered P' = entered (s.proc me)) : insideCount (s.set me (P', g')) = insideCount s := by
  have hent (q : Fin n) : entered ((s.set me (P', g')).proc q) = entered (s.proc q) :=
    forall_set (Q := fun q (P : Place n) => entered P = entered (s.proc q)) hentered (fun _ _ => rfl) q
  have hset : Finset.univ.filter (Inside (s.set me (P', g'))) = Finset.univ.filter (Inside s) := by
    ext p
    simp only [Finset.mem_filter, Inside, hent, regions_set hregions]
  rw [insideCount, hset, insideCount]

theorem inside_iff {s : State n} (hregions : P'.regions = (s.proc me).regions)
    (hall : ∀ q, (s.proc q).regions = (s.proc me).regions) (p : Fin n) :
    Inside (s.set me (P', g')) p ↔ if p = me then entered P' = true else entered (s.proc p) = true := by
  simp only [Inside, regions_set hregions, hall, le_refl, implies_true, and_true]
  by_cases hp : p = me
  · subst hp
    simp
  · rw [set_proc_of_ne s _ hp, if_neg hp]

theorem insideCount_inc {s : State n} (hregions : P'.regions = (s.proc me).regions)
    (hall : ∀ q, (s.proc q).regions = (s.proc me).regions) (hentered : entered (s.proc me) = false)
    (hentered' : entered P' = true) : insideCount (s.set me (P', g')) = insideCount s + 1 := by
  have hset : Finset.univ.filter (Inside (s.set me (P', g'))) =
      insert me (Finset.univ.filter (Inside s)) := by
    ext p
    simp only [Finset.mem_filter, Finset.mem_univ, true_and, Finset.mem_insert, inside_iff hregions hall]
    by_cases hp : p = me
    · simp [hp, hentered']
    · simp [hp, Inside, hall]
  have hnot : me ∉ Finset.univ.filter (Inside s) := by
    simp [Inside, hentered]
  rw [insideCount, hset, Finset.card_insert_of_notMem hnot, insideCount]

theorem insideCount_dec {s : State n} (hregions : P'.regions = (s.proc me).regions)
    (hall : ∀ q, (s.proc q).regions = (s.proc me).regions) (hentered : entered (s.proc me) = true)
    (hentered' : entered P' = false) : insideCount (s.set me (P', g')) + 1 = insideCount s := by
  have hset : Finset.univ.filter (Inside (s.set me (P', g'))) =
      (Finset.univ.filter (Inside s)).erase me := by
    ext p
    simp only [Finset.mem_filter, Finset.mem_univ, true_and, Finset.mem_erase, inside_iff hregions hall]
    by_cases hp : p = me
    · simp [hp, hentered']
    · simp [hp, Inside, hall]
  have hmem : me ∈ Finset.univ.filter (Inside s) := by
    simp [Inside, hentered, hall]
  rw [insideCount, hset, Finset.card_erase_add_one hmem, insideCount]

theorem insideCount_init {s : State n} (hs : Phased s) (hpc : (s.proc me).pc = .spmd .outside)
    (hpc' : P'.pc = .spmd .startBarrier) (hregions : P'.regions = (s.proc me).regions + 1) :
    insideCount (s.set me (P', g')) = 0 := by
  rw [insideCount, Finset.card_eq_zero, Finset.filter_eq_empty_iff]
  rintro p - ⟨hentered, hmax⟩
  have hme := hmax me
  rw [set_proc_self, hregions] at hme
  by_cases hp : p = me
  · subst hp
    rw [set_proc_self] at hentered
    simp [entered, hpc'] at hentered
  · rw [set_proc_of_ne s _ hp] at hentered hme
    have hpassed := hs.synced.lead p me
    have harrived := hs.arrived me
    have harrived' := hs.arrived p
    rw [hpc] at harrived
    have hstage := stage_entered hentered
    simp only [stage] at harrived
    omega

/-- The counter of the barrier is right, and a place ends its loop only when it
is complete. -/
structure Counting (s : State n) : Prop where
  count : s.shared.cbCount = insideCount s
  done : ∀ p, (s.proc p).pc = .spmd .endBarrier → s.shared.cbCount = n

theorem insideCount_le (s : State n) : insideCount s ≤ n := by
  have hle := Finset.card_filter_le Finset.univ (Inside s)
  rwa [Finset.card_univ, Fintype.card_fin] at hle

theorem inside_of_full {s : State n} (h : insideCount s = n) (p : Fin n) : Inside s p := by
  have hset : Finset.univ.filter (Inside s) = Finset.univ := by
    rw [← Finset.card_eq_iff_eq_univ, Fintype.card_fin]
    exact h
  have hp := Finset.mem_univ p
  rw [← hset] at hp
  exact (Finset.mem_filter.mp hp).2

theorem Counting.inside {s : State n} (hs : Counting s) (h : s.shared.cbCount = n) (p : Fin n) :
    Inside s p :=
  inside_of_full (by have hcount := hs.count; omega) p

/-- While a place is in the main loop no place is between regions. -/
theorem not_outside {s : State n} (hs : Phased s) {p : Fin n} (hstage : stage (s.proc p).pc = 2)
    (hp : ¬Waiting (s.proc p).pc) (q : Fin n) : (s.proc q).pc ≠ .spmd .outside := by
  intro hq
  have hregion := same_region hs hstage hp q
  have hphase := hs.synced.same_phase hp (show ¬Waiting (s.proc q).pc by simp [hq, Waiting])
  have harrived := hs.arrived p
  have harrived' := hs.arrived q
  rw [hq] at harrived'
  simp only [stage] at harrived'
  omega

theorem counting_step {s : State n} (hn : 2 ≤ n) (hphased : Phased s) (hs : Counting s)
    (h : BarrierStep me (s.proc me) s.shared P' g') : Counting (s.set me (P', g')) := by
  have hcount := hs.count
  have hdone {k : Int} (hself : P'.pc = .spmd .endBarrier → k = n)
      (hother : ∀ q, q ≠ me → (s.proc q).pc = .spmd .endBarrier → k = n) (q : Fin n) :
      ((s.set me (P', g')).proc q).pc = .spmd .endBarrier → k = n :=
    forall_set (Q := fun _ (P : Place n) => P.pc = .spmd .endBarrier → k = n) hself hother q
  have hregion (hpc : ∃ l, (s.proc me).pc = .cbarrier l) :
      ∀ q, (s.proc q).regions = (s.proc me).regions := by
    obtain ⟨l, hl⟩ := hpc
    refine same_region hphased ?_ ?_ <;> simp [hl, stage, Waiting]
  cases h with
  | other hstage hwaiting hentered hregions hend houtside hcb harrivals =>
      refine ⟨?_, hdone ?_ ?_⟩
      · rw [set_shared, hcb, insideCount_same hregions hentered]
        exact hcount
      · intro hpc'
        rw [set_shared, hcb]
        exact (hend hpc').elim (hs.done me) id
      · intro q _ hq
        rw [set_shared, hcb]
        exact hs.done q hq
  | cbInit hpc hpc' hregions hcb harrivals =>
      refine ⟨?_, hdone ?_ ?_⟩
      · rw [set_shared, hcb, insideCount_init hphased hpc hpc' hregions]
        rfl
      · intro hpc''
        rw [hpc'] at hpc''
        cases hpc''
      · intro q _ hq
        refine absurd hpc (not_outside hphased (p := q) ?_ ?_ me) <;> simp [hq, stage, Waiting]
  | arrive hstage hwaiting hwaiting' hentered hregions hcb harrivals =>
      refine ⟨?_, hdone ?_ ?_⟩
      · rw [set_shared, hcb, insideCount_same hregions hentered]
        exact hcount
      · intro hpc'
        rw [hpc'] at hwaiting'
        exact hwaiting'.elim
      · intro q _ hq
        rw [set_shared, hcb]
        exact hs.done q hq
  | leave hall hstage hentered hregions hpc' hpc hcb harrivals =>
      refine ⟨?_, hdone (fun h => absurd h hpc') ?_⟩
      · rw [set_shared, hcb, insideCount_same hregions hentered]
        exact hcount
      · intro q _ hq
        rw [set_shared, hcb]
        exact hs.done q hq
  | inc hpc hpc' hregions hcb harrivals =>
      have hentered : entered (s.proc me) = false := by simp [entered, hpc]
      refine ⟨?_, hdone ?_ ?_⟩
      · rw [set_shared, hcb,
          insideCount_inc hregions (hregion ⟨_, hpc⟩) hentered (by simp [entered, hpc'])]
        push_cast
        omega
      · intro h
        rw [hpc'] at h
        cases h
      · intro q _ hq
        have hinside := (hs.inside (hs.done q hq) me).1
        rw [hentered] at hinside
        cases hinside
  | dec hpc hpc' hlt hregions hcb harrivals =>
      have hentered : entered (s.proc me) = true := by simp [entered, hpc]
      have hdec : insideCount (s.set me (P', g')) + 1 = insideCount s :=
        insideCount_dec hregions (hregion ⟨_, hpc⟩) hentered (by simp [entered, hpc'])
      refine ⟨?_, hdone ?_ ?_⟩
      · rw [set_shared, hcb]
        omega
      · intro h
        rw [hpc'] at h
        cases h
      · intro q _ hq
        have hfull := hs.done q hq
        omega
  | alone h1 =>
      omega

theorem counting_reachable {ok} (hn : 2 ≤ n) {s : State n} (hs : ReachableWhen (job c) ok s) :
    Counting s := by
  refine hs.invariant (I := Counting) ⟨?_, ?_⟩ ?_
  · have hempty : Finset.univ.filter (Inside (job c).init) = ∅ := by
      rw [Finset.filter_eq_empty_iff]
      rintro p - ⟨hentered, -⟩
      cases hentered
    rw [insideCount, hempty]
    rfl
  · intro p hp
    cases hp
  · intro s me a P' g' hs _ hcounting ha
    have hphased := phased_reachable hs
    exact counting_step hn hphased hcounting (barrier_step (act_step ha) (hphased.begun me))

def Left : PC n → Prop
  | .spmd .endBarrier | .spmd .endWait | .spmd .endFinish | .spmd .outside => True
  | _ => False

def OutOfLoop : PC n → Prop
  | .spmd .endWait | .spmd .endFinish | .spmd .outside | .spmd .startBarrier | .spmd .startWait => True
  | _ => False

theorem left_of_stage {pc : PC n} (h : stage pc = 3) : Left pc := by
  unfold stage at h
  split at h <;> trivial

theorem outOfLoop_of_stage {pc : PC n} (h : stage pc = 3 ∨ stage pc = 0 ∨ stage pc = 1 ∧ Waiting pc) :
    OutOfLoop pc := by
  unfold stage at h
  split at h <;> first | trivial | simp_all [Waiting]

theorem full_step {s : State n} (hn : 2 ≤ n) (hphased : Phased s) (hs : Counting s)
    (h : BarrierStep me (s.proc me) s.shared P' g') (hfull : s.shared.cbCount = n) :
    g'.cbCount = n ∨ ∀ q, Left (s.proc q).pc := by
  have hinside := hs.inside hfull
  cases h with
  | other _ _ _ _ _ _ hcb | arrive _ _ _ _ _ hcb | leave _ _ _ _ _ _ hcb => exact .inl (hcb.trans hfull)
  | cbInit hpc hpc' hregions hcb harrivals =>
      right
      intro q
      apply left_of_stage
      have hregion := le_antisymm ((hinside me).2 q) ((hinside q).2 me)
      have hpassed := hphased.synced.passed me (by simp [hpc, Waiting]) q
      have harrived := hphased.arrived me
      have harrived' := hphased.arrived q
      have hle := stage_le (s.proc q).pc
      rw [hpc] at harrived
      simp only [stage] at harrived
      omega
  | inc hpc =>
      have hentered := (hinside me).1
      simp [entered, hpc] at hentered
  | dec _ _ hlt => omega
  | alone h1 => omega

theorem init_step {s : State n} (hphased : Phased s) (hpc : (s.proc me).pc = .spmd .outside) (q : Fin n) :
    OutOfLoop (s.proc q).pc ∧ ((s.proc q).regions = (s.proc me).regions + 1 →
      entered (s.proc q) = false) := by
  have hpassed := hphased.synced.passed me (by simp [hpc, Waiting]) q
  have hlead := hphased.synced.lead q me
  have harrived := hphased.arrived me
  have harrived' := hphased.arrived q
  have hle := stage_le (s.proc q).pc
  rw [hpc] at harrived
  simp only [stage] at harrived
  constructor
  · apply outOfLoop_of_stage
    by_cases hq : Waiting (s.proc q).pc
    · have hpos := stage_waiting hq
      have hstage : stage (s.proc q).pc = 3 ∨ stage (s.proc q).pc = 1 := by omega
      exact hstage.imp_right fun h => .inr ⟨h, hq⟩
    · have hpassed' := hphased.synced.passed q hq me
      omega
  · intro hregion
    by_contra hentered
    have hstage := stage_entered (eq_true_of_ne_false hentered)
    omega

structure Agreement (c : Config n) (s : State n) : Prop where
  count : s.shared.cbCount = insideCount s
  nonneg : 0 ≤ s.shared.cbCount
  le : s.shared.cbCount ≤ n
  term : ∀ p, (s.proc p).pc = .spmd .endBarrier → ∀ q, Inside s q
  stays : ∀ acts s', s.shared.cbCount = n → (job c).run s acts = some s' →
    s'.shared.cbCount = n ∨
      ∃ before t, before <+: acts ∧ (job c).run s before = some t ∧ ∀ q, Left (t.proc q).pc
  reset : ∀ p a s', (job c).next s p a = some s' → (s.proc p).pc = .spmd .outside →
    (s'.proc p).pc = .spmd .startBarrier →
    ∀ q, OutOfLoop (s.proc q).pc ∧
      ((s.proc q).regions = (s'.proc p).regions → entered (s.proc q) = false)

theorem agreement_reachable (hn : 2 ≤ n) {s : State n} (hs : Reachable (job c) s) : Agreement c s := by
  have hcounting := counting_reachable hn hs
  refine ⟨hcounting.count, ?_, ?_, fun p hp => hcounting.inside (hcounting.done p hp), ?_, ?_⟩
  · rw [hcounting.count]
    exact Int.natCast_nonneg _
  · rw [hcounting.count]
    exact Int.ofNat_le.mpr (insideCount_le s)
  · intro acts s' hfull hrun
    refine run_until (I := fun s : State n => s.shared.cbCount = n) ?_ hs hfull hrun
    intro s me a s' hs hfull hnext
    obtain ⟨P', g', hact, rfl⟩ := next_eq_some.mp hnext
    have hphased := phased_reachable hs
    have hbarrier := barrier_step (act_step hact) (hphased.begun me)
    exact full_step hn hphased (counting_reachable hn hs) hbarrier hfull
  · intro p a s' hnext hpc hpc' q
    obtain ⟨P', g', hact, rfl⟩ := next_eq_some.mp hnext
    rw [set_proc_self] at hpc' ⊢
    have hphased := phased_reachable hs
    obtain ⟨hout, hentered⟩ := init_step hphased hpc q
    refine ⟨hout, ?_⟩
    have hstep := barrier_step (act_step hact) (hphased.begun p)
    dsimp only at hstep hpc' ⊢
    cases hstep with
    | cbInit _ _ hregions =>
        rw [hregions]
        exact hentered
    | other _ _ _ _ _ houtside =>
        rw [houtside hpc] at hpc'
        cases hpc'
    | arrive hstage =>
        rw [hpc, hpc'] at hstage
        cases hstage
    | leave _ _ _ _ _ hwaiting =>
        rw [hpc] at hwaiting
        exact hwaiting.elim
    | inc hinc | dec hinc =>
        rw [hpc] at hinc
        cases hinc
    | alone _ _ _ _ hout' => exact absurd hpc hout'

def bothInside : List (Fin 2 × Act 2) := throughBarrier ++ throughBarrier ++ comms 0 10 ++ comms 1 10

set_option maxRecDepth 10000 in
theorem agreement_bothInside :
    ((job (twoPlaces .noDistWS false)).after bothInside).shared.cbCount = 2 ∧
      Agreement (twoPlaces .noDistWS false) ((job (twoPlaces .noDistWS false)).after bothInside) :=
  ⟨by decide, agreement_reachable le_rfl (after_reachable _ bothInside)⟩

end HabaneroUpc.Barrier
