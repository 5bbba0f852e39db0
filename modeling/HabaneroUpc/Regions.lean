import HabaneroUpc.Assertions

namespace HabaneroUpc.Regions

open Interleaving Barrier Termination

variable {n : Nat}

def Between : PC n → Prop
  | .spmd .endBarrier | .spmd .endWait | .spmd .endFinish | .spmd .outside | .spmd .startBarrier
  | .spmd .startWait => True
  | _ => False

variable {c : Config n} {me p q : Fin n} {ch : Choice n} {P P' : Place n} {g g' : Shared n} {s : State n}

/-- The main loop is left by its last barrier only. -/
theorem commStep_between (h : commStep c me ch P g = some (P', g')) (hpc' : Between P'.pc) :
    P'.pc = .spmd .endBarrier ∨ Between P.pc := by
  cases hl : P.pc with
  | spmd l =>
      simp only [commStep, hl] at h
      cases l with
      | lambda | loopBarrier =>
          cases h
          exact hpc'.elim
      | loopWait =>
          simp only [finishSpmd, leaveBarrier] at h
          split at h <;> cases h
          exact hpc'.elim
      | _ => exact .inr trivial
  | loop l =>
      simp only [commStep, hl] at h
      cases l <;> simp only [finishLoop, feedRemoteThieves] at h <;> (repeat' split at h) <;> cases h <;>
        first | exact .inl rfl | exact hpc'.elim
  | cbarrier l =>
      simp only [commStep, hl] at h
      cases l <;> simp only [cbarrier] at h <;> (repeat' split at h) <;> cases h <;>
        first | exact .inl rfl | exact hpc'.elim
  | exec | publish | drain | serve | ship | idle | steal | lifeline =>
      have hfollows := commStep_follows h
      rw [hl] at hfollows
      cases hpc : P'.pc with
      | spmd l => rw [hpc] at hfollows; cases hfollows
      | _ => rw [hpc] at hpc'; exact hpc'.elim

theorem endWait_follows (h : commStep c me ch P g = some (P', g')) (hpc' : P'.pc = .spmd .endWait) :
    P.pc = .spmd .endBarrier := by
  have hbetween := commStep_between h (by rw [hpc']; trivial)
  rcases hbetween with hend | hbetween
  · rw [hpc'] at hend
    cases hend
  · unfold Between at hbetween
    split at hbetween
    all_goals first | assumption | exact hbetween.elim | skip
    all_goals
      rename_i hpc
      simp only [commStep, hpc, finishSpmd, leaveBarrier] at h
      repeat' split at h
      all_goals cases h
      all_goals cases hpc'

/-- When a place has left the main loop, all places of its region are in the
barrier, or have left as well. -/
def LeftTogether (s : State n) : Prop :=
  ∀ p q, Left (s.proc p).pc → 0 < (s.proc p).regions → (s.proc q).regions = (s.proc p).regions →
    entered (s.proc q) = true

theorem entered_of_left (h : Left P.pc) (hregions : 0 < P.regions) : entered P = true := by
  unfold Left at h
  split at h <;> simp_all [entered]

theorem leftTogether_kept (hs : LeftTogether s) (hregions : P'.regions = (s.proc me).regions)
    (hentered : entered (s.proc me) = true → entered P' = true)
    (hleft : Left P'.pc → Left (s.proc me).pc ∨ ∀ q, entered (s.proc q) = true) :
    LeftTogether (s.set me (P', g')) := by
  intro p q hp hpos hq
  rw [regions_set hregions] at hpos
  rw [regions_set hregions, regions_set hregions] at hq
  have hwas : entered (s.proc q) = true := by
    by_cases hpme : p = me
    · subst hpme
      rw [set_proc_self] at hp
      rcases hleft hp with hleft | hall
      · exact hs p q hleft hpos hq
      · exact hall q
    · rw [set_proc_of_ne s _ hpme] at hp
      exact hs p q hp hpos hq
  by_cases hqme : q = me
  · subst hqme
    rw [set_proc_self]
    exact hentered hwas
  · rwa [set_proc_of_ne s _ hqme]

theorem leftTogether_step (hn : 2 ≤ n) (hs : Reachable (job c) s) (hI : LeftTogether s) {a : Act n}
    (ha : act c me a (s.proc me) s.shared = some (P', g')) : LeftTogether (s.set me (P', g')) := by
  have hphased := phased_reachable hs
  have hcounting := counting_reachable hn hs
  have hstage {pc : PC n} (h : Left pc) (hne : pc ≠ .spmd .endBarrier) : stage pc = 3 := by
    unfold Left at h
    split at h <;> first | rfl | exact absurd rfl hne | exact h.elim
  have hstep : BarrierStep me (s.proc me) s.shared P' g' :=
    barrier_step (act_step ha) (hphased.begun me)
  cases hstep with
  | other hstage' hwaiting hentered hregions hend houtside hcb harrivals =>
      refine leftTogether_kept hI hregions (fun h => hentered ▸ h) fun hleft => ?_
      by_cases hpc' : P'.pc = .spmd .endBarrier
      · rcases hend hpc' with hpc | hfull
        · exact .inl (hpc ▸ trivial)
        · exact .inr fun q => (hcounting.inside hfull q).1
      · exact .inl (left_of_stage (hstage' ▸ hstage hleft hpc'))
  | cbInit hpc hpc' hregions hcb harrivals =>
      intro p q hp hpos hq
      have hpme : p ≠ me := by
        rintro rfl
        rw [set_proc_self, hpc'] at hp
        exact hp
      rw [set_proc_of_ne s _ hpme] at hp hpos hq
      have hentered := entered_of_left hp hpos
      have hfresh := (init_step hphased hpc p).2
      by_cases hqme : q = me
      · subst hqme
        rw [set_proc_self, hregions] at hq
        rw [hfresh hq.symm] at hentered
        cases hentered
      · rw [set_proc_of_ne s _ hqme] at hq ⊢
        exact hI p q hp hpos hq
  | arrive hstage' hwaiting hwaiting' hentered hregions hcb harrivals =>
      refine leftTogether_kept hI hregions (fun h => hentered ▸ h) fun hleft => .inl ?_
      have hpc' : P'.pc = .spmd .endWait := by
        unfold Left at hleft
        unfold Waiting at hwaiting'
        split at hleft <;> simp_all
      rcases act_pc ha with hpc | ⟨-, ch, hcomm⟩
      · rw [hpc] at hwaiting'
        exact absurd hwaiting' hwaiting
      · rw [endWait_follows hcomm hpc']
        trivial
  | leave hall hstage' hentered hregions hpc' hpc hcb harrivals =>
      refine leftTogether_kept hI hregions (fun h => hentered ▸ h) fun hleft => .inl ?_
      exact left_of_stage (hstage' ▸ hstage hleft hpc')
  | inc hpc hpc' hregions hcb harrivals =>
      refine leftTogether_kept hI hregions (fun _ => by simp [entered, hpc']) fun hleft => ?_
      rw [hpc'] at hleft
      exact hleft.elim
  | dec hpc hpc' hlt hregions hcb harrivals =>
      have hsame := same_region hphased (p := me) (by simp [hpc, stage]) (by simp [hpc, Waiting])
      intro p q hp hpos hq
      have hpme : p ≠ me := by
        rintro rfl
        rw [set_proc_self, hpc'] at hp
        exact hp
      rw [set_proc_of_ne s _ hpme] at hp hpos
      have hall (q : Fin n) : Inside s q :=
        ⟨hI p q hp hpos ((hsame q).trans (hsame p).symm), fun r => ((hsame r).trans (hsame q).symm).le⟩
      have hfull : insideCount s = n := by
        rw [insideCount, Finset.filter_true_of_mem fun q _ => hall q, Finset.card_univ, Fintype.card_fin]
      have hcount := hcounting.count
      omega
  | alone hone => omega

theorem leftTogether_reachable (hn : 2 ≤ n) (hs : Reachable (job c) s) : LeftTogether s := by
  refine hs.invariant (I := LeftTogether) (fun p q _ hpos => absurd hpos (Nat.lt_irrefl 0)) ?_
  intro s me a P' g' hs _ hI ha
  exact leftTogether_step hn hs hI ha

/-- While a place is in the main loop outside of the barrier, every place is in
the main loop or on its way to it. -/
theorem not_between (hs : Reachable (job c) s) (hne : q ≠ p) (hstage : stage (s.proc p).pc = 2)
    (hwaiting : ¬Waiting (s.proc p).pc) (hentered : entered (s.proc p) = false) :
    ¬Between (s.proc q).pc := by
  intro hq
  have hn : 2 ≤ n := by
    have hp := p.isLt
    have hq := q.isLt
    have hval : q.val ≠ p.val := fun h => hne (Fin.ext h)
    omega
  have hphased := phased_reachable hs
  have hregion := same_region hphased hstage hwaiting q
  have hpos := hphased.begun p fun hpc => by rw [hpc] at hstage; cases hstage
  by_cases hleft : Left (s.proc q).pc
  · have hall := leftTogether_reachable hn hs q p hleft (by omega) hregion.symm
    rw [hentered] at hall
    cases hall
  · have harrived := hphased.arrived p
    have harrived' := hphased.arrived q
    have hpassed := hphased.synced.passed p hwaiting q
    have hle : stage (s.proc q).pc ≤ 1 := by
      unfold Between at hq
      split at hq
      all_goals first | exact hq.elim | simp_all [Left, stage]
    omega

def Msg.brings : Msg n → Bool
  | .asyncAt _ _ | .asyncCopy _ _ | .shipment _ _ _ _ => true
  | .stealRequest _ _ | .receipt _ _ => false

def Rested (me : Fin n) (P : Place n) (g : Shared n) : Prop :=
  Between P.pc → Idle P ∧ ∀ m ∈ g.net, m.target = me → Msg.brings m = false

theorem Rested.kept (h : Rested me P g) (hpc : P'.pc = P.pc) (hidle : Between P.pc → Idle P → Idle P')
    (hnet : ∀ m ∈ g'.net, m ∈ g.net ∨ Msg.brings m = false) : Rested me P' g' := by
  intro hbetween
  rw [hpc] at hbetween
  obtain ⟨hI, hquiet⟩ := h hbetween
  exact ⟨hidle hbetween hI, fun m hm htarget => (hnet m hm).elim (fun hm => hquiet m hm htarget) id⟩

theorem rested_quiescent (h : Quiescent s) (me : Fin n) : Rested me (s.proc me) s.shared := by
  intro _
  refine ⟨⟨(h.tasks me).1, (h.tasks me).2, (h.commTasks me).1, (h.commTasks me).2.1⟩, ?_⟩
  intro m hm _
  obtain ⟨p, q, rfl | rfl⟩ := h.messages m hm <;> rfl

theorem not_running_between (hpc : Between P.pc) (hI : Idle P) : taskRunning P = false := by
  have hlambda : P.pc ≠ .spmd .lambda := fun h => by
    rw [h] at hpc
    exact hpc
  simp [taskRunning, hI.1, hlambda]

theorem rested_own {a : Act n} {r : Place n × Shared n} (h : Step c me P g a r)
    (hend : r.1.pc = .spmd .endBarrier → Rested me r.1 r.2) (hP : Rested me P g) :
    Rested me r.1 r.2 := by
  have herase (m : Msg n) : ∀ m' ∈ g.net.erase m, m' ∈ g.net ∨ Msg.brings m' = false :=
    fun m' hm => .inl (List.mem_of_mem_erase hm)
  have hnone {m : Msg n} (hm : m ∈ g.net) (htarget : m.target = me) (hbrings : Msg.brings m = true)
      (hbetween : Between P.pc) : False := by
    have hquiet := (hP hbetween).2 m hm htarget
    rw [hbrings] at hquiet
    cases hquiet
  cases h with
  | @control ch P' g' h hc =>
      intro hbetween
      rcases commStep_between h hbetween with hpc | hpc
      · exact hend hpc hbetween
      · obtain ⟨hI, hquiet⟩ := hP hpc
        refine ⟨?_, hc.net ▸ hquiet⟩
        simpa only [Idle, hc.asyncs, hc.asyncAnys, hc.sending, hc.deque] using hI
  | pop | popOrigin =>
      intro hbetween
      dsimp only at hbetween
      split at hbetween <;> exact hbetween.elim
  | inc | exec | ended | returnOrigin | steal | stolen | shipInc | shipQueued | shipNowhere | shipSlot
  | request => exact fun hbetween => hbetween.elim
  | idle | decrement | clearWait => exact hP.kept rfl (fun _ => id) fun m hm => .inl hm
  | asyncAt hm | asyncCopy hm | shipmentSlot hm | shipmentQueued hm =>
      exact fun hbetween => (hnone hm rfl rfl hbetween).elim
  | stealRequest =>
      refine hP.kept rfl (fun _ => id) fun m hm => ?_
      rcases List.mem_cons.mp hm with rfl | hm
      · exact .inr rfl
      · exact herase _ m hm
  | receipt => exact hP.kept rfl (fun _ => id) (herase _)
  | async hrun | asyncAny hrun | send hrun =>
      refine hP.kept rfl (fun hbetween hI => ?_) fun m hm => .inl hm
      rw [not_running_between hbetween hI] at hrun
      cases hrun
  | push hsending =>
      refine hP.kept rfl (fun _ hI => ?_) fun m hm => .inl hm
      rw [hI.2.2.1] at hsending
      cases hsending
  | finish hasyncs => exact hP.kept rfl (fun _ hI => absurd hI.1 (by omega)) fun m hm => .inl hm
  | runAny ht =>
      refine hP.kept rfl (fun _ hI => ?_) fun m hm => .inl hm
      rw [hI.2.1] at ht
      cases ht

/-- The steps that send such operations are made in the main loop. -/
theorem sends_net {a : Act n} {r : Place n × Shared n} (h : Step c me P g a r)
    (hpc : stage P.pc ≠ 2 ∨ Waiting P.pc ∨ entered P = true) (m : Msg n) (hm : m ∈ r.2.net) :
    m ∈ g.net ∨ Msg.brings m = false := by
  have hnot {pc : PC n} (hl : P.pc = pc) (hstage : stage pc = 2) (hwaiting : ¬Waiting pc)
      (hentered : ∀ P : Place n, P.pc = pc → entered P = false) : False := by
    rcases hpc with hpc | hpc | hpc
    · exact hpc (hl ▸ hstage)
    · exact hwaiting (hl ▸ hpc)
    · rw [hentered P hl] at hpc
      cases hpc
  cases h with
  | control h hc => exact .inl (hc.net ▸ hm)
  | exec hl => exact (hnot hl rfl id fun P h => by simp [entered, h]).elim
  | shipQueued hl => exact (hnot hl rfl id fun P h => by simp [entered, h]).elim
  | shipSlot hl => exact (hnot hl rfl id fun P h => by simp [entered, h]).elim
  | request | stealRequest =>
      rcases List.mem_cons.mp hm with rfl | hm
      · exact .inr rfl
      · first | exact .inl hm | exact .inl (List.mem_of_mem_erase hm)
  | asyncAt | asyncCopy | shipmentSlot | shipmentQueued | receipt =>
      exact .inl (List.mem_of_mem_erase hm)
  | _ => exact .inl hm

theorem rested_reachable (hs : Reachable (job c) s) (me : Fin n) : Rested me (s.proc me) s.shared := by
  refine hs.local_invariant (I := Rested) (fun _ _ => ⟨⟨rfl, rfl, rfl, rfl⟩, fun m hm => by cases hm⟩)
    ?_ ?_ me
  · intro s me a P' g' hs _ hI ha
    have hnext : Reachable (job c) (s.set me (P', g')) := .next hs trivial (next_eq_some.mpr ⟨_, _, ha, rfl⟩)
    refine rested_own (act_step ha) (fun hpc => ?_) (hI me)
    have hrested := rested_quiescent (terminated hnext (p := me) (by rw [set_proc_self]; exact hpc)) me
    rwa [set_proc_self] at hrested
  · intro s me a P' g' hs _ hI ha j hj hbetween
    obtain ⟨hidle, hquiet⟩ := hI j hbetween
    refine ⟨hidle, fun m hm htarget => ?_⟩
    have hpc : stage (s.proc me).pc ≠ 2 ∨ Waiting (s.proc me).pc ∨ entered (s.proc me) = true := by
      by_contra hnot
      simp only [not_or, not_not, Bool.not_eq_true] at hnot
      exact not_between hs hj hnot.1 hnot.2.1 hnot.2.2 hbetween
    exact (sends_net (act_step ha) hpc m hm).elim (fun hm => hquiet m hm htarget) id

def offset : PC n → Nat
  | .spmd .startBarrier => 0
  | .spmd .startWait => 1
  | .spmd .lambda => 2
  | .spmd .loopBarrier => 3
  | .spmd .loopWait => 4
  | .spmd .endBarrier => 6
  | .spmd .endWait => 7
  | .spmd .endFinish => 8
  | .spmd .outside => 9
  | _ => 5

def position (P : Place n) : Nat := 10 * P.regions + offset P.pc

def InLoop (pc : PC n) : Prop := offset pc = 5

instance (pc : PC n) : Decidable (InLoop pc) := inferInstanceAs (Decidable (_ = _))

theorem offset_le (pc : PC n) : offset pc ≤ 9 := by
  unfold offset
  split <;> omega

theorem spmd_of_not_inLoop {pc : PC n} (h : ¬InLoop pc) : ∃ l, pc = .spmd l := by
  cases pc with
  | spmd l => exact ⟨l, rfl⟩
  | _ => exact absurd rfl h

theorem inLoop_stage {pc : PC n} (h : InLoop pc) : stage pc = 2 ∧ ¬Waiting pc := by
  cases pc with
  | spmd l => cases l <;> cases h
  | _ => exact ⟨rfl, id⟩

/-- A place that is not ahead has not arrived at more barriers. -/
theorem arrivals_le (hphased : Phased s) (h : position (s.proc p) ≤ position (s.proc q)) :
    s.shared.arrivals p ≤ s.shared.arrivals q := by
  have hstage (P : Place n) : stage P.pc = if offset P.pc = 0 then 0 else if offset P.pc ≤ 3 then 1
      else if offset P.pc ≤ 6 then 2 else 3 := by
    cases hpc : P.pc with
    | spmd l => cases l <;> rfl
    | _ => rfl
  have harrived := hphased.arrived p
  have harrived' := hphased.arrived q
  have hle := offset_le (s.proc p).pc
  have hle' := offset_le (s.proc q).pc
  rw [hstage] at harrived harrived'
  simp only [position] at h
  split_ifs at harrived harrived' <;> omega

theorem running_reachable (hcancel : c.cancelCyclicSteals = false) (hs : Reachable (job c) s) :
    running c s.shared = true := by
  simp [running, Assertions.assertions_hold hcancel hs]

theorem leads_of_act {a : Act n} {r : Place n × Shared n} (h : act c p a (s.proc p) s.shared = some r) :
    (job c).Leads s (s.set p r) :=
  leads_act (S := job c) h

section

variable (hsync : c.synchronous = false)
include hsync

theorem no_slot (hs : Reachable (job c) s) :
    (∀ me, (s.proc me).frames = []) ∧ ∀ p q tasks, .shipment p q tasks true ∉ s.shared.net := by
  have hmode : ¬(c.mode = .baseline ∨ c.mode = .glb) := by simpa [Config.synchronous] using hsync
  refine hs.split_invariant (I := fun _ P => P.frames = [])
    (J := fun g => ∀ p q tasks, .shipment p q tasks true ∉ g.net) (fun _ => rfl)
    (fun p q tasks hm => by cases hm) ?_
  intro s me a P' g' hs _ hI hJ ha
  have hallowed := allowed_reachable hs me
  have hstep : Step c me (s.proc me) s.shared a (P', g') := act_step ha
  cases hstep with
  | control h hc => exact ⟨hc.frames.trans (hI me), hc.net ▸ hJ⟩
  | shipSlot hpc =>
      rw [hpc] at hallowed
      simp [allowed, Mode.serves, hmode] at hallowed
  | @exec ch task hpc =>
      refine ⟨hI me, ?_⟩
      cases task <;> simpa [executeCommTask, Shared.send] using hJ
  | decrement hframes | clearWait hframes =>
      rw [hI me] at hframes
      cases hframes
  | shipmentSlot hm => exact absurd hm (hJ _ _ _)
  | shipQueued | request =>
      refine ⟨hI me, fun p q tasks hm => ?_⟩
      rcases List.mem_cons.mp hm with hm | hm
      · cases hm
      · exact hJ p q tasks hm
  | stealRequest =>
      refine ⟨hI me, fun p q tasks hm => ?_⟩
      rcases List.mem_cons.mp hm with hm | hm
      · cases hm
      · exact hJ p q tasks (List.mem_of_mem_erase hm)
  | asyncAt | asyncCopy | shipmentQueued | receipt =>
      exact ⟨hI me, fun p q tasks hm => hJ p q tasks (List.mem_of_mem_erase hm)⟩
  | _ => exact ⟨hI me, hJ⟩

variable (hcancel : c.cancelCyclicSteals = false)
include hcancel

theorem comm_leads (hs : Reachable (job c) s) {r : Place n × Shared n}
    (h : commStep c p ch (s.proc p) s.shared = some r) : (job c).Leads s (s.set p r) := by
  refine leads_of_act (a := .comm ch) ?_
  rw [act, if_pos (running_reachable hcancel hs), if_pos ((no_slot hsync hs).1 p)]
  exact h

end

/-- A place that is not ahead of any other is not held up outside of the main loop. -/
theorem laggard_step (ch : Choice n) (hs : Reachable (job c) s) (hmin : ∀ q, position (s.proc p) ≤ position (s.proc q))
    (hpc : ¬InLoop (s.proc p).pc) : ∃ r, commStep c p ch (s.proc p) s.shared = some r ∧
      position r.1 = position (s.proc p) + 1 ∧
      ((s.proc p).pc ≠ .spmd .outside → r.1.regions = (s.proc p).regions) := by
  obtain ⟨l, hl⟩ := spmd_of_not_inLoop hpc
  have harrived : ∀ q, s.shared.arrivals p ≤ s.shared.arrivals q :=
    fun q => arrivals_le (phased_reachable hs) (hmin q)
  cases l with
  | outside =>
      refine ⟨_, by simp only [commStep, hl]; rfl, ?_, fun h => absurd hl h⟩
      simp only [position, hl, offset]
      omega
  | startBarrier | lambda | loopBarrier | endBarrier =>
      refine ⟨_, by simp only [commStep, hl]; rfl, ?_, fun _ => rfl⟩
      simp [position, hl, offset, Place.goto]
  | startWait | loopWait | endWait =>
      refine ⟨_, by simp only [commStep, hl, finishSpmd, leaveBarrier, if_pos harrived]; rfl, ?_,
        fun _ => rfl⟩
      simp [position, hl, offset, Place.goto]
  | endFinish =>
      have hfinish := (counted_reachable hs p).finish
      obtain ⟨hasyncs, hanys, hsending, hdeque⟩ := (rested_reachable hs p (by rw [hl]; trivial)).1
      have hzero : (s.proc p).finishCounter = 0 := by
        rw [hasyncs, hanys, hsending, hdeque, hl] at hfinish
        exact hfinish
      refine ⟨_, by simp only [commStep, hl, finishSpmd, if_pos hzero]; rfl, ?_, fun _ => rfl⟩
      simp [position, hl, offset, Place.goto]

end HabaneroUpc.Regions
