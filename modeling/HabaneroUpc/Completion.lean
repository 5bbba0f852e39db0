import HabaneroUpc.BusyPlaces

namespace HabaneroUpc.Completion

open Interleaving Tally Barrier Termination Regions InFlight

variable {n : Nat} {c : Config n} {p : Fin n} {P P' : Place n} {g : Shared n} {s s' : State n}
  {r : Place n × Shared n}

theorem load_le (c : Config n) (s : State n) (p : Fin n) :
    load c (s.proc p) + netLoad s.shared ≤ pendingWork c s :=
  Nat.add_le_add_right (le_total (fun _ P => load c P) s.proc p) _

theorem counters_zero (hsync : c.synchronous = false) (hs : Reachable (job c) s)
    (hnone : pendingWork c s = 0) (i : Fin n) : s.shared.asyncsInFlight i = 0 := by
  have hframes := (no_slot hsync hs).1
  have hnet : netLoad s.shared = 0 := by
    simp only [pendingWork] at hnone
    omega
  have hload (q : Fin n) : taskLoad (s.proc q) = 0 ∧ statementLoad c (s.proc q).pc = 0 := by
    have hle := load_le c s q
    simp only [load] at hle
    omega
  have htravelling : travelling i s.shared.net = 0 := by
    refine List.sum_eq_zero fun k hk => ?_
    obtain ⟨m, hm, rfl⟩ := List.mem_map.mp hk
    have hle := List.single_le_sum (l := s.shared.net.map msgLoad) (fun _ _ => Nat.zero_le _) _
      (List.mem_map_of_mem hm)
    have hpos : 0 < msgLoad m := by cases m <;> simp [msgLoad]
    rw [netLoad] at hnet
    omega
  have horigin (q : Fin n) : (s.proc q).receivedTasksOrigin i = 0 := by
    have hreceived := (counted_reachable hs q).received
    have hle := Finset.single_le_sum (f := (s.proc q).receivedTasksOrigin) (fun _ _ => Nat.zero_le _)
      (Finset.mem_univ i)
    have hzero := (hload q).1
    simp only [taskLoad] at hzero
    omega
  have hissuing : issuing (s.proc i).pc = 0 := by
    have hzero := (hload i).2
    unfold issuing
    split <;> rename_i hpc <;> simp_all [statementLoad]
  have hreturning (q : Fin n) : returning i (s.proc q).pc = 0 := by
    have hzero := (hload q).2
    unfold returning
    split
    · rename_i hpc
      rw [hpc] at hzero
      cases hzero
    · rfl
  rw [(accounted_reachable hs).inFlight i]
  simp [htravelling, horigin, hissuing, hreturning, hframes]

theorem no_local_pending (hs : Reachable (job c) s) (hnone : pendingWork c s = 0)
    (hpc : (s.proc p).pc = .loop .test) : (s.proc p).totalPendingLocalAsyncs = 0 := by
  have hfinish := (counted_reachable hs p).finish
  have hle := load_le c s p
  simp only [load, taskLoad] at hle
  rw [hpc] at hfinish
  simp only [executing, finishBarrierTask] at hfinish
  rw [Place.totalPendingLocalAsyncs]
  omega

def Settling : PC n → Prop
  | .loop (.scan _ pendingAsyncs) => pendingAsyncs = 0
  | .cbarrier .inc | .cbarrier .incTest | .cbarrier .received | .spmd .endBarrier => True
  | .cbarrier _ | .spmd _ | .exec _ => False
  | _ => True

theorem settling_onward (h : Onward c P g P') (hlocal : P.pc = .loop .test → P.totalPendingLocalAsyncs = 0)
    (hzero : ∀ i, g.asyncsInFlight i = 0) (hpc : Settling P.pc) : Settling P'.pc := by
  cases h with
  | pending hpc₀ hpending => exact absurd (hlocal hpc₀) hpending
  | outstanding _ _ hsum hpc₀ =>
      rw [hpc₀] at hpc
      exact absurd hpc hsum
  | scan i hi pendingAsyncs hpc₀ hpc' =>
      rw [hpc₀] at hpc
      rw [hpc']
      simp only [Settling] at hpc ⊢
      rw [hpc, hzero]
      rfl
  | test _ hpc' =>
      rw [hpc']
      rfl
  | write _ _ hpc' | checked _ _ hpc' =>
      rw [hpc']
      split <;> trivial
  | serve _ hpc' | scanned _ _ hpc' =>
      rcases hpc' with hpc' | hpc' <;> rw [hpc'] <;> trivial
  | tested _ hpc' =>
      rcases hpc' with ⟨-, hpc'⟩ | hpc' <;> rw [hpc'] <;> trivial
  | detectWork hpc₀ | dec hpc₀ | polled hpc₀ =>
      rw [hpc₀] at hpc
      exact hpc.elim
  | read _ _ hpc' | advance _ hpc' | drain _ hpc' | skip _ _ _ _ hpc' | branch _ hpc' | steal _ _ hpc'
  | shipped _ hpc' | inc _ hpc' =>
      rw [hpc']
      trivial

theorem Works.pending (h : Works c (s.proc p) s.shared r) : 0 < pendingWork c s := by
  have hle := load_le c s p
  have hless := h.less
  omega

def Passing : PC n → Prop
  | .cbarrier .inc | .cbarrier .received => False
  | .cbarrier _ | .spmd .endBarrier => True
  | _ => False

theorem passing_entered (h : Passing P.pc) : entered P = true := by
  unfold Passing at h
  split at h
  · exact h.elim
  · exact h.elim
  · simp_all [entered]
  · simp_all [entered]
  · exact h.elim

theorem passing_onward (h : Onward c P g P') (hfull : g.cbCount = n) (hpc : Passing P.pc) : Passing P'.pc := by
  cases h with
  | tested hpc₀ hpc' =>
      rcases hpc' with ⟨hcount, -⟩ | hpc'
      · exact absurd hfull hcount
      · rw [hpc']
        trivial
  | dec hpc₀ hpc' =>
      rcases hpc' with ⟨hcount, -⟩ | hpc'
      · omega
      · rw [hpc']
        trivial
  | detectWork hpc₀ hpc' =>
      rcases hpc' with hpc' | hpc' <;> rw [hpc'] <;> trivial
  | polled hpc₀ hpc' =>
      rw [hpc']
      trivial
  | read _ hpc₀ | write _ hpc₀ | advance hpc₀ | drain hpc₀ | skip hpc₀ | branch hpc₀ | serve hpc₀
  | steal _ hpc₀ | shipped hpc₀ | pending hpc₀ | test hpc₀ | scan _ _ _ hpc₀ | outstanding _ _ _ hpc₀
  | scanned _ hpc₀ | inc hpc₀ =>
      rw [hpc₀] at hpc
      exact hpc.elim
  | checked hpc₀ =>
      rcases hpc₀ with hpc₀ | hpc₀ <;> rw [hpc₀] at hpc <;> exact hpc.elim

section

variable (hsync : c.synchronous = false) (hcancel : c.cancelCyclicSteals = false)
include hsync hcancel

theorem settles_from_pop (hs : Reachable (job c) s) (hpc : (s.proc p).pc = .exec .pop)
    (hnone : pendingWork c s = 0) : ∃ r, (job c).Leads s (s.set p r) ∧ Same (s.proc p) s.shared r ∧
      (r.1.pc = .cbarrier .received ∨ r.1.pc = .spmd .endBarrier) := by
  obtain ⟨r, hr, hworks | ⟨hsame, hpc', -⟩⟩ := pop_leads hsync hcancel hs hpc
  · exact absurd hworks.pending (by omega)
  · have hnone' : pendingWork c (s.set p r) = 0 := by
      rw [pendingWork_same hsame (by rw [hpc', hpc]; rfl), hnone]
    have hself : ((s.set p r).proc p).pc = .loop .advance := by rw [set_proc_self, hpc']
    have hkept (r' : Place n × Shared n) (P' : Place n) (hreach : Reachable (job c) ((s.set p r).set p r'))
        (hsame' : Same ((s.set p r).proc p) (s.set p r).shared r') (hneutral : Neutral c r'.1.pc)
        (hK : Settling r'.1.pc) (h : Onward c r'.1 r'.2 P') : Settling P'.pc := by
      have hnone'' : pendingWork c ((s.set p r).set p r') = 0 := by
        rw [pendingWork_same hsame' (by rw [hself, hneutral.unloaded]; rfl), hnone']
      have hlocal := no_local_pending hreach hnone'' (p := p)
      rw [set_proc_self] at hlocal
      exact settling_onward h hlocal (counters_zero hsync hreach hnone'') hK
    obtain ⟨r', hr', hworks | ⟨hsame', hsettling, hround⟩⟩ := round_ends hsync hcancel (hr.reachable hs)
      (p := p) hkept (by rw [hself]; exact ⟨rfl, rfl⟩) (by rw [hself]; trivial)
    · exact absurd hworks.pending (by omega)
    · rw [set_proc_self, set_shared] at hsame'
      refine ⟨r', hr.solo hr', hsame.trans hsame', ?_⟩
      unfold RoundEnd at hround
      split at hround <;> simp_all [Settling]

/-- Where nothing is left to do, a place comes into the barrier. -/
theorem settles (hs : Reachable (job c) s) (hloop : InLoop (s.proc p).pc) (hnone : pendingWork c s = 0) :
    ∃ r, (job c).Leads s (s.set p r) ∧ Same (s.proc p) s.shared r ∧
      (r.1.pc = .cbarrier .received ∨ r.1.pc = .spmd .endBarrier) := by
  have hneutral : Neutral c (s.proc p).pc := by
    have hle := load_le c s p
    simp only [load] at hle
    exact ⟨hloop, by omega⟩
  obtain ⟨r, hr, hworks | ⟨hsame, -, hround⟩⟩ := round_ends hsync hcancel hs (K := fun _ => True)
    (fun _ _ _ _ _ _ _ => trivial) hneutral trivial
  · exact absurd hworks.pending (by omega)
  · unfold RoundEnd at hround
    split at hround
    · have hself : ((s.set p r).proc p).pc = .exec .pop := by rwa [set_proc_self]
      obtain ⟨r', hr', hsame', hpc'⟩ := settles_from_pop hsync hcancel (hr.reachable hs) hself
        (by rw [pendingWork_same hsame (by rw [hneutral.unloaded]; simp_all [statementLoad]), hnone])
      rw [set_proc_self, set_shared] at hsame'
      exact ⟨r', hr.solo hr', hsame.trans hsame', hpc'⟩
    · exact ⟨r, hr, hsame, .inl ‹_›⟩
    · exact ⟨r, hr, hsame, .inr ‹_›⟩
    · exact hround.elim

theorem passing_ends (hs : Reachable (job c) s) (hn : 2 ≤ n) (hfull : Full s) (hpc : Passing (s.proc p).pc) :
    ∃ r, (job c).Leads s (s.set p r) ∧ Same (s.proc p) s.shared r ∧ r.1.pc = .spmd .endBarrier := by
  by_cases hended : (s.proc p).pc = .spmd .endBarrier
  · exact ⟨_, by rw [set_self]; exact leads_refl _ _, .refl _ _, hended⟩
  have hneutral : Neutral c (s.proc p).pc := by
    unfold Passing at hpc
    split at hpc
    · exact hpc.elim
    · exact hpc.elim
    · rename_i h
      rw [h]
      exact ⟨rfl, rfl⟩
    · exact absurd ‹_› hended
    · exact hpc.elim
  have hkept (r : Place n × Shared n) (P' : Place n) (hreach : Reachable (job c) (s.set p r))
      (hsame : Same (s.proc p) s.shared r) (_ : Neutral c r.1.pc) (hK : Passing r.1.pc)
      (h : Onward c r.1 r.2 P') : Passing P'.pc :=
    passing_onward h (full_count hn hreach (full_set hfull (passing_entered hK) hsame.regions)) hK
  obtain ⟨r, hr, hworks | ⟨hsame, hpassing, hround⟩⟩ := round_ends hsync hcancel hs hkept hneutral hpc
  · have hnone := no_pendingWork hs fun q => finished_of_entered (hfull q).1
    exact absurd hworks.pending (by omega)
  · refine ⟨r, hr, hsame, ?_⟩
    unfold RoundEnd at hround
    split at hround <;> simp_all [Passing]

theorem barrier_ends (hs : Reachable (job c) s) {l : CbarrierPc} (hpc : (s.proc p).pc = .cbarrier l)
    (hfull : Full s) :
    ∃ r, (job c).Leads s (s.set p r) ∧ Same (s.proc p) s.shared r ∧ r.1.pc = .spmd .endBarrier := by
  have hn := several_of_cbarrier hs hpc
  by_cases hreceived : l = .received
  · subst hreceived
    obtain ⟨r, hr, hsame, hpc'⟩ := received_leads hsync hcancel hs hpc
    have hpassing : Passing r.1.pc := by
      rcases hpc' with hpc' | ⟨hpc', -⟩ <;> rw [hpc'] <;> trivial
    have hfull' := full_set hfull (passing_entered hpassing) hsame.regions
    obtain ⟨r', hr', hsame', hended⟩ := passing_ends hsync hcancel (hr.reachable hs) hn hfull'
      (p := p) (by rwa [set_proc_self])
    rw [set_proc_self, set_shared] at hsame'
    exact ⟨r', hr.solo hr', hsame.trans hsame', hended⟩
  · refine passing_ends hsync hcancel hs hn hfull ?_
    have hentered := (hfull p).1
    rw [hpc]
    cases l with
    | inc => simp [entered, hpc] at hentered
    | received => exact absurd rfl hreceived
    | _ => trivial

end

structure LoopEnded (s s' : State n) : Prop where
  regions : ∀ q, (s'.proc q).regions = (s.proc q).regions
  offset : ∀ q, 5 ≤ offset (s'.proc q).pc
  ended : ∃ p, (s'.proc p).pc = .spmd .endBarrier

theorem loopEnded_set (hregions : ∀ q, (s'.proc q).regions = (s.proc q).regions)
    (hloop : ∀ q, InLoop (s'.proc q).pc) (hsame : r.1.regions = (s'.proc p).regions)
    (hpc : r.1.pc = .spmd .endBarrier) : LoopEnded s (s'.set p r) where
  regions q := (same_regions hsame q).trans (hregions q)
  offset q := by
    by_cases hq : q = p
    · subst hq
      rw [set_proc_self, hpc]
      exact Nat.le_succ 5
    · rw [set_proc_of_ne s' _ hq]
      exact (hloop q).ge
  ended := ⟨p, by rw [set_proc_self, hpc]⟩

theorem inLoop_set (hloop : ∀ q, InLoop (s.proc q).pc) (hpc : InLoop r.1.pc) (q : Fin n) :
    InLoop ((s.set p r).proc q).pc :=
  forall_set (Q := fun _ (P : Place n) => InLoop P.pc) hpc (fun q _ => hloop q) q

section

variable (hsync : c.synchronous = false) (hcancel : c.cancelCyclicSteals = false)
include hsync hcancel

/-- Where nothing is left to do, one place after the other comes into the
barrier, and the last of them completes it. -/
theorem all_settle (hs : Reachable (job c) s) (hloop : ∀ q, InLoop (s.proc q).pc)
    (hnone : pendingWork c s = 0) (p : Fin n) : ∃ s', (job c).Leads s s' ∧ LoopEnded s s' := by
  refine leads_to_goal (I := fun t => (∀ q, (t.proc q).regions = (s.proc q).regions) ∧
    (∀ q, InLoop (t.proc q).pc) ∧ pendingWork c t = 0)
    (fun t => total (fun _ P => if P.pc = .cbarrier .received then 0 else 1) t.proc) ?_ hs
    ⟨fun _ => rfl, hloop, hnone⟩
  rintro t ht ⟨hregions, hloop, hnone⟩
  by_cases hall : ∀ q, (t.proc q).pc = .cbarrier .received
  · have hfull : Full t := fun q => ⟨by simp [entered, hall q], fun q' =>
      (same_region (phased_reachable ht) (p := q) (by rw [hall q]; rfl) (by rw [hall q]; exact id) q').le⟩
    obtain ⟨r, hr, hsame, hpc⟩ := barrier_ends hsync hcancel ht (hall p) hfull
    exact ⟨_, hr, .inl (loopEnded_set hregions hloop hsame.regions hpc)⟩
  · obtain ⟨q, hq⟩ := not_forall.mp hall
    obtain ⟨r, hr, hsame, hpc | hpc⟩ := settles hsync hcancel ht (hloop q) hnone
    · have hsum := total_update (fun _ (P : Place n) => if P.pc = .cbarrier .received then 0 else 1) t.proc q r.1
      have hunloaded : statementLoad c (t.proc q).pc = 0 := by
        have hle := load_le c t q
        simp only [load] at hle
        omega
      refine ⟨_, hr, .inr ⟨⟨?_, inLoop_set hloop (by rw [hpc]; rfl), ?_⟩, ?_⟩⟩
      · exact fun q' => (same_regions hsame.regions q').trans (hregions q')
      · rw [pendingWork_same hsame (by rw [hpc, hunloaded]; rfl), hnone]
      · rw [if_neg hq, if_pos hpc] at hsum
        simp only [Global.set]
        omega
    · exact ⟨_, hr, .inl (loopEnded_set hregions hloop hsame.regions hpc)⟩

variable (hplaces : c.mode = .successOnly → 2 ≤ n)
include hplaces

theorem loops_end (hs : Reachable (job c) s) (hloop : ∀ q, InLoop (s.proc q).pc) (p : Fin n) :
    ∃ s', (job c).Leads s s' ∧ LoopEnded s s' := by
  refine leads_to_goal (I := fun t => (∀ q, (t.proc q).regions = (s.proc q).regions) ∧
    ∀ q, InLoop (t.proc q).pc) (pendingWork c) ?_ hs ⟨fun _ => rfl, hloop⟩
  rintro t ht ⟨hregions, hloop⟩
  rcases Nat.eq_zero_or_pos (pendingWork c t) with hnone | hpending
  · obtain ⟨t', ht', hended⟩ := all_settle hsync hcancel ht hloop hnone p
    exact ⟨t', ht', .inl ⟨fun q => (hended.regions q).trans (hregions q), hended.offset, hended.ended⟩⟩
  · obtain ⟨q, r, hr, hworks⟩ := some_works hsync hcancel hplaces ht hloop hpending
    exact ⟨_, hr, .inr ⟨⟨fun q' => (same_regions hworks.regions q').trans (hregions q'),
      inLoop_set hloop hworks.inLoop⟩, pendingWork_set hworks.less⟩⟩

omit hsync hcancel hplaces in
/-- When all other places are ahead of one that is in the main loop, the barrier
of the loop is complete. -/
theorem full_of_ahead (hs : Reachable (job c) s) (hmin : ∀ q, position (s.proc p) ≤ position (s.proc q))
    (hp : InLoop (s.proc p).pc) {q : Fin n} (hq : ¬InLoop (s.proc q).pc) : Full s := by
  have hphased := phased_reachable hs
  obtain ⟨hstage, hwaiting⟩ := inLoop_stage hp
  have hsame := same_region hphased hstage hwaiting
  obtain ⟨l, hl⟩ := spmd_of_not_inLoop hq
  have hle := hmin q
  have hregion := hsame q
  have hpos := hphased.begun p fun hpc => by rw [hpc] at hstage; cases hstage
  have hleft : Left (s.proc q).pc := by
    rw [position, position, show offset (s.proc p).pc = 5 from hp, hregion, hl] at hle
    rw [hl]
    cases l <;> first | trivial | (simp only [offset] at hle; omega)
  have hn : 2 ≤ n := by
    have hne : q ≠ p := by
      rintro rfl
      exact hq hp
    have hp := p.isLt
    have hq := q.isLt
    have hval : q.val ≠ p.val := fun h => hne (Fin.ext h)
    omega
  exact fun q' => ⟨leftTogether_reachable hn hs q q' hleft (by omega) ((hsame q').trans hregion.symm),
    fun q'' => ((hsame q'').trans (hsame q').symm).le⟩

structure Closer (R : Nat) (s s' : State n) : Prop where
  le : ∀ q, position (s.proc q) ≤ position (s'.proc q)
  lt : ∃ q, position (s.proc q) < position (s'.proc q)
  bound : ∀ q, position (s'.proc q) ≤ 10 * R + 9

omit hsync hcancel hplaces in
theorem closer_set {R : Nat} (hbound : ∀ q, position (s.proc q) ≤ 10 * R + 9)
    (hp : position (s.proc p) < 10 * R + 9) (h : position r.1 = position (s.proc p) + 1) :
    Closer R s (s.set p r) := by
  have hself : (s.set p r).proc p = r.1 := set_proc_self ..
  refine ⟨fun q => ?_, ⟨p, by rw [hself]; omega⟩, fun q => ?_⟩
  · by_cases hq : q = p
    · subst hq
      rw [hself]
      omega
    · rw [set_proc_of_ne s _ hq]
  · by_cases hq : q = p
    · subst hq
      rw [hself]
      omega
    · rw [set_proc_of_ne s _ hq]
      exact hbound q

/-- The place that is behind all others goes on, alone or together with them. -/
theorem laggard_leads {R : Nat} (hs : Reachable (job c) s)
    (hbound : ∀ q, position (s.proc q) ≤ 10 * R + 9) (hp : position (s.proc p) < 10 * R + 9)
    (hmin : ∀ q, position (s.proc p) ≤ position (s.proc q)) :
    ∃ s', (job c).Leads s s' ∧ Closer R s s' := by
  by_cases hloop : InLoop (s.proc p).pc
  · have hoffset : offset (s.proc p).pc = 5 := hloop
    by_cases hall : ∀ q, InLoop (s.proc q).pc
    · obtain ⟨s', hs', hended⟩ := loops_end hsync hcancel hplaces hs hall p
      obtain ⟨q, hq⟩ := hended.ended
      refine ⟨s', hs', fun q => ?_, ⟨q, ?_⟩, fun q => ?_⟩
      · have hoffset := hended.offset q
        have hstart : offset (s.proc q).pc = 5 := hall q
        simp only [position, hended.regions q]
        omega
      · have hstart : offset (s.proc q).pc = 5 := hall q
        simp only [position, hended.regions q, hq, hstart]
        exact Nat.lt_succ_self _
      · have hle := hbound q
        have hoffset := offset_le (s'.proc q).pc
        simp only [position, hended.regions q] at hle ⊢
        omega
    · obtain ⟨q, hq⟩ := not_forall.mp hall
      have hfull := full_of_ahead hs hmin hloop hq
      obtain ⟨l, hl⟩ : ∃ l, (s.proc p).pc = .cbarrier l := by
        have hentered := (hfull p).1
        unfold entered at hentered
        split at hentered
        · exact ⟨_, ‹_›⟩
        · exact ⟨_, ‹_›⟩
        all_goals simp_all [offset]
      obtain ⟨r, hr, hsame, hpc⟩ := barrier_ends hsync hcancel hs hl hfull
      refine ⟨_, hr, closer_set hbound hp ?_⟩
      simp only [position, hsame.regions, hpc, hoffset]
      rfl
  · obtain ⟨r, hr, hposition, -⟩ := laggard_step ⟨p, none⟩ hs hmin hloop
    exact ⟨_, comm_leads hsync hcancel hs hr, closer_set hbound hp hposition⟩

/-- Without the request slots, without the cancellation of steals and with a victim
to draw, no job is ever stuck: from every state some run closes all finish scopes,
up to any region that no place is past, and nothing is left then. -/
theorem scopes_close {R : Nat} (hs : Reachable (job c) s) (hR : ∀ q, (s.proc q).regions ≤ R) :
    ∃ s', (job c).Leads s s' ∧
      (∀ q, (s'.proc q).pc = .spmd .outside ∧ (s'.proc q).regions = R) ∧ Quiescent s' ∧
      s'.shared.net = [] := by
  have hstep (t : State n) (ht : Reachable (job c) t) (hbound : ∀ q, position (t.proc q) ≤ 10 * R + 9) :
      ∃ t', (job c).Leads t t' ∧ ((∀ q, position (t'.proc q) = 10 * R + 9) ∨
        (∀ q, position (t'.proc q) ≤ 10 * R + 9) ∧
          ∑ q, (10 * R + 9 - position (t'.proc q)) < ∑ q, (10 * R + 9 - position (t.proc q))) := by
    by_cases hgoal : ∀ q, position (t.proc q) = 10 * R + 9
    · exact ⟨t, leads_refl _ _, .inl hgoal⟩
    · obtain ⟨q, hq⟩ := not_forall.mp hgoal
      obtain ⟨p, -, hmin⟩ := Finset.exists_min_image Finset.univ (fun q => position (t.proc q))
        ⟨q, Finset.mem_univ q⟩
      have hp : position (t.proc p) < 10 * R + 9 :=
        lt_of_le_of_lt (hmin q (Finset.mem_univ q)) (lt_of_le_of_ne (hbound q) hq)
      obtain ⟨t', ht', hcloser⟩ := laggard_leads hsync hcancel hplaces ht hbound hp
        fun q => hmin q (Finset.mem_univ q)
      refine ⟨t', ht', .inr ⟨hcloser.bound, Finset.sum_lt_sum (fun q _ => ?_) ?_⟩⟩
      · exact Nat.sub_le_sub_left (hcloser.le q) _
      · obtain ⟨q, hq⟩ := hcloser.lt
        have hle := hcloser.bound q
        exact ⟨q, Finset.mem_univ q, by omega⟩
  have hstart (q : Fin n) : position (s.proc q) ≤ 10 * R + 9 := by
    have hregions := hR q
    have hoffset := offset_le (s.proc q).pc
    rw [position]
    omega
  obtain ⟨s', hs', hend⟩ := leads_to_goal _ hstep hs hstart
  have houtside (q : Fin n) : (s'.proc q).pc = .spmd .outside ∧ (s'.proc q).regions = R := by
    have hposition := hend q
    have hoffset := offset_le (s'.proc q).pc
    rw [position] at hposition
    have hlast : offset (s'.proc q).pc = 9 := by omega
    refine ⟨?_, by omega⟩
    unfold offset at hlast
    split at hlast <;> first | assumption | omega
  have hreach := hs'.reachable hs
  have hfinished (q : Fin n) : finished (s'.proc q).pc = true := by
    rw [(houtside q).1]
    rfl
  exact ⟨s', hs', houtside, quiescent_of_finished hreach hfinished, no_messages hreach hfinished⟩

end

-- Place 0 has been asked for one of its four tasks and has not replied.
set_option maxRecDepth 10000 in
theorem scopes_close_requested : ∃ s', (job (twoPlaces .successOnly false)).Leads
      ((job (twoPlaces .successOnly false)).after Lifeline.requested) s' ∧
    (∀ q, (s'.proc q).pc = .spmd .outside ∧ (s'.proc q).regions = 1) ∧ Quiescent s' ∧
    s'.shared.net = [] :=
  scopes_close rfl rfl (fun _ => le_refl 2) (after_reachable _ Lifeline.requested) (by decide)

end HabaneroUpc.Completion
