import HabaneroUpc.Lifeline
import HabaneroUpc.LoopRounds

namespace HabaneroUpc.Completion

open Interleaving Tally Barrier Termination Regions

variable {n : Nat} {c : Config n} {me p t : Fin n} {ch : Choice n} {P P' : Place n} {g g' : Shared n}
  {s : State n} {r : Place n × Shared n}

theorem finished_of_entered (h : entered P = true) : finished P.pc = true := by
  unfold entered at h
  split at h
  all_goals first | (rename_i hpc; rw [hpc]; rfl) | cases h

theorem several_of_cbarrier (hs : Reachable (job c) s) {l : CbarrierPc} (hpc : (s.proc p).pc = .cbarrier l) :
    2 ≤ n := by
  have hn : (∃ l, (s.proc p).pc = .cbarrier l) → n ≠ 1 := by
    refine (hs.split_invariant (I := fun _ P => (∃ l, P.pc = .cbarrier l) → n ≠ 1) (J := fun _ => True)
      (fun _ ⟨l, h⟩ => by cases h) trivial ?_).1 p
    intro s me a P' g' hs _ hI _ ha
    refine ⟨?_, trivial⟩
    rintro ⟨l, hl⟩
    rcases act_pc ha with hpc | ⟨-, ch, hcomm⟩
    · exact hI me ⟨l, hpc ▸ hl⟩
    · have hfollows := commStep_follows hcomm
      rw [hl] at hfollows
      cases hpc : (s.proc me).pc with
      | cbarrier l' => exact hI me ⟨l', hpc⟩
      | loop l' =>
          simp only [commStep, hpc] at hcomm
          cases l' <;> simp only [finishLoop, feedRemoteThieves] at hcomm <;> (repeat' split at hcomm) <;>
            cases hcomm <;> first | assumption | cases hl
      | spmd | exec | publish | drain | serve | ship | idle | steal | lifeline =>
          rw [hpc] at hfollows
          cases hfollows
  have hne := hn ⟨l, hpc⟩
  have hpos := p.isLt
  omega

def Full (s : State n) : Prop := ∀ q, Inside s q

theorem full_count (hn : 2 ≤ n) (hs : Reachable (job c) s) (hfull : Full s) : s.shared.cbCount = n := by
  rw [(counting_reachable hn hs).count, insideCount, Finset.filter_true_of_mem fun q _ => hfull q,
    Finset.card_univ, Fintype.card_fin]

theorem full_of_count (hn : 2 ≤ n) (hs : Reachable (job c) s) (h : ¬s.shared.cbCount < n) : Full s := by
  have hcounting := counting_reachable hn hs
  have hcount := hcounting.count
  have hle := insideCount_le s
  exact hcounting.inside (by omega)

theorem same_regions (hregions : r.1.regions = (s.proc p).regions) (q : Fin n) :
    ((s.set p r).proc q).regions = (s.proc q).regions :=
  regions_set hregions q

theorem full_set (hfull : Full s) (hentered : entered r.1 = true)
    (hregions : r.1.regions = (s.proc p).regions) : Full (s.set p r) := by
  have hsame := same_regions hregions
  intro q
  refine ⟨?_, fun q' => ?_⟩
  · by_cases hq : q = p
    · subst hq
      rwa [set_proc_self]
    · rw [set_proc_of_ne s _ hq]
      exact (hfull q).1
  · rw [hsame, hsame]
    exact (hfull q).2 q'

theorem finished_of_ended (hs : Reachable (job c) s) (hp : (s.proc p).pc = .spmd .endBarrier) (q : Fin n) :
    finished (s.proc q).pc = true := by
  rcases Nat.lt_or_ge n 2 with hone | hn
  · have hq : q = p := Fin.ext (by omega)
    rw [hq, hp]
    rfl
  · have hcounting := counting_reachable hn hs
    exact finished_of_entered (hcounting.inside (hcounting.done p hp) q).1

/-- When all places have passed the scan of the counters, not even a request of a
thief is in flight. -/
theorem no_messages (hs : Reachable (job c) s) (hall : ∀ q, finished (s.proc q).pc = true) :
    s.shared.net = [] := by
  have hawaited (t : Fin n) {m : Msg n} (hm : m ∈ s.shared.net) (ht : awaitedBy t m = true) : False := by
    have hpos := List.countP_pos_iff.mpr ⟨m, hm, ht⟩
    rw [← waiting_reachable hs t] at hpos
    have hwaiting : (s.proc t).waitingForReturnAsync = true := Bool.toNat_eq_one.mp <| by
      have hle := Bool.toNat_le (s.proc t).waitingForReturnAsync
      omega
    obtain ⟨i, k, hpc⟩ := (asking_reachable hs t).waits hwaiting
    have hfinished := hall t
    rw [hpc] at hfinished
    cases hfinished
  rw [List.eq_nil_iff_forall_not_mem]
  intro m hm
  obtain ⟨t, v, rfl | rfl⟩ := (quiescent_of_finished hs hall).messages m hm
  · exact hawaited t hm (by simp [awaitedBy])
  · exact hawaited v hm (by simp [awaitedBy])

theorem no_pendingWork (hs : Reachable (job c) s) (hall : ∀ q, finished (s.proc q).pc = true) :
    pendingWork c s = 0 := by
  have hquiescent := quiescent_of_finished hs hall
  have hload (q : Fin n) : load c (s.proc q) = 0 := by
    obtain ⟨hasyncs, hanys⟩ := hquiescent.tasks q
    obtain ⟨hsending, hdeque, -⟩ := hquiescent.commTasks q
    have hreceived := (hquiescent.received q).1
    have hstatement : statementLoad c (s.proc q).pc = 0 := by
      have hq := hall q
      unfold finished at hq
      split at hq
      all_goals first | (rename_i hpc; rw [hpc]; rfl) | cases hq
    simp [load, taskLoad, hasyncs, hanys, hsending, hdeque, hreceived, hstatement]
  simp [pendingWork, netLoad, no_messages hs hall, total, hload]

theorem pendingWork_same (hsame : Same (s.proc p) s.shared r)
    (hload : statementLoad c r.1.pc = statementLoad c (s.proc p).pc) :
    pendingWork c (s.set p r) = pendingWork c s := by
  have htotal := total_update (fun _ P => load c P) s.proc p r.1
  simp only [load, taskLoad_same hsame, hload] at htotal
  simp only [pendingWork, Global.set, netLoad_same hsame, load]
  omega

def Busy (P : Place n) : Prop := P.deque ≠ [] ∨ 0 < P.tasksReceived

theorem busy_same (hsame : Same P g r) (h : Busy P) : Busy r.1 := by
  simpa only [Busy, hsame.deque, hsame.tasksReceived] using h

def Draining : PC n → Prop
  | .loop .advance | .loop .checkIncoming | .drain .loop => True
  | _ => False

theorem draining_onward (h : Onward c P g P') (hreceived : 0 < P.tasksReceived) (hpc : Draining P.pc) :
    Draining P'.pc := by
  cases h with
  | advance _ hpc' | drain _ hpc' | skip _ _ _ _ hpc' =>
      rw [hpc']
      trivial
  | checked _ hnone => exact absurd hreceived hnone
  | tested hpc₀ =>
      rcases hpc₀ with hpc₀ | hpc₀ <;> rw [hpc₀] at hpc <;> exact hpc.elim
  | read _ hpc₀ | write _ hpc₀ | branch hpc₀ | serve hpc₀ | steal _ hpc₀ | shipped hpc₀ | pending hpc₀
  | test hpc₀ | scan _ _ _ hpc₀ | outstanding _ _ _ hpc₀ | scanned _ hpc₀ | inc hpc₀ | detectWork hpc₀
  | dec hpc₀ | polled hpc₀ =>
      rw [hpc₀] at hpc
      exact hpc.elim

section

variable (hsync : c.synchronous = false) (hcancel : c.cancelCyclicSteals = false)
include hsync hcancel

theorem advance_works (hs : Reachable (job c) s) (hpc : (s.proc p).pc = .loop .advance)
    (hreceived : 0 < (s.proc p).tasksReceived) :
    ∃ r, (job c).Leads s (s.set p r) ∧ Works c (s.proc p) s.shared r := by
  obtain ⟨r, hr, hworks | ⟨-, hdraining, hround⟩⟩ := round_ends hsync hcancel hs (p := p) (K := Draining)
    (fun r P' _ hsame _ hK h => draining_onward h (hsame.tasksReceived ▸ hreceived) hK)
    (by rw [hpc]; exact ⟨rfl, rfl⟩) (by rw [hpc]; trivial)
  · exact ⟨r, hr, hworks⟩
  · unfold RoundEnd at hround
    unfold Draining at hdraining
    split at hround <;> simp_all

theorem pop_works (hs : Reachable (job c) s) (hpc : (s.proc p).pc = .exec .pop) (hbusy : Busy (s.proc p)) :
    ∃ r, (job c).Leads s (s.set p r) ∧ Works c (s.proc p) s.shared r := by
  obtain ⟨r, hr, hworks | ⟨hsame, hpc', hdeque⟩⟩ := pop_leads hsync hcancel hs hpc
  · exact ⟨r, hr, hworks⟩
  · have hreceived := hbusy.resolve_left (not_not.mpr hdeque)
    obtain ⟨r', hr', hworks⟩ := advance_works hsync hcancel (hr.reachable hs) (p := p)
      (by rwa [set_proc_self]) (by rwa [set_proc_self, hsame.tasksReceived])
    rw [set_proc_self, set_shared] at hworks
    exact ⟨r', hr.solo hr', hworks.after hsame (by rw [hpc']; rfl)⟩

/-- In the barrier there is work only with received operations, and then the
barrier is not complete. -/
theorem received_works (hs : Reachable (job c) s) (hpc : (s.proc p).pc = .cbarrier .received)
    (hbusy : Busy (s.proc p)) : ∃ r, (job c).Leads s (s.set p r) ∧ Works c (s.proc p) s.shared r := by
  have hreceived : 0 < (s.proc p).tasksReceived := by
    rcases hbusy with hdeque | hreceived
    · exact ((detected_reachable hs p).idle (by rw [hpc]; rfl)).resolve_left fun h => hdeque h.2.2.2
    · exact hreceived
  have hcount : s.shared.cbCount < n := by
    by_contra hnot
    have hfull := full_of_count (several_of_cbarrier hs hpc) hs hnot
    have hquiescent := quiescent_of_finished hs fun q => finished_of_entered (hfull q).1
    rw [(hquiescent.received p).1] at hreceived
    exact absurd hreceived (lt_irrefl 0)
  have htested : commStep c p ⟨p, none⟩ (s.proc p) s.shared =
      some ((s.proc p).goto (.cbarrier .dec), s.shared) := by
    simp [commStep, hpc, cbarrier, Place.receivedTasksFromVictim, hreceived]
  have hleft := solo_comm hsync hcancel ⟨p, none⟩ hs (comm_leads hsync hcancel hs htested)
    (if_pos hcount)
  obtain ⟨r, hr, hworks⟩ := pop_works hsync hcancel (hleft.reachable hs) (p := p) (by rw [set_proc_self]; rfl)
    (by rw [set_proc_self]; exact .inr hreceived)
  have hsame : Same (s.proc p) s.shared ((s.proc p).goto (.exec .pop),
      { s.shared with cbCount := s.shared.cbCount - 1 }) := same_of rfl rfl
  rw [set_proc_self, set_shared] at hworks
  exact ⟨r, hleft.solo hr, hworks.after hsame rfl⟩

theorem busy_works (hs : Reachable (job c) s) (hneutral : Neutral c (s.proc p).pc)
    (hbusy : Busy (s.proc p)) : ∃ r, (job c).Leads s (s.set p r) ∧ Works c (s.proc p) s.shared r := by
  obtain ⟨r, hr, hworks | ⟨hsame, -, hround⟩⟩ := round_ends hsync hcancel hs (K := fun _ => True)
    (fun _ _ _ _ _ _ _ => trivial) hneutral trivial
  · exact ⟨r, hr, hworks⟩
  · have hreach := hr.reachable hs
    have hself : (s.set p r).proc p = r.1 := set_proc_self ..
    have hbusy' := busy_same hsame hbusy
    have hafter (h : ∃ r', (job c).Leads (s.set p r) ((s.set p r).set p r') ∧ Works c r.1 r.2 r') :
        ∃ r', (job c).Leads s (s.set p r') ∧ Works c (s.proc p) s.shared r' := by
      obtain ⟨r', hr', hworks⟩ := h
      exact ⟨r', hr.solo hr', hworks.after hsame (roundEnd_unloaded hround)⟩
    rw [← hself] at hbusy'
    have hend := hround
    unfold RoundEnd at hend
    split at hend
    · have h := pop_works hsync hcancel hreach (p := p) (by rwa [hself]) hbusy'
      rw [hself, set_shared] at h
      exact hafter h
    · have h := received_works hsync hcancel hreach (p := p) (by rwa [hself]) hbusy'
      rw [hself, set_shared] at h
      exact hafter h
    · have hquiescent := terminated hreach (p := p) (by rwa [hself])
      rcases hbusy' with hdeque | hreceived
      · exact absurd (hquiescent.commTasks p).2.1 hdeque
      · rw [(hquiescent.received p).1] at hreceived
        exact absurd hreceived (lt_irrefl 0)
    · exact hend.elim

/-- An operation in flight is received when its target polls. -/
theorem polling_works (hs : Reachable (job c) s) {m : Msg n} (hm : m ∈ s.shared.net)
    (hloop : InLoop (s.proc m.target).pc) (hpolls : (s.proc m.target).pc.polls = true) :
    ∃ r, (job c).Leads s (s.set m.target r) ∧ Works c (s.proc m.target) s.shared r := by
  obtain ⟨hframes, hslot⟩ := no_slot hsync hs
  have hpolls' : polls (s.proc m.target) = true := by
    rw [polls, hframes]
    exact hpolls
  have hreceived : 0 ≤ (s.proc m.target).tasksReceived := by
    rw [(counted_reachable hs m.target).received]
    exact Int.natCast_nonneg _
  have hdeliver : act c m.target (.deliver m) (s.proc m.target) s.shared =
      some (receive c m.target (s.proc m.target) { s.shared with net := s.shared.net.erase m } m) := by
    rw [act, if_pos (running_reachable hcancel hs)]
    exact if_pos ⟨hm, rfl, hpolls'⟩
  refine ⟨_, leads_of_act hdeliver, deliver_works (act_step hdeliver) hloop hreceived ?_⟩
  rintro p q tasks rfl
  exact hslot p q tasks hm

variable (hplaces : c.mode = .successOnly → 2 ≤ n)
include hplaces

omit hsync hcancel in
/-- Only the search of the success-only mode draws its victims, and has another
place to draw. -/
theorem exists_victim (hs : Reachable (job c) s) (p : Fin n) :
    ∃ v, ∀ l, (s.proc p).pc = .lifeline l → c.lifelines = true ∨ v ≠ p := by
  by_cases hmode : c.mode = .successOnly
  · have : Nontrivial (Fin n) := Fin.nontrivial_iff_two_le.mpr (hplaces hmode)
    obtain ⟨v, hv⟩ := exists_ne p
    exact ⟨v, fun _ _ => .inr hv⟩
  · refine ⟨p, fun l hl => .inl ?_⟩
    have hallowed := allowed_reachable hs p
    rw [hl] at hallowed
    simpa [allowed, Config.lifelines, hmode] using hallowed

theorem message_works (hs : Reachable (job c) s) {m : Msg n} (hm : m ∈ s.shared.net)
    (hloop : InLoop (s.proc m.target).pc) :
    ∃ r, (job c).Leads s (s.set m.target r) ∧ Works c (s.proc m.target) s.shared r := by
  rcases Nat.eq_zero_or_pos (statementLoad c (s.proc m.target).pc) with hzero | hpos
  · obtain ⟨r, hr, hworks | ⟨hsame, h⟩⟩ := poll_leads hsync hcancel hs ⟨hloop, hzero⟩
    · exact ⟨r, hr, hworks⟩
    · have hm' : m ∈ (s.set m.target r).shared.net := by rwa [set_shared, hsame.net]
      have hself : (s.set m.target r).proc m.target = r.1 := set_proc_self ..
      rcases h with ⟨hneutral, hpolls⟩ | hended
      · obtain ⟨r', hr', hworks⟩ := polling_works hsync hcancel (hr.reachable hs) hm'
          (by rw [hself]; exact hneutral.inLoop) (by rwa [hself])
        rw [hself, set_shared] at hworks
        exact ⟨r', hr.solo hr', hworks.after hsame hneutral.unloaded⟩
      · have hquiescent := no_pendingWork (hr.reachable hs)
          (finished_of_ended (hr.reachable hs) (p := m.target) (by rwa [hself]))
        have hload := List.single_le_sum (l := (s.set m.target r).shared.net.map msgLoad)
          (fun _ _ => Nat.zero_le _) _ (List.mem_map_of_mem hm')
        have hpos : 0 < msgLoad m := by cases m <;> simp [msgLoad]
        simp only [pendingWork, netLoad] at hquiescent
        omega
  · by_cases hwait : ∃ i k, (s.proc m.target).pc = .lifeline (.wait i k) ∧
        (s.proc m.target).waitingForReturnAsync = true
    · obtain ⟨i, k, hpc, -⟩ := hwait
      exact polling_works hsync hcancel hs hm hloop (by rw [hpc]; rfl)
    · obtain ⟨v, hv⟩ := exists_victim hplaces hs m.target
      obtain ⟨r, hr, hworks⟩ := statement_works m.target v (P := s.proc m.target) (g := s.shared)
        hsync hpos hv fun i k hpc => by
          by_contra h
          exact hwait ⟨i, k, hpc, by simpa using h⟩
      exact ⟨r, comm_leads hsync hcancel hs hr, hworks⟩

theorem place_works (hs : Reachable (job c) s) (hnet : s.shared.net = []) (hloop : InLoop (s.proc p).pc)
    (hload : 0 < load c (s.proc p)) : ∃ r, (job c).Leads s (s.set p r) ∧ Works c (s.proc p) s.shared r := by
  rcases Nat.eq_zero_or_pos (statementLoad c (s.proc p).pc) with hzero | hpos
  · by_cases htask : 0 < (s.proc p).asyncs ∨ (s.proc p).asyncAnys ≠ [] ∨ (s.proc p).sending ≠ []
    · obtain ⟨a, r, hr, hworks⟩ := task_works p (c := c) (g := s.shared) hloop htask
      have hact : act c p (.work a) (s.proc p) s.shared = some r := by
        rw [act, if_pos (running_reachable hcancel hs)]
        exact hr
      exact ⟨r, leads_of_act hact, hworks⟩
    · refine busy_works hsync hcancel hs ⟨hloop, hzero⟩ ?_
      by_contra hbusy
      simp only [Busy, not_or, not_not, not_lt] at htask hbusy
      simp only [load, taskLoad, htask, hbusy, hzero, List.length_nil] at hload
      omega
  · obtain ⟨v, hv⟩ := exists_victim hplaces hs p
    obtain ⟨r, hr, hworks⟩ := statement_works p v (P := s.proc p) (g := s.shared) hsync hpos hv
      fun i k hpc => by
        have hcount := waiting_reachable hs p
        rw [hnet, List.countP_nil] at hcount
        exact Bool.toNat_eq_zero.mp hcount
    exact ⟨r, comm_leads hsync hcancel hs hr, hworks⟩

/-- While anything is left to do and all places are in the main loop, some place
can do a part of it. -/
theorem some_works (hs : Reachable (job c) s) (hloop : ∀ q, InLoop (s.proc q).pc)
    (hpending : 0 < pendingWork c s) :
    ∃ p r, (job c).Leads s (s.set p r) ∧ Works c (s.proc p) s.shared r := by
  cases hnet : s.shared.net with
  | cons m net =>
      exact ⟨m.target, message_works hsync hcancel hplaces hs (hnet ▸ List.mem_cons_self) (hloop _)⟩
  | nil =>
      have hload : ∃ p, 0 < load c (s.proc p) := by
        by_contra hnone
        simp only [not_exists, not_lt, Nat.le_zero] at hnone
        simp [pendingWork, netLoad, hnet, total, hnone] at hpending
      obtain ⟨p, hp⟩ := hload
      exact ⟨p, place_works hsync hcancel hplaces hs hnet (hloop p) hp⟩

end

end HabaneroUpc.Completion
