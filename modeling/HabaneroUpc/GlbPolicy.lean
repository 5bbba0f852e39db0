import HabaneroUpc.Steps

namespace HabaneroUpc.GlbPolicy

open Interleaving

variable {n : Nat}

/-- initialize_distws_setOfThieves reads HCPP_DIST_WS_GLB_RAND at rank 0 only;
elsewhere glb_max_rand_attempts keeps its initial value. -/
def initializeGlbMaxRandAttempts (env : Option Nat) (rank : Fin n) : Nat :=
  if rank.val = 0 then env.getD 1 else 1

def glbRand (env : Option Nat) : Nat := env.getD 1

/-- attempt_synchronous_steal is about to return FAILED_STEAL: the victim had a
load, and its slot was not available. -/
def fails (pc : PC n) : Act n → Bool
  | .comm _ => match pc with
    | .steal (.unlock _ _ false) => true
    | _ => false
  | _ => false

def resets (pc : PC n) (pc' : PC n) : Act n → Bool
  | .comm _ => match pc, pc' with
    | .loop .branch, .serve _ => true
    | .steal .reopen, _ => true
    | _, _ => false
  | _ => false

def failedSteals (s : State n) (p : Fin n) (a : Act n) (s' : State n) (failed : Fin n → Nat) :
    Fin n → Nat :=
  if resets (s.proc p).pc (s'.proc p).pc a then Function.update failed p 0
  else if fails (s.proc p).pc a then Function.update failed p (failed p + 1)
  else failed

abbrev Attempted (c : Config n) : State n → (Fin n → Nat) → Prop :=
  Traced (job c) (fun _ _ _ _ => True) failedSteals (job c).init fun _ => 0

def searching : PC n → Bool
  | .steal (.unlock _ _ true) | .steal (.wait _) | .steal .received | .steal .reopen => false
  | .steal _ => true
  | _ => false

inductive AttemptChange (c : Config n) (me : Fin n) (a : Act n) (P P' : Place n) : Prop
  | same (hcount : P'.currentGlbMaxRandAttempts = P.currentGlbMaxRandAttempts)
      (hfails : fails P.pc a = false) (hresets : resets P.pc P'.pc a = false)
      (hsearching : searching P'.pc = true → searching P.pc = true ∨
        P.currentGlbMaxRandAttempts < c.glbMaxRandAttempts me)
      (hlifeline : P'.pc = .lifeline (.loop 0 0) → P.pc = .lifeline (.loop 0 0) ∨
        c.glbMaxRandAttempts me ≤ P.currentGlbMaxRandAttempts)
  | failed (hcount : P'.currentGlbMaxRandAttempts = P.currentGlbMaxRandAttempts + 1)
      (hpc : searching P.pc = true) (hfails : fails P.pc a = true) (hresets : resets P.pc P'.pc a = false)
      (hsearching : searching P'.pc = true →
        P'.currentGlbMaxRandAttempts < c.glbMaxRandAttempts me)
      (hlifeline : P'.pc = .lifeline (.loop 0 0) →
        c.glbMaxRandAttempts me ≤ P'.currentGlbMaxRandAttempts)
  | reset (hcount : P'.currentGlbMaxRandAttempts = 0) (hresets : resets P.pc P'.pc a = true)
      (hsearching : searching P'.pc = false) (hlifeline : P'.pc ≠ .lifeline (.loop 0 0))

variable {c : Config n} {me : Fin n} {ch : Choice n} {P P' : Place n} {g g' : Shared n}

theorem AttemptChange.of_quiet {a : Act n}
    (hcount : P'.currentGlbMaxRandAttempts = P.currentGlbMaxRandAttempts)
    (hfails : fails P.pc a = false) (hresets : resets P.pc P'.pc a = false)
    (hsearching : searching P'.pc = false) (hlifeline : P'.pc ≠ .lifeline (.loop 0 0)) :
    AttemptChange c me a P P' :=
  .same hcount hfails hresets (fun h => absurd h (by simp [hsearching])) fun h => absurd h hlifeline

theorem AttemptChange.of_searching {a : Act n} (hpc : searching P.pc = true)
    (hcount : P'.currentGlbMaxRandAttempts = P.currentGlbMaxRandAttempts)
    (hfails : fails P.pc a = false) (hresets : resets P.pc P'.pc a = false)
    (hlifeline : P'.pc = .lifeline (.loop 0 0) →
      c.glbMaxRandAttempts me ≤ P.currentGlbMaxRandAttempts) : AttemptChange c me a P P' :=
  .same hcount hfails hresets (fun _ => .inl hpc) fun h => .inr (hlifeline h)

theorem search_change (hmode : c.mode = .glb) {a : Act n}
    (hcount : P'.currentGlbMaxRandAttempts = P.currentGlbMaxRandAttempts)
    (hfails : fails P.pc a = false) (hresets : resets P.pc P'.pc a = false) {Q : Place n}
    (hQ : Q.currentGlbMaxRandAttempts = P.currentGlbMaxRandAttempts)
    (hpc : P'.pc = searchTasksGlobally c me Q) : AttemptChange c me a P P' := by
  simp only [searchTasksGlobally, hmode, hQ] at hpc
  refine .same hcount hfails hresets ?_ ?_
  · intro hs
    split at hpc
    · exact .inr ‹_›
    · rw [hpc] at hs
      cases hs
  · intro hl
    split at hpc
    · rw [hpc] at hl
      cases hl
    · exact .inr (Nat.le_of_not_lt ‹_›)

theorem follows_outside {pc pc' : PC n} (h : follows pc pc' = true) (hidle : ∀ l, pc ≠ .idle l)
    (hsteal : ∀ l, pc ≠ .steal l) (hlifeline : ∀ l, pc ≠ .lifeline l) :
    searching pc' = false ∧ pc' ≠ .lifeline (.loop 0 0) := by
  cases pc with
  | idle l => exact absurd rfl (hidle l)
  | steal l => exact absurd rfl (hsteal l)
  | lifeline l => exact absurd rfl (hlifeline l)
  | _ => cases pc' <;> simp_all [follows, searching]

theorem feed_change (hmode : c.mode = .glb) (hpc : P.pc = .loop .branch) :
    AttemptChange c me (.comm ch) P (feedRemoteThieves c P) := by
  have hfeed : feedRemoteThieves c P =
      { P with currentGlbMaxRandAttempts := 0, outOfWork := false, pc := .serve .renew } := by
    simp only [feedRemoteThieves, hmode]
  rw [hfeed]
  refine .reset rfl ?_ rfl (by simp)
  simp [resets, hpc]

theorem loop_change (hmode : c.mode = .glb) {l : LoopPc} (hl : P.pc = .loop l)
    (hcomm : commStep c me ch P g = some (P', g')) (h : finishLoop c me P g l = some (P', g')) :
    AttemptChange c me (.comm ch) P P' := by
  obtain ⟨hs, hlife⟩ := follows_outside (commStep_follows hcomm) (by simp [hl]) (by simp [hl]) (by simp [hl])
  cases l with
  | branch =>
      simp only [finishLoop] at h
      split at h <;> cases h
      · exact .of_quiet rfl (by simp [fails, hl]) (by simp [resets, hl, Place.goto]) hs hlife
      · exact feed_change hmode hl
  | advance | checkIncoming | test | scan =>
      refine .of_quiet ?_ (by simp [fails, hl]) (by simp [resets, hl]) hs hlife
      simp only [finishLoop] at h
      repeat' split at h
      all_goals
        cases h
        rfl

theorem idle_change (hmode : c.mode = .glb) {l : IdlePc n} (hl : P.pc = .idle l)
    (h : markMyPlaceAsIdle c me P g l = some (P', g')) : AttemptChange c me (.comm ch) P P' := by
  have hfails : fails P.pc (.comm ch) = false := by simp [fails, hl]
  have hresets (pc' : PC n) : resets P.pc pc' (.comm ch) = false := by simp [resets, hl]
  cases l with
  | mark =>
      simp only [markMyPlaceAsIdle, Config.synchronous, hmode] at h
      split at h <;> cases h
      · exact search_change hmode rfl hfails (hresets _) rfl rfl
      · exact .of_quiet rfl hfails (hresets _) rfl (by simp)
  | lock =>
      simp only [markMyPlaceAsIdle] at h
      split at h <;> cases h
      exact .of_quiet rfl hfails (hresets _) rfl (by simp [Place.goto])
  | read | write pendingReq =>
      cases h
      exact .of_quiet rfl hfails (hresets _) rfl (by simp [Place.goto])
  | unlock pendingReq =>
      cases h
      cases pendingReq with
      | thief t => exact .of_quiet rfl hfails (hresets _) rfl (by simp [Place.goto])
      | available | unavailable => exact search_change hmode rfl hfails (hresets _) rfl rfl
  | invalidate t =>
      cases h
      exact search_change hmode rfl hfails (hresets _) rfl rfl

theorem searchFailed_change (hmode : c.mode = .glb) (me : Fin n) (attempts : Nat) :
    searching (searchFailed c me attempts) = false ∧
      (searchFailed c me attempts = .lifeline (.loop 0 0) → c.glbMaxRandAttempts me ≤ attempts) := by
  simp only [searchFailed, hmode, true_and]
  split
  · exact ⟨rfl, fun _ => ‹_›⟩
  · exact ⟨rfl, fun h => by cases h⟩

theorem nextVictim_change (hmode : c.mode = .glb) (me : Fin n) (attempts i : Nat) :
    (searching (nextVictim c me attempts i) = true → attempts < c.glbMaxRandAttempts me) ∧
      (nextVictim c me attempts i = .lifeline (.loop 0 0) → c.glbMaxRandAttempts me ≤ attempts) := by
  have hfailed := searchFailed_change hmode me attempts
  simp only [nextVictim, hmode, true_and]
  split
  · exact ⟨fun _ => by simp_all, hfailed.2⟩
  · exact ⟨fun _ => Nat.lt_of_not_le ‹_›, fun h => by cases h⟩

theorem steal_change (hmode : c.mode = .glb) {l : StealPc n} (hl : P.pc = .steal l)
    (h : searchTasksGloballySynchronous c me ch P g l = some (P', g')) :
    AttemptChange c me (.comm ch) P P' := by
  cases l with
  | loop i =>
      have hpc : searching P.pc = true := by simp [searching, hl]
      have hfails : fails P.pc (.comm ch) = false := by simp [fails, hl]
      have hresets (pc' : PC n) : resets P.pc pc' (.comm ch) = false := by simp [resets, hl]
      simp only [searchTasksGloballySynchronous] at h
      split at h
      · split at h <;> cases h
        exact .of_searching hpc rfl hfails (hresets _) (fun h => by cases h)
      · cases h
        have hnext := searchFailed_change hmode me P.currentGlbMaxRandAttempts
        exact .of_searching hpc rfl hfails (hresets _) hnext.2
  | probe i v =>
      have hpc : searching P.pc = true := by simp [searching, hl]
      have hfails : fails P.pc (.comm ch) = false := by simp [fails, hl]
      have hresets (pc' : PC n) : resets P.pc pc' (.comm ch) = false := by simp [resets, hl]
      simp only [searchTasksGloballySynchronous] at h
      split at h <;> cases h
      · exact .of_searching hpc rfl hfails (hresets _) (fun h => by cases h)
      · have hnext := nextVictim_change hmode me P.currentGlbMaxRandAttempts i
        exact .of_searching hpc rfl hfails (hresets _) hnext.2
  | lock i v =>
      simp only [searchTasksGloballySynchronous] at h
      split at h <;> cases h
      exact .of_searching (by simp [searching, hl]) rfl (by simp [fails, hl]) (by simp [resets, hl])
        (fun h => by cases h)
  | test i v | flag i v | register i v =>
      cases h
      exact .of_searching (by simp [searching, hl]) rfl (by simp [fails, hl]) (by simp [resets, hl])
        (fun h => by cases h)
  | unlock i v success =>
      cases success with
      | true =>
          cases h
          exact .of_quiet rfl (by simp [fails, hl]) (by simp [resets, hl]) rfl (by simp [Place.goto])
      | false =>
          cases h
          have hnext := nextVictim_change hmode me (P.currentGlbMaxRandAttempts + 1) i
          refine .failed ?_ (by simp [searching, hl]) (by simp [fails, hl]) (by simp [resets, hl]) ?_ ?_
          all_goals simp only [hmode, if_true]
          · exact hnext.1
          · exact hnext.2
  | wait v =>
      simp only [searchTasksGloballySynchronous] at h
      split at h <;> cases h
      exact .of_quiet rfl (by simp [fails, hl]) (by simp [resets, hl]) rfl (by simp [Place.goto])
  | received =>
      cases h
      exact .of_quiet rfl (by simp [fails, hl]) (by simp [resets, hl]) rfl (by simp [Place.goto])
  | reopen =>
      cases h
      exact .reset (by simp [hmode]) (by simp [resets, hl]) rfl (by simp)

theorem lifeline_change {l : LifelinePc n} (hl : P.pc = .lifeline l)
    (h : searchForLifelines c me ch P g l = some (P', g')) : AttemptChange c me (.comm ch) P P' := by
  have hfails : fails P.pc (.comm ch) = false := by simp [fails, hl]
  have hresets (pc' : PC n) : resets P.pc pc' (.comm ch) = false := by simp [resets, hl]
  cases l with
  | loop i k =>
      simp only [searchForLifelines] at h
      repeat' split at h
      all_goals cases h
      all_goals exact .of_quiet rfl hfails (hresets _) rfl (by simp [Place.goto])
  | probe i k v =>
      cases h
      by_cases hload : c.taskTransferThreshold me < g.workAvail v <;>
        exact .of_quiet rfl hfails (hresets _) (by simp [Place.goto, hload, searching])
          (by simp [Place.goto, hload])
  | send i k v =>
      simp only [searchForLifelines] at h
      rw [markVictimContacted_eq] at h
      cases h
      exact .of_quiet rfl hfails (hresets _) rfl (by simp)
  | wait i k =>
      simp only [searchForLifelines] at h
      split at h <;> cases h
      exact .of_quiet rfl hfails (hresets _) rfl (by simp [Place.goto])

theorem ship_count {l : ShipPc n} (h : shipAsyncAny c me ch P g l = some (P', g')) :
    P'.currentGlbMaxRandAttempts = P.currentGlbMaxRandAttempts := by
  cases l with
  | steal requestor tasks =>
      simp only [shipAsyncAny] at h
      repeat' split at h
      all_goals cases h
      all_goals rfl
  | inc | reopen | advance =>
      cases h
      rfl
  | ship requestor tasks =>
      cases requestor with
      | none =>
          obtain ⟨thief, q, hq⟩ : ∃ thief q, ThiefQueue.popThief P.thiefQueue = (thief, q) := ⟨_, _, rfl⟩
          simp only [shipAsyncAny, hq] at h
          cases thief <;> cases h <;> rfl
      | some thief =>
          cases h
          rfl

/-- The steps outside the search and the branch that leads to it. -/
theorem count_kept (hcomm : commStep c me ch P g = some (P', g')) (hloop : ∀ l, P.pc ≠ .loop l)
    (hidle : ∀ l, P.pc ≠ .idle l) (hsteal : ∀ l, P.pc ≠ .steal l)
    (hlifeline : ∀ l, P.pc ≠ .lifeline l) : P'.currentGlbMaxRandAttempts = P.currentGlbMaxRandAttempts := by
  cases hl : P.pc with
  | loop l => exact absurd hl (hloop l)
  | idle l => exact absurd hl (hidle l)
  | steal l => exact absurd hl (hsteal l)
  | lifeline l => exact absurd hl (hlifeline l)
  | ship l =>
      simp only [commStep, hl] at hcomm
      exact ship_count hcomm
  | spmd l | exec l | publish l | drain l | cbarrier l | serve l =>
      simp only [commStep, hl] at hcomm
      cases l <;> simp only [finishSpmd, leaveBarrier, popExecuteCommTask, publishLocalLoadInfo,
        decrementTasksInFlightCount, cbarrier, serve] at hcomm
      all_goals repeat' split at hcomm
      all_goals cases hcomm
      all_goals rfl

theorem comm_change (hmode : c.mode = .glb) (h : commStep c me ch P g = some (P', g')) :
    AttemptChange c me (.comm ch) P P' := by
  have hcomm := h
  cases hl : P.pc with
  | loop l =>
      simp only [commStep, hl] at h
      exact loop_change hmode hl hcomm h
  | idle l =>
      simp only [commStep, hl] at h
      exact idle_change hmode hl h
  | steal l =>
      simp only [commStep, hl] at h
      exact steal_change hmode hl h
  | lifeline l =>
      simp only [commStep, hl] at h
      exact lifeline_change hl h
  | spmd l | exec l | publish l | drain l | cbarrier l | serve l | ship l =>
      obtain ⟨hs, hlife⟩ := follows_outside (commStep_follows hcomm) (by simp [hl]) (by simp [hl])
        (by simp [hl])
      exact .of_quiet (count_kept hcomm (by simp [hl]) (by simp [hl]) (by simp [hl]) (by simp [hl]))
        (by simp [fails, hl]) (by simp [resets, hl]) hs hlife

theorem act_change (hmode : c.mode = .glb) {a : Act n} (h : act c me a P g = some (P', g')) :
    AttemptChange c me a P P' := by
  have hrest (hcount : P'.currentGlbMaxRandAttempts = P.currentGlbMaxRandAttempts)
      (hfails : fails P.pc a = false) (hresets : resets P.pc P'.pc a = false)
      (hpc : P'.pc = P.pc) : AttemptChange c me a P P' :=
    .same hcount hfails hresets (fun hs => .inl (hpc ▸ hs)) fun hl => .inl (hpc ▸ hl)
  cases a with
  | comm ch => exact comm_change hmode (act_comm h).2
  | resume | deliver | work | idle => cases act_step h <;> exact hrest rfl rfl rfl rfl

/-- The counter of a place is the number of its failed attempts, which the
place makes only below its limit. -/
structure Counts (c : Config n) (me : Fin n) (P : Place n) (failed : Nat) : Prop where
  counter : P.currentGlbMaxRandAttempts = failed
  bound : failed ≤ c.glbMaxRandAttempts me
  searches : searching P.pc = true → failed < c.glbMaxRandAttempts me
  lifeline : P.pc = .lifeline (.loop 0 0) → failed = c.glbMaxRandAttempts me

variable {s s' : State n} {p : Fin n} {a : Act n} {failed : Fin n → Nat}

theorem counts_own (h : AttemptChange c p a (s.proc p) (s'.proc p))
    (hC : Counts c p (s.proc p) (failed p)) : Counts c p (s'.proc p) (failedSteals s p a s' failed p) := by
  have hcounter := hC.counter
  have hbound := hC.bound
  cases h with
  | same hcount hfails hresets hsearching hlifeline =>
      have hkept : failedSteals s p a s' failed p = failed p := by simp [failedSteals, hresets, hfails]
      rw [hkept]
      refine ⟨hcount.trans hcounter, hbound, ?_, ?_⟩
      · intro hs
        rcases hsearching hs with hs | hlt
        · exact hC.searches hs
        · omega
      · intro hl
        rcases hlifeline hl with hl | hle
        · exact hC.lifeline hl
        · omega
  | failed hcount hpc hfails hresets hsearching hlifeline =>
      have hmore : failedSteals s p a s' failed p = failed p + 1 := by
        simp [failedSteals, hresets, hfails]
      have hlt := hC.searches hpc
      rw [hmore]
      refine ⟨by omega, hlt, ?_, ?_⟩
      · intro hs
        have hnext := hsearching hs
        omega
      · intro hl
        have hnext := hlifeline hl
        omega
  | reset hcount hresets hsearching hlifeline =>
      have hnone : failedSteals s p a s' failed p = 0 := by simp [failedSteals, hresets]
      rw [hnone]
      refine ⟨hcount, Nat.zero_le _, ?_, fun hl => absurd hl hlifeline⟩
      intro hs
      rw [hsearching] at hs
      cases hs

theorem failedSteals_of_ne {q : Fin n} (hq : q ≠ p) : failedSteals s p a s' failed q = failed q := by
  simp only [failedSteals]
  split
  · exact Function.update_of_ne hq ..
  · split
    · exact Function.update_of_ne hq ..
    · rfl

theorem counts_reachable (hmode : c.mode = .glb) (ht : Attempted c s failed) (p : Fin n) :
    Counts c p (s.proc p) (failed p) := by
  refine ht.invariant (I := fun s failed => ∀ p, Counts c p (s.proc p) (failed p)) .init ?_ ?_ p
  · intro p
    refine ⟨rfl, Nat.zero_le _, ?_, ?_⟩
    · intro h
      cases h
    · intro h
      cases h
  · intro s me a P' g' failed _ _ hI ha q
    by_cases hq : q = me
    · subst q
      apply counts_own _ (hI me)
      simpa using act_change hmode ha
    · rw [failedSteals_of_ne hq, set_proc_of_ne _ _ hq]
      exact hI q

/-- A place that enters search_for_lifelines(true) has failed as often as its
own limit says, which is that of the environment at rank 0 only. -/
theorem glb_policy (c : Config n) (hmode : c.mode = .glb) (env : Option Nat)
    (hinit : c.glbMaxRandAttempts = initializeGlbMaxRandAttempts env) (hK : 1 ≤ glbRand env)
    (ht : Attempted c s failed) (p : Fin n) :
    (s.proc p).currentGlbMaxRandAttempts = failed p ∧ failed p ≤ glbRand env ∧
      ((s.proc p).pc = .lifeline (.loop 0 0) →
        (failed p = glbRand env ↔ p.val = 0 ∨ glbRand env = 1)) := by
  have hC := counts_reachable hmode ht p
  have hlimit : c.glbMaxRandAttempts p = if p.val = 0 then glbRand env else 1 := congrFun hinit p
  have hbound := hC.bound
  refine ⟨hC.counter, ?_, ?_⟩
  · split at hlimit <;> omega
  · intro hl
    rw [hC.lifeline hl, hlimit]
    split <;> omega

def threePlaces (env : Option Nat) : Config 3 where
  mode := .glb
  cancelCyclicSteals := false
  assertionCheck := true
  numWorkers := fun _ => 1
  totalTasksStolenInOneShot := (twoPlaces .glb false).totalTasksStolenInOneShot
  glbMaxRandAttempts := initializeGlbMaxRandAttempts env
  logRanks := 1
  workers_pos := fun _ => Nat.one_pos
  stolen_le := (twoPlaces .glb false).stolen_le

-- The literals of Fin 3 in the run below share this instance.
instance neZeroThree : NeZero 3 := ⟨by decide⟩

def steps (p : Fin 3) (k : Nat) : List (Fin 3 × Act 3) := List.replicate k (p, .comm ⟨0, none⟩)

def secondThief : List (Fin 3 × Act 3) :=
  steps 0 2 ++ steps 1 2 ++ steps 2 2 ++ steps 0 1 ++ steps 1 1 ++ steps 2 1 ++
    (List.range 3).map (fun t => (0, .work (.asyncAny t))) ++
    steps 0 2 ++ steps 1 2 ++ steps 2 2 ++ steps 0 1 ++ steps 1 1 ++ steps 2 1 ++
    steps 0 9 ++ [(2, .idle 1)] ++ steps 2 16 ++ [(1, .idle 1)] ++ steps 1 14

set_option maxRecDepth 20000 in
theorem secondThief_attempted : ∃ s failed, Attempted (threePlaces (some 2)) s failed ∧
    (s.proc 1).pc = .lifeline (.loop 0 0) ∧ failed 1 = 1 := by
  have h : ((job (threePlaces (some 2))).trace (fun _ _ _ _ => true) failedSteals
      (job (threePlaces (some 2))).init (fun _ => 0) secondThief).any
        (fun r => (r.1.proc 1).pc = .lifeline (.loop 0 0) ∧ r.2 1 = 1) = true := by
    decide +kernel
  obtain ⟨r, hr, hend⟩ := Option.any_eq_true .. |>.mp h
  obtain ⟨hpc, hfailed⟩ := of_decide_eq_true hend
  have ht := traced_of_trace hr
  exact ⟨r.1, r.2, ht.mono fun _ _ _ _ _ => trivial, hpc, hfailed⟩

theorem glb_policy_secondThief : ∃ s failed, Attempted (threePlaces (some 2)) s failed ∧
    (failed 1 = 2 ↔ (1 : Fin 3).val = 0 ∨ 2 = 1) := by
  obtain ⟨s, failed, ht, hpc, -⟩ := secondThief_attempted
  exact ⟨s, failed, ht, (glb_policy _ rfl (some 2) rfl (by decide) ht 1).2.2 hpc⟩

-- HCPP_DIST_WS_GLB_RAND is 2, and place 1 sets up lifelines after one attempt.
theorem lifelines_too_early : ∃ s failed, Attempted (threePlaces (some 2)) s failed ∧
    (s.proc 1).pc = .lifeline (.loop 0 0) ∧ failed 1 ≠ glbRand (some 2) := by
  obtain ⟨s, failed, ht, hpc, hfailed⟩ := secondThief_attempted
  refine ⟨s, failed, ht, hpc, ?_⟩
  rw [hfailed]
  decide

end HabaneroUpc.GlbPolicy
