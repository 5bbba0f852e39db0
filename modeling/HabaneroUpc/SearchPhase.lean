import HabaneroUpc.VictimSelection
import HabaneroUpc.Modes
import Mathlib.Order.Lattice.Nat

namespace HabaneroUpc.VictimSelection

open Eventually

variable {n : Nat}

def searching : PC n → Bool
  | .idle _ | .steal _ | .lifeline _ => true
  | _ => false

def blocked (me : Fin n) (s : Search n) : Bool :=
  match s.place.pc with
  | .idle .lock => s.shared.reqLock me ≠ none
  | .steal (.lock _ v) => s.shared.reqLock v ≠ none
  | .steal (.wait _) => s.shared.waitForTaskFromVictim me
  | .lifeline (.wait _ _) => s.place.waitingForReturnAsync
  | _ => false

structure SearchRun (stream : Nat → Nat) (c : Config n) (me : Fin n) where
  state : Nat → Search n
  step : ∀ t, SearchStep (.rand stream) c me (state t) (state (t + 1))

namespace SearchRun

variable {stream : Nat → Nat} {c : Config n} {me : Fin n}

def Moves (run : SearchRun stream c me) (t : Nat) : Prop :=
  ∃ stolen, worker (.rand stream) c me stolen (run.state t) = some (run.state (t + 1))

/-- The worker executes its statements when they can be executed, and what it
waits for in a search comes. -/
structure Fair (run : SearchRun stream c me) : Prop where
  scheduled : ∀ t, searching (run.state t).place.pc = true → blocked me (run.state t) = false →
    ∃ t', t ≤ t' ∧ run.Moves t'
  ownLock : ∀ t, (run.state t).place.pc = .idle .lock →
    ∃ t', t ≤ t' ∧ (run.state t').shared.reqLock me = none
  lock : ∀ t i v, (run.state t).place.pc = .steal (.lock i v) →
    ∃ t', t ≤ t' ∧ (run.state t').shared.reqLock v = none
  acknowledged : ∀ t i k, (run.state t).place.pc = .lifeline (.wait i k) →
    ∃ t', t ≤ t' ∧ (run.state t').place.waitingForReturnAsync = false
  answered : ∀ t v, (run.state t).place.pc = .steal (.wait v) →
    ∃ t', t ≤ t' ∧ (run.state t').shared.waitForTaskFromVictim me = false

variable {run : SearchRun stream c me}

theorem rest {t : Nat} (h : ¬run.Moves t) :
    (run.state (t + 1)).place.pc = (run.state t).place.pc ∧
      (run.state (t + 1)).selector = (run.state t).selector := by
  have hstep := run.step t
  generalize hs' : run.state (t + 1) = s' at hstep
  cases hstep with
  | worker stolen hw => exact absurd ⟨stolen, hs' ▸ hw⟩ h
  | place a ha hact => exact ⟨place_pc ha hact, rfl⟩
  | others g => exact ⟨rfl, rfl⟩

/-- While it does not move it stays at its statement until any given time. -/
theorem moves_or_stays (run : SearchRun stream c me) {t t' : Nat} (hle : t ≤ t') :
    (∃ u, t ≤ u ∧ run.Moves u) ∨ (run.state t').place.pc = (run.state t).place.pc := by
  by_cases hmoves : ∃ u, t ≤ u ∧ run.Moves u
  · exact .inl hmoves
  · right
    induction t', hle using Nat.le_induction with
    | base => rfl
    | succ u hu ih => rw [(rest fun h => hmoves ⟨u, hu, h⟩).1, ih]

theorem Fair.moves (fair : run.Fair) {t : Nat}
    (h : searching (run.state t).place.pc = true) : ∃ t', t ≤ t' ∧ run.Moves t' := by
  by_cases hblocked : blocked me (run.state t) = false
  · exact fair.scheduled t h hblocked
  · have hfree : ∃ t', t ≤ t' ∧ ((run.state t').place.pc = (run.state t).place.pc →
        blocked me (run.state t') = false) := by
      cases hl : (run.state t).place.pc with
      | idle l =>
          cases l with
          | lock =>
              obtain ⟨t', hle, hlock⟩ := fair.ownLock t hl
              exact ⟨t', hle, fun hpc => by simp [blocked, hpc, hlock]⟩
          | _ => simp [blocked, hl] at hblocked
      | steal l =>
          cases l with
          | lock i v =>
              obtain ⟨t', hle, hlock⟩ := fair.lock t i v hl
              exact ⟨t', hle, fun hpc => by simp [blocked, hpc, hlock]⟩
          | wait v =>
              obtain ⟨t', hle, hwait⟩ := fair.answered t v hl
              exact ⟨t', hle, fun hpc => by simp [blocked, hpc, hwait]⟩
          | _ => simp [blocked, hl] at hblocked
      | lifeline l =>
          cases l with
          | wait i k =>
              obtain ⟨t', hle, hwait⟩ := fair.acknowledged t i k hl
              exact ⟨t', hle, fun hpc => by simp [blocked, hpc, hwait]⟩
          | _ => simp [blocked, hl] at hblocked
      | _ => simp [blocked, hl] at hblocked
    obtain ⟨t', hle, hfree⟩ := hfree
    rcases moves_or_stays run hle with hmoves | hstays
    · exact hmoves
    · obtain ⟨u, hu, hmove⟩ := fair.scheduled t' (hstays ▸ h) (hfree hstays)
      exact ⟨u, hle.trans hu, hmove⟩

end SearchRun

section

variable {c : Config n} {me : Fin n} {ch : Choice n} {P P' : Place n} {g g' : Shared n}

def upperBound (c : Config n) : Nat := if c.lifelines then c.logRanks else n

def lifelineRank (c : Config n) : LifelinePc n → Nat
  | .loop i _ => 4 * (upperBound c - i) + 4
  | .probe i _ _ => 4 * (upperBound c - (i + 1)) + 7
  | .send i _ _ => 4 * (upperBound c - (i + 1)) + 6
  | .wait i _ => 4 * (upperBound c - (i + 1)) + 5

def stealRank (n : Nat) : StealPc n → Nat
  | .loop i => 8 * (n - i) + 8
  | .probe i _ => 8 * (n - (i + 1)) + 15
  | .lock i _ => 8 * (n - (i + 1)) + 14
  | .test i _ => 8 * (n - (i + 1)) + 13
  | .flag i _ => 8 * (n - (i + 1)) + 12
  | .register i _ => 8 * (n - (i + 1)) + 11
  | .unlock i _ _ => 8 * (n - (i + 1)) + 10
  | .wait _ => 3
  | .received => 2
  | .reopen => 1

def idleRank : IdlePc n → Nat
  | .mark => 6
  | .lock => 5
  | .read => 4
  | .write _ => 3
  | .unlock _ => 2
  | .invalidate _ => 1

def searchRank (c : Config n) : PC n → Nat
  | .lifeline l => lifelineRank c l
  | .steal l => 4 * upperBound c + 4 + stealRank n l
  | .idle l => 4 * upperBound c + 4 + 8 * n + 16 + idleRank l
  | _ => 0

theorem searchRank_search (P : Place n) (l : IdlePc n) :
    searchRank c (searchTasksGlobally c me P) < searchRank c (.idle l) := by
  have hl : 0 < idleRank l := by cases l <;> simp [idleRank]
  rcases searchTasksGlobally_cases c me P with ⟨h, -⟩ | ⟨h, -⟩ <;>
    simp only [h, searchRank, stealRank, lifelineRank] <;> omega

theorem searchRank_failed (attempts : Nat) (l : StealPc n) :
    searching (searchFailed c me attempts) = false ∨
      searchRank c (searchFailed c me attempts) < searchRank c (.steal l) := by
  have hl : 0 < stealRank n l := by cases l <;> simp [stealRank]
  rcases searchFailed_cases c me attempts with h | ⟨h, -⟩
  · exact .inl (by rw [h]; rfl)
  · right
    simp only [h, searchRank, lifelineRank]
    omega

theorem searchRank_next (attempts i : Nat) (l : StealPc n)
    (hl : 8 * (n - (i + 1)) + 8 < stealRank n l) :
    searching (nextVictim c me attempts i) = false ∨
      searchRank c (nextVictim c me attempts i) < searchRank c (.steal l) := by
  rcases nextVictim_cases c me attempts i with h | h <;> rw [h]
  · exact searchRank_failed attempts l
  · have hnext : stealRank n (.loop (i + 1) : StealPc n) = 8 * (n - (i + 1)) + 8 := rfl
    right
    simp only [searchRank, hnext]
    omega

theorem idle_rank {l : IdlePc n} (h : markMyPlaceAsIdle c me P g l = some (P', g')) :
    searchRank c P'.pc < searchRank c (.idle l) := by
  have hsearch (P : Place n) : searchRank c (searchTasksGlobally c me P) < searchRank c (.idle l) :=
    searchRank_search P l
  cases l <;> simp only [markMyPlaceAsIdle] at h <;> (repeat' split at h) <;> cases h <;>
    first | exact hsearch _ | simp [Place.goto, searchRank, idleRank]

theorem steal_rank {l : StealPc n} (h : searchTasksGloballySynchronous c me ch P g l = some (P', g')) :
    searching P'.pc = false ∨ searchRank c P'.pc < searchRank c (.steal l) := by
  cases l with
  | loop i =>
      simp only [searchTasksGloballySynchronous] at h
      repeat' split at h
      all_goals cases h
      · right
        simp only [Place.goto, searchRank, stealRank]
        omega
      · exact searchRank_failed _ _
  | probe i v =>
      simp only [searchTasksGloballySynchronous] at h
      split at h <;> cases h
      · right
        simp [Place.goto, searchRank, stealRank]
      · exact searchRank_next _ i _ (by simp [stealRank])
  | unlock i v success =>
      cases success <;> cases h
      · exact searchRank_next _ i _ (by simp [stealRank])
      · right
        simp only [Place.goto, searchRank, stealRank]
        omega
  | reopen =>
      cases h
      exact .inl rfl
  | test i v =>
      cases h
      right
      dsimp only [Place.goto]
      split <;> simp [searchRank, stealRank]
  | lock | flag | register | wait | received =>
      right
      simp only [searchTasksGloballySynchronous] at h
      repeat' split at h
      all_goals cases h
      all_goals simp [Place.goto, searchRank, stealRank]

theorem lifeline_rank {l : LifelinePc n} (h : searchForLifelines c me ch P g l = some (P', g')) :
    searching P'.pc = false ∨ searchRank c P'.pc < searchRank c (.lifeline l) := by
  cases l with
  | loop i k =>
      have hbound : (if c.lifelines then c.logRanks else n) = upperBound c := rfl
      simp only [searchForLifelines, hbound] at h
      split at h
      · right
        split at h
        · cases h
        split at h <;> cases h <;> simp only [Place.goto, searchRank, lifelineRank] <;> omega
      · left
        cases h
        dsimp only [Place.goto]
        split <;> rfl
  | probe i k v =>
      cases h
      right
      dsimp only [Place.goto]
      split <;> simp [searchRank, lifelineRank]
  | send i k v =>
      cases h
      right
      simp [searchRank, lifelineRank]
  | wait i k =>
      simp only [searchForLifelines] at h
      split at h <;> cases h
      right
      simp [Place.goto, searchRank, lifelineRank]

theorem commStep_rank (hsearching : searching P.pc = true)
    (h : commStep c me ch P g = some (P', g')) :
    searching P'.pc = false ∨ searchRank c P'.pc < searchRank c P.pc := by
  cases hl : P.pc with
  | idle l =>
      simp only [commStep, hl] at h
      exact .inr (idle_rank h)
  | steal l =>
      simp only [commStep, hl] at h
      exact steal_rank h
  | lifeline l =>
      simp only [commStep, hl] at h
      exact lifeline_rank h
  | _ => simp [searching, hl] at hsearching

end

section

variable {stream : Nat → Nat} {c : Config n} {me : Fin n} {s s' : Search n}

noncomputable def turns (stream : Nat → Nat) (ranks me k : Nat) : Nat :=
  sInf {d | stream (k + d) % ranks ≠ me}

theorem turns_lt {ranks me k : Nat} (hother : ∃ d, stream (k + d) % ranks ≠ me)
    (hk : stream k % ranks = me) : turns stream ranks me (k + 1) < turns stream ranks me k := by
  have hmem : stream (k + turns stream ranks me k) % ranks ≠ me := Nat.sInf_mem hother
  have hpos : turns stream ranks me k ≠ 0 := by
    intro hzero
    rw [hzero, Nat.add_zero] at hmem
    exact hmem hk
  have hle : turns stream ranks me (k + 1) ≤ turns stream ranks me k - 1 := by
    apply Nat.sInf_le
    change stream (k + 1 + (turns stream ranks me k - 1)) % ranks ≠ me
    rwa [show k + 1 + (turns stream ranks me k - 1) = k + turns stream ranks me k by omega]
  omega

noncomputable def moveRank (stream : Nat → Nat) (c : Config n) (me : Fin n) (s : Search n) :
    Nat ×ₗ Nat :=
  toLex (searchRank c s.place.pc, turns stream n me s.selector.rands)

theorem move_rank (hsearching : searching s.place.pc = true)
    (hother : callsSelectvictim c s.place = true → ∀ k, ∃ d, stream (k + d) % n ≠ me)
    (h : Move (.rand stream) c me s s') :
    ¬searching s'.place.pc = true ∨ moveRank stream c me s' < moveRank stream c me s := by
  have hstep {ch : Choice n} {P : Place n} {g : Shared n}
      (hcomm : commStep c me ch s.place s.shared = some (P, g)) :
      ¬searching P.pc = true ∨ ∀ S, toLex (searchRank c P.pc, turns stream n me S) <
        moveRank stream c me s := by
    rcases commStep_rank hsearching hcomm with hleft | hlt
    · exact .inl (by simp [hleft])
    · right
      intro S
      rw [moveRank, Prod.Lex.toLex_lt_toLex]
      exact .inl hlt
  cases h with
  | again hcall hsel hs' =>
      right
      simp only [selectvictim] at hsel
      split at hsel <;> cases hsel
      rename_i hme
      rw [hs', moveRank, moveRank, Prod.Lex.toLex_lt_toLex]
      exact .inr ⟨rfl, turns_lt (hother hcall _) hme⟩
  | call _ _ _ hcomm hs' | reset _ _ hcomm hs' | plain _ _ hcomm hs' =>
      subst hs'
      exact (hstep hcomm).imp_right fun h => h _

theorem SearchRun.Fair.returns {run : SearchRun stream c me} (fair : run.Fair)
    (hother : ∀ t, callsSelectvictim c (run.state t).place = true →
      ∀ k, ∃ d, stream (k + d) % n ≠ me)
    {t : Nat} (h : searching (run.state t).place.pc = true) :
    ∃ t', t ≤ t' ∧ ¬searching (run.state t').place.pc = true := by
  refine leaves_of_rank run.state (fun s => searching s.place.pc = true) run.Moves
    (moveRank stream c me) ?_ ?_ ?_ h
  · intro t h
    exact fair.moves h
  · intro t h hm
    obtain ⟨hpc, hselector⟩ := rest hm
    rw [moveRank, moveRank, hpc, hselector]
    exact ⟨h, rfl⟩
  · rintro t h ⟨stolen, hm⟩
    exact move_rank h (hother t) (worker_move hm)

end

section

variable {stream : Nat → Nat} {c : Config n} {me : Fin n} {ch : Choice n} {P P' : Place n}
  {g g' : Shared n} {s s' : Search n}

def FromOne (pc : PC n) : Prop := ∀ i, pc = .steal (.loop i) → 1 ≤ i

theorem commStep_fromOne (h : commStep c me ch P g = some (P', g')) : FromOne P'.pc := by
  intro i hpc'
  have hf := commStep_follows h
  have hsearch (P : Place n) (hpc : searchTasksGlobally c me P = .steal (.loop i)) : 1 ≤ i := by
    rcases searchTasksGlobally_cases c me P with ⟨hs, -⟩ | ⟨hs, -⟩ <;> rw [hs] at hpc <;> cases hpc
    rfl
  have hfailed (attempts : Nat) : searchFailed c me attempts ≠ .steal (.loop i) := by
    rcases searchFailed_cases c me attempts with hs | ⟨hs, -⟩ <;> simp [hs]
  have hnext (attempts j : Nat) (hpc : nextVictim c me attempts j = .steal (.loop i)) : 1 ≤ i := by
    rcases nextVictim_cases c me attempts j with hs | hs <;> rw [hs] at hpc
    · exact absurd hpc (hfailed attempts)
    · cases hpc
      omega
  cases hl : P.pc with
  | idle l =>
      simp only [commStep, hl] at h
      cases l <;> simp only [markMyPlaceAsIdle] at h <;> (repeat' split at h) <;> cases h <;>
        first | exact hsearch _ hpc' | cases hpc'
  | steal l =>
      simp only [commStep, hl] at h
      cases l <;> simp only [searchTasksGloballySynchronous] at h <;> (repeat' split at h) <;>
        cases h <;>
        first | exact hnext _ _ hpc' | exact absurd hpc' (hfailed _) | cases hpc'
  | _ => simp [hl, hpc', follows] at hf

def Valid (c : Config n) (pc : PC n) : Prop := allowed c.mode pc = true ∧ FromOne pc

theorem SearchRun.valid (run : SearchRun stream c me) (hmode : c.distWS = true)
    (hstart : (run.state 0).place.pc = .idle .mark) (t : Nat) : Valid c (run.state t).place.pc := by
  induction t with
  | zero =>
      rw [hstart]
      refine ⟨?_, by simp [FromOne]⟩
      simpa [allowed, Config.distWS] using hmode
  | succ t ih =>
      by_cases hmoves : run.Moves t
      · obtain ⟨stolen, hw⟩ := hmoves
        have hcomm {ch : Choice n} {P : Place n} {g : Shared n}
            (h : commStep c me ch (run.state t).place (run.state t).shared = some (P, g)) :
            Valid c P.pc := ⟨commStep_allowed h ih.1, commStep_fromOne h⟩
        cases worker_move hw with
        | again _ _ hs' => exact hs' ▸ ih
        | call _ _ _ h hs' | reset _ _ h hs' | plain _ _ h hs' => exact hs' ▸ hcomm h
      · rw [(rest hmoves).1]
        exact ih

/-- One place calls selectvictim only in search_for_lifelines(false). -/
theorem single_calls (hn : n = 1) (hvalid : Valid c s.place.pc)
    (hcall : callsSelectvictim c s.place = true) :
    c.mode = .successOnly ∧ s.place.receivedTasksFromVictim = false := by
  obtain ⟨hallowed, hone⟩ := hvalid
  cases hl : s.place.pc with
  | steal l =>
      cases l with
      | loop i =>
          have hi := hone i hl
          simp only [callsSelectvictim, hl, decide_eq_true_eq] at hcall
          omega
      | _ => simp [callsSelectvictim, hl] at hcall
  | lifeline l =>
      cases l with
      | loop i k =>
          simp only [callsSelectvictim, hl, Bool.and_eq_true, Bool.not_eq_true'] at hcall
          refine ⟨?_, hcall.2⟩
          have hoff := hcall.1.1
          rw [hl] at hallowed
          cases hmode : c.mode <;> simp_all [allowed, Config.lifelines]
      | _ => simp [callsSelectvictim, hl] at hcall
  | _ => simp [callsSelectvictim, hl] at hcall

structure AtCall (received : Int) (s : Search n) : Prop where
  pc : s.place.pc = .idle .mark ∨ s.place.pc = .lifeline (.loop 0 0)
  frames : s.place.frames = []
  tasksReceived : s.place.tasksReceived = received

theorem place_atCall {received : Int} {a : Act n} (ha : ∀ ch, a ≠ .comm ch)
    (h : act c me a s.place s.shared = some (P', g')) (hs : AtCall received s) :
    AtCall received { s with place := P', shared := g' } := by
  have hpolls : polls s.place = false := by
    rcases hs.pc with hpc | hpc <;> simp [polls, hs.frames, hpc, PC.polls]
  have hpc := place_pc ha h
  have hrest : P'.frames = s.place.frames ∧ P'.tasksReceived = s.place.tasksReceived := by
    have hstep := act_step h
    have hframes := hs.frames
    cases a with
    | comm ch => exact absurd rfl (ha ch)
    | resume | deliver | work | idle =>
        cases hstep <;> first | exact ⟨rfl, rfl⟩ | simp_all
  exact ⟨by rw [hpc]; exact hs.pc, hrest.1.trans hs.frames, hrest.2.trans hs.tasksReceived⟩

theorem mark_atCall {received : Int} (hmode : c.mode = .successOnly)
    (hpc : s.place.pc = .idle .mark) (h : commStep c me ch s.place s.shared = some (P', g'))
    (hs : AtCall received s) (S : Selector) (returned : List Nat) :
    AtCall received ⟨P', g', S, returned⟩ := by
  have hsearch (P : Place n) : searchTasksGlobally c me P = .lifeline (.loop 0 0) := by
    simp [searchTasksGlobally, hmode]
  simp only [commStep, hpc, markMyPlaceAsIdle, Config.synchronous, hmode] at h
  split at h <;> cases h
  · exact ⟨.inr (hsearch _), hs.frames, hs.tasksReceived⟩
  · exact ⟨.inr (hsearch _), hs.frames, hs.tasksReceived⟩

theorem loop_atCall {received : Int} (hn : n = 1) (hmode : c.mode = .successOnly)
    (hpc : s.place.pc = .lifeline (.loop 0 0)) (hs : AtCall received s) :
    callsSelectvictim c s.place = decide (received ≤ 0) := by
  have hpos : 0 < n := by omega
  have hreceived : decide (0 < received) = !decide (received ≤ 0) := by
    rw [← decide_not, decide_eq_decide, not_le]
  simp [callsSelectvictim, hpc, Config.lifelines, hmode, hpos, Place.receivedTasksFromVictim,
    hs.tasksReceived, hreceived]

/-- A single place draws itself again and again, unless it has received tasks. -/
theorem move_atCall {received : Int} (hn : n = 1) (hmode : c.mode = .successOnly)
    (h : Move (.rand stream) c me s s') (hs : AtCall received s) :
    AtCall received s' ∨ 0 < received ∧ searching s'.place.pc = false := by
  have hother {P : Place n} {g : Shared n} {ch : Choice n} (S : Selector) (returned : List Nat)
      (hcall : callsSelectvictim c s.place = false)
      (hstep : commStep c me ch s.place s.shared = some (P, g)) :
      AtCall received ⟨P, g, S, returned⟩ ∨ 0 < received ∧ searching P.pc = false := by
    rcases hs.pc with hpc | hpc
    · exact .inl (mark_atCall hmode hpc hstep hs S returned)
    · right
      have hreceived : 0 < received := by
        rw [loop_atCall hn hmode hpc hs] at hcall
        simpa using hcall
      have hguard : ¬(0 < n ∧ (!s.place.receivedTasksFromVictim) = true) := by
        simp [Place.receivedTasksFromVictim, hs.tasksReceived, hreceived]
      refine ⟨hreceived, ?_⟩
      simp only [commStep, hpc, searchForLifelines, Config.lifelines, hmode, reduceCtorEq, or_self,
        decide_false, Bool.false_eq_true, if_false, if_neg hguard] at hstep
      cases hstep
      rfl
  cases h with
  | again _ _ hs' =>
      subst hs'
      exact .inl ⟨hs.pc, hs.frames, hs.tasksReceived⟩
  | call _ hsel _ _ _ =>
      simp only [selectvictim] at hsel
      split at hsel <;> cases hsel
      rename_i hne
      have hmod := Nat.mod_lt (stream s.selector.rands) (Fin.pos me)
      have hme := me.isLt
      omega
  | reset hcall _ hstep hs' =>
      subst hs'
      exact hother _ _ hcall hstep
  | plain hcall _ hstep hs' =>
      subst hs'
      exact hother _ _ hcall hstep

theorem SearchRun.atCall (run : SearchRun stream c me) (hn : n = 1) (hmode : c.mode = .successOnly)
    (hstart : (run.state 0).place.pc = .idle .mark) (hframes : (run.state 0).place.frames = [])
    (t : Nat) : AtCall (run.state 0).place.tasksReceived (run.state t) ∨
      0 < (run.state 0).place.tasksReceived ∧ ∃ t', searching (run.state t').place.pc = false := by
  induction t with
  | zero => exact .inl ⟨.inl hstart, hframes, rfl⟩
  | succ t ih =>
      rcases ih with hs | hleft
      · have hstep := run.step t
        generalize hs' : run.state (t + 1) = s' at hstep
        cases hstep with
        | worker stolen hw =>
            rcases move_atCall hn hmode (worker_move hw) hs with hs | ⟨hreceived, hleft⟩
            · exact .inl hs
            · exact .inr ⟨hreceived, t + 1, hs' ▸ hleft⟩
        | place a ha hact => exact .inl (place_atCall ha hact hs)
        | others g => exact .inl ⟨hs.pc, hs.frames, hs.tasksReceived⟩
      · exact .inr hleft

theorem other_residue (hn : 2 ≤ n) (residues : ∀ r < n, ∀ k, ∃ j, k ≤ j ∧ stream j % n = r)
    (k : Nat) : ∃ d, stream (k + d) % n ≠ me := by
  have hother : ∃ r < n, r ≠ me := by
    by_cases hzero : me.val = 0
    · exact ⟨1, hn, by omega⟩
    · exact ⟨0, by omega, fun h => hzero h.symm⟩
  obtain ⟨r, hr, hne⟩ := hother
  obtain ⟨j, hj, hmod⟩ := residues r hr k
  refine ⟨j - k, ?_⟩
  rwa [show k + (j - k) = j by omega, hmod]

def alone (stream : Nat → Nat) (c : Config n) (me : Fin n) (s : Search n) : Search n :=
  if searching s.place.pc then (worker (.rand stream) c me none s).getD s else s

def SearchRun.solo (stream : Nat → Nat) (c : Config n) (me : Fin n) (s₀ : Search n) :
    SearchRun stream c me where
  state t := (alone stream c me)^[t] s₀
  step t := by
    rw [Function.iterate_succ_apply', alone]
    split
    · cases h : worker (.rand stream) c me none ((alone stream c me)^[t] s₀) with
      | none => exact .others _
      | some s' => exact .worker none h
    · exact .others _

theorem SearchRun.solo_fair {s₀ : Search n}
    (h : ∀ t, searching ((solo stream c me s₀).state t).place.pc = true →
      ((worker (.rand stream) c me none ((solo stream c me s₀).state t)).isSome &&
        !((solo stream c me s₀).state t).place.pc.polls) = true) : (solo stream c me s₀).Fair := by
  have hpolls (t : Nat) (hs : searching ((solo stream c me s₀).state t).place.pc = true) :
      ((solo stream c me s₀).state t).place.pc.polls = false := by
    have ht := h t hs
    rw [Bool.and_eq_true, Bool.not_eq_true'] at ht
    exact ht.2
  constructor
  · intro t hs _
    have ht := h t hs
    rw [Bool.and_eq_true] at ht
    obtain ⟨s', hs'⟩ := Option.isSome_iff_exists.mp ht.1
    refine ⟨t, le_refl t, none, ?_⟩
    have hnext : (solo stream c me s₀).state (t + 1) = s' := by
      have heq : (solo stream c me s₀).state (t + 1) =
          alone stream c me ((solo stream c me s₀).state t) := Function.iterate_succ_apply' ..
      rw [heq, alone, if_pos hs, hs', Option.getD_some]
    rw [hnext, hs']
  all_goals
    intro t
    intros
    have hp := hpolls t (by simp_all [searching])
    simp_all [PC.polls]

theorem SearchRun.solo_rests {s₀ : Search n} {T : Nat}
    (hend : searching ((solo stream c me s₀).state T).place.pc = false) {t : Nat} (hle : T ≤ t) :
    searching ((solo stream c me s₀).state t).place.pc = false := by
  induction t, hle using Nat.le_induction with
  | base => exact hend
  | succ t _ ih =>
      have heq : (solo stream c me s₀).state (t + 1) =
          alone stream c me ((solo stream c me s₀).state t) := Function.iterate_succ_apply' ..
      rwa [heq, alone, if_neg (by simp [ih])]

/-- A search with __VS_RAND__ returns, except that of a single place in the
success-only mode: search_for_lifelines(false) asks for a victim that does not
exist. -/
theorem search_returns_iff (hmode : c.distWS = true)
    (residues : ∀ r < n, ∀ k, ∃ j, k ≤ j ∧ stream j % n = r) (run : SearchRun stream c me)
    (hstart : (run.state 0).place.pc = .idle .mark) (hframes : (run.state 0).place.frames = [])
    (fair : run.Fair) :
    ((∃ t, ¬searching (run.state t).place.pc = true) ↔
      ¬(n = 1 ∧ c.mode = .successOnly ∧ (run.state 0).place.receivedTasksFromVictim = false)) ∧
    ∀ t v S, selectvictim n me (run.state t).selector (.rand stream) = some (.victim v, S) →
      v < n ∧ v ≠ me := by
  have hsearching : searching (run.state 0).place.pc = true := by rw [hstart]; rfl
  refine ⟨⟨?_, ?_⟩, ?_⟩
  · rintro ⟨t, ht⟩ ⟨hn, hsuccess, hreceived⟩
    rcases run.atCall hn hsuccess hstart hframes t with hs | ⟨hpos, _⟩
    · apply ht
      rcases hs.pc with hpc | hpc <;> rw [hpc] <;> rfl
    · simp [Place.receivedTasksFromVictim, hpos] at hreceived
  · intro hgood
    by_cases hn : 2 ≤ n
    · obtain ⟨t, _, ht⟩ := fair.returns (fun _ _ => other_residue hn residues) hsearching
      exact ⟨t, ht⟩
    · have hone : n = 1 := by
        have hpos := Fin.pos me
        omega
      by_contra hnever
      have hnone : ∀ t, callsSelectvictim c (run.state t).place = true → False := by
        intro t hcall
        obtain ⟨hsuccess, hreceived⟩ := single_calls hone (run.valid hmode hstart t) hcall
        rcases run.atCall hone hsuccess hstart hframes t with hs | ⟨_, t', hleft⟩
        · apply hgood
          refine ⟨hone, hsuccess, ?_⟩
          simpa [Place.receivedTasksFromVictim, hs.tasksReceived] using hreceived
        · exact hnever ⟨t', by simp [hleft]⟩
      obtain ⟨t, _, ht⟩ := fair.returns (fun t hcall => (hnone t hcall).elim) hsearching
      exact hnever ⟨t, ht⟩
  · intro t v S hsel
    simp only [selectvictim] at hsel
    split at hsel <;> cases hsel
    exact ⟨Nat.mod_lt _ (Fin.pos me), ‹_›⟩

theorem atCall_worker {received : Int} (hn : n = 1) (hmode : c.mode = .successOnly)
    (hreceived : received ≤ 0) (hs : AtCall received s) :
    (worker (.rand stream) c me none s).isSome = true := by
  rcases hs.pc with hpc | hpc
  · cases hout : s.place.outOfWork <;>
      simp [worker, hs.frames, callsSelectvictim, hpc, commStep, markMyPlaceAsIdle, hout]
  · have hcall := loop_atCall hn hmode hpc hs
    have hme : stream s.selector.rands % n = me := by
      have hmod := Nat.mod_lt (stream s.selector.rands) (Fin.pos me)
      have hlt := me.isLt
      omega
    simp [worker, hs.frames, hcall, hreceived, selectvictim, hme]

end

theorem search_returns_two_places : ∃ run : SearchRun (· + 1) (twoPlaces .successOnly false) 0,
    run.Fair ∧ ∃ t, ¬searching (run.state t).place.pc = true := by
  let run : SearchRun (· + 1) (twoPlaces .successOnly false) 0 :=
    .solo _ _ _ ⟨(Place.init 0).goto (.idle .mark), Shared.init 2, ⟨0, 0⟩, []⟩
  have hend : searching (run.state 7).place.pc = false := by decide +kernel
  have hmoves : ∀ t < 7, ((worker (.rand (· + 1)) (twoPlaces .successOnly false) 0 none
      (run.state t)).isSome && !(run.state t).place.pc.polls) = true := by decide +kernel
  have fair : run.Fair := by
    apply SearchRun.solo_fair
    intro t ht
    by_cases hlt : t < 7
    · exact hmoves t hlt
    · exact absurd ht (by rw [SearchRun.solo_rests hend (not_lt.mp hlt)]; decide)
  refine ⟨run, fair, ?_⟩
  refine (search_returns_iff rfl ?_ run rfl rfl fair).1.mpr (by simp)
  intro r hr k
  exact ⟨2 * k + r + 1, by omega, by omega⟩

/-- The only place of a job never returns from search_tasks_globally_successonly. -/
theorem search_never_returns : ∃ (c : Config 1) (run : SearchRun (fun _ => 0) c 0),
    (∀ r < 1, ∀ k : Nat, ∃ j, k ≤ j ∧ (fun _ => 0) j % 1 = r) ∧ c.mode = .successOnly ∧
    (run.state 0).place.pc = .idle .mark ∧ (run.state 0).place.frames = [] ∧ run.Fair ∧
    ∀ t, searching (run.state t).place.pc = true := by
  let c : Config 1 := ⟨.successOnly, false, true, fun _ => 1, 1, fun _ => 1, 0, by simp, by simp⟩
  let run : SearchRun (fun _ => 0) c 0 :=
    .solo (fun _ => 0) c 0 ⟨(Place.init 0).goto (.idle .mark), Shared.init 1, ⟨0, 0⟩, []⟩
  have hatCall : ∀ t, AtCall 0 (run.state t) := by
    intro t
    rcases run.atCall rfl rfl rfl rfl t with hs | ⟨hpos, _⟩
    · exact hs
    · cases hpos
  refine ⟨c, run, ?_, rfl, rfl, rfl, ?_, ?_⟩
  · intro r hr k
    exact ⟨k, le_refl k, by omega⟩
  · apply SearchRun.solo_fair
    intro t _
    rw [atCall_worker rfl rfl (le_refl 0) (hatCall t), Bool.true_and]
    rcases (hatCall t).pc with hpc | hpc <;> rw [hpc] <;> rfl
  · intro t
    rcases (hatCall t).pc with hpc | hpc <;> rw [hpc] <;> rfl

end HabaneroUpc.VictimSelection
