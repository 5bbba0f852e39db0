import HabaneroUpc.Steps
import Mathlib.Logic.Relation
import Mathlib.Data.List.Perm.Basic

namespace HabaneroUpc.VictimSelection

variable {n : Nat}

inductive Strategy
  | rr
  | rand (stream : Nat → Nat)
  | distHpt (victims : List Nat)

structure Selector where
  lastSteal : Nat
  rands : Nat
  deriving DecidableEq

inductive Selection
  | again
  | victim (v : Nat)
  deriving DecidableEq

/-- selectvictim, for __VS_RAND__ one turn of its loop. No result is a read
outside the table. -/
def selectvictim (ranks me : Nat) (S : Selector) : Strategy → Option (Selection × Selector)
  | .rr =>
      let last := (S.lastSteal + 1) % ranks
      let last := if last = me then (last + 1) % ranks else last
      some (.victim last, { S with lastSteal := last })
  | .rand stream =>
      let last := stream S.rands % ranks
      if last = me then some (.again, { S with rands := S.rands + 1 })
      else some (.victim last, ⟨last, S.rands + 1⟩)
  | .distHpt victims =>
      victims[S.lastSteal]?.map fun v => (.victim v, { S with lastSteal := S.lastSteal + 1 })

def resetVictimArray (me : Nat) (S : Selector) : Strategy → Selector
  | .rr => { S with lastSteal := me }
  | .rand _ => S
  | .distHpt _ => { S with lastSteal := 0 }

structure Search (n : Nat) where
  place : Place n
  shared : Shared n
  selector : Selector
  returned : List Nat

def callsSelectvictim (c : Config n) (P : Place n) : Bool :=
  match P.pc with
  | .steal (.loop i) => i < n
  | .lifeline (.loop i _) => !c.lifelines && i < n && !P.receivedTasksFromVictim
  | _ => false

def resets : PC n → PC n → Bool
  | .idle _, .idle _ => false
  | .idle _, _ => true
  | _, _ => false

section

variable (strategy : Strategy) (c : Config n) (me : Fin n)

def worker (stolen : Option Nat) (s : Search n) : Option (Search n) :=
  if s.place.frames ≠ [] then none
  else if callsSelectvictim c s.place then
    match selectvictim n me s.selector strategy with
    | none => none
    | some (.again, S) => some { s with selector := S }
    | some (.victim v, S) =>
        if h : v < n then
          (commStep c me ⟨⟨v, h⟩, stolen⟩ s.place s.shared).map fun r =>
            ⟨r.1, r.2, S, s.returned ++ [v]⟩
        else none
  else
    (commStep c me ⟨me, stolen⟩ s.place s.shared).map fun r =>
      if resets s.place.pc r.1.pc then ⟨r.1, r.2, resetVictimArray me s.selector strategy, []⟩
      else ⟨r.1, r.2, s.selector, s.returned⟩

/-- A step of the communication worker, of an async it runs or of the
computation workers of the place, or a step of the other places, which may do
anything to the shared state. -/
inductive SearchStep (s : Search n) : Search n → Prop
  | worker {s'} (stolen : Option Nat) (h : worker strategy c me stolen s = some s') :
      SearchStep s s'
  | place {P g} (a : Act n) (ha : ∀ ch, a ≠ .comm ch)
      (h : act c me a s.place s.shared = some (P, g)) :
      SearchStep s { s with place := P, shared := g }
  | others (g : Shared n) : SearchStep s { s with shared := g }

def Phase (s₀ s : Search n) : Prop :=
  s₀.place.pc = .idle .mark ∧ Relation.ReflTransGen (SearchStep strategy c me) s₀ s

end

section

variable {strategy : Strategy} {c : Config n} {me : Fin n}

inductive Move (strategy : Strategy) (c : Config n) (me : Fin n) (s s' : Search n) : Prop
  | again {S} (hcall : callsSelectvictim c s.place = true)
      (hsel : selectvictim n me s.selector strategy = some (.again, S))
      (hs' : s' = { s with selector := S })
  | call {v S P g stolen} (hcall : callsSelectvictim c s.place = true)
      (hsel : selectvictim n me s.selector strategy = some (.victim v, S)) (hv : v < n)
      (hstep : commStep c me ⟨⟨v, hv⟩, stolen⟩ s.place s.shared = some (P, g))
      (hs' : s' = ⟨P, g, S, s.returned ++ [v]⟩)
  | reset {P g stolen} (hcall : callsSelectvictim c s.place = false)
      (hresets : resets s.place.pc P.pc = true)
      (hstep : commStep c me ⟨me, stolen⟩ s.place s.shared = some (P, g))
      (hs' : s' = ⟨P, g, resetVictimArray me s.selector strategy, []⟩)
  | plain {P g stolen} (hcall : callsSelectvictim c s.place = false)
      (hresets : resets s.place.pc P.pc = false)
      (hstep : commStep c me ⟨me, stolen⟩ s.place s.shared = some (P, g))
      (hs' : s' = ⟨P, g, s.selector, s.returned⟩)

theorem worker_move {stolen : Option Nat} {s s' : Search n}
    (h : worker strategy c me stolen s = some s') : Move strategy c me s s' := by
  rw [worker] at h
  split at h
  · cases h
  · split at h
    · rename_i hcall
      split at h
      · cases h
      · rename_i S hsel
        cases h
        exact .again hcall hsel rfl
      · rename_i v S hsel
        split at h
        · rename_i hv
          obtain ⟨⟨P, g⟩, hstep, rfl⟩ := Option.map_eq_some_iff.mp h
          exact .call hcall hsel hv hstep rfl
        · cases h
    · rename_i hcall
      rw [Bool.not_eq_true] at hcall
      obtain ⟨⟨P, g⟩, hstep, rfl⟩ := Option.map_eq_some_iff.mp h
      cases hresets : resets s.place.pc P.pc with
      | true => exact .reset hcall hresets hstep rfl
      | false => exact .plain hcall hresets hstep rfl

theorem place_pc {P P' : Place n} {g g' : Shared n} {a : Act n} (ha : ∀ ch, a ≠ .comm ch)
    (h : act c me a P g = some (P', g')) : P'.pc = P.pc := by
  have hstep := act_step h
  cases a with
  | comm ch => exact absurd rfl (ha ch)
  | resume | deliver | work | idle => cases hstep <;> rfl

def Counts (c : Config n) (k : Nat) : PC n → Prop
  | .steal (.loop i) => i = k + 1
  | .steal (.probe i _) | .steal (.lock i _) | .steal (.test i _) => i = k
  | .steal (.flag i _) | .steal (.register i _) | .steal (.unlock i _ _) => i = k
  | .lifeline (.loop i _) => c.lifelines = true ∨ i = k
  | .lifeline (.probe i _ _) | .lifeline (.send i _ _) => c.lifelines = true ∨ i + 1 = k
  | .lifeline (.wait i _) => c.lifelines = true ∨ i + 1 = k
  | _ => True

def inLoop : PC n → Bool
  | .steal _ | .lifeline _ => true
  | _ => false

variable {ch : Choice n} {P P' : Place n} {g g' : Shared n}

theorem search_counts (P : Place n) : Counts c 0 (searchTasksGlobally c me P) := by
  rcases searchTasksGlobally_cases c me P with ⟨h, -⟩ | ⟨h, -⟩ <;> rw [h]
  · rfl
  · exact .inr rfl

theorem reset_counts (hresets : resets P.pc P'.pc = true)
    (h : commStep c me ch P g = some (P', g')) : Counts c 0 P'.pc := by
  cases hl : P.pc with
  | idle l =>
      simp only [commStep, hl] at h
      cases l <;> simp only [markMyPlaceAsIdle] at h <;> (repeat' split at h) <;> cases h <;>
        first | exact search_counts _ | exact trivial
  | _ => simp [resets, hl] at hresets

theorem searchFailed_counts (k attempts : Nat) : Counts c k (searchFailed c me attempts) := by
  rcases searchFailed_cases c me attempts with h | ⟨h, hmode⟩ <;> rw [h]
  · trivial
  · exact .inl (by simp [Config.lifelines, hmode])

theorem nextVictim_counts (k attempts : Nat) : Counts c k (nextVictim c me attempts k) := by
  rcases nextVictim_cases c me attempts k with h | h <;> rw [h]
  · exact searchFailed_counts k attempts
  · rfl

theorem lifelines_counts {k : Nat} {l : LifelinePc n} (hlifelines : c.lifelines = true)
    (h : follows (.lifeline l) P'.pc = true) : Counts c k P'.pc := by
  cases hl : P'.pc with
  | lifeline l' => cases l' <;> exact .inl hlifelines
  | steal l' => simp [hl, follows] at h
  | _ => trivial

theorem steal_counts {l : StealPc n} {k : Nat} (hl : P.pc = .steal l)
    (hcall : callsSelectvictim c P = false)
    (h : searchTasksGloballySynchronous c me ch P g l = some (P', g')) (hk : Counts c k (.steal l)) :
    Counts c k P'.pc := by
  cases l with
  | loop i =>
      have hi : ¬i < n := by simpa [callsSelectvictim, hl] using hcall
      simp only [searchTasksGloballySynchronous, if_neg hi] at h
      cases h
      exact searchFailed_counts k _
  | probe i v =>
      cases hk
      simp only [searchTasksGloballySynchronous] at h
      split at h <;> cases h
      · rfl
      · exact nextVictim_counts _ _
  | lock i v =>
      simp only [searchTasksGloballySynchronous] at h
      split at h <;> cases h
      exact hk
  | test i v =>
      cases h
      dsimp only [Place.goto]
      split <;> exact hk
  | unlock i v success =>
      cases hk
      cases success <;> cases h
      · exact nextVictim_counts _ _
      · trivial
  | wait v =>
      simp only [searchTasksGloballySynchronous] at h
      split at h <;> cases h
      trivial
  | flag i v | register i v =>
      cases h
      exact hk
  | received | reopen =>
      cases h
      trivial

theorem lifeline_counts {l : LifelinePc n} {k : Nat} (hl : P.pc = .lifeline l)
    (hcall : callsSelectvictim c P = false) (hf : follows (.lifeline l) P'.pc = true)
    (h : searchForLifelines c me ch P g l = some (P', g')) (hk : Counts c k (.lifeline l)) :
    Counts c k P'.pc := by
  cases l with
  | loop i victims =>
      by_cases hlifelines : c.lifelines = true
      · exact lifelines_counts hlifelines hf
      · have hguard : ¬(i < n ∧ (!P.receivedTasksFromVictim) = true) := by
          simpa [callsSelectvictim, hl, hlifelines] using hcall
        simp only [searchForLifelines, if_neg hlifelines, if_neg hguard] at h
        cases h
        dsimp only [Place.goto]
        split <;> trivial
  | probe i victims v =>
      cases h
      dsimp only [Place.goto]
      split <;> exact hk
  | send i victims v =>
      cases h
      exact hk
  | wait i victims =>
      simp only [searchForLifelines] at h
      split at h <;> cases h
      exact hk

theorem plain_counts (hcall : callsSelectvictim c P = false) (hresets : resets P.pc P'.pc = false)
    (hloop : inLoop P'.pc = true) (h : commStep c me ch P g = some (P', g')) :
    inLoop P.pc = true ∧ ∀ k, Counts c k P.pc → Counts c k P'.pc := by
  have hf := commStep_follows h
  cases hl : P.pc with
  | steal l =>
      simp only [commStep, hl] at h
      exact ⟨rfl, fun k hk => steal_counts hl hcall h hk⟩
  | lifeline l =>
      simp only [commStep, hl] at h
      exact ⟨rfl, fun k hk => lifeline_counts hl hcall (hl ▸ hf) h hk⟩
  | idle l => cases hl' : P'.pc <;> simp_all [resets, inLoop]
  | _ => cases hl' : P'.pc <;> simp_all [follows, inLoop]

theorem call_counts (hcall : callsSelectvictim c P = true)
    (h : commStep c me ch P g = some (P', g')) :
    inLoop P.pc = true ∧ ∀ k, Counts c k P.pc → Counts c (k + 1) P'.pc := by
  cases hl : P.pc with
  | steal l =>
      refine ⟨rfl, ?_⟩
      intro k hk
      cases l with
      | loop i =>
          have hi : i < n := by simpa [callsSelectvictim, hl] using hcall
          simp only [commStep, hl, searchTasksGloballySynchronous, if_pos hi] at h
          split at h <;> cases h
          exact hk
      | _ => simp [callsSelectvictim, hl] at hcall
  | lifeline l =>
      refine ⟨rfl, ?_⟩
      intro k hk
      cases l with
      | loop i victims =>
          have hstep : Counts c (k + 1) (.lifeline (.loop (i + 1) victims) : PC n) :=
            Or.imp_right (congrArg (· + 1)) hk
          simp only [commStep, hl, searchForLifelines] at h
          repeat' split at h
          all_goals cases h
          all_goals first | exact hstep | trivial
      | _ => simp [callsSelectvictim, hl] at hcall
  | _ => simp [callsSelectvictim, hl] at hcall

end

section

variable {strategy : Strategy} {c : Config n} {me : Fin n}

inductive Selected (strategy : Strategy) (ranks me : Nat) : Nat → Selector → List Nat → Prop
  | reset (S : Selector) : Selected strategy ranks me 0 (resetVictimArray me S strategy) []
  | call {k v S S' returned} (h : Selected strategy ranks me k S returned)
      (hsel : selectvictim ranks me S strategy = some (.victim v, S')) :
      Selected strategy ranks me (k + 1) S' (returned ++ [v])

def Strategy.Deterministic (ranks me : Nat) : Strategy → Prop
  | .rr => True
  | .rand _ => False
  | .distHpt victims => victims.Perm ((List.range ranks).erase me)

theorem not_again (hdet : strategy.Deterministic n me) {S S' : Selector} :
    selectvictim n me S strategy ≠ some (.again, S') := by
  cases strategy with
  | rr => simp [selectvictim]
  | rand stream => exact hdet.elim
  | distHpt victims => simp [selectvictim]

def Inv (strategy : Strategy) (c : Config n) (me : Fin n) (s : Search n) : Prop :=
  inLoop s.place.pc = true →
    ∃ k, Counts c k s.place.pc ∧ Selected strategy n me k s.selector s.returned

theorem move_inv {s s' : Search n} (hdet : strategy.Deterministic n me)
    (h : Move strategy c me s s') (hI : Inv strategy c me s) : Inv strategy c me s' := by
  cases h with
  | again hcall hsel _ => exact absurd hsel (not_again hdet)
  | call hcall hsel hv hstep hs' =>
      subst hs'
      intro _
      obtain ⟨hloop, hcounts⟩ := call_counts hcall hstep
      obtain ⟨k, hk, hselected⟩ := hI hloop
      exact ⟨k + 1, hcounts k hk, .call hselected hsel⟩
  | reset _ hresets hstep hs' =>
      subst hs'
      intro _
      exact ⟨0, reset_counts hresets hstep, .reset _⟩
  | plain hcall hresets hstep hs' =>
      subst hs'
      intro hloop'
      obtain ⟨hloop, hcounts⟩ := plain_counts hcall hresets hloop' hstep
      obtain ⟨k, hk, hselected⟩ := hI hloop
      exact ⟨k, hcounts k hk, hselected⟩

theorem step_inv {s s' : Search n} (hdet : strategy.Deterministic n me)
    (h : SearchStep strategy c me s s') (hI : Inv strategy c me s) : Inv strategy c me s' := by
  cases h with
  | worker stolen h => exact move_inv hdet (worker_move h) hI
  | place a ha h =>
      intro hloop
      simp only [place_pc ha h] at hloop ⊢
      exact hI hloop
  | others g => exact hI

theorem phase_inv {s₀ s : Search n} (hdet : strategy.Deterministic n me)
    (h : Phase strategy c me s₀ s) : Inv strategy c me s := by
  obtain ⟨hstart, hsteps⟩ := h
  induction hsteps with
  | refl =>
      intro hloop
      simp [hstart, inLoop] at hloop
  | tail _ hstep ih => exact step_inv hdet hstep ih

end

section

variable {k n me : Nat} {S : Selector} {returned : List Nat}

theorem rr_victim (hn : 2 ≤ n) (hme : me < n) (last : Nat) :
    (if (last + 1) % n = me then ((last + 1) % n + 1) % n else (last + 1) % n) < n ∧
      (if (last + 1) % n = me then ((last + 1) % n + 1) % n else (last + 1) % n) ≠ me := by
  have hpos : 0 < n := by omega
  split
  · rename_i h
    refine ⟨Nat.mod_lt _ hpos, ?_⟩
    rw [h]
    by_cases hlast : me + 1 < n
    · rw [Nat.mod_eq_of_lt hlast]
      omega
    · rw [show me + 1 = n by omega, Nat.mod_self]
      omega
  · exact ⟨Nat.mod_lt _ hpos, ‹_›⟩

theorem add_mod_ne (hme : me < n) {j : Nat} (hpos : 0 < j) (hlt : j < n) : (me + j) % n ≠ me := by
  intro h
  by_cases hwrap : me + j < n
  · rw [Nat.mod_eq_of_lt hwrap] at h
    omega
  · rw [Nat.mod_eq_sub_mod (not_lt.mp hwrap), Nat.mod_eq_of_lt (by omega)] at h
    omega

/-- In its first n - 1 calls __VS_RR__ goes once around the other places. -/
theorem rr_selected (hme : me < n) (h : Selected .rr n me k S returned) :
    (k < n → S.lastSteal = (me + k) % n) ∧
      ∀ j, 0 < j → j ≤ k → j < n → (me + j) % n ∈ returned := by
  induction h with
  | reset S =>
      refine ⟨fun _ => (Nat.mod_eq_of_lt hme).symm, ?_⟩
      intro j hpos hle
      omega
  | call h hsel ih =>
      rename_i k v S S' returned
      obtain ⟨hlast, hmem⟩ := ih
      have hnext : k + 1 < n → v = (me + (k + 1)) % n ∧ S'.lastSteal = v := by
        intro hk
        have hsum : (S.lastSteal + 1) % n = (me + (k + 1)) % n := by
          rw [hlast (by omega), Nat.mod_add_mod, Nat.add_assoc]
        have hne := add_mod_ne hme (Nat.succ_pos k) hk
        simp only [selectvictim, hsum, if_neg hne] at hsel
        cases hsel
        exact ⟨rfl, rfl⟩
      constructor
      · intro hk
        obtain ⟨hv, hS⟩ := hnext hk
        rw [hS, hv]
      · intro j hpos hle hlt
        rw [List.mem_append, List.mem_singleton]
        by_cases hj : j = k + 1
        · right
          rw [hj, (hnext (hj ▸ hlt)).1]
        · exact .inl (hmem j hpos (by omega) hlt)

theorem rr_covers (hme : me < n) (h : Selected .rr n me k S returned) (hk : n ≤ k + 1) :
    ∀ q < n, q ≠ me → q ∈ returned := by
  intro q hq hne
  have hmem := (rr_selected hme h).2
  by_cases hlt : me < q
  · have hj := hmem (q - me) (by omega) (by omega) (by omega)
    rwa [show me + (q - me) = q by omega, Nat.mod_eq_of_lt hq] at hj
  · have hj := hmem (q + n - me) (by omega) (by omega) (by omega)
    rwa [show me + (q + n - me) = q + n by omega, Nat.add_mod_right, Nat.mod_eq_of_lt hq] at hj

variable {victims : List Nat}

theorem hpt_selected (h : Selected (.distHpt victims) n me k S returned) :
    S.lastSteal = k ∧ returned = victims.take k := by
  induction h with
  | reset S => exact ⟨rfl, rfl⟩
  | call h hsel ih =>
      rename_i k v S S' returned
      obtain ⟨hlast, hreturned⟩ := ih
      obtain ⟨w, hw, hpair⟩ := Option.map_eq_some_iff.mp hsel
      cases hpair
      rw [hlast] at hw
      refine ⟨by rw [hlast], ?_⟩
      rw [hreturned, List.take_add_one, hw, Option.toList_some]

theorem others_length (hme : me < n) : ((List.range n).erase me).length = n - 1 := by
  rw [List.length_erase_of_mem (List.mem_range.mpr hme), List.length_range]

theorem mem_others {v : Nat} : v ∈ (List.range n).erase me ↔ v < n ∧ v ≠ me := by
  rw [List.nodup_range.mem_erase_iff, List.mem_range, and_comm]

theorem hpt_victim (hme : me < n) (htable : (Strategy.distHpt victims).Deterministic n me)
    (hlast : S.lastSteal = k) :
    (∃ v S', selectvictim n me S (.distHpt victims) = some (.victim v, S') ∧ v < n ∧ v ≠ me) ↔
      k < n - 1 := by
  have hperm : victims.Perm ((List.range n).erase me) := htable
  have hlength : victims.length = n - 1 := hperm.length_eq.trans (others_length hme)
  rw [selectvictim, hlast, ← hlength]
  constructor
  · rintro ⟨v, S', hsel, _⟩
    obtain ⟨w, hw, _⟩ := Option.map_eq_some_iff.mp hsel
    exact (List.getElem?_eq_some_iff.mp hw).1
  · intro hk
    have hmem := hperm.mem_iff.mp (List.getElem_mem hk)
    rw [mem_others] at hmem
    rw [List.getElem?_eq_getElem hk, Option.map_some]
    exact ⟨victims[k], _, rfl, hmem⟩

theorem hpt_covers (htable : (Strategy.distHpt victims).Deterministic n me) (hme : me < n)
    (h : Selected (.distHpt victims) n me k S returned) (hk : n ≤ k + 1) :
    ∀ q < n, q ≠ me → q ∈ returned := by
  intro q hq hne
  have hperm : victims.Perm ((List.range n).erase me) := htable
  have hlength : victims.length = n - 1 := hperm.length_eq.trans (others_length hme)
  rw [(hpt_selected h).2, List.take_of_length_le (by omega), hperm.mem_iff, mem_others]
  exact ⟨hq, hne⟩

end

section

variable {strategy : Strategy} {c : Config n} {me : Fin n}

def ended (c : Config n) : PC n → Bool
  | .steal (.loop i) => n ≤ i
  | .lifeline (.loop i _) => !c.lifelines && n ≤ i
  | _ => false

theorem hpt_call {victims : List Nat} {s : Search n}
    (htable : (Strategy.distHpt victims).Deterministic n me)
    (hcall : callsSelectvictim c s.place = true) (hI : Inv (.distHpt victims) c me s) :
    (∃ v S, selectvictim n me s.selector (.distHpt victims) = some (.victim v, S) ∧
      v < n ∧ v ≠ me) ↔ ¬∃ k, s.place.pc = .lifeline (.loop (n - 1) k) := by
  cases hl : s.place.pc with
  | steal l =>
      obtain ⟨k, hk, hselected⟩ := hI (by rw [hl]; rfl)
      rw [hpt_victim me.isLt htable (hpt_selected hselected).1]
      cases l with
      | loop i =>
          have hi : i < n := by simpa [callsSelectvictim, hl] using hcall
          have hcount : i = k + 1 := by rwa [hl] at hk
          simp only [reduceCtorEq, exists_false, not_false_eq_true, iff_true]
          omega
      | _ => simp [callsSelectvictim, hl] at hcall
  | lifeline l =>
      obtain ⟨k, hk, hselected⟩ := hI (by rw [hl]; rfl)
      rw [hpt_victim me.isLt htable (hpt_selected hselected).1]
      cases l with
      | loop i victims =>
          simp only [callsSelectvictim, hl, Bool.and_eq_true, Bool.not_eq_true',
            decide_eq_true_eq] at hcall
          obtain ⟨⟨hlifelines, hi⟩, _⟩ := hcall
          have hcount : i = k := by simpa [hl, Counts, hlifelines] using hk
          simp only [PC.lifeline.injEq, LifelinePc.loop.injEq, exists_and_left, exists_eq',
            and_true]
          omega
      | _ => simp [callsSelectvictim, hl] at hcall
  | _ => simp [callsSelectvictim, hl] at hcall

theorem ended_count {s : Search n} (hended : ended c s.place.pc = true)
    (hI : Inv strategy c me s) :
    ∃ k, n ≤ k + 1 ∧ Selected strategy n me k s.selector s.returned := by
  cases hl : s.place.pc with
  | steal l =>
      obtain ⟨k, hk, hselected⟩ := hI (by rw [hl]; rfl)
      refine ⟨k, ?_, hselected⟩
      cases l with
      | loop i =>
          have hcount : i = k + 1 := by rwa [hl] at hk
          simpa [ended, hl, hcount] using hended
      | _ => simp [ended, hl] at hended
  | lifeline l =>
      obtain ⟨k, hk, hselected⟩ := hI (by rw [hl]; rfl)
      refine ⟨k, ?_, hselected⟩
      cases l with
      | loop i victims =>
          simp only [ended, hl, Bool.and_eq_true, Bool.not_eq_true', decide_eq_true_eq] at hended
          have hcount : i = k := by simpa [hl, Counts, hended.1] using hk
          omega
      | _ => simp [ended, hl] at hended
  | _ => simp [ended, hl] at hended

/-- A call of selectvictim is right unless it is the last one of
search_for_lifelines(false), which reads past the end of the table of
__VS_DIST_HPT__; and a search loop that ends has tried all other places. -/
theorem selectvictim_iff (hn : 2 ≤ n) (hstrategy : strategy.Deterministic n me) {s₀ s : Search n}
    (hphase : Phase strategy c me s₀ s) :
    (callsSelectvictim c s.place = true →
      ((∃ v S, selectvictim n me s.selector strategy = some (.victim v, S) ∧ v < n ∧ v ≠ me) ↔
        ¬((∃ victims, strategy = .distHpt victims) ∧
          ∃ k, s.place.pc = .lifeline (.loop (n - 1) k)))) ∧
      (ended c s.place.pc = true → ∀ q < n, q ≠ me → q ∈ s.returned) := by
  have hI := phase_inv hstrategy hphase
  cases strategy with
  | rand stream => exact hstrategy.elim
  | rr =>
      constructor
      · intro _
        simp only [reduceCtorEq, exists_false, false_and, not_false_eq_true, iff_true]
        exact ⟨_, _, rfl, rr_victim hn me.isLt s.selector.lastSteal⟩
      · intro hended
        obtain ⟨k, hk, hselected⟩ := ended_count hended hI
        exact rr_covers me.isLt hselected hk
  | distHpt victims =>
      constructor
      · intro hcall
        rw [hpt_call hstrategy hcall hI]
        simp
      · intro hended
        obtain ⟨k, hk, hselected⟩ := ended_count hended hI
        exact hpt_covers hstrategy me.isLt hselected hk

theorem selectvictim_first_call : ∃ s₀ s : Search 2,
    Phase .rr (twoPlaces .successOnly false) 0 s₀ s ∧
      ∃ v S, selectvictim 2 (0 : Fin 2) s.selector .rr = some (.victim v, S) ∧
        v < 2 ∧ v ≠ (0 : Fin 2) := by
  have hphase : ∃ s₀ s : Search 2, Phase .rr (twoPlaces .successOnly false) 0 s₀ s ∧
      callsSelectvictim (twoPlaces .successOnly false) s.place = true :=
    ⟨⟨(Place.init 0).goto (.idle .mark), Shared.init 2, ⟨0, 0⟩, []⟩, _,
      ⟨rfl, .single (.worker none rfl)⟩, rfl⟩
  obtain ⟨s₀, s, hphase, hcall⟩ := hphase
  have hrr : Strategy.rr.Deterministic 2 (0 : Fin 2) := trivial
  refine ⟨s₀, s, hphase, ?_⟩
  exact ((selectvictim_iff (le_refl 2) hrr hphase).1 hcall).mpr (by simp)

/-- With two places the table has one entry, and search_for_lifelines(false)
reads two. -/
theorem selectvictim_past_table : ∃ s₀ s : Search 2,
    (Strategy.distHpt [1]).Deterministic 2 0 ∧
    Phase (.distHpt [1]) (twoPlaces .successOnly false) 0 s₀ s ∧
    callsSelectvictim (twoPlaces .successOnly false) s.place = true ∧
      selectvictim 2 0 s.selector (.distHpt [1]) = none := by
  refine ⟨⟨(Place.init 0).goto (.idle .mark), Shared.init 2, ⟨0, 0⟩, []⟩, _, List.Perm.refl _,
    ⟨rfl, .tail (.tail (.single (.worker none rfl)) (.worker none rfl)) (.worker none rfl)⟩,
    rfl, rfl⟩

end

end HabaneroUpc.VictimSelection
