import HabaneroUpc.DddfTallies
import Mathlib.Order.Fin.Basic

namespace HabaneroUpc.Dddf

open Interleaving Tally

variable {n count : Nat} {c : Config n count} {q i me : Fin n} {P P' : Place n count}
  {g : Shared n count} {s : State n count} {t : Task n count}

theorem called_eq_false (hs : Reachable (dddf c) s) (hq : q ≠ c.initiator) :
    (s.proc q).putCalled = false :=
  Bool.eq_false_iff.mpr fun hcalled => hq (((routed_reachable hs).1 q).called hcalled)

theorem CommTask.Routed.route {t : CommTask n} (h : t.Routed c i)
    (hq : (t.copies q || t.signals q) = true) : Route c i q := by
  cases t with
  | asyncAt => cases hq
  | asyncCopy dest e =>
      simp only [CommTask.copies, CommTask.signals, Bool.or_false, decide_eq_true_eq] at hq
      exact hq ▸ h
  | asyncAfter dest e => exact of_decide_eq_true hq ▸ h

theorem CommTask.Routed.not_signals {t : CommTask n} (h : t.Routed c i) :
    ¬t.signals c.initiator = true :=
  fun hsignals => not_route_initiator (h.route (by rw [hsignals, Bool.or_true]))

/-- The value comes in at most once at every place. -/
theorem flow_le (hs : Reachable (dddf c) s) (q : Fin n) :
    total (fun _ P => P.sending q) s.proc + sendsTo q s + (s.proc q).putCalled.toNat ≤ 1 := by
  have hbool (b : Bool) : b.toNat ≤ 1 := Bool.toNat_le b
  by_cases hq : q = c.initiator
  · subst hq
    obtain ⟨hplaces, -⟩ := routed_reachable hs
    have hsending : total (fun _ P => P.sending c.initiator) s.proc = 0 := by
      refine Finset.sum_eq_zero fun i _ => Nat.add_eq_zero_iff.mpr ⟨?_, ?_⟩
      · apply List.countP_eq_zero.mpr
        intro t ht hdelivers
        have hrouted := (hplaces i).tasks t ht
        cases t with
        | putRemote dest l => exact not_route_initiator (of_decide_eq_true hdelivers ▸ hrouted)
        | _ => cases hdelivers
      · exact List.countP_eq_zero.mpr fun t ht => ((hplaces i).commTasks t ht).not_signals
    have hsends : sendsTo c.initiator s = 0 := by
      rw [sendsTo]
      apply Finset.sum_eq_zero
      intro i _
      exact List.countP_eq_zero.mpr fun t ht => ((hplaces i).sent t ht).not_signals
    rw [hsending, hsends, Nat.zero_add]
    exact hbool _
  · rw [called_eq_false hs hq, Bool.toNat_false]
    by_cases hhome : q = c.home
    · subst hhome
      have hputs := puts_eq hs hq
      have hle := hbool (s.proc c.initiator).putCalled
      omega
    · have hanswers := answers_eq hs hq hhome
      have hregistrations := registrations_le hs q
      have hnet := inFlight_nonneg (valueMsg_nonneg q) s
      have hle := hbool (s.proc q).putRequestedFromHome
      omega

theorem copies_le_one (hs : Reachable (dddf c) s) (i q : Fin n) : (s.proc i).copies q ≤ 1 := by
  have hle := copies_le hs i q
  have hflow := flow_le hs q
  have hsends : (s.proc i).sends q ≤ sendsTo q s :=
      le_total (M := Nat) (fun _ P => P.sends q) s.proc i
  have hsending : (s.proc i).sending q ≤ total (fun _ P => P.sending q) s.proc :=
    le_total (M := Nat) (fun _ P => P.sending q) s.proc i
  omega

/-- A local put finds no value. -/
theorem ddf_none (hs : Reachable (dddf c) s) (ht : t ∈ (s.proc q).tasks)
    (hput : t.isDdfPut = true) :
    (s.proc q).ddf = none := by
  have hpos : 0 < (s.proc q).receiving := List.countP_pos_iff.mpr ⟨t, ht, hput⟩
  have hflow := flow_le hs q
  have hreceipts := receipts_eq hs q
  have hnet := inFlight_nonneg (receiptMsg_nonneg q) s
  apply ((routed_reachable hs).1 q).puts.mpr
  omega

theorem rank_none (hs : Reachable (dddf c) s) (ht : t ∈ (s.proc q).tasks)
    (hset : t.isSetRank = true) :
    (s.proc q).putInitiatorRank = none := by
  have hpos : 0 < (s.proc q).initiating := List.countP_pos_iff.mpr ⟨t, ht, hset⟩
  have hflow := flow_le hs q
  have hrank := rank_le hs q
  have hzero : (s.proc q).putInitiatorRank.isSome.toNat = 0 := by omega
  simpa using hzero

theorem check_failed {p : Prop} [Decidable p] (a : Assertion) (hp : p) :
    (P.check a p).failed = P.failed := by
  rw [Place.check, if_pos hp]

theorem runTask_failed (ht : t.Routed c me P) (hddf : t.isDdfPut = true → P.ddf = none)
    (hrank : t.isSetRank = true → P.putInitiatorRank = none) :
    (runTask c me P g t).1.failed = P.failed := by
  cases t with
  | registerCallback l =>
      cases l with
      | get =>
          simp only [runTask, dddfRegisterCallback]
          split <;> rfl
      | cas =>
          simp only [runTask, dddfRegisterCallback]
          split <;> rfl
      | asyncAt => exact check_failed (P := { P with putRequestedFromHome := true }) _ ht.1.1.symm
  | put l =>
      cases l with
      | ddfPut => exact check_failed _ (hddf rfl)
      | assertRank => exact check_failed _ (hrank rfl)
      | setRank | memcpy => rfl
      | cas =>
          simp only [runTask, ddfPut]
          split <;> rfl
  | putHome source l =>
      cases l with
      | memcpy | setRank => rfl
      | assertRank => exact check_failed _ (hrank rfl)
      | ddfPut => exact check_failed _ (hddf rfl)
  | putRemote dest l =>
      cases l with
      | asyncCopy => rfl
      | asyncAfter e => exact check_failed _ (Route.ne ht).symm
  | callback dest =>
      simp only [runTask, ddfPutCallback]
      split <;> rfl
  | putBack dest =>
      simp only [runTask, putBack]
      split <;> rfl

theorem failed_nil (hs : Reachable (dddf c) s) (q : Fin n) : (s.proc q).failed = [] := by
  refine hs.local_invariant (I := fun _ P _ => P.failed = []) (fun _ => rfl) ?_ ?_ q
  · intro s i a P' g' hs _ hI ha
    have hold := hI i
    cases act_step ha with
    | @run t ht =>
        have hrouted := (((routed_reachable hs).1 i).tasks t ht).mono id id id
        rw [← hold]
        exact runTask_failed (P := (s.proc i).take t) hrouted (ddf_none hs ht) (rank_none hs ht)
    | _ => exact hold
  · intro s i a P' g' _ _ hI _ j _
    exact hI j

/-- The value of a place that has come in there has been put. -/
theorem satisfied_of_flow (hs : Reachable (dddf c) s) (htasks : (s.proc q).tasks = [])
    (hnet : s.shared.net = []) (hflow : 0 < (s.proc q).putCalled.toNat + sendsTo q s) :
    (s.proc q).ddf ≠ none := by
  have hreceipts := receipts_eq hs q
  have hzero : inFlight (receiptMsg q) s = 0 := by simp [inFlight, hnet]
  have hreceiving : (s.proc q).receiving = 0 := by simp [Place.receiving, htasks]
  intro hddf
  have hputs := ((routed_reachable hs).1 q).puts.mp hddf
  omega

def Awaits (c : Config n count) (me : Fin n) (P : Place n count) : Prop :=
  P.awaited = true → me = c.home ∨ P.ddf ≠ none ∨ P.putRequestedFromHome = true ∨
    ∃ l, .registerCallback l ∈ P.tasks

theorem Awaits.extends (h : Awaits c me P) (hext : Extends P P') : Awaits c me P' := by
  intro hawaited
  rw [hext.awaited] at hawaited
  rcases h hawaited with hme | hddf | hrequested | ⟨l, hl⟩
  · exact .inl hme
  · exact .inr (.inl (hext.ddf hddf))
  · exact .inr (.inr (.inl (hext.requested hrequested)))
  · exact .inr (.inr (.inr ⟨l, hext.tasks hl⟩))

theorem Awaits.runTask (h : Awaits c me P) (ht : t ∈ P.tasks) :
    Awaits c me (runTask c me (P.take t) g t).1 := by
  have hext := Extends.runTask c me (P.take t) g t
  cases t with
  | registerCallback l =>
      intro _
      refine .inr ?_
      cases l with
      | get =>
          simp only [Dddf.runTask, dddfRegisterCallback]
          split
          · exact .inr (.inr ⟨_, List.mem_cons_self⟩)
          · exact .inl ‹_›
      | cas =>
          simp only [Dddf.runTask, dddfRegisterCallback]
          split
          · exact .inr (.inl ‹_›)
          · exact .inr (.inl rfl)
      | asyncAt =>
          have hset := Extends.refl { P.take (.registerCallback .asyncAt) with putRequestedFromHome := true }
          exact .inr (.inl (((hset.check ..).push .asyncAt).requested rfl))
  | _ =>
      refine Awaits.extends (fun hawaited => ?_) hext
      rcases h hawaited with hme | hddf | hrequested | ⟨l, hl⟩
      · exact .inl hme
      · exact .inr (.inl hddf)
      · exact .inr (.inr (.inl hrequested))
      · exact .inr (.inr (.inr ⟨l, (List.mem_erase_of_ne (by simp)).mpr hl⟩))

theorem awaits_reachable (hs : Reachable (dddf c) s) (q : Fin n) : Awaits c q (s.proc q) := by
  refine hs.local_invariant (I := fun q P _ => Awaits c q P) (fun _ h => by cases h) ?_ ?_ q
  · intro s i a P' g' _ _ hI ha
    have hold := hI i
    have hready (P : Place n count) (t : Task n count) : Extends P (P.ready t) :=
      (Extends.refl P).ready t
    cases act_step ha with
    | put => exact Awaits.extends (P := { s.proc i with putCalled := true }) hold (hready ..)
    | awaitHome _ hme => exact fun _ => .inl hme
    | await => exact fun _ => .inr (.inr (.inr ⟨_, List.mem_cons_self⟩))
    | run ht => exact hold.runTask ht
    | comm => exact hold
    | asyncAt | asyncAfter => exact hold.extends (hready ..)
    | complete => exact hold
  · intro s i a P' g' _ _ hI _ j _
    exact hI j

structure Quiet (s : State n count) : Prop where
  tasks : ∀ q, (s.proc q).tasks = []
  commTasks : ∀ q, (s.proc q).commTasks = []
  net : s.shared.net = []

theorem Quiet.sending_eq (hquiet : Quiet s) (q : Fin n) :
    total (fun _ P => P.sending q) s.proc = 0 :=
  Finset.sum_eq_zero fun i _ => by simp [Place.sending, hquiet.tasks i, hquiet.commTasks i]

theorem Quiet.asking_eq (hs : Reachable (dddf c) s) (hquiet : Quiet s)
    (hwaiting : q ∉ (s.proc c.home).waiting) : total (fun _ P => P.asking q) s.proc = 0 := by
  apply Finset.sum_eq_zero
  intro i _
  simp only [Place.asking]
  rw [hquiet.tasks i, List.countP_nil, Nat.zero_add]
  apply List.countP_eq_zero.mpr
  intro dest hdest heq
  obtain rfl := of_decide_eq_true heq
  obtain ⟨rfl, -⟩ := ((routed_reachable hs).1 i).waiting dest hdest
  exact hwaiting hdest

theorem initiator_satisfied (hs : Reachable (dddf c) s) (hquiet : Quiet s)
    (hcalled : (s.proc c.initiator).putCalled = true) : (s.proc c.initiator).ddf ≠ none := by
  apply satisfied_of_flow hs (hquiet.tasks _) hquiet.net
  rw [hcalled, Bool.toNat_true]
  omega

theorem home_satisfied (hs : Reachable (dddf c) s) (hquiet : Quiet s)
    (hcalled : (s.proc c.initiator).putCalled = true) : (s.proc c.home).ddf ≠ none := by
  by_cases hhome : c.home = c.initiator
  · rw [hhome]
    exact initiator_satisfied hs hquiet hcalled
  · have hputs := puts_eq hs hhome
    have hputting : total (fun _ => Place.putting) s.proc = 0 :=
      Finset.sum_eq_zero fun i _ => by simp [Place.putting, hquiet.tasks i]
    have hasking := hquiet.asking_eq hs fun hwaiting =>
      (((routed_reachable hs).1 c.home).waiting c.home hwaiting).2.1 rfl
    have hsending := hquiet.sending_eq c.home
    rw [hcalled, Bool.toNat_true] at hputs
    exact satisfied_of_flow hs (hquiet.tasks _) hquiet.net (by omega)

theorem awaited_satisfied (hs : Reachable (dddf c) s) (hquiet : Quiet s)
    (hcalled : (s.proc c.initiator).putCalled = true) (hawaited : (s.proc q).awaited = true) :
    (s.proc q).ddf ≠ none := by
  have hhomeddf := home_satisfied hs hquiet hcalled
  rcases awaits_reachable hs q hawaited with rfl | hddf | hrequested | ⟨l, hl⟩
  · exact hhomeddf
  · exact hddf
  · by_cases hq : q = c.initiator
    · subst hq
      exact initiator_satisfied hs hquiet hcalled
    by_cases hhome : q = c.home
    · subst hhome
      exact hhomeddf
    have hregistrations := registrations_eq hs hq
    have hanswers := answers_eq hs hq hhome
    have hregistering : (s.proc q).registering = 0 := by
      simp [Place.registering, hquiet.tasks q, hquiet.commTasks q]
    have hasking : total (fun _ P => P.asking q) s.proc = 0 := by
      apply hquiet.asking_eq hs
      rw [((routed_reachable hs).1 c.home).woken hhomeddf]
      exact List.not_mem_nil
    have hsending := hquiet.sending_eq q
    have hnet : inFlight (valueMsg q) s = 0 := by simp [inFlight, hquiet.net]
    rw [hrequested, Bool.toNat_true] at hregistrations
    exact satisfied_of_flow hs (hquiet.tasks _) hquiet.net (by omega)
  · rw [hquiet.tasks q] at hl
    cases hl

structure Delivers (c : Config n count) (s : State n count) : Prop where
  puts : ∀ q, (s.proc q).puts ≤ 1
  asserts : ∀ q, (s.proc q).failed = []
  registers : ∀ q, (s.proc q).sent.countP (· = .asyncAt) ≤ 1
  copies : ∀ q, (s.proc c.home).sent.countP (·.copies q) ≤ 1
  signals : ∀ q, (s.proc c.home).sent.countP (·.signals q) ≤ 1
  registered : ∀ q t, t ∈ (s.proc c.home).sent → (t.copies q || t.signals q) = true →
    .asyncAt ∈ (s.proc q).sent
  back : ∀ t ∈ (s.proc c.home).sent, (t.copies c.initiator || t.signals c.initiator) = false
  satisfied : Quiet s → (s.proc c.initiator).putCalled = true →
    (s.proc c.initiator).ddf ≠ none ∧ (s.proc c.home).ddf ≠ none ∧
      ∀ q, (s.proc q).awaited = true → (s.proc q).ddf ≠ none

theorem delivers_once (hs : Reachable (dddf c) s) : Delivers c s := by
  obtain ⟨hplaces, -⟩ := routed_reachable hs
  have hsends (q : Fin n) : (s.proc c.home).sends q ≤ sendsTo q s :=
    le_total (M := Nat) (fun _ P => P.sends q) s.proc c.home
  have hsending (q : Fin n) : (s.proc c.home).sending q ≤ total (fun _ P => P.sending q) s.proc :=
    le_total (M := Nat) (fun _ P => P.sending q) s.proc c.home
  constructor
  · intro q
    have hflow := flow_le hs q
    have hreceipts := receipts_eq hs q
    have hnet := inFlight_nonneg (receiptMsg_nonneg q) s
    omega
  · exact failed_nil hs
  · intro q
    have hle := registrations_le hs q
    have hbool := Bool.toNat_le (s.proc q).putRequestedFromHome
    rw [Place.registrations] at hle
    omega
  · intro q
    have hle := copies_le_one hs c.home q
    rw [Place.copies] at hle
    omega
  · intro q
    have hflow := flow_le hs q
    have h₁ := hsends q
    rw [Place.sends] at h₁
    omega
  · intro q t ht hq
    have hroute := ((hplaces c.home).sent t ht).route hq
    have hhome : q ≠ c.home := hroute.ne.symm
    have hinitiator : q ≠ c.initiator := by
      rintro rfl
      exact not_route_initiator hroute
    have hpos : 0 < (s.proc c.home).sending q + (s.proc c.home).sends q := by
      rcases Bool.or_eq_true_iff.mp hq with hcopies | hsignals
      · have hcount : 0 < (s.proc c.home).sent.countP (·.copies q) :=
          List.countP_pos_iff.mpr ⟨t, ht, hcopies⟩
        have hle := copies_le hs c.home q
        rw [Place.copies] at hle
        omega
      · have hcount : 0 < (s.proc c.home).sends q := List.countP_pos_iff.mpr ⟨t, ht, hsignals⟩
        omega
    have hanswers := answers_eq hs hinitiator hhome
    have hnet := inFlight_nonneg (valueMsg_nonneg q) s
    have h₁ := hsends q
    have h₂ := hsending q
    have hregistrations : 0 < (s.proc q).registrations := by omega
    obtain ⟨t, ht, heq⟩ := List.countP_pos_iff.mp hregistrations
    exact of_decide_eq_true heq ▸ ht
  · intro t ht
    rw [Bool.eq_false_iff]
    intro hq
    exact not_route_initiator (((hplaces c.home).sent t ht).route hq)
  · intro hquiet hcalled
    exact ⟨initiator_satisfied hs hquiet hcalled, home_satisfied hs hquiet hcalled,
      fun q hawaited => awaited_satisfied hs hquiet hcalled hawaited⟩

def remotePut : Config 2 1 := ⟨0, 1, #v[7], fun _ => false, fun _ => #v[0]⟩

def remotePutRun : List (Fin 2 × Act 2 1) :=
  [(1, .put), (1, .run (.put .ddfPut)), (1, .run (.put .assertRank)), (1, .run (.put .setRank)),
    (1, .run (.put .memcpy)), (1, .run (.put .cas)), (1, .run (.putRemote 0 .asyncCopy)),
    (1, .comm), (1, .run (.putRemote 0 (.asyncAfter 0))), (1, .comm), (1, .complete 0 0),
    (0, .deliver (.asyncAfter 1 0 0)), (0, .run (.putHome 1 .memcpy)),
    (0, .run (.putHome 1 (.assertRank #v[7]))), (0, .run (.putHome 1 (.setRank #v[7]))),
    (0, .run (.putHome 1 (.ddfPut #v[7])))]

theorem delivers_once_remotePut : ∃ s, Reachable (dddf remotePut) s ∧ Delivers remotePut s ∧
    Quiet s ∧ (s.proc 0).ddf = some #v[7] := by
  have hs := after_reachable (dddf remotePut) remotePutRun
  refine ⟨_, hs, delivers_once hs, ⟨?_, ?_, ?_⟩, ?_⟩ <;> decide

end HabaneroUpc.Dddf
