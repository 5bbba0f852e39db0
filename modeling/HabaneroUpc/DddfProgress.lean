import HabaneroUpc.DddfAgreement
import Mathlib.Algebra.Order.BigOperators.Group.List

namespace HabaneroUpc.Dddf

open Interleaving Tally

variable {n count : Nat} {c c' : Config n count} {me q : Fin n} {P P' : Place n count}
  {g g' : Shared n count} {s : State n count} {a : Act n count} {t : Task n count}

def Place.beginPut (P : Place n count) (data : Data count) : Place n count :=
  ({ P with putCalled := true }.ddfPut data).ready (.put .assertRank)

def Place.beginAwait (home me : Fin n) (P : Place n count) : Place n count :=
  let P := { P with awaited := true }
  if me = home then P else P.ready (.registerCallback .get)

@[simp] theorem beginPut_ddf (P : Place n count) (data : Data count) :
    (P.beginPut data).ddf = some data := rfl

@[simp] theorem beginPut_putCalled (P : Place n count) (data : Data count) :
    (P.beginPut data).putCalled = true := by
  simp only [Place.beginPut, Place.ready, Place.ddfPut, Place.check]
  split <;> rfl

@[simp] theorem beginPut_awaited (P : Place n count) (data : Data count) :
    (P.beginPut data).awaited = P.awaited := by
  simp only [Place.beginPut, Place.ready, Place.ddfPut, Place.check]
  split <;> rfl

@[simp] theorem beginAwait_ddf (P : Place n count) (home : Fin n) :
    (P.beginAwait home me).ddf = P.ddf := by
  simp only [Place.beginAwait, Place.ready]
  split <;> rfl

@[simp] theorem beginAwait_putCalled (P : Place n count) (home : Fin n) :
    (P.beginAwait home me).putCalled = P.putCalled := by
  simp only [Place.beginAwait, Place.ready]
  split <;> rfl

@[simp] theorem beginAwait_awaited (P : Place n count) (home : Fin n) :
    (P.beginAwait home me).awaited = true := by
  simp only [Place.beginAwait, Place.ready]
  split <;> rfl

theorem act_beginPut (hme : me = c.initiator) (hcalled : P.putCalled = false) :
    ∃ P₁, act c me .put P g = some (P₁, g) ∧
      act c me (.run (.put .ddfPut)) P₁ g = some (P.beginPut c.data, g) := by
  refine ⟨{ P with putCalled := true }.ready (.put .ddfPut), by rw [act, if_pos ⟨hme, hcalled⟩], ?_⟩
  have hmem : .put .ddfPut ∈ ({ P with putCalled := true }.ready (.put .ddfPut)).tasks :=
    List.mem_cons_self
  have htake : ({ P with putCalled := true }.ready (.put .ddfPut)).take (.put .ddfPut) =
      { P with putCalled := true } := by
    simp [Place.take, Place.ready]
  rw [act, if_pos hmem, htake]
  rfl

theorem act_beginAwait (hawaits : c.awaits me = true) :
    act c me .await P g = some (P.beginAwait c.home me, g) := if_pos hawaits

abbrev ReachableInOrder (c : Config n count) : State n count → Prop :=
  ReachableWhen (dddf c) fun s i a => ordered s i a = true

theorem ReachableInOrder.step (hs : ReachableInOrder c s) (hordered : ordered s me a = true)
    (ha : act c me a (s.proc me) s.shared = some (P', g')) : ReachableInOrder c (s.set me (P', g')) :=
  hs.next hordered (next_eq_some.mpr ⟨P', g', ha, rfl⟩)

theorem ReachableInOrder.beginPut (hs : ReachableInOrder c s) (hme : me = c.initiator)
    (hcalled : (s.proc me).putCalled = false) :
    ReachableInOrder c (s.set me ((s.proc me).beginPut c.data, s.shared)) := by
  obtain ⟨P₁, hput, hrun⟩ := act_beginPut (g := s.shared) hme hcalled
  have hmid : ReachableInOrder c (s.set me (P₁, s.shared)) := ReachableInOrder.step hs rfl hput
  rw [← set_set s me (P₁, s.shared)]
  apply ReachableInOrder.step hmid (a := .run (.put .ddfPut)) rfl
  rw [set_proc_self]
  exact hrun

theorem ReachableInOrder.beginAwait (hs : ReachableInOrder c s) (hawaits : c.awaits me = true) (m : Nat) :
    ReachableInOrder c (s.set me ((Place.beginAwait c.home me)^[m] (s.proc me), s.shared)) := by
  induction m with
  | zero =>
      rw [Function.iterate_zero, id, set_self]
      exact hs
  | succ m ih =>
      rw [Function.iterate_succ_apply', ← set_set s me (_, s.shared) (Place.beginAwait c.home me _, _)]
      apply ReachableInOrder.step ih (a := .await) rfl
      rw [set_proc_self]
      exact act_beginAwait hawaits

theorem ReachableInOrder.valid (hs : ReachableInOrder c s) : Valid c s :=
  valid_reachable (hs.mono fun _ _ _ => .inl)

def Act.internal : Act n count → Bool
  | .put | .await => false
  | _ => true

theorem runTask_config (hhome : c'.home = c.home) (hdata : t.isPut = true → c'.data = c.data) :
    runTask c' me P g t = runTask c me P g t := by
  cases t with
  | registerCallback l => cases l <;> simp [runTask, dddfRegisterCallback, hhome]
  | put l =>
      have heq : c'.data = c.data := hdata rfl
      cases l <;> simp only [runTask, ddfPut, hhome, heq]
  | _ => rfl

theorem act_config (hhome : c'.home = c.home)
    (hput : a = .put → me = c.initiator → me = c'.initiator)
    (hawait : a = .await → c.awaits me = true → c'.awaits me = true)
    (hdata : ∀ l, a = .run (.put l) → .put l ∈ P.tasks → c'.data = c.data)
    (ha : act c me a P g = some (P', g')) : act c' me a P g = some (P', g') := by
  cases a with
  | put =>
      simp only [act, Option.ite_none_right_eq_some] at ha ⊢
      exact ⟨⟨hput rfl ha.1.1, ha.1.2⟩, ha.2⟩
  | await =>
      simp only [act, Option.ite_none_right_eq_some] at ha ⊢
      rw [hhome]
      exact ⟨hawait rfl ha.1, ha.2⟩
  | run t =>
      simp only [act, Option.ite_none_right_eq_some] at ha ⊢
      have hrun : runTask c' me (P.take t) g t = runTask c me (P.take t) g t := by
        apply runTask_config hhome
        intro hput
        cases t with
        | put l => exact hdata l rfl ha.1
        | _ => cases hput
      rwa [hrun]
  | deliver m =>
      cases m <;> simpa only [act, receive, hhome] using ha
  | comm | complete => exact ha

theorem act_calls (ha : act c me a P g = some (P', g')) :
    (P'.putCalled = true ↔ P.putCalled = true ∨ a = .put) ∧
      (P'.awaited = true ↔ P.awaited = true ∨ a = .await) := by
  cases act_step ha with
  | @run t ht =>
      have hext := Extends.runTask c me (P.take t) g t
      rw [hext.called, hext.awaited]
      simp [Place.take]
  | _ => simp [Place.ready, Place.advance]

theorem calls_internal (hinternal : a.internal = true) (ha : act c me a P g = some (P', g')) :
    P'.putCalled = P.putCalled ∧ P'.awaited = P.awaited := by
  obtain ⟨hcalled, hawaited⟩ := act_calls ha
  have hput : a ≠ .put := by
    rintro rfl
    cases hinternal
  have hawait : a ≠ .await := by
    rintro rfl
    cases hinternal
  exact ⟨Bool.eq_iff_iff.mpr (hcalled.trans (or_iff_left hput)),
    Bool.eq_iff_iff.mpr (hawaited.trans (or_iff_left hawait))⟩

/-- Without a call nothing happens. -/
theorem init_of_uncalled (hs : Reachable (dddf c) s)
    (h : ∀ i, (s.proc i).putCalled = false ∧ (s.proc i).awaited = false) : s = (dddf c).init := by
  induction hs with
  | init => rfl
  | @next s s' i a _ _ hnext ih =>
      obtain ⟨P', g', ha, rfl⟩ := next_eq_some.mp hnext
      obtain ⟨hcalled, hawaited⟩ := act_calls ha
      have hself := h i
      rw [set_proc_self, ← Bool.not_eq_true, ← Bool.not_eq_true, hcalled, hawaited, not_or, not_or] at hself
      obtain ⟨⟨hput, hne⟩, hawait, hne'⟩ := hself
      have hold (j : Fin n) : (s.proc j).putCalled = false ∧ (s.proc j).awaited = false := by
        by_cases hj : j = i
        · subst hj
          exact ⟨Bool.eq_false_iff.mpr hput, Bool.eq_false_iff.mpr hawait⟩
        · have hother := h j
          rwa [set_proc_of_ne s _ hj] at hother
      obtain rfl := ih hold
      cases a with
      | put => exact absurd rfl hne
      | await => exact absurd rfl hne'
      | run | comm | deliver | complete => simp [dddf, act, Place.init] at ha

/-- The initiator and the awaiting places of a run can be taken to be those that
have called DDF_PUT and asyncAwait. -/
theorem reachable_narrow (hs : Reachable (dddf c) s) {r : Fin n} {A : Fin n → Bool}
    (hcalled : ∀ q, (s.proc q).putCalled = true → q = r)
    (hawaited : ∀ q, (s.proc q).awaited = true → A q = true) :
    Reachable (dddf { c with initiator := r, awaits := A }) s := by
  induction hs with
  | init => exact .init
  | @next s s' i a _ _ hnext ih =>
      obtain ⟨P', g', ha, rfl⟩ := next_eq_some.mp hnext
      have hcalls := act_calls ha
      have hself : ((s.set i (P', g')).proc i) = P' := set_proc_self ..
      have hold (q : Fin n) : ((s.proc q).putCalled = true → ((s.set i (P', g')).proc q).putCalled = true) ∧
          ((s.proc q).awaited = true → ((s.set i (P', g')).proc q).awaited = true) := by
        by_cases hq : q = i
        · subst hq
          rw [hself, hcalls.1, hcalls.2]
          exact ⟨.inl, .inl⟩
        · rw [set_proc_of_ne s _ hq]
          exact ⟨id, id⟩
      have hreach := ih (fun q hq => hcalled q ((hold q).1 hq)) fun q hq => hawaited q ((hold q).2 hq)
      have hstep : act { c with initiator := r, awaits := A } i a (s.proc i) s.shared = some (P', g') := by
        refine act_config (c := c) rfl (fun hput _ => ?_) (fun hawait _ => ?_) (fun _ _ _ => rfl) ha
        · apply hcalled i
          rw [hself]
          exact hcalls.1.mpr (.inr hput)
        · apply hawaited i
          rw [hself]
          exact hcalls.2.mpr (.inr hawait)
      exact .next hreach trivial (next_eq_some.mpr ⟨P', g', hstep, rfl⟩)

/-- A value that comes in at a place has been awaited there and put at the home. -/
theorem asked_of_putHome (hs : Reachable (dddf c) s) (hhome : c.initiator = c.home) {source : Fin n}
    {l : PutHomePc count} (ht : .putHome source l ∈ (s.proc q).tasks) :
    q ≠ c.home ∧ (s.proc q).awaited = true ∧ (s.proc c.home).putCalled = true := by
  have hcalled (i : Fin n) (hi : (s.proc i).putCalled = true) : i = c.home :=
    hhome ▸ ((routed_reachable hs).1 i).called hi
  have hawaited := reachable_narrow hs hcalled (A := fun i => (s.proc i).awaited) fun _ => id
  obtain ⟨hroute, -⟩ := ((routed_reachable hawaited).1 q).tasks _ ht
  rcases hroute with ⟨hsource, hne, -⟩ | ⟨-, hq, -, hasked⟩
  · exact absurd hsource hne
  · refine ⟨hq, hasked, ?_⟩
    by_contra hnot
    have hnone (i : Fin n) (hi : (s.proc i).putCalled = true) : i = q := by
      rw [hcalled i hi] at hi
      exact absurd hi hnot
    have hother := reachable_narrow hs hnone (A := fun _ => true) fun _ _ => rfl
    obtain ⟨hroute, -⟩ := ((routed_reachable hother).1 q).tasks _ ht
    rcases hroute with ⟨-, -, hdest⟩ | ⟨-, -, hdest, -⟩
    · exact hq hdest
    · exact hdest rfl

structure Begun (P : Place n count) : Prop where
  called : P.putCalled = true → P.ddf ≠ none
  tasks : ∀ l, .put l ∈ P.tasks → l ≠ .ddfPut ∧ P.ddf ≠ none

theorem Begun.beginPut (h : Begun P) (data : Data count) : Begun (P.beginPut data) := by
  refine ⟨fun _ => nofun, fun l hl => ⟨?_, nofun⟩⟩
  rintro rfl
  simp only [Place.beginPut, Place.ready, Place.ddfPut, List.mem_cons, reduceCtorEq, Task.put.injEq,
    List.mem_append, List.mem_map, and_false, exists_false, false_or] at hl
  rw [Place.check] at hl
  split at hl <;> exact (h.tasks _ hl).1 rfl

theorem Begun.beginAwait (h : Begun P) (home : Fin n) : Begun (P.beginAwait home me) := by
  refine ⟨?_, fun l hl => ?_⟩
  · rw [beginAwait_putCalled, beginAwait_ddf]
    exact h.called
  · rw [beginAwait_ddf]
    apply h.tasks l
    unfold Place.beginAwait at hl
    split at hl
    · exact hl
    · exact (List.mem_cons.mp hl).resolve_left (by simp)

/-- A statement of DDF_PUT that is ready was so before, or comes after the one
that has been run. -/
theorem runTask_put {l : PutPc} (h : .put l ∈ (runTask c me P g t).1.tasks) :
    .put l ∈ P.tasks ∨ (∃ l', t = .put l') ∧ l ≠ .ddfPut := by
  rcases t with ⟨_ | _ | _⟩ | ⟨_ | _ | _ | _ | _⟩ | ⟨source, _ | data | data | data⟩ |
    ⟨dest, _ | e⟩ | dest | dest
  -- only DDF_PUT itself makes its statements ready
  all_goals
    simp only [runTask, dddfRegisterCallback, ddfPut, ddfPutHome, ddfPutRemote, ddfPutCallback,
      putBack, Place.check, Place.ddfPut, Place.ready, Place.push] at h
    revert h
    first
    | split <;> simp +contextual
    | simp +contextual
  all_goals
    rintro (rfl | h)
    · simp
    · exact .inl h

theorem Begun.act (h : Begun P) (hinternal : a.internal = true)
    (ha : act c me a P g = some (P', g')) : Begun P' := by
  cases act_step ha with
  | put | awaitHome | await => cases hinternal
  | @run t ht =>
      have hext := Extends.runTask c me (P.take t) g t
      refine ⟨fun hcalled => ?_, fun l hl => ?_⟩
      · rw [hext.called] at hcalled
        exact hext.ddf (h.called hcalled)
      · rcases runTask_put hl with hl | ⟨⟨l', rfl⟩, hne⟩
        · obtain ⟨hne, hddf⟩ := h.tasks l (List.mem_of_mem_erase hl)
          exact ⟨hne, hext.ddf hddf⟩
        · exact ⟨hne, hext.ddf (h.tasks l' ht).2⟩
  | comm | complete => exact ⟨h.called, h.tasks⟩
  | asyncAt | asyncAfter =>
      exact ⟨h.called, fun l hl => h.tasks l ((List.mem_cons.mp hl).resolve_left (by simp))⟩

theorem runTask_ddf (hput : t ≠ .put .ddfPut) (hhome : ∀ source data, t ≠ .putHome source (.ddfPut data)) :
    (runTask c me P g t).1.ddf = P.ddf := by
  rcases t with ⟨_ | _ | _⟩ | ⟨_ | _ | _ | _ | _⟩ | ⟨source, _ | data | data | data⟩ |
    ⟨dest, _ | e⟩ | dest | dest
  case put.ddfPut => exact absurd rfl hput
  case putHome.ddfPut => exact absurd rfl (hhome source data)
  all_goals
    simp only [runTask, dddfRegisterCallback, ddfPut, ddfPutHome, ddfPutRemote, ddfPutCallback,
      putBack, Place.check, Place.ready, Place.push]
  all_goals split <;> rfl

/-- The value of a place changes when DDF_PUT_home puts what has come in. -/
theorem ddf_act (h : Begun P) (hinternal : a.internal = true)
    (ha : act c me a P g = some (P', g')) :
    P'.ddf = P.ddf ∨ ∃ source data, a = .run (.putHome source (.ddfPut data)) ∧
      .putHome source (.ddfPut data) ∈ P.tasks ∧ P'.ddf = some data := by
  cases act_step ha with
  | put | awaitHome | await => cases hinternal
  | @run t ht =>
      by_cases hhome : ∃ source data, t = .putHome source (.ddfPut data)
      · obtain ⟨source, data, rfl⟩ := hhome
        exact .inr ⟨source, data, rfl, ht, rfl⟩
      · refine .inl (runTask_ddf (P := P.take t) ?_ fun source data heq => hhome ⟨source, data, heq⟩)
        rintro rfl
        exact (h.tasks _ ht).1 rfl
  | comm | complete | asyncAt | asyncAfter => exact .inl rfl

section Cost

/-- Steps that a task, and what comes of it, takes at most. -/
def Task.cost : Task n count → Nat
  | .registerCallback .get => 18
  | .registerCallback .cas => 17
  | .registerCallback .asyncAt => 16
  | .put .ddfPut => 15
  | .put .assertRank => 14
  | .put .setRank => 13
  | .put .memcpy => 12
  | .put .cas => 11
  | .putHome _ .memcpy => 4
  | .putHome _ (.assertRank _) => 3
  | .putHome _ (.setRank _) => 2
  | .putHome _ (.ddfPut _) => 1
  | .putRemote _ .asyncCopy => 10
  | .putRemote _ (.asyncAfter _) => 7
  | .callback _ => 13
  | .putBack _ => 11

def CommTask.cost : CommTask n → Nat
  | .asyncAt => 15
  | .asyncCopy _ _ => 2
  | .asyncAfter _ _ => 6

def Msg.cost : Msg n → Nat
  | .asyncAt _ => 14
  | .asyncCopy _ _ _ => 1
  | .asyncAfter _ _ _ => 5

def Place.cost (P : Place n count) : Nat :=
  (P.tasks.map Task.cost).sum + 12 * P.waiting.length + (P.commTasks.map CommTask.cost).sum

def Shared.cost (g : Shared n count) : Nat := (g.net.map Msg.cost).sum

@[simp] theorem cost_ready (P : Place n count) (t : Task n count) :
    (P.ready t).cost = P.cost + t.cost := by
  simp only [Place.cost, Place.ready, List.map_cons, List.sum_cons]
  omega

@[simp] theorem cost_push (P : Place n count) (t : CommTask n) : (P.push t).cost = P.cost + t.cost := by
  simp [Place.cost, Place.push, Nat.add_assoc]

@[simp] theorem cost_check (P : Place n count) (a : Assertion) (p : Prop) [Decidable p] :
    (P.check a p).cost = P.cost := by
  rw [Place.check]
  split <;> rfl

theorem cost_ddfPut_le (P : Place n count) (data : Data count) : (P.ddfPut data).cost ≤ P.cost := by
  have hback : ((P.waiting.map fun dest => (Task.putBack dest : Task n count)).map Task.cost).sum =
      11 * P.waiting.length := by
    simp [List.map_map, Function.comp_def, Task.cost, Nat.mul_comm]
  rw [← cost_check P .singleAssignment (P.ddf = none)]
  have hwaiting : (P.check .singleAssignment (P.ddf = none)).waiting = P.waiting := by
    rw [Place.check]
    split <;> rfl
  have htasks : (P.check .singleAssignment (P.ddf = none)).tasks = P.tasks := by
    rw [Place.check]
    split <;> rfl
  simp only [Place.cost, Place.ddfPut, hwaiting, htasks, List.map_append, List.sum_append, hback,
    List.length_nil]
  omega

theorem cost_take (ht : t ∈ P.tasks) : (P.take t).cost + t.cost = P.cost := by
  have hsum := List.sum_map_erase Task.cost ht
  simp only [Place.cost, Place.take]
  omega

theorem cost_runTask : (runTask c me P g t).1.cost < P.cost + t.cost := by
  rcases t with ⟨_ | _ | _⟩ | ⟨_ | _ | _ | _ | _⟩ | ⟨source, _ | data | data | data⟩ |
    ⟨dest, _ | e⟩ | dest | dest
  case put.ddfPut =>
    have hle := cost_ddfPut_le P c.data
    simp only [runTask, ddfPut, cost_ready, Task.cost]
    omega
  case putHome.ddfPut =>
    have hle := cost_ddfPut_le P data
    simp only [runTask, ddfPutHome, Task.cost]
    omega
  case registerCallback.asyncAt =>
    have hpush := cost_push
      ({ P with putRequestedFromHome := true }.check .otherPlace (c.home ≠ me)) .asyncAt
    rw [cost_check] at hpush
    change Place.cost (Place.push _ _) < P.cost + _
    rw [hpush]
    exact Nat.add_lt_add_left (by simp [Task.cost, CommTask.cost]) P.cost
  case registerCallback.get | registerCallback.cas | callback | putBack =>
    simp only [runTask, dddfRegisterCallback, ddfPutCallback, putBack]
    split <;> simp [Place.cost, Place.ready, Task.cost] <;> omega
  case put.cas =>
    simp only [runTask, ddfPut]
    split
    · exact Nat.lt_add_of_pos_right (Nat.succ_pos _)
    · rw [cost_ready]
      exact Nat.lt_succ_self (P.cost + 10)
  all_goals
    simp only [runTask, ddfPut, ddfPutHome, ddfPutRemote, cost_ready, cost_push, cost_check, Task.cost,
      CommTask.cost]
  -- the fields that are set do not count
  case put.setRank => exact Nat.lt_succ_self (P.cost + 12)
  case putHome.setRank => exact Nat.lt_succ_self (P.cost + 1)
  case putRemote.asyncCopy => exact Nat.lt_succ_self (P.cost + 9)
  all_goals omega

theorem cost_beginPut_le (P : Place n count) (data : Data count) :
    (P.beginPut data).cost ≤ P.cost + 14 := by
  have hle := cost_ddfPut_le { P with putCalled := true } data
  rw [Place.beginPut, cost_ready]
  exact Nat.add_le_add_right hle 14

theorem cost_beginAwait_le (P : Place n count) (home : Fin n) :
    (P.beginAwait home me).cost ≤ P.cost + 18 := by
  unfold Place.beginAwait
  split
  · exact Nat.le_add_right P.cost 18
  · rw [cost_ready]
    exact le_refl (P.cost + 18)

structure Registered (m : Nat) (P P' : Place n count) : Prop where
  ddf : P'.ddf = P.ddf
  called : P'.putCalled = P.putCalled
  awaited : P'.awaited = true ↔ P.awaited = true ∨ 0 < m
  begun : Begun P → Begun P'
  cost : P'.cost ≤ P.cost + 18 * m

theorem registered_iterate (P : Place n count) (home me : Fin n) (m : Nat) :
    Registered m P ((Place.beginAwait home me)^[m] P) := by
  induction m with
  | zero => exact ⟨rfl, rfl, by simp, id, le_refl _⟩
  | succ m ih =>
      rw [Function.iterate_succ_apply']
      have hle : (Place.beginAwait home me ((Place.beginAwait home me)^[m] P)).cost ≤ _ :=
        cost_beginAwait_le _ home
      have hcost := ih.cost
      refine ⟨?_, ?_, by simp, fun h => (ih.begun h).beginAwait home, by omega⟩
      · rw [beginAwait_ddf, ih.ddf]
      · rw [beginAwait_putCalled, ih.called]

theorem cost_act (hinternal : a.internal = true) (ha : act c me a P g = some (P', g')) :
    P'.cost + g'.cost < P.cost + g.cost := by
  have herase (m : Msg n) (hm : m ∈ g.net) :
      m.cost + ((g.net.erase m).map Msg.cost).sum = (g.net.map Msg.cost).sum :=
    List.sum_map_erase Msg.cost hm
  cases act_step ha with
  | put | awaitHome | await => cases hinternal
  | @run t ht =>
      have hrun : (runTask c me (P.take t) g t).1.cost < (P.take t).cost + t.cost := cost_runTask
      rw [cost_take ht] at hrun
      rw [Shared.cost, runTask_net]
      exact Nat.add_lt_add_right hrun _
  | @comm t rest hcomm =>
      have hsend : (t.send me).cost < t.cost := by
        cases t <;> simp [CommTask.send, Msg.cost, CommTask.cost]
      simp only [Place.cost, Place.advance, Shared.cost, hcomm, List.map_cons, List.sum_cons]
      omega
  | @asyncAt source hm =>
      have hsum := herase _ hm
      rw [cost_ready]
      simp only [Shared.cost, Task.cost, Msg.cost] at hsum ⊢
      omega
  | @asyncAfter source e hm =>
      have hsum := herase _ hm
      rw [cost_ready]
      simp only [Shared.cost, Task.cost, Msg.cost] at hsum ⊢
      omega
  | @complete dest e hm =>
      have hsum := herase _ hm
      simp only [Shared.cost, Msg.cost] at hsum ⊢
      omega

end Cost

/-- Only the calls of the user are left when no step is. The steps of DDF_PUT come
first, so that no copy has to be held back. -/
theorem quiet_of_stuck (hstuck : ∀ i a, a.internal = true → ordered s i a = true →
    act c i a (s.proc i) s.shared = none) : Quiet s := by
  have htasks (i : Fin n) : (s.proc i).tasks = [] := by
    rw [List.eq_nil_iff_forall_not_mem]
    intro t ht
    have hrun := hstuck i (.run t) rfl rfl
    simp [act, ht] at hrun
  have hcommTasks (i : Fin n) : (s.proc i).commTasks = [] := by
    cases hcomm : (s.proc i).commTasks with
    | nil => rfl
    | cons t rest =>
        have hordered : ordered s i .comm = true := by
          cases t <;> simp [ordered, hcomm, Place.published, htasks i]
        have hnone := hstuck i .comm rfl hordered
        simp [act, hcomm] at hnone
  have hcopies (source dest : Fin n) (e : Nat) : .asyncCopy source dest e ∉ s.shared.net := by
    intro hm
    have hnone := hstuck source (.complete dest e) rfl rfl
    simp [act, hm] at hnone
  refine ⟨htasks, hcommTasks, ?_⟩
  rw [List.eq_nil_iff_forall_not_mem]
  intro m hm
  cases m with
  | asyncAt source =>
      have hnone := hstuck c.home (.deliver (.asyncAt source)) rfl rfl
      simp [act, hm, receive] at hnone
  | asyncCopy source dest e => exact hcopies source dest e hm
  | asyncAfter source dest e =>
      have hnone := hstuck dest (.deliver (.asyncAfter source dest e)) rfl rfl
      simp [act, hm, receive, hcopies] at hnone

end HabaneroUpc.Dddf
