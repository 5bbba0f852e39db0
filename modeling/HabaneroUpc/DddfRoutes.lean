import HabaneroUpc.Dddf
import Mathlib.Data.List.Basic

namespace HabaneroUpc.Dddf

open Interleaving

variable {n count : Nat}

/-- The value goes from the initiator to the home, and from there to the other
places that await it. -/
def Route (c : Config n count) (source dest : Fin n) : Prop :=
  source = c.initiator ∧ source ≠ c.home ∧ dest = c.home ∨
    source = c.home ∧ dest ≠ c.home ∧ dest ≠ c.initiator ∧ c.awaits dest = true

def Asks (c : Config n count) (q : Fin n) : Prop := q ≠ c.home ∧ c.awaits q = true

def Task.Routed (c : Config n count) (me : Fin n) (P : Place n count) : Task n count → Prop
  | .registerCallback l => Asks c me ∧ (l = .asyncAt → P.putRequestedFromHome = true)
  | .put _ => me = c.initiator
  | .putHome source l => Route c source me ∧ ∀ data, l = .ddfPut data → P.putInitiatorRank ≠ none
  | .putRemote dest _ => Route c me dest
  | .callback dest => me = c.home ∧ Asks c dest
  | .putBack dest => me = c.home ∧ Asks c dest ∧ P.ddf ≠ none

def CommTask.Routed (c : Config n count) (me : Fin n) : CommTask n → Prop
  | .asyncAt => Asks c me
  | .asyncCopy dest _ | .asyncAfter dest _ => Route c me dest

def Msg.Routed (c : Config n count) : Msg n → Prop
  | .asyncAt source => Asks c source
  | .asyncCopy source dest _ | .asyncAfter source dest _ => Route c source dest

structure PlaceInv (c : Config n count) (me : Fin n) (P : Place n count) : Prop where
  tasks : ∀ t ∈ P.tasks, t.Routed c me P
  waiting : ∀ dest ∈ P.waiting, me = c.home ∧ Asks c dest
  commTasks : ∀ t ∈ P.commTasks, t.Routed c me
  sent : ∀ t ∈ P.sent, t.Routed c me
  rank : ∀ source, P.putInitiatorRank = some source →
    source = me ∧ me = c.initiator ∨ Route c source me
  called : P.putCalled = true → me = c.initiator
  initiated : me ≠ c.initiator → P.ddf ≠ none → P.putInitiatorRank ≠ none
  puts : P.ddf = none ↔ P.puts = 0
  woken : P.ddf ≠ none → P.waiting = []

variable {c : Config n count} {me : Fin n} {P P' : Place n count} {g g' : Shared n count}
  {t : Task n count} {source dest q : Fin n} {e : Nat}

theorem Route.ne (h : Route c source dest) : source ≠ dest := by
  rcases h with ⟨-, hne, rfl⟩ | ⟨rfl, hne, -⟩
  · exact hne
  · exact hne.symm

/-- Nothing is sent to the initiator. -/
theorem not_route_initiator : ¬Route c source c.initiator := by
  rintro (⟨rfl, hne, heq⟩ | ⟨-, -, hne, -⟩)
  · exact hne heq
  · exact hne rfl

theorem Task.Routed.mono (h : t.Routed c me P) (hddf : P.ddf ≠ none → P'.ddf ≠ none)
    (hrank : P.putInitiatorRank ≠ none → P'.putInitiatorRank ≠ none)
    (hrequested : P.putRequestedFromHome = true → P'.putRequestedFromHome = true) :
      t.Routed c me P' := by
  cases t with
  | registerCallback l => exact ⟨h.1, fun hl => hrequested (h.2 hl)⟩
  | put => exact h
  | putHome source l => exact ⟨h.1, fun data hl => hrank (h.2 data hl)⟩
  | putRemote => exact h
  | callback => exact h
  | putBack dest => exact ⟨h.1, h.2.1, hddf h.2.2⟩

namespace PlaceInv

theorem take (h : PlaceInv c me P) (t : Task n count) : PlaceInv c me (P.take t) :=
  { h with tasks := fun t' ht' => (h.tasks t' (List.mem_of_mem_erase ht')).mono id id id }

theorem ready (h : PlaceInv c me P) (ht : t.Routed c me P) : PlaceInv c me (P.ready t) := by
  refine { h with tasks := fun t' ht' => ?_ }
  rcases List.mem_cons.mp ht' with rfl | ht'
  · exact ht.mono id id id
  · exact (h.tasks t' ht').mono id id id

theorem push (h : PlaceInv c me P) {t : CommTask n} (ht : t.Routed c me) :
    PlaceInv c me (P.push t) := by
  refine { h with
    tasks := fun t' ht' => (h.tasks t' ht').mono id id id
    commTasks := fun t' ht' => ?_ }
  rcases List.mem_append.mp ht' with ht' | ht'
  · exact h.commTasks t' ht'
  · rw [List.mem_singleton.mp ht']
    exact ht

theorem check (h : PlaceInv c me P) (a : Assertion) (p : Prop) [Decidable p] :
    PlaceInv c me (P.check a p) := by
  rw [Place.check]
  split
  · exact h
  · exact { h with tasks := fun t ht => (h.tasks t ht).mono id id id }

theorem requested (h : PlaceInv c me P) : PlaceInv c me { P with putRequestedFromHome := true } :=
  { h with tasks := fun t ht => (h.tasks t ht).mono id id fun _ => rfl }

theorem setRank (h : PlaceInv c me P)
    (hsource : source = me ∧ me = c.initiator ∨ Route c source me) :
    PlaceInv c me { P with putInitiatorRank := some source } := by
  refine { h with
    tasks := fun t ht => (h.tasks t ht).mono id (fun _ => Option.some_ne_none source) id
    rank := fun s hs => ?_
    initiated := fun _ _ => Option.some_ne_none source }
  cases hs
  exact hsource

theorem ddfPut (h : PlaceInv c me P) (hrank : me ≠ c.initiator → P.putInitiatorRank ≠ none)
    (data : Data count) : PlaceInv c me (P.ddfPut data) := by
  have hc := h.check .singleAssignment (P.ddf = none)
  have hrank' : me ≠ c.initiator →
      (P.check .singleAssignment (P.ddf = none)).putInitiatorRank ≠ none := by
    rw [Place.check]
    split <;> exact hrank
  rw [Place.ddfPut]
  refine { hc with
    tasks := fun t ht => ?_
    waiting := fun dest hdest => absurd hdest (List.not_mem_nil)
    initiated := fun hme _ => hrank' hme
    puts := ?_
    woken := fun _ => rfl }
  · rcases List.mem_append.mp ht with ht | ht
    · obtain ⟨dest, hdest, rfl⟩ := List.mem_map.mp ht
      obtain ⟨hhome, hasks⟩ := hc.waiting dest hdest
      exact ⟨hhome, hasks, Option.some_ne_none data⟩
    · exact (hc.tasks t ht).mono (fun _ => Option.some_ne_none data) id id
  · simp

/-- The home sends the value back only to a place that is not the initiator. -/
theorem putBack_route (h : PlaceInv c me P) (ht : (Task.putBack dest).Routed c me P)
    (hrank : P.putInitiatorRank ≠ some dest) : Route c me dest := by
  obtain ⟨rfl, ⟨hhome, hawaits⟩, hddf⟩ := ht
  refine .inr ⟨rfl, hhome, ?_, hawaits⟩
  rintro rfl
  obtain ⟨s, hs⟩ := Option.ne_none_iff_exists'.mp (h.initiated hhome.symm hddf)
  rcases h.rank s hs with ⟨-, heq⟩ | ⟨rfl, -, -⟩ | ⟨rfl, hne, -⟩
  · exact hhome heq.symm
  · exact hrank hs
  · exact hne rfl

theorem dddfRegisterCallback (h : PlaceInv c me P) {l : RegisterPc}
    (ht : (Task.registerCallback l).Routed c me P) :
      PlaceInv c me (dddfRegisterCallback c me P l) := by
  obtain ⟨hasks, -⟩ := ht
  cases l with
  | get =>
      simp only [Dddf.dddfRegisterCallback]
      split
      · exact h.ready ⟨hasks, fun hl => by cases hl⟩
      · exact h
  | cas =>
      simp only [Dddf.dddfRegisterCallback]
      split
      · exact h
      · exact h.requested.ready ⟨hasks, fun _ => rfl⟩
  | asyncAt => exact (h.requested.check ..).push hasks

theorem put (h : PlaceInv c me P) (hme : me = c.initiator) (l : PutPc) :
    PlaceInv c me (Dddf.ddfPut c me P g l).1 := by
  cases l with
  | ddfPut => exact (h.ddfPut (fun hne => absurd hme hne) c.data).ready hme
  | assertRank => exact (h.check ..).ready hme
  | setRank => exact (h.setRank (.inl ⟨rfl, hme⟩)).ready hme
  | memcpy => exact h.ready hme
  | cas =>
      simp only [Dddf.ddfPut]
      split
      · exact h.requested
      · rename_i hhome
        exact h.requested.ready (.inl ⟨hme, hhome, rfl⟩)

theorem putHome (h : PlaceInv c me P) {l : PutHomePc count}
    (ht : (Task.putHome source l).Routed c me P) :
    PlaceInv c me (ddfPutHome me P g source l) := by
  obtain ⟨hroute, hrank⟩ := ht
  cases l with
  | memcpy => exact h.ready ⟨hroute, fun _ hl => by cases hl⟩
  | assertRank data => exact (h.check ..).ready ⟨hroute, fun _ hl => by cases hl⟩
  | setRank data =>
      exact (h.setRank (.inr hroute)).ready ⟨hroute, fun _ _ => Option.some_ne_none source⟩
  | ddfPut data => exact h.ddfPut (fun _ => hrank data rfl) data

theorem putRemote (h : PlaceInv c me P) (hroute : Route c me dest) (l : PutRemotePc) :
    PlaceInv c me (ddfPutRemote me P dest l) := by
  cases l with
  | asyncCopy =>
      have hevent : PlaceInv c me { P with events := P.events + 1 } :=
        { h with tasks := fun t ht => (h.tasks t ht).mono id id id }
      exact (hevent.push (t := .asyncCopy dest P.events) hroute).ready hroute
  | asyncAfter e => exact (h.check ..).push hroute

theorem callback (h : PlaceInv c me P) (ht : (Task.callback dest).Routed c me P) :
    PlaceInv c me (ddfPutCallback P dest) := by
  rw [ddfPutCallback]
  split
  · rename_i hddf
    refine { h with
      tasks := fun t ht => (h.tasks t ht).mono id id id
      waiting := fun d hd => ?_
      woken := fun hne => absurd hddf hne }
    rcases List.mem_cons.mp hd with rfl | hd
    · exact ht
    · exact h.waiting d hd
  · rename_i hddf
    exact h.ready ⟨ht.1, ht.2, hddf⟩

theorem runTask (h : PlaceInv c me P) (ht : t.Routed c me P) :
    PlaceInv c me (runTask c me P g t).1 := by
  cases t with
  | registerCallback l => exact h.dddfRegisterCallback ht
  | put l => exact h.put ht l
  | putHome source l => exact h.putHome ht
  | putRemote dest l => exact h.putRemote ht l
  | callback dest => exact h.callback ht
  | putBack dest =>
      simp only [Dddf.runTask, Dddf.putBack]
      split
      · exact h
      · rename_i hrank
        exact h.ready (putBack_route h ht hrank)

end PlaceInv

structure Extends (P P' : Place n count) : Prop where
  ddf : P.ddf ≠ none → P'.ddf ≠ none
  requested : P.putRequestedFromHome = true → P'.putRequestedFromHome = true
  tasks : P.tasks ⊆ P'.tasks
  commTasks : P.commTasks <+: P'.commTasks
  sent : P'.sent = P.sent
  called : P'.putCalled = P.putCalled
  awaited : P'.awaited = P.awaited

namespace Extends

theorem refl (P : Place n count) : Extends P P :=
  ⟨id, id, List.Subset.refl _, List.prefix_refl _, rfl, rfl, rfl⟩

theorem ready (h : Extends P P') (t : Task n count) : Extends P (P'.ready t) :=
  { h with tasks := fun _ ht => List.mem_cons_of_mem t (h.tasks ht) }

theorem push (h : Extends P P') (t : CommTask n) : Extends P (P'.push t) :=
  { h with commTasks := h.commTasks.trans (List.prefix_append ..) }

theorem check (h : Extends P P') (a : Assertion) (p : Prop) [Decidable p] :
    Extends P (P'.check a p) := by
  rw [Place.check]
  split
  · exact h
  · exact { h with }

theorem ddfPut (h : Extends P P') (data : Data count) : Extends P (P'.ddfPut data) :=
  { h.check .singleAssignment (P'.ddf = none) with
    ddf := fun _ => Option.some_ne_none data
    tasks := fun _ ht => List.mem_append_right _ ((h.check .singleAssignment _).tasks ht) }

theorem setRank (h : Extends P P') (r : Option (Fin n)) :
    Extends P { P' with putInitiatorRank := r } :=
  { h with }

theorem request (h : Extends P P') : Extends P { P' with putRequestedFromHome := true } :=
  { h with requested := fun _ => rfl }

theorem runTask (c : Config n count) (me : Fin n) (P : Place n count) (g : Shared n count)
    (t : Task n count) : Extends P (runTask c me P g t).1 := by
  have h := refl P
  cases t with
  | registerCallback l =>
      cases l with
      | get =>
          simp only [Dddf.runTask, dddfRegisterCallback]
          split
          · exact h.ready _
          · exact h
      | cas =>
          simp only [Dddf.runTask, dddfRegisterCallback]
          split
          · exact h
          · exact h.request.ready _
      | asyncAt => exact (h.request.check ..).push _
  | put l =>
      cases l with
      | ddfPut => exact (h.ddfPut _).ready _
      | assertRank => exact (h.check ..).ready _
      | setRank => exact (h.setRank _).ready _
      | memcpy => exact h.ready _
      | cas =>
          simp only [Dddf.runTask, Dddf.ddfPut]
          split
          · exact h.request
          · exact h.request.ready _
  | putHome source l =>
      cases l with
      | memcpy => exact h.ready _
      | assertRank data => exact (h.check ..).ready _
      | setRank data => exact (h.setRank _).ready _
      | ddfPut data => exact h.ddfPut data
  | putRemote dest l =>
      cases l with
      | asyncCopy =>
          have hevent : Extends P { P with events := P.events + 1 } := { h with }
          exact (hevent.push _).ready _
      | asyncAfter e => exact (h.check ..).push _
  | callback dest =>
      simp only [Dddf.runTask, ddfPutCallback]
      split
      · exact { h with }
      · exact h.ready _
  | putBack dest =>
      simp only [Dddf.runTask, putBack]
      split
      · exact h
      · exact h.ready _

end Extends

theorem CommTask.Routed.send {t : CommTask n} (h : t.Routed c me) : (t.send me).Routed c := by
  cases t <;> exact h

theorem runTask_net (t : Task n count) : (runTask c me P g t).2.net = g.net := by
  cases t with
  | put l => cases l <;> rfl
  | _ => rfl

theorem routed_step {a : Act n count} (h : PlaceInv c me P) (hnet : ∀ m ∈ g.net, m.Routed c)
    (ha : act c me a P g = some (P', g')) : PlaceInv c me P' ∧ ∀ m ∈ g'.net, m.Routed c := by
  have herase (m : Msg n) : ∀ m' ∈ g.net.erase m, m'.Routed c :=
    fun m' hm' => hnet m' (List.mem_of_mem_erase hm')
  cases act_step ha with
  | put hme =>
      have hcalled : PlaceInv c me { P with putCalled := true } :=
        { h with tasks := fun t ht => (h.tasks t ht).mono id id id, called := fun _ => hme }
      exact ⟨hcalled.ready hme, hnet⟩
  | awaitHome => exact ⟨{ h with tasks := fun t ht => (h.tasks t ht).mono id id id }, hnet⟩
  | await hawaits hme =>
      have hawaited : PlaceInv c me { P with awaited := true } :=
        { h with tasks := fun t ht => (h.tasks t ht).mono id id id }
      exact ⟨hawaited.ready ⟨⟨hme, hawaits⟩, fun hl => by cases hl⟩, hnet⟩
  | run ht =>
      rw [runTask_net]
      exact ⟨(h.take _).runTask ((h.tasks _ ht).mono id id id), hnet⟩
  | @comm t rest hcomm =>
      have ht : t.Routed c me := h.commTasks t (hcomm ▸ List.mem_cons_self)
      refine ⟨{ h with
        tasks := fun t ht => (h.tasks t ht).mono id id id
        commTasks := fun t' ht' => h.commTasks t' (hcomm ▸ List.mem_cons_of_mem t ht')
        sent := List.forall_mem_cons.mpr ⟨ht, h.sent⟩ }, ?_⟩
      exact List.forall_mem_cons.mpr ⟨ht.send, hnet⟩
  | asyncAt hm hme => exact ⟨h.ready ⟨hme, hnet _ hm⟩, herase _⟩
  | asyncAfter hm => exact ⟨h.ready ⟨hnet _ hm, fun _ hl => by cases hl⟩, herase _⟩
  | complete => exact ⟨h, herase _⟩

theorem routed_reachable {s : State n count} (hs : Reachable (dddf c) s) :
    (∀ i, PlaceInv c i (s.proc i)) ∧ ∀ m ∈ s.shared.net, m.Routed c := by
  refine hs.split_invariant (I := PlaceInv c) (J := fun g => ∀ m ∈ g.net, m.Routed c) ?_ ?_ ?_
  · intro i
    constructor <;> simp [dddf, Place.init]
  · intro m hm
    cases hm
  · intro s i a P' g' _ _ hI hJ ha
    exact routed_step (hI i) hJ ha

end HabaneroUpc.Dddf
