import HabaneroUpc.DddfRoutes
import HabaneroUpc.Lib.Tally
import Mathlib.Tactic.Ring

namespace HabaneroUpc.Dddf

open Interleaving Tally

variable {n count : Nat}

structure Weight (n : Nat) where
  requested : Int
  called : Int
  puts : Int
  rank : Int
  put : PutPc → Int
  received : Int
  initiated : Int
  asks : Fin n → Int
  copy : Fin n → Int
  after : Fin n → Int
  commCopy : Fin n → Int
  asyncAt : Int
  sent : CommTask n → Int

namespace Weight

variable (w : Weight n)

def task : Task n count → Int
  | .registerCallback .asyncAt => w.asyncAt
  | .registerCallback _ => 0
  | .put l => w.put l
  | .putHome _ .memcpy | .putHome _ (.assertRank _) | .putHome _ (.setRank _) => w.received
  | .putHome _ (.ddfPut _) => w.initiated
  | .putRemote dest .asyncCopy => w.copy dest
  | .putRemote dest (.asyncAfter _) => w.after dest
  | .callback dest | .putBack dest => w.asks dest

def commTask : CommTask n → Int
  | .asyncAt => w.asyncAt
  | .asyncCopy dest _ => w.commCopy dest
  | .asyncAfter dest _ => w.after dest

def of (P : Place n count) : Int :=
  (P.tasks.map w.task).sum + (P.waiting.map w.asks).sum + (P.commTasks.map w.commTask).sum +
    (P.sent.map w.sent).sum + w.requested * P.putRequestedFromHome.toNat +
    w.called * P.putCalled.toNat + w.puts * P.puts + w.rank * P.putInitiatorRank.isSome.toNat

variable (P : Place n count)

@[simp] theorem of_ready (t : Task n count) : w.of (P.ready t) = w.of P + w.task t := by
  simp only [of, Place.ready, List.map_cons, List.sum_cons]
  ring

@[simp] theorem of_push (t : CommTask n) : w.of (P.push t) = w.of P + w.commTask t := by
  simp only [of, Place.push, List.map_append, List.map_singleton, List.sum_append,
    List.sum_singleton]
  ring

@[simp] theorem of_check (a : Assertion) (p : Prop) [Decidable p] :
    w.of (P.check a p) = w.of P := by
  rw [Place.check]
  split <;> rfl

variable {P} in
theorem of_take {t : Task n count} (ht : t ∈ P.tasks) : w.of (P.take t) + w.task t = w.of P := by
  have hperm := ((List.perm_cons_erase ht).map w.task).sum_eq
  rw [List.map_cons, List.sum_cons] at hperm
  simp only [of, Place.take, hperm]
  ring

variable {P} in
theorem of_advance {t : CommTask n} {rest : List (CommTask n)} (hcomm : P.commTasks = t :: rest) :
    w.of (P.advance t rest) + w.commTask t = w.of P + w.sent t := by
  simp only [of, Place.advance, hcomm, List.map_cons, List.sum_cons]
  ring

@[simp] theorem of_ddfPut (data : Data count) : w.of (P.ddfPut data) = w.of P + w.puts := by
  have hwoken (waiting : List (Fin n)) :
      ((waiting.map (Task.putBack : Fin n → Task n count)).map w.task).sum =
        (waiting.map w.asks).sum := by
    rw [List.map_map]
    rfl
  rw [Place.ddfPut, Place.check]
  split <;>
    · simp only [of, List.map_append, List.sum_append, hwoken, List.map_nil, List.sum_nil]
      push_cast
      ring

theorem of_rank (source : Fin n) : ∃ r, (r = 0 ∨ r = w.rank) ∧
    w.of { P with putInitiatorRank := some source } = w.of P + r := by
  cases hrank : P.putInitiatorRank with
  | none =>
      refine ⟨w.rank, .inr rfl, ?_⟩
      simp only [of, hrank, Option.isSome_some, Option.isSome_none, Bool.toNat_true,
        Bool.toNat_false]
      push_cast
      ring
  | some s =>
      refine ⟨0, .inl rfl, ?_⟩
      simp only [of, hrank, Option.isSome_some, add_zero]

@[simp] theorem of_events (e : Nat) : w.of { P with events := e } = w.of P := rfl

@[simp] theorem of_awaited (b : Bool) : w.of { P with awaited := b } = w.of P := rfl

variable {P} in
theorem of_requested (h : P.putRequestedFromHome = false) :
    w.of { P with putRequestedFromHome := true } = w.of P + w.requested := by
  simp only [of, h, Bool.toNat_true, Bool.toNat_false]
  push_cast
  ring

variable {P} in
theorem of_requested_again (h : P.putRequestedFromHome = true) :
    w.of { P with putRequestedFromHome := true } = w.of P := by
  simp only [of, h]

variable {P} in
theorem of_called (h : P.putCalled = false) :
    w.of { P with putCalled := true } = w.of P + w.called := by
  simp only [of, h, Bool.toNat_true, Bool.toNat_false]
  push_cast
  ring

@[simp] theorem of_waiting (dest : Fin n) :
    w.of { P with waiting := dest :: P.waiting } = w.of P + w.asks dest := by
  simp only [of, List.map_cons, List.sum_cons]
  ring

end Weight

/-- What the steps change the weights by: R holds of the difference between what
a step leaves and what it takes. -/
structure Laws (c : Config n count) (R : Int → Prop) (w : Fin n → Weight n) (m : Msg n → Int) :
    Prop where
  zero : R 0
  add : ∀ x y, R x → R y → R (x + y)
  called : R ((w c.initiator).called + (w c.initiator).put .ddfPut)
  won : ∀ i, Asks c i → R ((w i).requested + (w i).asyncAt)
  ddfPut : R ((w c.initiator).puts + (w c.initiator).put .assertRank - (w c.initiator).put .ddfPut)
  assertRank : R ((w c.initiator).put .setRank - (w c.initiator).put .assertRank)
  setRank : ∀ r, r = 0 ∨ r = (w c.initiator).rank →
    R (r + (w c.initiator).put .memcpy - (w c.initiator).put .setRank)
  memcpy : R ((w c.initiator).put .cas - (w c.initiator).put .memcpy)
  cas : ∀ r, r = 0 ∨ r = (w c.initiator).requested →
    R (r + (if c.initiator = c.home then 0 else (w c.initiator).copy c.home) -
      (w c.initiator).put .cas)
  setHome : ∀ source i r, Route c source i → r = 0 ∨ r = (w i).rank →
    R (r + (w i).initiated - (w i).received)
  putHome : ∀ source i, Route c source i → R ((w i).puts - (w i).initiated)
  copy : ∀ i dest, Route c i dest → R ((w i).after dest + (w i).commCopy dest - (w i).copy dest)
  back : ∀ dest, Route c c.home dest → R ((w c.home).copy dest - (w c.home).asks dest)
  dropped : c.initiator ≠ c.home → R (-(w c.home).asks c.initiator)
  comm : ∀ i t, t.Routed c i → R ((w i).sent t + m (t.send i) - (w i).commTask t)
  asyncAt : ∀ source, Asks c source → R ((w c.home).asks source - m (.asyncAt source))
  asyncAfter : ∀ source i e, Route c source i → R ((w i).received - m (.asyncAfter source i e))
  complete : ∀ i dest e, Route c i dest → R (-m (.asyncCopy i dest e))

section Laws

variable {c : Config n count} {R : Int → Prop} {w : Fin n → Weight n} {m : Msg n → Int} {me : Fin n}
  {P P' : Place n count} {g g' : Shared n count} {t : Task n count}

theorem weight_registerCallback (hl : Laws c R w m) {l : RegisterPc}
    (ht : (Task.registerCallback l).Routed c me P) :
    R ((w me).of (dddfRegisterCallback c me P l) -
      ((w me).of P + (w me).task (.registerCallback l : Task n count))) := by
  obtain ⟨hasks, hset⟩ := ht
  cases l with
  | get =>
      simp only [dddfRegisterCallback]
      split <;> simpa [Weight.task] using hl.zero
  | cas =>
      simp only [dddfRegisterCallback]
      split
      · simpa [Weight.task] using hl.zero
      · rename_i hrequested
        have hflag := Weight.of_requested (w me) (P := P) (by simpa using hrequested)
        simpa [Weight.task, hflag, add_assoc] using hl.won me hasks
  | asyncAt =>
      have hflag := Weight.of_requested_again (w me) (hset rfl)
      simpa [dddfRegisterCallback, Weight.task, Weight.commTask, hflag] using hl.zero

theorem weight_put (hl : Laws c R w m) (hme : me = c.initiator) (l : PutPc) :
    R ((w me).of (ddfPut c me P g l).1 - ((w me).of P + (w me).put l)) := by
  subst hme
  cases l with
  | ddfPut =>
      have hR := hl.ddfPut
      simpa [ddfPut, Weight.task, add_assoc, add_sub_add_left_eq_sub] using hR
  | assertRank => simpa [ddfPut, Weight.task] using hl.assertRank
  | setRank =>
      obtain ⟨r, hr, hset⟩ := (w c.initiator).of_rank P c.initiator
      simpa only [ddfPut, Weight.of_ready, hset, Weight.task, add_assoc,
        add_sub_add_left_eq_sub] using
        hl.setRank r hr
  | memcpy => simpa [ddfPut, Weight.task] using hl.memcpy
  | cas =>
      have hset : ∃ r, (r = 0 ∨ r = (w c.initiator).requested) ∧
          (w c.initiator).of { P with putRequestedFromHome := true } =
            (w c.initiator).of P + r := by
        cases hflag : P.putRequestedFromHome with
        | true => exact ⟨0, .inl rfl, by rw [Weight.of_requested_again _ hflag, add_zero]⟩
        | false => exact ⟨_, .inr rfl, Weight.of_requested _ hflag⟩
      obtain ⟨r, hr, hset⟩ := hset
      have hR := hl.cas r hr
      simp only [ddfPut]
      split
      · rename_i hhome
        rw [if_pos hhome] at hR
        simpa only [hset, add_zero, add_sub_add_left_eq_sub] using hR
      · rename_i hhome
        rw [if_neg hhome] at hR
        simpa only [hset, Weight.of_ready, Weight.task, add_assoc, add_sub_add_left_eq_sub] using hR

theorem weight_putHome (hl : Laws c R w m) {source : Fin n} (hroute : Route c source me)
    (l : PutHomePc count) :
    R ((w me).of (ddfPutHome me P g source l) -
      ((w me).of P + (w me).task (.putHome source l))) := by
  cases l with
  | memcpy => simpa [ddfPutHome, Weight.task] using hl.zero
  | assertRank data => simpa [ddfPutHome, Weight.task] using hl.zero
  | setRank data =>
      obtain ⟨r, hr, hset⟩ := (w me).of_rank P source
      simpa only [ddfPutHome, Weight.of_ready, hset, Weight.task, add_assoc,
        add_sub_add_left_eq_sub] using
        hl.setHome source me r hroute hr
  | ddfPut data => simpa [ddfPutHome, Weight.task] using hl.putHome source me hroute

theorem weight_putRemote (hl : Laws c R w m) {dest : Fin n} (hroute : Route c me dest)
    (l : PutRemotePc) :
    R ((w me).of (ddfPutRemote me P dest l) -
      ((w me).of P + (w me).task (.putRemote dest l : Task n count))) := by
  cases l with
  | asyncCopy =>
      simpa [ddfPutRemote, Weight.task, Weight.commTask, add_assoc, add_comm, add_left_comm] using
        hl.copy me dest hroute
  | asyncAfter e => simpa [ddfPutRemote, Weight.task, Weight.commTask] using hl.zero

theorem weight_putBack (hl : Laws c R w m) (h : PlaceInv c me P) {dest : Fin n}
    (ht : (Task.putBack dest).Routed c me P) :
    R ((w me).of (putBack P dest) - ((w me).of P + (w me).asks dest)) := by
  simp only [putBack]
  split
  · rename_i hrank
    obtain ⟨rfl, ⟨hhome, -⟩, -⟩ := ht
    rcases h.rank dest hrank with ⟨heq, -⟩ | ⟨rfl, hne, -⟩ | ⟨heq, -⟩
    · exact absurd heq hhome
    · simpa using hl.dropped hne
    · exact absurd heq hhome
  · rename_i hrank
    have hroute := h.putBack_route ht hrank
    obtain ⟨rfl, -⟩ := ht
    simpa [Weight.task] using hl.back dest hroute

theorem weight_runTask (hl : Laws c R w m) (h : PlaceInv c me P) (ht : t.Routed c me P) :
    R ((w me).of (runTask c me P g t).1 - ((w me).of P + (w me).task t)) := by
  cases t with
  | registerCallback l => exact weight_registerCallback hl ht
  | put l => exact weight_put hl ht l
  | putHome source l => exact weight_putHome hl ht.1 l
  | putRemote dest l => exact weight_putRemote hl ht l
  | callback dest =>
      simp only [runTask, ddfPutCallback]
      split <;> simpa [Weight.task] using hl.zero
  | putBack dest => exact weight_putBack hl h ht

/-- A step takes as much from what is in flight as it brings to its place. -/
theorem weight_step {a : Act n count} (hl : Laws c R w m) (h : PlaceInv c me P)
    (hnet : ∀ m ∈ g.net, m.Routed c) (hstep : Step c me P g a P' g') :
    R ((w me).of P' + (g'.net.map m).sum - ((w me).of P + (g.net.map m).sum)) := by
  have herase {x : Msg n} (hx : x ∈ g.net) :
      (g.net.map m).sum = m x + ((g.net.erase x).map m).sum := by
    rw [((List.perm_cons_erase hx).map m).sum_eq, List.map_cons, List.sum_cons]
  have hof {x y : Int} (hx : R x) (heq : y = x) : R y := heq ▸ hx
  cases hstep with
  | put hme hcalled =>
      subst hme
      apply hof hl.called
      rw [Weight.of_ready, Weight.of_called _ hcalled, Weight.task]
      ring
  | awaitHome => simpa using hl.zero
  | await => simpa [Weight.task] using hl.zero
  | @run t ht =>
      apply hof (weight_runTask (g := g) hl (h.take t) ((h.tasks t ht).mono id id id))
      rw [Weight.of_take _ ht, runTask_net, add_sub_add_right_eq_sub]
  | @comm t rest hcomm =>
      apply hof (hl.comm me t (h.commTasks t (hcomm ▸ List.mem_cons_self)))
      have hadvance := Weight.of_advance (w me) hcomm
      simp only [List.map_cons, List.sum_cons]
      omega
  | asyncAt hm hme =>
      subst hme
      apply hof (hl.asyncAt _ (hnet _ hm))
      rw [herase hm, Weight.of_ready, Weight.task]
      ring
  | @asyncAfter source e hm =>
      apply hof (hl.asyncAfter source me e (hnet _ hm))
      rw [herase hm, Weight.of_ready, Weight.task]
      ring
  | @complete dest e hm =>
      apply hof (hl.complete me dest e (hnet _ hm))
      rw [herase hm]
      ring

/-- What the laws allow of one step, they allow of a run. -/
theorem weight_reachable (hl : Laws c R w m) {s : State n count} (hs : Reachable (dddf c) s) :
    R (total (fun i P => (w i).of P) s.proc + (s.shared.net.map m).sum) := by
  refine hs.invariant
    (I := fun s => R (total (fun i P => (w i).of P) s.proc + (s.shared.net.map m).sum)) ?_ ?_
  · simpa [dddf, Place.init, Weight.of, total] using hl.zero
  · intro s i a P' g' hs _ hI ha
    obtain ⟨hplaces, hnet⟩ := routed_reachable hs
    have hR := hl.add _ _ hI (weight_step hl (hplaces i) hnet (act_step ha))
    have hupdate := total_update (fun i P => (w i).of P) s.proc i P'
    have heq : total (fun i P => (w i).of P) (s.set i (P', g')).proc + (g'.net.map m).sum =
        total (fun i P => (w i).of P) s.proc + (s.shared.net.map m).sum +
          ((w i).of P' + (g'.net.map m).sum -
            ((w i).of (s.proc i) + (s.shared.net.map m).sum)) := by
      simp only [Global.set]
      omega
    rwa [set_shared, heq]

end Laws

end HabaneroUpc.Dddf
