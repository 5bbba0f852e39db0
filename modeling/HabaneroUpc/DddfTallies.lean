import HabaneroUpc.DddfFlow
import Mathlib.Algebra.BigOperators.Group.Finset.Piecewise

namespace HabaneroUpc.Dddf

open Interleaving Tally

variable {n count : Nat}

def Task.isAsyncAt : Task n count → Bool
  | .registerCallback .asyncAt => true
  | _ => false

def Task.asks (q : Fin n) : Task n count → Bool
  | .callback dest | .putBack dest => dest = q
  | _ => false

def Task.delivers (q : Fin n) : Task n count → Bool
  | .putRemote dest _ => dest = q
  | _ => false

def Task.isPut : Task n count → Bool
  | .put _ => true
  | _ => false

def Task.isDdfPut : Task n count → Bool
  | .put .ddfPut | .putHome _ _ => true
  | _ => false

def Task.isSetRank : Task n count → Bool
  | .put .ddfPut | .put .assertRank | .put .setRank => true
  | .putHome _ .memcpy | .putHome _ (.assertRank _) | .putHome _ (.setRank _) => true
  | _ => false

def Task.isAfter (q : Fin n) : Task n count → Bool
  | .putRemote dest (.asyncAfter _) => dest = q
  | _ => false

def CommTask.copies (q : Fin n) : CommTask n → Bool
  | .asyncCopy dest _ => dest = q
  | _ => false

def CommTask.signals (q : Fin n) : CommTask n → Bool
  | .asyncAfter dest _ => dest = q
  | _ => false

namespace Place

variable (P : Place n count)

def registrations : Nat := P.sent.countP (· = .asyncAt)

def sends (q : Fin n) : Nat := P.sent.countP (·.signals q)

def copies (q : Fin n) : Nat := P.commTasks.countP (·.copies q) + P.sent.countP (·.copies q)

def registering : Nat := P.tasks.countP Task.isAsyncAt + P.commTasks.countP (· = .asyncAt)

def asking (q : Fin n) : Nat := P.tasks.countP (·.asks q) + P.waiting.countP (· = q)

def sending (q : Fin n) : Nat := P.tasks.countP (·.delivers q) + P.commTasks.countP (·.signals q)

def putting : Nat := P.tasks.countP Task.isPut

def receiving : Nat := P.tasks.countP Task.isDdfPut

def initiating : Nat := P.tasks.countP Task.isSetRank

end Place

theorem sum_indicator {α : Type} (k : Int) (p : α → Bool) (l : List α) :
    (l.map fun a => if p a then k else 0).sum = k * l.countP p := by
  induction l with
  | nil => simp
  | cons a l ih =>
      rw [List.map_cons, List.sum_cons, ih, List.countP_cons]
      cases p a
      · simp
      · push_cast
        simp only [if_true]
        ring

def own (q i : Fin n) : Int := if i = q then 1 else 0

@[simp] theorem own_self (q : Fin n) : own q q = 1 := if_pos rfl

theorem own_nonneg (q i : Fin n) : 0 ≤ own q i := by
  rw [own]
  split <;> decide

theorem own_ne {q i : Fin n} (h : i ≠ q) : own q i = 0 := if_neg h

theorem total_own {L : Type} (q : Fin n) (f : L → Int) (procs : Fin n → L) :
    total (fun i P => own q i * f P) procs = f (procs q) := by
  simp [total, own]

def requestWeight (q i : Fin n) : Weight n where
  requested := -own q i
  called := 0
  puts := 0
  rank := 0
  put _ := 0
  received := 0
  initiated := 0
  asks _ := 0
  copy _ := 0
  after _ := 0
  commCopy _ := 0
  asyncAt := own q i
  sent t := if t = .asyncAt then own q i else 0

/-- The registration of a place is answered with the value, and DDF_PUT of a
place that is not the home sends the value to the home. -/
def valueWeight (c : Config n count) (q i : Fin n) : Weight n where
  requested := 0
  called := -(own q c.home * own c.initiator i)
  puts := 0
  rank := 0
  put _ := own q c.home
  received := 0
  initiated := 0
  asks dest := own q dest
  copy dest := own q dest
  after dest := own q dest
  commCopy _ := 0
  asyncAt := 0
  sent t := (if t.signals q then 1 else 0) + if t = .asyncAt then -own q i else 0

def valueMsg (q : Fin n) : Msg n → Int
  | .asyncAt source => own q source
  | _ => 0

def receiptWeight (q i : Fin n) : Weight n where
  requested := 0
  called := -own q i
  puts := own q i
  rank := 0
  put l := if l = .ddfPut then own q i else 0
  received := own q i
  initiated := own q i
  asks _ := 0
  copy _ := 0
  after _ := 0
  commCopy _ := 0
  asyncAt := 0
  sent t := if t.signals q then -1 else 0

def rankWeight (q i : Fin n) : Weight n where
  requested := 0
  called := -own q i
  puts := 0
  rank := own q i
  put l := if l = .ddfPut ∨ l = .assertRank ∨ l = .setRank then own q i else 0
  received := own q i
  initiated := 0
  asks _ := 0
  copy _ := 0
  after _ := 0
  commCopy _ := 0
  asyncAt := 0
  sent t := if t.signals q then -1 else 0

def copyWeight (p q i : Fin n) : Weight n where
  requested := 0
  called := 0
  puts := 0
  rank := 0
  put _ := 0
  received := 0
  initiated := 0
  asks _ := 0
  copy _ := 0
  after dest := if dest = q then -own p i else 0
  commCopy dest := if dest = q then own p i else 0
  asyncAt := 0
  sent t := (if t.copies q then own p i else 0) + if t.signals q then -own p i else 0

def receiptMsg (q : Fin n) : Msg n → Int
  | .asyncAfter _ dest _ => own q dest
  | _ => 0

variable {c : Config n count} {q i : Fin n} {P : Place n count} {s : State n count}

theorem requestWeight_of : (requestWeight q i).of P =
    own q i * (P.registering + P.registrations - P.putRequestedFromHome.toNat) := by
  have htask : ((requestWeight q i).task : Task n count → Int) =
      fun t => if t.isAsyncAt then own q i else 0 := by
    funext t
    rcases t with ⟨_ | _ | _⟩ | _ | ⟨_, _ | _ | _ | _⟩ | ⟨_, _ | _⟩ | _ | _ <;> rfl
  have hcomm : (requestWeight q i).commTask =
      fun t => if decide (t = .asyncAt) then own q i else 0 := by
    funext t
    cases t <;> rfl
  have hsent : (requestWeight q i).sent =
      fun t => if decide (t = .asyncAt) then own q i else 0 := by
    funext t
    cases t <;> rfl
  have hasks : (P.waiting.map (requestWeight q i).asks).sum = 0 := by simp [requestWeight]
  rw [Weight.of, htask, hcomm, hsent, hasks, sum_indicator, sum_indicator, sum_indicator,
    Place.registering, Place.registrations]
  simp only [requestWeight]
  push_cast
  ring

theorem requestWeight_laws {R : Int → Prop} (hzero : R 0) (hadd : ∀ x y, R x → R y → R (x + y))
    (hcas : R (-own q c.initiator)) : Laws c R (requestWeight q) fun _ => 0 where
  zero := hzero
  add := hadd
  called := hzero
  won i _ := by simpa [requestWeight] using hzero
  ddfPut := hzero
  assertRank := hzero
  setRank r hr := by
    have hr : r = 0 := by simpa [requestWeight] using hr
    simpa [requestWeight, hr] using hzero
  memcpy := hzero
  cas r hr := by
    rcases hr with rfl | rfl
    · simpa [requestWeight] using hzero
    · simpa [requestWeight] using hcas
  setHome _ _ r _ hr := by
    have hr : r = 0 := by simpa [requestWeight] using hr
    simpa [requestWeight, hr] using hzero
  putHome _ _ _ := hzero
  copy _ _ _ := hzero
  back _ _ := hzero
  dropped _ := hzero
  comm i t _ := by cases t <;> simpa [requestWeight, Weight.commTask] using hzero
  asyncAt _ _ := hzero
  asyncAfter _ _ _ _ := hzero
  complete _ _ _ _ := hzero

theorem valueWeight_of : (valueWeight c q i).of P =
    own q c.home * (P.putting - own c.initiator i * P.putCalled.toNat) +
    P.asking q + P.sending q + P.sends q - own q i * P.registrations := by
  have htask : ((valueWeight c q i).task : Task n count → Int) = fun t =>
      (if t.isPut then own q c.home else 0) +
        ((if t.asks q then 1 else 0) + if t.delivers q then 1 else 0) := by
    funext t
    rcases t with ⟨_ | _ | _⟩ | _ | ⟨_, _ | _ | _ | _⟩ | ⟨_, _ | _⟩ | _ | _ <;>
      simp [Weight.task, valueWeight, Task.isPut, Task.asks, Task.delivers, own]
  have hcomm : (valueWeight c q i).commTask = fun t => if t.signals q then 1 else 0 := by
    funext t
    cases t <;> simp [Weight.commTask, valueWeight, CommTask.signals, own]
  have hsent : (valueWeight c q i).sent =
      fun t => (if t.signals q then 1 else 0) + if decide (t = .asyncAt) then -own q i else 0 := by
    funext t
    simp [valueWeight]
  have hasks : (valueWeight c q i).asks = fun dest => if decide (dest = q) then 1 else 0 := by
    funext dest
    simp [valueWeight, own]
  rw [Weight.of, htask, hcomm, hsent, hasks, List.sum_map_add, List.sum_map_add, List.sum_map_add]
  simp only [sum_indicator, valueWeight, Place.putting, Place.asking, Place.sending, Place.sends,
    Place.registrations]
  push_cast
  ring

theorem valueWeight_laws {R : Int → Prop} (hzero : R 0) (hadd : ∀ x y, R x → R y → R (x + y))
    (hq : q ≠ c.initiator) : Laws c R (valueWeight c q) (valueMsg q) where
  zero := hzero
  add := hadd
  called := by simpa [valueWeight] using hzero
  won i _ := by simpa [valueWeight] using hzero
  ddfPut := by simpa [valueWeight] using hzero
  assertRank := by simpa [valueWeight] using hzero
  setRank r hr := by
    have hr : r = 0 := by simpa [valueWeight] using hr
    simpa [valueWeight, hr] using hzero
  memcpy := by simpa [valueWeight] using hzero
  cas r hr := by
    have hr : r = 0 := by simpa [valueWeight] using hr
    subst hr
    by_cases hhome : c.initiator = c.home
    · simpa [valueWeight, hhome, own_ne (hhome ▸ hq.symm)] using hzero
    · simpa [valueWeight, hhome] using hzero
  setHome _ _ r _ hr := by
    have hr : r = 0 := by simpa [valueWeight] using hr
    simpa [valueWeight, hr] using hzero
  putHome _ _ _ := hzero
  copy _ _ _ := by simpa [valueWeight] using hzero
  back _ _ := by simpa [valueWeight] using hzero
  dropped _ := by simpa [valueWeight, own_ne hq.symm] using hzero
  comm i t _ := by
    cases t <;>
      simpa [valueWeight, Weight.commTask, valueMsg, CommTask.send, CommTask.signals,
        own] using hzero
  asyncAt _ _ := by simpa [valueWeight, valueMsg] using hzero
  asyncAfter _ _ _ _ := by simpa [valueWeight, valueMsg] using hzero
  complete _ _ _ _ := by simpa [valueMsg] using hzero

theorem receiptWeight_of : (receiptWeight q i).of P =
    own q i * (P.receiving + P.puts - P.putCalled.toNat) - P.sends q := by
  have htask : ((receiptWeight q i).task : Task n count → Int) =
      fun t => if t.isDdfPut then own q i else 0 := by
    funext t
    rcases t with ⟨_ | _ | _⟩ | ⟨_ | _ | _ | _ | _⟩ | ⟨_, _ | _ | _ | _⟩ | ⟨_, _ | _⟩ | _ | _ <;>
      rfl
  have hcomm : (receiptWeight q i).commTask = fun _ => 0 := by
    funext t
    cases t <;> rfl
  have hasks : (P.waiting.map (receiptWeight q i).asks).sum = 0 := by simp [receiptWeight]
  rw [Weight.of, htask, hcomm, hasks]
  simp only [sum_indicator, receiptWeight, Place.receiving, Place.sends]
  simp
  ring

theorem rankWeight_of : (rankWeight q i).of P =
    own q i * (P.initiating + P.putInitiatorRank.isSome.toNat - P.putCalled.toNat) - P.sends q := by
  have htask : ((rankWeight q i).task : Task n count → Int) =
      fun t => if t.isSetRank then own q i else 0 := by
    funext t
    rcases t with ⟨_ | _ | _⟩ | ⟨_ | _ | _ | _ | _⟩ | ⟨_, _ | _ | _ | _⟩ | ⟨_, _ | _⟩ | _ | _ <;>
      rfl
  have hcomm : (rankWeight q i).commTask = fun _ => 0 := by
    funext t
    cases t <;> rfl
  have hasks : (P.waiting.map (rankWeight q i).asks).sum = 0 := by simp [rankWeight]
  rw [Weight.of, htask, hcomm, hasks]
  simp only [sum_indicator, rankWeight, Place.initiating, Place.sends]
  simp
  ring

theorem signals_balance (q i : Fin n) (t : CommTask n) :
    (if t.signals q then -1 else 0) + receiptMsg q (t.send i) = 0 := by
  cases t with
  | asyncAfter dest e =>
      by_cases hdest : dest = q <;>
        simp [CommTask.signals, receiptMsg, CommTask.send, own, hdest]
  | _ => rfl

theorem receiptWeight_laws {R : Int → Prop} (hzero : R 0) (hadd : ∀ x y, R x → R y → R (x + y)) :
    Laws c R (receiptWeight q) (receiptMsg q) where
  zero := hzero
  add := hadd
  called := by simpa [receiptWeight] using hzero
  won _ _ := hzero
  ddfPut := by simpa [receiptWeight] using hzero
  assertRank := hzero
  setRank r hr := by
    have hr : r = 0 := by simpa [receiptWeight] using hr
    simpa [receiptWeight, hr] using hzero
  memcpy := hzero
  cas r hr := by
    have hr : r = 0 := by simpa [receiptWeight] using hr
    simpa [receiptWeight, hr] using hzero
  setHome source i r _ hr := by
    have hr : r = 0 := by simpa [receiptWeight] using hr
    simpa [receiptWeight, hr] using hzero
  putHome _ _ _ := by simpa [receiptWeight] using hzero
  copy _ _ _ := hzero
  back _ _ := hzero
  dropped _ := hzero
  comm i t _ := by
    have hbalance := signals_balance q i t
    cases t <;> simpa [receiptWeight, Weight.commTask, hbalance] using hzero
  asyncAt _ _ := hzero
  asyncAfter _ _ _ _ := by simpa [receiptWeight, receiptMsg] using hzero
  complete _ _ _ _ := hzero

theorem rankWeight_laws : Laws c (· ≤ 0) (rankWeight q) (receiptMsg q) where
  zero := le_rfl
  add x y hx hy := add_nonpos hx hy
  called := by simp [rankWeight]
  won _ _ := le_rfl
  ddfPut := by simp [rankWeight]
  assertRank := by simp [rankWeight]
  setRank r hr := by
    rcases hr with rfl | rfl
    · simpa [rankWeight] using own_nonneg q c.initiator
    · simp [rankWeight]
  memcpy := le_rfl
  cas r hr := by
    have hr : r = 0 := by simpa [rankWeight] using hr
    simp [rankWeight, hr]
  setHome _ i r _ hr := by
    rcases hr with rfl | rfl
    · simpa [rankWeight] using own_nonneg q i
    · simp [rankWeight]
  putHome _ _ _ := le_rfl
  copy _ _ _ := le_rfl
  back _ _ := le_rfl
  dropped _ := le_rfl
  comm i t _ := by
    have hbalance := signals_balance q i t
    cases t <;> simp [rankWeight, Weight.commTask, hbalance]
  asyncAt _ _ := le_rfl
  asyncAfter _ _ _ _ := by simp [rankWeight, receiptMsg]
  complete _ _ _ _ := le_rfl

theorem copyWeight_of {p : Fin n} : (copyWeight p q i).of P =
    own p i * (P.copies q - P.tasks.countP (·.isAfter q) - P.commTasks.countP (·.signals q) -
      P.sends q) := by
  have htask : ((copyWeight p q i).task : Task n count → Int) =
      fun t => if t.isAfter q then -own p i else 0 := by
    funext t
    rcases t with ⟨_ | _ | _⟩ | _ | ⟨_, _ | _ | _ | _⟩ | ⟨_, _ | _⟩ | _ | _ <;>
      simp [Weight.task, copyWeight, Task.isAfter]
  have hcomm : (copyWeight p q i).commTask =
      fun t => (if t.copies q then own p i else 0) + if t.signals q then -own p i else 0 := by
    funext t
    cases t <;> simp [Weight.commTask, copyWeight, CommTask.copies, CommTask.signals]
  have hasks : (P.waiting.map (copyWeight p q i).asks).sum = 0 := by simp [copyWeight]
  have hsent : (copyWeight p q i).sent =
      fun t => (if t.copies q then own p i else 0) + if t.signals q then -own p i else 0 := rfl
  rw [Weight.of, htask, hcomm, hasks, hsent, List.sum_map_add, List.sum_map_add]
  simp only [sum_indicator, copyWeight, Place.copies, Place.sends]
  push_cast
  ring

theorem copyWeight_laws {p : Fin n} : Laws c (· = 0) (copyWeight p q) fun _ => 0 where
  zero := rfl
  add x y hx hy := by rw [hx, hy, add_zero]
  called := rfl
  won _ _ := rfl
  ddfPut := rfl
  assertRank := rfl
  setRank r hr := by
    have hr : r = 0 := by simpa [copyWeight] using hr
    simp [copyWeight, hr]
  memcpy := rfl
  cas r hr := by
    have hr : r = 0 := by simpa [copyWeight] using hr
    simp [copyWeight, hr]
  setHome _ _ r _ hr := by
    have hr : r = 0 := by simpa [copyWeight] using hr
    simp [copyWeight, hr]
  putHome _ _ _ := rfl
  copy i dest _ := by by_cases hdest : dest = q <;> simp [copyWeight, hdest]
  back _ _ := rfl
  dropped _ := rfl
  comm i t _ := by
    cases t <;> simp [copyWeight, Weight.commTask, CommTask.copies, CommTask.signals]
  asyncAt _ _ := rfl
  asyncAfter _ _ _ _ := rfl
  complete _ _ _ _ := rfl

def sendsTo (q : Fin n) (s : State n count) : Nat := total (fun _ P => P.sends q) s.proc

def inFlight (f : Msg n → Int) (s : State n count) : Int := (s.shared.net.map f).sum

theorem inFlight_nonneg {f : Msg n → Int} (hf : ∀ m, 0 ≤ f m)
    (s : State n count) : 0 ≤ inFlight f s := by
  apply List.sum_nonneg
  intro x hx
  obtain ⟨m, -, rfl⟩ := List.mem_map.mp hx
  exact hf m

theorem valueMsg_nonneg (q : Fin n) (m : Msg n) : 0 ≤ valueMsg q m := by
  cases m with
  | asyncAt source => exact own_nonneg q source
  | _ => exact le_rfl

theorem receiptMsg_nonneg (q : Fin n) (m : Msg n) : 0 ≤ receiptMsg q m := by
  cases m with
  | asyncAfter source dest e => exact own_nonneg q dest
  | _ => exact le_rfl

theorem registrations_le (hs : Reachable (dddf c) s) (q : Fin n) :
    (s.proc q).registering + (s.proc q).registrations ≤ (s.proc q).putRequestedFromHome.toNat := by
  have hw := weight_reachable (requestWeight_laws (R := (· ≤ 0)) (q := q) le_rfl
    (fun _ _ => add_nonpos) (by simpa using own_nonneg q c.initiator)) hs
  simp only [requestWeight_of, total_own] at hw
  simp at hw
  omega

theorem registrations_eq (hs : Reachable (dddf c) s) (hq : q ≠ c.initiator) :
    (s.proc q).registering + (s.proc q).registrations = (s.proc q).putRequestedFromHome.toNat := by
  have hw := weight_reachable (requestWeight_laws (R := (· = 0)) (q := q) rfl
    (fun _ _ hx hy => by rw [hx, hy, add_zero]) (by rw [own_ne hq.symm, neg_zero])) hs
  simp only [requestWeight_of, total_own] at hw
  simp at hw
  omega

/-- What comes in at a place, against what is put there. -/
theorem receipts_eq (hs : Reachable (dddf c) s) (q : Fin n) :
    ((s.proc q).receiving + (s.proc q).puts + inFlight (receiptMsg q) s : Int) =
      (s.proc q).putCalled.toNat + sendsTo q s := by
  have hw := weight_reachable (receiptWeight_laws (R := (· = 0)) (q := q) rfl
    (fun _ _ hx hy => by rw [hx, hy, add_zero])) hs
  simp only [receiptWeight_of, total_sub, total_own, total_cast] at hw
  rw [inFlight, sendsTo]
  omega

theorem rank_le (hs : Reachable (dddf c) s) (q : Fin n) :
    ((s.proc q).initiating + (s.proc q).putInitiatorRank.isSome.toNat : Int) ≤
      (s.proc q).putCalled.toNat + sendsTo q s := by
  have hw := weight_reachable (rankWeight_laws (q := q)) hs
  have hnet := inFlight_nonneg (receiptMsg_nonneg q) s
  simp only [rankWeight_of, total_sub, total_own, total_cast] at hw
  rw [inFlight] at hnet
  rw [sendsTo]
  omega

/-- The registration of a place against the values for it. -/
theorem answers_eq (hs : Reachable (dddf c) s) (hq : q ≠ c.initiator) (hhome : q ≠ c.home) :
    (total (fun _ P => P.asking q) s.proc + total (fun _ P => P.sending q) s.proc + sendsTo q s +
      inFlight (valueMsg q) s : Int) = (s.proc q).registrations := by
  have hw := weight_reachable (valueWeight_laws (c := c) (R := (· = 0)) (q := q) rfl
    (fun _ _ hx hy => by rw [hx, hy, add_zero]) hq) hs
  simp only [valueWeight_of, own_ne hhome.symm, zero_mul, zero_add, total_sub, total_add, total_own,
    total_cast] at hw
  rw [inFlight, sendsTo]
  omega

theorem puts_eq (hs : Reachable (dddf c) s) (hhome : c.home ≠ c.initiator) :
    (total (fun _ => Place.putting) s.proc + total (fun _ P => P.asking c.home) s.proc +
      total (fun _ P => P.sending c.home) s.proc + sendsTo c.home s : Int) =
      (s.proc c.initiator).putCalled.toNat := by
  have hw := weight_reachable (valueWeight_laws (c := c) (R := (· = 0)) (q := c.home) rfl
    (fun _ _ hx hy => by rw [hx, hy, add_zero]) hhome) hs
  obtain ⟨hplaces, hnet⟩ := routed_reachable hs
  have hregistrations : (s.proc c.home).registrations = 0 := by
    apply List.countP_eq_zero.mpr
    intro t ht heq
    have hasks := (hplaces c.home).sent t ht
    rw [of_decide_eq_true heq] at hasks
    exact hasks.1 rfl
  have hnone : inFlight (valueMsg c.home) s = 0 := by
    apply List.sum_eq_zero
    intro x hx
    obtain ⟨m, hm, rfl⟩ := List.mem_map.mp hx
    cases m with
    | asyncAt source => exact own_ne (hnet _ hm).1
    | _ => rfl
  simp only [valueWeight_of, own_self, one_mul, total_sub, total_add, total_own, total_cast] at hw
  rw [inFlight] at hnone
  rw [sendsTo]
  omega

theorem copies_eq (hs : Reachable (dddf c) s) (i q : Fin n) : (s.proc i).copies q =
    (s.proc i).tasks.countP (·.isAfter q) + (s.proc i).commTasks.countP (·.signals q) +
      (s.proc i).sends q := by
  have hw := weight_reachable (copyWeight_laws (c := c) (p := i) (q := q)) hs
  simp only [copyWeight_of, total_own] at hw
  simp at hw
  omega

theorem copies_le (hs : Reachable (dddf c) s) (i q : Fin n) :
    (s.proc i).copies q ≤ (s.proc i).sending q + (s.proc i).sends q := by
  have hle : (s.proc i).tasks.countP (·.isAfter q) ≤ (s.proc i).tasks.countP (·.delivers q) := by
    apply List.countP_mono_left
    intro t _ ht
    rcases t with _ | _ | _ | ⟨dest, _ | e⟩ | _ | _
    all_goals first | cases ht | exact ht
  rw [copies_eq hs, Place.sending]
  omega

end HabaneroUpc.Dddf
