import HabaneroUpc.DddfAgreement

namespace HabaneroUpc.Dddf

open Interleaving

variable {n count : Nat} {c : Config n count} {s : State n count} {i q : Fin n}

structure Agrees (c : Config n count) (s : State n count) : Prop where
  value : ∀ q data, (s.proc q).ddf = some data → data = c.data
  issued : ∀ dest e, .asyncCopy c.home dest e ∈ s.shared.net → s.shared.datum c.home = c.data
  completed : ∀ q source, .putHome source .memcpy ∈ (s.proc q).tasks → Completed s q source

theorem Valid.agrees (h : Valid c s) : Agrees c s :=
  ⟨fun q => (h.places q).ddf, h.net.issued c.home, h.net.completed⟩

theorem agrees_ordered (hs : ReachableWhen (dddf c) (fun s i a => ordered s i a = true) s) :
    Agrees c s :=
  (valid_reachable (hs.mono fun _ _ _ hordered => .inl hordered)).agrees

/-- A place from where nothing is sent does not copy. -/
theorem ordered_of_no_route (hs : Reachable (dddf c) s) (hnone : ∀ d, ¬Route c i d)
    (a : Act n count) :
    ordered s i a = true := by
  cases a with
  | comm =>
      cases hcomm : (s.proc i).commTasks with
      | nil => simp [ordered, hcomm]
      | cons t rest =>
          have hrouted := ((routed_reachable hs).1 i).commTasks t (hcomm ▸ List.mem_cons_self)
          cases t with
          | asyncCopy d e => exact (hnone d hrouted).elim
          | _ => simp [ordered, hcomm]
  | _ => rfl

/-- DDF_PUT at another place than the home copies to the home when it has
filled its own segment. -/
theorem ordered_of_remote (hs : Reachable (dddf c) s) (hhome : c.home ≠ c.initiator)
    (a : Act n count) :
    ordered s i a = true := by
  obtain ⟨hplaces, -⟩ := routed_reachable hs
  cases a with
  | comm =>
      cases hcomm : (s.proc i).commTasks with
      | nil => simp [ordered, hcomm]
      | cons t rest =>
          have hmem : t ∈ (s.proc i).commTasks := hcomm ▸ List.mem_cons_self
          cases t with
          | asyncCopy d e =>
              simp only [ordered, hcomm, Bool.not_eq_true']
              rw [Bool.eq_false_iff]
              intro hpublished
              obtain ⟨t, ht, hpub⟩ := List.any_eq_true.mp hpublished
              have hput : t.isPut = true := by
                cases t with
                | put => rfl
                | _ => cases hpub
              have hi : i = c.initiator := by
                have hrouted := (hplaces i).tasks t ht
                cases t with
                | put => exact hrouted
                | _ => cases hput
              have hd : d = c.home := by
                rcases (hplaces i).commTasks _ hmem with ⟨-, -, hd⟩ | ⟨heq, -⟩
                · exact hd
                · exact absurd (heq.symm.trans hi) hhome
              subst hd
              -- DDF_PUT would be on its way to the home twice
              have hputting : 0 < (s.proc i).putting := List.countP_pos_iff.mpr ⟨t, ht, hput⟩
              have hcopies : 0 < (s.proc i).copies c.home :=
                Nat.add_pos_left (List.countP_pos_iff.mpr ⟨_, hmem, decide_eq_true rfl⟩) _
              have hle := copies_le hs i c.home
              have hputs := puts_eq hs hhome
              have h₁ := Tally.le_total (M := Nat) (fun _ => Place.putting) s.proc i
              have h₂ := Tally.le_total (M := Nat) (fun _ P => P.sending c.home) s.proc i
              have h₃ := Tally.le_total (M := Nat) (fun _ P => P.sends c.home) s.proc i
              have hcalled := Bool.toNat_le (s.proc c.initiator).putCalled
              rw [sendsTo] at hputs
              omega
          | _ => simp [ordered, hcomm]
  | _ => rfl

/-- With the data in it from the beginning the segment of the home keeps them. -/
theorem filled_home (hs : Reachable (dddf c) s) (hhome : c.initiator = c.home)
    (hdatum : c.datum c.home = c.data) : Filled c c.home s.shared := by
  refine hs.invariant (S := dddf c) (I := fun s => Filled c c.home s.shared) hdatum ?_
  intro s i a P' g' hs _ hI ha
  cases act_step ha with
  | @run t ht => exact filled_runTask hI t
  | complete hm =>
      rcases (routed_reachable hs).2 _ hm with ⟨rfl, hne, -⟩ | ⟨-, hne, -⟩
      · exact absurd hhome hne
      · exact (Function.update_of_ne hne.symm ..).trans hI
  | _ => exact hI

/-- The inputs for which no run gets the bytes wrong. -/
theorem agrees_settled
    (hc : c.initiator ≠ c.home ∨ (∀ q, q ≠ c.home → c.awaits q = false) ∨ c.datum c.home = c.data)
    (hs : Reachable (dddf c) s) : Agrees c s := by
  refine (valid_reachable (ReachableWhen.always (fun s i a hs => ?_) hs)).agrees
  by_cases hhome : c.initiator = c.home
  · have hroute {d : Fin n} (h : Route c i d) : i = c.home ∧ d ≠ c.home ∧ c.awaits d = true := by
      rcases h with ⟨rfl, hne, -⟩ | ⟨hi, hd, -, hawaits⟩
      · exact absurd hhome hne
      · exact ⟨hi, hd, hawaits⟩
    rcases hc with hne | hawaits | hdatum
    · exact absurd hhome hne
    · refine .inl (ordered_of_no_route hs (fun d hd => ?_) a)
      obtain ⟨-, hd, hasks⟩ := hroute hd
      rw [hawaits d hd] at hasks
      cases hasks
    · by_cases hi : i = c.home
      · subst hi
        exact .inr (filled_home hs hhome hdatum)
      · exact .inl (ordered_of_no_route hs (fun d hd => hi (hroute hd).1) a)
  · exact .inl (ordered_of_remote hs (Ne.symm hhome) a)

def askRun : List (Act n count) :=
  [.await, .run (.registerCallback .get), .run (.registerCallback .cas),
    .run (.registerCallback .asyncAt), .comm]

def raceRun (q : Fin n) : List (Act n count) :=
  [.deliver (.asyncAt q), .run (.callback q), .put, .run (.put .ddfPut), .run (.putBack q),
    .run (.putRemote q .asyncCopy), .comm, .run (.putRemote q (.asyncAfter 0)), .comm,
    .complete q 0]

def receiveRun (source q : Fin n) (data : Data count) : List (Act n count) :=
  [.deliver (.asyncAfter source q 0), .run (.putHome source .memcpy),
    .run (.putHome source (.assertRank data)), .run (.putHome source (.setRank data)),
    .run (.putHome source (.ddfPut data))]

def asked : Place n count :=
  { Place.init with putRequestedFromHome := true, awaited := true, sent := [.asyncAt] }

theorem askRun_solo (hq : q ≠ c.home) (hawaits : c.awaits q = true) (datum : Fin n → Data count) :
    (dddf c).solo q .init ⟨datum, []⟩ askRun = some (asked, ⟨datum, [.asyncAt q]⟩) := by
  simp [askRun, asked, System.solo, dddf, act, hq, hq.symm, hawaits, Place.init, Place.ready,
    Place.take, runTask, dddfRegisterCallback, Place.push, Place.check, Place.advance, CommTask.send]

theorem raceRun_solo (hhome : c.initiator = c.home) (hq : q ≠ c.home) (datum : Fin n → Data count) :
    ∃ P, (dddf c).solo c.home .init ⟨datum, [.asyncAt q]⟩ (raceRun q) =
      some (P, ⟨Function.update datum q (datum c.home), [.asyncAfter c.home q 0]⟩) := by
  simp [raceRun, System.solo, dddf, act, hhome, hq, Place.init, Place.ready, Place.take, runTask,
    receive, ddfPutCallback, putBack, ddfPut, Place.ddfPut, ddfPutRemote, Place.push, Place.check,
    Place.advance, CommTask.send]

theorem receiveRun_solo (c : Config n count) (source q : Fin n) (datum : Fin n → Data count) :
    ∃ r, (dddf c).solo q asked ⟨datum, [.asyncAfter source q 0]⟩ (receiveRun source q (datum q)) =
      some r ∧ r.1.ddf = some (datum q) := by
  simp [receiveRun, asked, System.solo, dddf, act, Place.init, Place.ready, Place.take, runTask,
    receive, ddfPutHome, Place.ddfPut, Place.check]

/-- A place that asks the home is sent what the segment of the home held before. -/
theorem race_reachable (hhome : c.initiator = c.home) (hq : q ≠ c.home)
    (hawaits : c.awaits q = true) :
    ∃ s, Reachable (dddf c) s ∧ (s.proc q).ddf = some (c.datum c.home) := by
  have hask := reachable_of_solo (S := dddf c) .init (askRun_solo hq hawaits c.datum)
  generalize hs₁ : (dddf c).init.set q _ = s₁ at hask
  have hproc : s₁.proc c.home = .init := by
    rw [← hs₁, set_proc_of_ne _ _ hq.symm]
    rfl
  have hproc' : s₁.proc q = asked := by rw [← hs₁, set_proc_self]
  have hshared : s₁.shared = ⟨c.datum, [.asyncAt q]⟩ := by rw [← hs₁, set_shared]
  obtain ⟨P, hrace⟩ := raceRun_solo hhome hq c.datum
  rw [← hproc, ← hshared] at hrace
  have hrace' := reachable_of_solo hask hrace
  generalize hs₂ : s₁.set c.home _ = s₂ at hrace'
  have hproc₂ : s₂.proc q = asked := by rw [← hs₂, set_proc_of_ne _ _ hq, hproc']
  obtain ⟨r, hreceive, hddf⟩ := receiveRun_solo c c.home q
    (Function.update c.datum q (c.datum c.home))
  rw [← hproc₂, show (⟨_, _⟩ : Shared n count) = s₂.shared by rw [← hs₂, set_shared]] at hreceive
  refine ⟨_, reachable_of_solo hrace' hreceive, ?_⟩
  rw [set_proc_self, hddf, Function.update_self]

/-- In the runs whose communication workers keep the order the bytes agree, and
the inputs all of whose runs agree are the settled ones. -/
theorem agrees_iff (c : Config n count) :
    (∀ s, ReachableWhen (dddf c) (fun s i a => ordered s i a = true) s → Agrees c s) ∧
      ((∀ s, Reachable (dddf c) s → Agrees c s) ↔
        c.initiator ≠ c.home ∨ (∀ q, q ≠ c.home → c.awaits q = false) ∨
          c.datum c.home = c.data) := by
  refine ⟨fun s => agrees_ordered, fun h => ?_, fun hc s => agrees_settled hc⟩
  by_contra hc
  simp only [not_or, not_forall, ne_eq, not_not, Bool.not_eq_false] at hc
  obtain ⟨hhome, ⟨q, hq, hawaits⟩, hdatum⟩ := hc
  obtain ⟨s, hs, hddf⟩ := race_reachable hhome hq hawaits
  exact hdatum ((h s hs).value q _ hddf)

theorem agrees_remotePut : ∀ s, Reachable (dddf remotePut) s → Agrees remotePut s :=
  (agrees_iff remotePut).2.mpr (.inl (by decide))

def homePut : Config 2 1 := { remotePut with initiator := remotePut.home, awaits := fun _ => true }

/-- Place 1 gets what was in the segment of place 0 before. -/
theorem homePut_disagrees : ∃ s, Reachable (dddf homePut) s ∧ Quiet s ∧
    (s.proc 0).ddf = some #v[7] ∧ (s.proc 1).ddf = some #v[0] ∧ ¬Agrees homePut s := by
  have hs := after_reachable (dddf homePut)
    (askRun.map (Prod.mk 1) ++ (raceRun 1).map (Prod.mk 0) ++
    (receiveRun 0 1 #v[0]).map (Prod.mk 1) ++
    [(0, .run (.put .assertRank)), (0, .run (.put .setRank)), (0, .run (.put .memcpy)),
      (0, .run (.put .cas))])
  refine ⟨_, hs, ⟨?_, ?_, ?_⟩, ?_, ?_, fun h => absurd (h.value 1 #v[0] ?_) ?_⟩ <;> decide

end HabaneroUpc.Dddf
