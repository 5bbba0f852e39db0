import HabaneroUpc.DddfDelivery

namespace HabaneroUpc.Dddf

open Interleaving Tally

variable {n count : Nat}

def Task.isPublished : Task n count → Bool
  | .put .assertRank | .put .setRank | .put .memcpy => true
  | _ => false

def Place.published (P : Place n count) : Bool := P.tasks.any Task.isPublished

def Filled (c : Config n count) (me : Fin n) (g : Shared n count) : Prop := g.datum me = c.data

/-- The communication worker issues no copy while DDF_PUT of its place has put
the data and not copied them yet. -/
def ordered (s : State n count) (i : Fin n) : Act n count → Bool
  | .comm => match (s.proc i).commTasks with
    | .asyncCopy _ _ :: _ => !(s.proc i).published
    | _ => true
  | _ => true

def Safe (c : Config n count) (s : State n count) (i : Fin n) (a : Act n count) : Prop :=
  ordered s i a = true ∨ Filled c i s.shared

def Ready (c : Config n count) (me : Fin n) (P : Place n count) (g : Shared n count) : Prop :=
  (me = c.home → P.ddf ≠ none) ∧ (me ≠ c.home → Filled c me g)

def Issued (P : Place n count) (t : CommTask n) : Prop := t ∈ P.commTasks ∨ t ∈ P.sent

def Task.Valued (c : Config n count) (me : Fin n) (P : Place n count) (g : Shared n count) :
    Task n count → Prop
  | .put .cas => Filled c me g
  | .putHome _ .memcpy => Filled c me g
  | .putHome _ (.assertRank data) | .putHome _ (.setRank data) | .putHome _ (.ddfPut data) =>
      Filled c me g ∧ data = c.data
  | .putRemote _ .asyncCopy => Ready c me P g
  | .putRemote dest (.asyncAfter e) => Issued P (.asyncCopy dest e)
  | _ => True

/-- The data are in the segment of a place before they are copied from there or
put there, and the signal of a copy stays behind it. -/
structure ValueInv (c : Config n count) (me : Fin n) (P : Place n count) (g : Shared n count) :
    Prop where
  tasks : ∀ t ∈ P.tasks, t.Valued c me P g
  ddf : ∀ data, P.ddf = some data → data = c.data
  copies : ∀ dest e, .asyncCopy dest e ∈ P.commTasks → Ready c me P g
  signals : ∀ before after dest e, P.commTasks = before ++ .asyncAfter dest e :: after →
    .asyncCopy dest e ∈ before ∨ .asyncCopy dest e ∈ P.sent

def Sourced (c : Config n count) (me : Fin n) (P : Place n count) (g : Shared n count) : Prop :=
  P.ddf ≠ none → Filled c me g ∨ P.published = true

variable {c : Config n count} {me : Fin n} {P P' : Place n count} {g g' : Shared n count}
  {t : Task n count} {s : State n count}

theorem Ready.mono (h : Ready c me P g) (hddf : P.ddf ≠ none → P'.ddf ≠ none)
    (hfilled : Filled c me g → Filled c me g') : Ready c me P' g' :=
  ⟨fun hme => hddf (h.1 hme), fun hme => hfilled (h.2 hme)⟩

theorem Task.Valued.mono (h : t.Valued c me P g) (hddf : P.ddf ≠ none → P'.ddf ≠ none)
    (hissued : ∀ t, Issued P t → Issued P' t) (hfilled : Filled c me g → Filled c me g') :
    t.Valued c me P' g' := by
  rcases t with _ | ⟨_ | _ | _ | _ | _⟩ | ⟨_, _ | _ | _ | _⟩ | ⟨_, _ | _⟩ | _ | _
  case put.cas => exact hfilled h
  case putHome.memcpy => exact hfilled h
  case putHome.assertRank | putHome.setRank | putHome.ddfPut => exact ⟨hfilled h.1, h.2⟩
  case putRemote.asyncCopy => exact h.mono hddf hfilled
  case putRemote.asyncAfter => exact hissued _ h
  all_goals trivial

namespace ValueInv

theorem mono (h : ValueInv c me P g) (hfilled : Filled c me g → Filled c me g') :
    ValueInv c me P g' :=
  { h with
    tasks := fun t ht => (h.tasks t ht).mono id (fun _ => id) hfilled
    copies := fun dest e ht => (h.copies dest e ht).mono id hfilled }

theorem same (h : ValueInv c me P g) (hddf : P'.ddf = P.ddf) (htasks : P'.tasks ⊆ P.tasks)
    (hcomm : P'.commTasks = P.commTasks) (hsent : P'.sent = P.sent) : ValueInv c me P' g := by
  have hissued (t : CommTask n) (ht : Issued P t) : Issued P' t := by
    rw [Issued, hcomm, hsent]
    exact ht
  have hready : P.ddf ≠ none → P'.ddf ≠ none := by
    rw [hddf]
    exact id
  refine ⟨fun t ht => (h.tasks t (htasks ht)).mono hready hissued id, ?_, ?_, ?_⟩
  · rw [hddf]
    exact h.ddf
  · intro dest e ht
    rw [hcomm] at ht
    exact (h.copies dest e ht).mono hready id
  · rw [hcomm, hsent]
    exact h.signals

theorem setRank (h : ValueInv c me P g) (r : Option (Fin n)) :
    ValueInv c me { P with putInitiatorRank := r } g :=
  h.same rfl (List.Subset.refl _) rfl rfl

theorem requested (h : ValueInv c me P g) :
    ValueInv c me { P with putRequestedFromHome := true } g :=
  h.same rfl (List.Subset.refl _) rfl rfl

theorem ready (h : ValueInv c me P g) (ht : t.Valued c me P g) : ValueInv c me (P.ready t) g := by
  refine ⟨fun t' ht' => ?_, h.ddf, h.copies, h.signals⟩
  rcases List.mem_cons.mp ht' with rfl | ht'
  · exact ht.mono id (fun _ => id) id
  · exact (h.tasks t' ht').mono id (fun _ => id) id

theorem check (h : ValueInv c me P g) (a : Assertion) (p : Prop) [Decidable p] :
    ValueInv c me (P.check a p) g := by
  rw [Place.check]
  split
  · exact h
  · exact h.same rfl (List.Subset.refl _) rfl rfl

theorem push (h : ValueInv c me P g) {t : CommTask n}
    (hcopy : ∀ dest e, t = .asyncCopy dest e → Ready c me P g)
    (hsignal : ∀ dest e, t = .asyncAfter dest e → Issued P (.asyncCopy dest e)) :
    ValueInv c me (P.push t) g := by
  have hissued (t' : CommTask n) (ht' : Issued P t') : Issued (P.push t) t' :=
    ht'.imp_left (List.mem_append_left _)
  refine ⟨fun t' ht' => (h.tasks t' ht').mono id hissued id, h.ddf, fun dest e ht' => ?_, ?_⟩
  · rcases List.mem_append.mp ht' with ht' | ht'
    · exact h.copies dest e ht'
    · exact hcopy dest e (List.mem_singleton.mp ht').symm
  · intro before after dest e hsplit
    change P.commTasks ++ [t] = _ at hsplit
    rcases List.eq_nil_or_concat after with rfl | ⟨after, t', rfl⟩
    · obtain ⟨rfl, heq⟩ := List.append_inj' hsplit rfl
      exact hsignal dest e (List.singleton_inj.mp heq)
    · rw [List.concat_eq_append, ← List.cons_append, ← List.append_assoc] at hsplit
      exact h.signals before after dest e (List.append_inj' hsplit rfl).1

theorem ddfPut (h : ValueInv c me P g) {data : Data count} (hdata : data = c.data) :
    ValueInv c me (P.ddfPut data) g := by
  have hc := h.check .singleAssignment (P.ddf = none)
  refine ⟨fun t ht => ?_, fun v hv => ?_, fun dest e ht => ?_, hc.signals⟩
  · rcases List.mem_append.mp ht with ht | ht
    · obtain ⟨dest, -, rfl⟩ := List.mem_map.mp ht
      trivial
    · exact (hc.tasks t ht).mono (fun _ => Option.some_ne_none data) (fun _ => id) id
  · cases hv
    exact hdata
  · exact (hc.copies dest e ht).mono (fun _ => Option.some_ne_none data) id

theorem advance (h : ValueInv c me P g) {t : CommTask n} {rest : List (CommTask n)}
    (hcomm : P.commTasks = t :: rest) : ValueInv c me (P.advance t rest) g := by
  have hissued (t' : CommTask n) (ht' : Issued P t') : Issued (P.advance t rest) t' := by
    rcases ht' with ht' | ht'
    · rw [hcomm] at ht'
      rcases List.mem_cons.mp ht' with rfl | ht'
      · exact .inr List.mem_cons_self
      · exact .inl ht'
    · exact .inr (List.mem_cons_of_mem t ht')
  refine ⟨fun t' ht' => (h.tasks t' ht').mono id hissued id, h.ddf, fun dest e ht' => ?_, ?_⟩
  · exact h.copies dest e (hcomm ▸ List.mem_cons_of_mem t ht')
  · intro before after dest e hsplit
    change rest = _ at hsplit
    subst hsplit
    rcases h.signals (t :: before) after dest e hcomm with ht' | ht'
    · rcases List.mem_cons.mp ht' with rfl | ht'
      · exact .inr List.mem_cons_self
      · exact .inl ht'
    · exact .inr (List.mem_cons_of_mem t ht')

theorem registerCallback (h : ValueInv c me P g) (l : RegisterPc) :
    ValueInv c me (dddfRegisterCallback c me P l) g := by
  cases l with
  | get =>
      simp only [dddfRegisterCallback]
      split
      · exact h.ready trivial
      · exact h
  | cas =>
      simp only [dddfRegisterCallback]
      split
      · exact h
      · exact h.requested.ready trivial
  | asyncAt =>
      exact (h.requested.check ..).push (fun _ _ heq => by cases heq) fun _ _ heq => by cases heq

theorem put (h : ValueInv c me P g) {l : PutPc} (ht : (Task.put l).Valued c me P g) :
    ValueInv c me (Dddf.ddfPut c me P g l).1 (Dddf.ddfPut c me P g l).2 := by
  cases l with
  | ddfPut => exact (h.ddfPut rfl).ready trivial
  | assertRank => exact (h.check ..).ready trivial
  | setRank => exact (h.setRank _).ready trivial
  | memcpy =>
      have hfilled : Filled c me { g with datum := Function.update g.datum me c.data } :=
        Function.update_self ..
      exact (h.mono fun _ => hfilled).ready hfilled
  | cas =>
      simp only [Dddf.ddfPut]
      split
      · exact h.requested
      · rename_i hhome
        exact h.requested.ready ⟨fun hme => absurd hme hhome, fun _ => ht⟩

theorem putHome (h : ValueInv c me P g) {source : Fin n} {l : PutHomePc count}
    (ht : (Task.putHome source l).Valued c me P g) :
      ValueInv c me (ddfPutHome me P g source l) g := by
  cases l with
  | memcpy => exact h.ready ⟨ht, ht⟩
  | assertRank => exact (h.check ..).ready ht
  | setRank => exact (h.setRank _).ready ht
  | ddfPut => exact h.ddfPut ht.2

theorem putRemote (h : ValueInv c me P g) {dest : Fin n} {l : PutRemotePc}
    (ht : (Task.putRemote dest l).Valued c me P g) :
      ValueInv c me (ddfPutRemote me P dest l) g := by
  cases l with
  | asyncCopy =>
      have hevent : ValueInv c me { P with events := P.events + 1 } g :=
        h.same rfl (List.Subset.refl _) rfl rfl
      refine (hevent.push (fun _ _ _ => ht) fun _ _ heq => by cases heq).ready ?_
      exact .inl (List.mem_append_right _ List.mem_cons_self)
  | asyncAfter e =>
      refine (h.check .otherPlace (dest ≠ me)).push (fun _ _ heq => by cases heq) fun d e' heq => ?_
      cases heq
      rw [Place.check]
      split <;> exact ht

theorem runTask (h : ValueInv c me P g) (hrouted : t.Routed c me P) (ht : t.Valued c me P g) :
    ValueInv c me (runTask c me P g t).1 (runTask c me P g t).2 := by
  cases t with
  | registerCallback l => exact h.registerCallback l
  | put l => exact h.put ht
  | putHome source l => exact h.putHome ht
  | putRemote dest l => exact h.putRemote ht
  | callback dest =>
      simp only [Dddf.runTask, ddfPutCallback]
      split
      · exact h.same rfl (List.Subset.refl _) rfl rfl
      · exact h.ready trivial
  | putBack dest =>
      simp only [Dddf.runTask, putBack]
      split
      · exact h
      · exact h.ready ⟨fun _ => hrouted.2.2, fun hne => absurd hrouted.1 hne⟩

end ValueInv

theorem Sourced.ready (h : Sourced c me P g) (t : Task n count) : Sourced c me (P.ready t) g := by
  intro hddf
  apply (h hddf).imp_right
  intro hpublished
  rw [Place.published, Place.ready, List.any_cons]
  exact Bool.or_eq_true_iff.mpr (.inr hpublished)

theorem filled_runTask {i : Fin n} (h : Filled c i g) (t : Task n count) :
    Filled c i (runTask c me P g t).2 := by
  rcases t with _ | ⟨_ | _ | _ | _ | _⟩ | _ | _ | _ | _
  case put.memcpy =>
    by_cases hi : i = me
    · subst hi
      exact Function.update_self ..
    · exact (Function.update_of_ne hi ..).trans h
  all_goals exact h

/-- What a task puts, its place can copy. -/
theorem sourced_runTask (h : Sourced c me P g) (htask : t ∈ P.tasks) (ht : t.Valued c me P g) :
    Sourced c me (runTask c me (P.take t) g t).1 (runTask c me (P.take t) g t).2 := by
  have hkept (hnot : t.isPublished = false)
      (hddf : (runTask c me (P.take t) g t).1.ddf = P.ddf) :
      Sourced c me (runTask c me (P.take t) g t).1 (runTask c me (P.take t) g t).2 := by
    intro hne
    rw [hddf] at hne
    refine (h hne).imp (fun hfilled => filled_runTask hfilled t) fun hpublished => ?_
    obtain ⟨t', ht', hpub⟩ := List.any_eq_true.mp hpublished
    refine List.any_eq_true.mpr ⟨t', (Extends.runTask c me (P.take t) g t).tasks ?_, hpub⟩
    refine (List.mem_erase_of_ne ?_).mpr ht'
    rintro rfl
    rw [hnot] at hpub
    cases hpub
  rcases t with ⟨_ | _ | _⟩ | ⟨_ | _ | _ | _ | _⟩ | ⟨source, _ | data | data | data⟩ | ⟨dest, _ | e⟩ | dest | dest
  case put.ddfPut | put.assertRank | put.setRank => exact fun _ => .inr rfl
  case put.memcpy => exact fun _ => .inl (Function.update_self ..)
  case putHome.ddfPut => exact fun _ => .inl ht.1
  all_goals
    apply hkept rfl
    simp only [runTask, dddfRegisterCallback, ddfPut, ddfPutHome, ddfPutRemote, ddfPutCallback,
      putBack, Place.check]
    first
    | rfl
    | split <;> rfl

/-- DDF_PUT_home begins only when it comes in. -/
theorem runTask_memcpy {source : Fin n}
    (h : .putHome source .memcpy ∈ (runTask c me P g t).1.tasks) :
      .putHome source .memcpy ∈ P.tasks := by
  rcases t with ⟨_ | _ | _⟩ | ⟨_ | _ | _ | _ | _⟩ | ⟨source, _ | data | data | data⟩ | ⟨dest, _ | e⟩ | dest | dest
  all_goals
    simp only [runTask, dddfRegisterCallback, ddfPut, ddfPutHome, ddfPutRemote, ddfPutCallback,
      putBack, Place.check, Place.ddfPut, Place.ready, Place.push] at h
    revert h
    first
    | split <;> simp
    | simp

def Completed (s : State n count) (q source : Fin n) : Prop :=
  (∃ e, .asyncCopy q e ∈ (s.proc source).sent) ∧ ∀ e, .asyncCopy source q e ∉ s.shared.net

structure NetInv (c : Config n count) (s : State n count) : Prop where
  issued : ∀ i dest e, .asyncCopy i dest e ∈ s.shared.net → Filled c i s.shared
  sentCopy : ∀ i dest e, .asyncCopy i dest e ∈ s.shared.net → .asyncCopy dest e ∈ (s.proc i).sent
  sentSignal : ∀ i dest e, .asyncAfter i dest e ∈ s.shared.net → .asyncCopy dest e ∈ (s.proc i).sent
  landed : ∀ i dest e, .asyncCopy dest e ∈ (s.proc i).sent →
    .asyncCopy i dest e ∈ s.shared.net ∨ Filled c dest s.shared
  completed : ∀ q source, .putHome source .memcpy ∈ (s.proc q).tasks → Completed s q source

structure Valid (c : Config n count) (s : State n count) : Prop where
  places : ∀ i, ValueInv c i (s.proc i) s.shared
  sourced : ∀ i, Sourced c i (s.proc i) s.shared
  net : NetInv c s

/-- A place copies once to another one. -/
theorem copy_unique (hs : Reachable (dddf c) s) {i q : Fin n} {t t' : CommTask n}
    (ht : t ∈ (s.proc i).sent) (ht' : t' ∈ (s.proc i).sent) (hq : t.copies q = true)
    (hq' : t'.copies q = true) : t = t' := by
  have hle := copies_le_one hs i q
  rw [Place.copies, List.countP_eq_length_filter, List.countP_eq_length_filter] at hle
  have hmem := List.mem_filter.mpr ⟨ht, hq⟩
  have hmem' := List.mem_filter.mpr ⟨ht', hq'⟩
  cases hfilter : (s.proc i).sent.filter (·.copies q) with
  | nil =>
      rw [hfilter] at hmem
      cases hmem
  | cons x xs =>
      rw [hfilter, List.length_cons] at hle
      have hnil : xs = [] := List.length_eq_zero_iff.mp (by omega)
      rw [hfilter, hnil, List.mem_singleton] at hmem hmem'
      rw [hmem, hmem']

section Step

variable {a : Act n count}

theorem NetInv.local (h : NetInv c s) (hnet : g'.net = s.shared.net)
    (hfilled : ∀ j, Filled c j s.shared → Filled c j g') (hsent : P'.sent = (s.proc me).sent)
    (hmemcpy : ∀ source, .putHome source .memcpy ∈ P'.tasks →
      .putHome source .memcpy ∈ (s.proc me).tasks ∨ Completed s me source) :
    NetInv c (s.set me (P', g')) := by
  have hsent' (i : Fin n) : ((s.set me (P', g')).proc i).sent = (s.proc i).sent := by
    by_cases hi : i = me
    · subst hi
      rw [set_proc_self, hsent]
    · rw [set_proc_of_ne s (P', g') hi]
  constructor
  · simp only [set_shared, hnet]
    exact fun i dest e hm => hfilled i (h.issued i dest e hm)
  · simp only [set_shared, hnet, hsent']
    exact h.sentCopy
  · simp only [set_shared, hnet, hsent']
    exact h.sentSignal
  · simp only [set_shared, hnet, hsent']
    exact fun i dest e ht => (h.landed i dest e ht).imp_right (hfilled dest)
  · intro q source ht
    rw [Completed, set_shared, hnet, hsent']
    by_cases hq : q = me
    · subst hq
      rw [set_proc_self] at ht
      exact (hmemcpy source ht).elim (h.completed q source) id
    · rw [set_proc_of_ne s (P', g') hq] at ht
      exact h.completed q source ht

theorem NetInv.erase (h : NetInv c s) {m : Msg n} (hm : ∀ i dest e, .asyncCopy i dest e ≠ m) :
    NetInv c ⟨s.proc, { s.shared with net := s.shared.net.erase m }⟩ := by
  constructor
  · exact fun i dest e hm' => h.issued i dest e (List.mem_of_mem_erase hm')
  · exact fun i dest e hm' => h.sentCopy i dest e (List.mem_of_mem_erase hm')
  · exact fun i dest e hm' => h.sentSignal i dest e (List.mem_of_mem_erase hm')
  · exact fun i dest e ht => (h.landed i dest e ht).imp_left (List.mem_erase_of_ne (hm i dest e)).mpr
  · intro q source ht
    obtain ⟨hsent, hnone⟩ := h.completed q source ht
    exact ⟨hsent, fun e hm' => hnone e (List.mem_of_mem_erase hm')⟩

theorem NetInv.comm (hs' : Reachable (dddf c) (s.set me (P', g'))) (h : Valid c s) {t : CommTask n}
    {rest : List (CommTask n)} (hcomm : (s.proc me).commTasks = t :: rest)
    (hsafe : ∀ dest e, t = .asyncCopy dest e → Filled c me s.shared)
    (hP : P' = (s.proc me).advance t rest)
    (hg : g' = { s.shared with net := t.send me :: s.shared.net }) :
    NetInv c (s.set me (P', g')) := by
  subst hP hg
  have hsent (i : Fin n) (t' : CommTask n) :
      t' ∈ ((s.set me ((s.proc me).advance t rest,
        { s.shared with net := t.send me :: s.shared.net })).proc i).sent ↔
        i = me ∧ t' = t ∨ t' ∈ (s.proc i).sent := by
    by_cases hi : i = me
    · subst hi
      simp [Place.advance]
    · simp [set_proc_of_ne, hi]
  have htasks (i : Fin n) : ((s.set me ((s.proc me).advance t rest,
        { s.shared with net := t.send me :: s.shared.net })).proc i).tasks = (s.proc i).tasks := by
    by_cases hi : i = me
    · subst hi
      simp [Place.advance]
    · simp [set_proc_of_ne, hi]
  constructor
  · intro i dest e hm
    rcases List.mem_cons.mp hm with heq | hm
    · cases t with
      | asyncCopy d e' =>
          cases heq
          exact hsafe dest e rfl
      | _ => cases heq
    · exact h.net.issued i dest e hm
  · intro i dest e hm
    rw [hsent]
    rcases List.mem_cons.mp hm with heq | hm
    · cases t with
      | asyncCopy d e' =>
          cases heq
          exact .inl ⟨rfl, rfl⟩
      | _ => cases heq
    · exact .inr (h.net.sentCopy i dest e hm)
  · intro i dest e hm
    rw [hsent]
    rcases List.mem_cons.mp hm with heq | hm
    · cases t with
      | asyncAfter d e' =>
          cases heq
          refine .inr (((h.places me).signals [] rest dest e hcomm).resolve_left ?_)
          exact List.not_mem_nil
      | _ => cases heq
    · exact .inr (h.net.sentSignal i dest e hm)
  · intro i dest e ht
    rcases (hsent i _).mp ht with ⟨rfl, rfl⟩ | ht
    · exact .inl List.mem_cons_self
    · exact (h.net.landed i dest e ht).imp_left (List.mem_cons_of_mem _)
  · intro q source ht
    rw [htasks] at ht
    obtain ⟨⟨e, he⟩, hnone⟩ := h.net.completed q source ht
    refine ⟨⟨e, (hsent source _).mpr (.inr he)⟩, fun e' hm => ?_⟩
    rcases List.mem_cons.mp hm with heq | hm
    · cases t with
      | asyncCopy d e'' =>
          -- the place would copy to q for the second time
          cases heq
          have hle := copies_le_one hs' me q
          have hpos : 0 < (s.proc me).sent.countP (CommTask.copies q) :=
            List.countP_pos_iff.mpr ⟨_, he, decide_eq_true rfl⟩
          have hnew : CommTask.copies q (.asyncCopy q e') = true := decide_eq_true rfl
          rw [set_proc_self, Place.copies, Place.advance, List.countP_cons_of_pos hnew] at hle
          omega
      | _ => cases heq
    · exact hnone e' hm

theorem completed_asyncAfter (hs : Reachable (dddf c) s) (h : NetInv c s) {source : Fin n} {e : Nat}
    (hm : .asyncAfter source me e ∈ s.shared.net)
    (hdone : ∀ d, .asyncCopy source d e ∉ s.shared.net) :
    Completed s me source := by
  have hsent := h.sentSignal source me e hm
  refine ⟨⟨e, hsent⟩, fun e' hm' => ?_⟩
  have heq := copy_unique hs hsent (h.sentCopy source me e' hm') (decide_eq_true rfl)
    (decide_eq_true rfl)
  cases heq
  exact hdone me hm'

/-- A segment that is filled can be copied over another one. -/
theorem filled_complete {dest j : Fin n} (hme : Filled c me g)
    (hdatum : g'.datum = Function.update g.datum dest (g.datum me)) (hj : j = dest ∨ Filled c j g) :
    Filled c j g' := by
  rw [Filled, hdatum]
  by_cases hjd : j = dest
  · subst hjd
    exact (Function.update_self ..).trans hme
  · exact (Function.update_of_ne hjd ..).trans (hj.resolve_left hjd)

theorem NetInv.complete (h : NetInv c s) {dest : Fin n} {e : Nat}
    (hm : .asyncCopy me dest e ∈ s.shared.net)
    (hg : g' = ⟨Function.update s.shared.datum dest (s.shared.datum me),
      s.shared.net.erase (.asyncCopy me dest e)⟩) : NetInv c ⟨s.proc, g'⟩ := by
  have hfilled (j : Fin n) (hj : j = dest ∨ Filled c j s.shared) : Filled c j g' :=
    filled_complete (h.issued me dest e hm) (by rw [hg]) hj
  have hmem {m : Msg n} (hm' : m ∈ g'.net) : m ∈ s.shared.net := by
    subst hg
    exact List.mem_of_mem_erase hm'
  constructor
  · exact fun i d e' hm' => hfilled i (.inr (h.issued i d e' (hmem hm')))
  · exact fun i d e' hm' => h.sentCopy i d e' (hmem hm')
  · exact fun i d e' hm' => h.sentSignal i d e' (hmem hm')
  · intro i d e' ht
    rcases h.landed i d e' ht with hm' | hd
    · by_cases heq : Msg.asyncCopy i d e' = .asyncCopy me dest e
      · cases heq
        exact .inr (hfilled dest (.inl rfl))
      · subst hg
        exact .inl ((List.mem_erase_of_ne heq).mpr hm')
    · exact .inr (hfilled d (.inr hd))
  · intro q source ht
    obtain ⟨hsent, hnone⟩ := h.completed q source ht
    exact ⟨hsent, fun e' hm' => hnone e' (hmem hm')⟩

end Step

/-- A place other than the home copies what it has; at the home the local put
may come before. -/
theorem filled_comm (h : Valid c s) {dest : Fin n} {e : Nat} {rest : List (CommTask n)}
    (hcomm : (s.proc me).commTasks = .asyncCopy dest e :: rest) (hsafe : Safe c s me .comm) :
    Filled c me s.shared := by
  rcases hsafe with hordered | hfilled
  · have hready := (h.places me).copies dest e (hcomm ▸ List.mem_cons_self)
    by_cases hme : me = c.home
    · rcases h.sourced me (hready.1 hme) with hfilled | hpublished
      · exact hfilled
      · simp [ordered, hcomm, hpublished] at hordered
    · exact hready.2 hme
  · exact hfilled

theorem valid_step {a : Act n count} (hs : Reachable (dddf c) s) (h : Valid c s)
    (hsafe : Safe c s me a)
    (ha : act c me a (s.proc me) s.shared = some (P', g')) : Valid c (s.set me (P', g')) := by
  have hs' : Reachable (dddf c) (s.set me (P', g')) :=
    .next hs trivial (next_eq_some.mpr ⟨P', g', ha, rfl⟩)
  have hplace := h.places me
  have hsourced := h.sourced me
  have hof (hfilled : ∀ j, Filled c j s.shared → Filled c j g') (hself : ValueInv c me P' g')
      (hsource : Sourced c me P' g') (hnet : NetInv c (s.set me (P', g'))) :
      Valid c (s.set me (P', g')) := by
    refine ⟨forall_set (Q := fun j P => ValueInv c j P g') hself fun j _ => ?_,
      forall_set (Q := fun j P => Sourced c j P g') hsource fun j _ => ?_, hnet⟩
    · exact (h.places j).mono (hfilled j)
    · exact fun hddf => (h.sourced j hddf).imp_left (hfilled j)
  cases act_step ha with
  | put | await =>
      refine hof (fun _ => id)
        (ValueInv.ready (hplace.same rfl (List.Subset.refl _) rfl rfl) trivial)
        (Sourced.ready hsourced _) (h.net.local rfl (fun _ => id) rfl fun source ht => ?_)
      exact .inl ((List.mem_cons.mp ht).resolve_left (by simp))
  | awaitHome =>
      exact hof (fun _ => id) (hplace.same rfl (List.Subset.refl _) rfl rfl) hsourced
        (h.net.local rfl (fun _ => id) rfl fun _ ht => .inl ht)
  | @run t ht =>
      have hrouted : t.Routed c me ((s.proc me).take t) :=
        (((routed_reachable hs).1 me).tasks t ht).mono id id id
      have hvalued : t.Valued c me ((s.proc me).take t) s.shared :=
        (hplace.tasks t ht).mono id (fun _ => id) id
      have htake : ValueInv c me ((s.proc me).take t) s.shared :=
        hplace.same rfl (fun _ => List.mem_of_mem_erase) rfl rfl
      refine hof (fun _ hj => filled_runTask hj t) (htake.runTask hrouted hvalued)
        (sourced_runTask hsourced ht (hplace.tasks t ht)) (h.net.local (runTask_net t)
          (fun _ hj => filled_runTask hj t)
            (Extends.runTask c me _ s.shared t).sent fun source hmem => ?_)
      exact .inl (List.mem_of_mem_erase (runTask_memcpy hmem))
  | @comm t rest hcomm =>
      refine hof (fun _ => id) ((hplace.advance hcomm).mono id) hsourced
        (NetInv.comm hs' h hcomm (fun dest e heq => ?_) rfl rfl)
      subst heq
      exact filled_comm h hcomm hsafe
  | @asyncAt source =>
      refine hof (fun _ => id) ((ValueInv.ready (t := .callback _) hplace trivial).mono id)
        (Sourced.ready hsourced _) ?_
      have hready : NetInv c (s.set me ((s.proc me).ready (.callback source), s.shared)) := by
        refine h.net.local rfl (fun _ => id) rfl fun source ht => ?_
        exact .inl ((List.mem_cons.mp ht).resolve_left (by simp))
      exact hready.erase fun _ _ _ heq => by cases heq
  | @asyncAfter source e hm hdone =>
      have hfilled := (h.net.landed source me e (h.net.sentSignal source me e hm)).resolve_left (hdone me)
      refine hof (fun _ => id)
        ((ValueInv.ready (t := .putHome source .memcpy) hplace hfilled).mono id)
        (Sourced.ready hsourced _) ?_
      have hready : NetInv c (s.set me ((s.proc me).ready (.putHome source .memcpy),
          s.shared)) := by
        refine h.net.local rfl (fun _ => id) rfl fun d ht => ?_
        rcases List.mem_cons.mp ht with heq | ht
        · cases heq
          exact .inr (completed_asyncAfter hs h.net hm hdone)
        · exact .inl ht
      exact hready.erase fun _ _ _ heq => by cases heq
  | @complete dest e hm =>
      have hfilled (j : Fin n) (hj : Filled c j s.shared) :
          Filled c j ⟨Function.update s.shared.datum dest (s.shared.datum me), []⟩ :=
        filled_complete (h.net.issued me dest e hm) rfl (.inr hj)
      refine hof hfilled (hplace.mono (hfilled me))
        (fun hddf => (hsourced hddf).imp_left (hfilled me)) ?_
      have hnet := h.net.complete hm rfl
      simpa [Global.set] using hnet

theorem valid_reachable (hs : ReachableWhen (dddf c) (Safe c) s) : Valid c s := by
  refine hs.invariant (I := Valid c) ⟨fun i => ?_, fun i => ?_, ?_⟩ ?_
  · constructor <;> simp [dddf, Place.init]
  · exact fun hddf => absurd rfl hddf
  · constructor <;> simp [dddf, Place.init]
  · intro s i a P' g' hs hsafe h ha
    exact valid_step hs.reachable h hsafe ha

end HabaneroUpc.Dddf
