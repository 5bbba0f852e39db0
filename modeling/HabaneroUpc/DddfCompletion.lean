import HabaneroUpc.DddfPrograms

namespace HabaneroUpc.DddfPrograms

open Interleaving Tally
open Dataflow (Stmt Program)

variable {n : Nat} {T K V : Type*} {cd : Coding n K V} {pr : Program (Fin n) T K V} {s : State T cd}
  {i me : Fin n} {P P' : Place T cd} {g g' : Segments cd} {k : K} {t : T} {v : V}

section Cost

def stmtCells (pr : Program (Fin n) T K V) : Stmt T K V → List K
  | .put k _ => [k]
  | .await t => pr.needs t ++ pr.outs t

def stmtCost (pr : Program (Fin n) T K V) : Stmt T K V → Nat
  | .put _ _ => 15
  | .await t => 18 * (pr.needs t).length + 15 * (pr.outs t).length + 2

variable [DecidableEq K]

def programCells (pr : Program (Fin n) T K V) : Finset K :=
  Finset.univ.biUnion fun i => ((pr.main i).flatMap (stmtCells pr)).toFinset

def Place.cost (pr : Program (Fin n) T K V) (P : Place T cd) : Nat :=
  (P.main.map (stmtCost pr)).sum + (P.waiting.map fun t => 15 * (pr.outs t).length + 1).sum +
    (P.running.map fun r => 15 * r.length).sum + ∑ k ∈ programCells pr, (P.handles k).cost

def segmentsCost (pr : Program (Fin n) T K V) (g : Segments cd) : Nat :=
  ∑ k ∈ programCells pr, (g k).cost

theorem mem_programCells {stmt : Stmt T K V} (hstmt : stmt ∈ pr.main i) (hk : k ∈ stmtCells pr stmt) :
    k ∈ programCells pr :=
  Finset.mem_biUnion.mpr ⟨i, Finset.mem_univ i,
    List.mem_toFinset.mpr (List.mem_flatMap.mpr ⟨stmt, hstmt, hk⟩)⟩

theorem sum_update_le (S : Finset K) (h : (k : K) → Dddf.Place n (cd.count k))
    {x : Dddf.Place n (cd.count k)} {d : Nat} (hle : x.cost ≤ (h k).cost + d) :
    ∑ k' ∈ S, (Function.update h k x k').cost ≤ ∑ k' ∈ S, (h k').cost + d := by
  by_cases hk : k ∈ S
  · have hsum := sum_update_of_mem (fun _ => Dddf.Place.cost) h x hk
    omega
  · have hsame : ∑ k' ∈ S, (Function.update h k x k').cost = ∑ k' ∈ S, (h k').cost := by
      apply Finset.sum_congr rfl
      intro k' hk'
      rw [Function.update_of_ne (ne_of_mem_of_not_mem hk' hk)]
    omega

theorem cost_put_le (k : K) (v : V) : (P.put pr me k v).cost pr ≤ P.cost pr + 14 := by
  unfold Place.put
  split
  · have hsum := sum_update_le (programCells pr) P.handles (k := k)
      (Dddf.cost_beginPut_le (P.handles k) (cd.encode k v))
    simp only [Place.cost]
    omega
  · exact Nat.le_add_right _ _

theorem cost_await_le (ht : .await t ∈ pr.main i) :
    (P.await pr me t).cost pr ≤
      P.cost pr + 18 * (pr.needs t).length + 15 * (pr.outs t).length + 1 := by
  have hterm (k : K) := (Dddf.registered_iterate (P.handles k) (pr.home k) me ((pr.needs t).count k)).cost
  have hcount : ∑ k ∈ programCells pr, (pr.needs t).count k = (pr.needs t).length := by
    have hcard := Multiset.sum_count_eq_card (s := programCells pr) (m := (pr.needs t : Multiset K))
      fun k hk => mem_programCells ht (List.mem_append_left _ (Multiset.mem_coe.mp hk))
    simpa only [Multiset.coe_count, Multiset.coe_card] using hcard
  have hsum : ∑ k ∈ programCells pr,
      ((Dddf.Place.beginAwait (pr.home k) me)^[(pr.needs t).count k] (P.handles k)).cost ≤
        ∑ k ∈ programCells pr, (P.handles k).cost + 18 * (pr.needs t).length := by
    rw [← hcount, Finset.mul_sum, ← Finset.sum_add_distrib]
    exact Finset.sum_le_sum fun k _ => hterm k
  rw [await_eq]
  simp only [Place.cost, Multiset.map_cons, Multiset.sum_cons]
  omega

variable [DecidableEq T] [DecidableEq V]

theorem cost_step {a : Act T cd} (hP : PlaceInv pr me P) (hstep : Step pr me P g a P' g')
    (hcells : ∀ k b, a = .handle k b → k ∈ programCells pr) :
    P'.cost pr + segmentsCost pr g' < P.cost pr + segmentsCost pr g := by
  cases hstep with
  | @mainPut k v rest hmain =>
      have hle : (Place.put pr me { P with main := rest } k v).cost pr ≤ _ := cost_put_le k v
      have hrest : Place.cost pr { P with main := rest } + 15 = P.cost pr := by
        simp only [Place.cost, hmain, List.map_cons, List.sum_cons, stmtCost]
        omega
      omega
  | @mainAwait t rest hmain =>
      have hmem : .await t ∈ pr.main me := hP.main.subset (hmain ▸ List.mem_cons_self)
      have hle : (Place.await pr me { P with main := rest } t).cost pr ≤ _ := cost_await_le hmem
      have hrest : Place.cost pr { P with main := rest } + (18 * (pr.needs t).length +
          15 * (pr.outs t).length + 2) = P.cost pr := by
        simp only [Place.cost, hmain, List.map_cons, List.sum_cons, stmtCost]
        omega
      omega
  | @start t ht hneeds =>
      have hlen : (pr.puts t P.cells).length = (pr.outs t).length := by
        rw [← pr.puts_outs t P.cells, List.length_map]
      have herase := Multiset.sum_map_erase (f := fun t => 15 * (pr.outs t).length + 1) ht
      simp only [Place.cost, Multiset.map_cons, Multiset.sum_cons, hlen]
      omega
  | @put k v rest hr =>
      have hle : (Place.put pr me
          { P with running := rest ::ₘ P.running.erase ((k, v) :: rest) } k v).cost pr ≤ _ :=
        cost_put_le k v
      have herase := Multiset.sum_map_erase (f := fun r : List (K × V) => 15 * r.length) hr
      have hrest : Place.cost pr { P with running := rest ::ₘ P.running.erase ((k, v) :: rest) } + 15 =
          P.cost pr := by
        simp only [Place.cost, Multiset.map_cons, Multiset.sum_cons]
        rw [List.length_cons] at herase
        omega
      omega
  | @handle k a h gk hinternal ha =>
      have hk := hcells k a rfl
      have hlt := Dddf.cost_act hinternal ha
      have hhandles : ∑ k' ∈ programCells pr, (Function.update P.handles k h k').cost + (P.handles k).cost =
          ∑ k' ∈ programCells pr, (P.handles k').cost + h.cost :=
        sum_update_of_mem (fun _ => Dddf.Place.cost) P.handles h hk
      have hsegments : ∑ k' ∈ programCells pr, (Function.update g k gk k').cost + (g k).cost =
          ∑ k' ∈ programCells pr, (g k').cost + gk.cost :=
        sum_update_of_mem (fun _ => Dddf.Shared.cost) g gk hk
      simp only [Place.cost, segmentsCost]
      omega

def cost (pr : Program (Fin n) T K V) (s : State T cd) : Nat :=
  total (fun _ P => P.cost pr) s.proc + segmentsCost pr s.shared

end Cost

section Completion

variable [DecidableEq T] [DecidableEq K] [DecidableEq V] {val : K → V} {rank : T → Nat}

theorem Linked.called_mem (hpr : Dataflow.Valued pr val) (hI : Linked pr cd val s)
    (hplaces : ∀ j, PlaceInv pr j (s.proc j))
    (hcalled : ((s.proc i).handles k).putCalled = true ∨ ((s.proc i).handles k).awaited = true) :
    k ∈ programCells pr := by
  rcases hcalled with hcalled | hawaited
  · have hview := (Dataflow.inv_reachable hpr hI.sees).1 i
    have hmem : k ∈ ((view pr s).proc i).assigned := ((hplaces i).assigned k).mpr hcalled
    have hkey := hview.mem_due.mp (Multiset.mem_of_le (Dataflow.assigned_le_due _ _) hmem)
    obtain ⟨stmt, hstmt, hk⟩ := List.mem_flatMap.mp hkey
    apply mem_programCells hstmt
    cases stmt with
    | put => exact hk
    | await t => exact List.mem_append_right _ hk
  · obtain ⟨t, ht, hk⟩ := (hplaces i).asked k hawaited
    exact mem_programCells ht (List.mem_append_left _ hk)

theorem Linked.handle_mem (hpr : Dataflow.Valued pr val) (hI : Linked pr cd val s)
    (hplaces : ∀ j, PlaceInv pr j (s.proc j)) {c : Dddf.Config n (cd.count k)}
    {a : Dddf.Act n (cd.count k)} {r : Dddf.Place n (cd.count k) × Dddf.Shared n (cd.count k)}
    (hinternal : a.internal = true)
    (ha : Dddf.act c i a ((s.proc i).handles k) (s.shared k) = some r) : k ∈ programCells pr := by
  by_contra hnot
  have hinit := Dddf.init_of_uncalled (hI.handles k).reachable fun j => by
    constructor
    · exact Bool.eq_false_iff.mpr fun hcalled => hnot (hI.called_mem hpr hplaces (.inl hcalled))
    · exact Bool.eq_false_iff.mpr fun hawaited => hnot (hI.called_mem hpr hplaces (.inr hawaited))
  have hproc : (s.proc i).handles k = .init := congrFun (congrArg Global.proc hinit) i
  have hnet : (s.shared k).net = [] := congrArg (fun s => s.shared.net) hinit
  rw [hproc] at ha
  cases a <;> simp [Dddf.act, Dddf.Act.internal, Dddf.Place.init, hnet] at ha hinternal

theorem cost_next (hpr : Dataflow.Valued pr val) (hcd : cd.Exact pr val) {s' : State T cd} {a : Act T cd}
    (hs : ReachableWhen (runtime pr cd) (fun s i a => ordered s i a = true) s)
    (hnext : (runtime pr cd).next s i a = some s') : cost pr s' < cost pr s := by
  obtain ⟨P', g', ha, rfl⟩ := next_eq_some.mp hnext
  have hI := linked_reachable hpr hcd hs
  have hplaces := placeInv_reachable hs.reachable
  have hstep : Step pr i (s.proc i) s.shared a P' g' := act_step ha
  have hlt := cost_step (hplaces i) hstep fun k b hb => by
    subst hb
    cases hstep with
    | handle hinternal hb => exact hI.handle_mem hpr hplaces hinternal hb
  have htotal := total_update (fun _ (P : Place T cd) => P.cost pr) s.proc i P'
  simp only [cost, Global.set]
  omega

/-- What is asked for at a place where no step is left has come. -/
theorem Linked.delivered (hI : Linked pr cd val s) (hplaces : ∀ j, PlaceInv pr j (s.proc j))
    (hstuck : ∀ i a, ordered s i a = true → (runtime pr cd).next s i a = none)
    (hput : ((s.proc (pr.home k)).handles k).putCalled = true)
    (hawaited : ((s.proc i).handles k).awaited = true) : (s.proc i).cells k ≠ none := by
  have hquiet : Dddf.Quiet (slice k s) := by
    apply Dddf.quiet_of_stuck (c := cd.config pr k (cd.encode k (val k)))
    intro j a hinternal hordered
    have hnone := hstuck j (.handle k a) hordered
    by_contra hsome
    obtain ⟨⟨h, gk⟩, hact⟩ := Option.ne_none_iff_exists'.mp hsome
    have hown : Dddf.act (cd.config pr k (((s.proc j).handles k).ddf.getD (cd.datum k j))) j a
        ((s.proc j).handles k) (s.shared k) = some (h, gk) :=
      Dddf.act_config (c := cd.config pr k (cd.encode k (val k))) rfl (fun _ => id) (fun _ => id)
        (fun l _ hl => hI.datum_eq (hplaces j) hl) hact
    have hrun : act pr cd j (.handle k a) (s.proc j) s.shared = some
        ({ s.proc j with handles := Function.update (s.proc j).handles k h },
          Function.update s.shared k gk) := by
      rw [act, if_pos hinternal, hown]
      rfl
    rw [next_eq_some.mpr ⟨_, _, hrun, rfl⟩] at hnone
    cases hnone
  have hddf := Dddf.awaited_satisfied (q := i) (hI.handles k).reachable hquiet hput hawaited
  exact fun hnone => hddf (Option.map_eq_none_iff.mp hnone)

/-- A program that can do no further step, without copies ahead of their data,
is complete. -/
theorem complete_of_stuck (hpr : Dataflow.Valued pr val) (hcd : cd.Exact pr val)
    (hrank : Dataflow.Ranked pr rank)
    (hs : ReachableWhen (runtime pr cd) (fun s i a => ordered s i a = true) s)
    (hstuck : ∀ i a, ordered s i a = true → (runtime pr cd).next s i a = none) (i : Fin n) :
    (s.proc i).view.complete := by
  have hI := linked_reachable hpr hcd hs
  have hplaces := placeInv_reachable hs.reachable
  have hact (i : Fin n) (a : Act T cd) (hordered : ordered s i a = true) :
      act pr cd i a (s.proc i) s.shared = none := Option.map_eq_none_iff.mp (hstuck i a hordered)
  refine Dataflow.complete_of_stuck hpr hrank hI.sees (fun i a => Option.map_eq_none_iff.mpr ?_) i
  cases a with
  | main =>
      have hnone := hact i .main rfl
      cases hmain : (s.proc i).main with
      | nil => simp [Dataflow.system, Dataflow.act, view, Place.view, hmain]
      | cons stmt rest => cases stmt <;> simp [act, hmain] at hnone
  | start t =>
      by_contra hsome
      have hready : t ∈ (s.proc i).waiting ∧ ∀ k ∈ pr.needs t, (s.proc i).cells k ≠ none := by
        by_contra hready
        exact hsome (if_neg hready)
      have hnone := hact i (.start t) rfl
      rw [act, if_pos hready] at hnone
      cases hnone
  | put r =>
      cases r with
      | nil => rfl
      | cons kv rest =>
          by_contra hsome
          have hr : kv :: rest ∈ (s.proc i).running := by
            by_contra hr
            exact hsome (if_neg hr)
          have hnone := hact i (.put (kv :: rest)) rfl
          rw [act, if_pos hr] at hnone
          cases hnone
  | deliver k =>
      by_contra hsome
      have hawaits : (s.proc i).view.awaits pr k := by
        by_contra hawaits
        exact hsome (if_neg hawaits)
      have hshared : (view pr s).shared k ≠ none := by
        intro hshared
        apply hsome
        change Dataflow.act pr i (.deliver k) ((view pr s).proc i) (view pr s).shared = none
        rw [Dataflow.act, hshared]
        exact ite_self _
      obtain ⟨hnone, t, ht, hk⟩ := hawaits
      -- the home has put the value
      have hassigned : k ∈ (s.proc (pr.home k)).assigned :=
        (((Dataflow.inv_reachable hpr hI.sees).1 (pr.home k)).assigned k rfl).mpr hshared
      exact hI.delivered hplaces hstuck (((hplaces _).assigned k).mp hassigned)
        ((hplaces i).registered t ht k hk) hnone

/-- The protocol does not keep a program from its end: the steps of a run that
holds the copies back are bounded, and it goes on until all tasks have run. -/
theorem program_runs (hpr : Dataflow.Valued pr val) (hcd : cd.Exact pr val)
    (hrank : Dataflow.Ranked pr rank)
    (hs : ReachableWhen (runtime pr cd) (fun s i a => ordered s i a = true) s) :
    (∀ acts, (runtime pr cd).meets ordered s acts = true → acts.length ≤ cost pr s) ∧
      ∃ acts s', (runtime pr cd).meets ordered s acts = true ∧ (runtime pr cd).run s acts = some s' ∧
        ∀ i, (s'.proc i).view.complete := by
  have hlt (s s' : State T cd) (i : Fin n) (a : Act T cd)
      (hs : ReachableWhen (runtime pr cd) (fun s i a => ordered s i a = true) s)
      (hnext : (runtime pr cd).next s i a = some s') : cost pr s' < cost pr s :=
    cost_next hpr hcd hs hnext
  constructor
  · intro acts hmeets
    exact meets_length_le (fun s i a s' hs _ hnext => hlt s s' i a hs hnext) hs hmeets
  · have hgo (s : State T cd) (hs : ReachableWhen (runtime pr cd) (fun s i a => ordered s i a = true) s)
        (hnot : ¬∀ i, (s.proc i).view.complete) :
        ∃ i a, ordered s i a = true ∧ (runtime pr cd).next s i a ≠ none := by
      by_contra hstuck
      apply hnot
      apply complete_of_stuck hpr hcd hrank hs
      intro i a hordered
      by_contra hsome
      exact hstuck ⟨i, a, hordered, hsome⟩
    obtain ⟨acts, s', hmeets, hrun, -, hend⟩ :=
      meets_to_goal (fun s i a s' hs _ hnext => hlt s s' i a hs hnext) hgo hs
    exact ⟨acts, s', hmeets, hrun, hend⟩

end Completion

end HabaneroUpc.DddfPrograms
