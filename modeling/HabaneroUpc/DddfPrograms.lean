import HabaneroUpc.DddfProgress
import HabaneroUpc.Lib.Dataflow

namespace HabaneroUpc.DddfPrograms

open Interleaving
open Dataflow (Stmt Program)

variable {n : Nat} {T K V : Type*}

structure Coding (n : Nat) (K V : Type*) where
  count : K → Nat
  encode : (k : K) → V → Dddf.Data (count k)
  decode : (k : K) → Dddf.Data (count k) → V
  datum : (k : K) → Fin n → Dddf.Data (count k)

def Coding.config (cd : Coding n K V) (pr : Program (Fin n) T K V) (k : K)
    (data : Dddf.Data (cd.count k)) : Dddf.Config n (cd.count k) where
  home := pr.home k
  initiator := pr.home k
  data := data
  awaits _ := true
  datum := cd.datum k

structure Place (T : Type*) (cd : Coding n K V) where
  main : List (Stmt T K V)
  handles : (k : K) → Dddf.Place n (cd.count k)
  waiting : Multiset T
  running : Multiset (List (K × V))
  assigned : Multiset K
  failed : Bool

abbrev Segments (cd : Coding n K V) := (k : K) → Dddf.Shared n (cd.count k)

inductive Act (T : Type*) (cd : Coding n K V)
  | main
  | start (t : T)
  | put (r : List (K × V))
  | handle (k : K) (a : Dddf.Act n (cd.count k))

variable {cd : Coding n K V}

def Place.cells (P : Place T cd) (k : K) : Option V := (P.handles k).ddf.map (cd.decode k)

section

variable [DecidableEq T] [DecidableEq K] [DecidableEq V]

def Place.put (pr : Program (Fin n) T K V) (me : Fin n) (P : Place T cd) (k : K) (v : V) : Place T cd :=
  if (P.handles k).putCalled = false ∧ pr.home k = me then
    { P with
      handles := Function.update P.handles k ((P.handles k).beginPut (cd.encode k v))
      assigned := k ::ₘ P.assigned }
  else { P with failed := true }

def Place.register (pr : Program (Fin n) T K V) (me : Fin n) (P : Place T cd) (k : K) : Place T cd :=
  { P with handles := Function.update P.handles k ((P.handles k).beginAwait (pr.home k) me) }

def Place.await (pr : Program (Fin n) T K V) (me : Fin n) (P : Place T cd) (t : T) : Place T cd :=
  (pr.needs t).foldl (Place.register pr me) { P with waiting := t ::ₘ P.waiting }

/-- The bytes that DDF_PUT copies are those of its local put. -/
def act (pr : Program (Fin n) T K V) (cd : Coding n K V) (me : Fin n) (a : Act T cd) (P : Place T cd)
    (g : Segments cd) : Option (Place T cd × Segments cd) :=
  match a with
  | .main => match P.main with
    | [] => none
    | .put k v :: rest => some ({ P with main := rest }.put pr me k v, g)
    | .await t :: rest => some ({ P with main := rest }.await pr me t, g)
  | .start t =>
      if t ∈ P.waiting ∧ ∀ k ∈ pr.needs t, P.cells k ≠ none then
        some ({ P with
          waiting := P.waiting.erase t
          running := pr.puts t P.cells ::ₘ P.running }, g)
      else none
  | .put r => match r with
    | [] => none
    | (k, v) :: rest =>
        if (k, v) :: rest ∈ P.running then
          some ({ P with running := rest ::ₘ P.running.erase ((k, v) :: rest) }.put pr me k v, g)
        else none
  | .handle k a =>
      if a.internal = true then
        (Dddf.act (cd.config pr k ((P.handles k).ddf.getD (cd.datum k me))) me a (P.handles k) (g k)).map
          fun r => ({ P with handles := Function.update P.handles k r.1 }, Function.update g k r.2)
      else none

/-- The runs of a dataflow program on the protocol of the DDDFs. Each handle has
communication tasks of its own, which allows more orders than the one deque. -/
def runtime (pr : Program (Fin n) T K V) (cd : Coding n K V) :
    System (Fin n) (Act T cd) (Place T cd) (Segments cd) where
  init := {
    proc := fun i => {
      main := pr.main i
      handles := fun _ => .init
      waiting := 0
      running := 0
      assigned := 0
      failed := false }
    shared := fun k => ⟨cd.datum k, []⟩ }
  act := act pr cd

end

abbrev State (T : Type*) (cd : Coding n K V) := Global (Fin n) (Place T cd) (Segments cd)

def slice (k : K) (s : State T cd) : Dddf.State n (cd.count k) :=
  ⟨fun i => (s.proc i).handles k, s.shared k⟩

/-- The places issue no copy of a handle between the local put and the copy to
the segment of its DDF_PUT. -/
def ordered (s : State T cd) (i : Fin n) : Act T cd → Bool
  | .handle k a => Dddf.ordered (slice k s) i a
  | _ => true

def Place.view (P : Place T cd) : Dataflow.Place T K V :=
  ⟨P.main, P.cells, P.waiting, P.running, P.assigned, P.failed⟩

def view (pr : Program (Fin n) T K V) (s : State T cd) :
    Global (Fin n) (Dataflow.Place T K V) (K → Option V) :=
  ⟨fun i => (s.proc i).view, fun k => (s.proc (pr.home k)).cells k⟩

variable {pr : Program (Fin n) T K V} {s : State T cd} {i me : Fin n} {P P' : Place T cd}
  {g g' : Segments cd} {k : K} {t : T} {v : V}

theorem slice_set (s : State T cd) (i : Fin n) (P : Place T cd) (g : Segments cd) (k : K) :
    slice k (s.set i (P, g)) = (slice k s).set i (P.handles k, g k) := by
  apply Global.ext
  · funext j
    by_cases hj : j = i
    · subst hj
      simp [slice]
    · simp [slice, set_proc_of_ne, hj]
  · rfl

theorem slice_same (hP : P.handles k = (s.proc i).handles k) (hg : g k = s.shared k) :
    slice k (s.set i (P, g)) = slice k s := by
  rw [slice_set, hP, hg]
  exact set_self (slice k s) i

theorem view_set (s : State T cd) (i : Fin n) (P : Place T cd) (g : Segments cd) :
    view pr (s.set i (P, g)) =
      (view pr s).set i (P.view, fun k => if pr.home k = i then P.cells k else (view pr s).shared k) := by
  apply Global.ext
  · funext j
    by_cases hj : j = i
    · subst hj
      simp [view]
    · simp [view, set_proc_of_ne, hj]
  · funext k
    by_cases hk : pr.home k = i
    · simp [view, hk]
    · simp [view, hk, set_proc_of_ne]

theorem view_set_of_home (hP : ∀ k, pr.home k = i → P.cells k = (s.proc i).cells k) :
    view pr (s.set i (P, g)) = (view pr s).set i (P.view, (view pr s).shared) := by
  rw [view_set]
  congr 2
  funext k
  split
  · rename_i hk
    rw [hP k hk]
    simp [view, hk]
  · rfl

theorem view_same (hP : P.view = (s.proc i).view) : view pr (s.set i (P, g)) = view pr s := by
  have hcells (k : K) : P.cells k = (s.proc i).cells k := congrFun (congrArg Dataflow.Place.cells hP) k
  rw [view_set_of_home fun k _ => hcells k, hP]
  exact set_self (view pr s) i

section Steps

variable [DecidableEq K]

@[simp] theorem update_cells (P : Place T cd) (k : K) (h : Dddf.Place n (cd.count k)) :
    ({ P with handles := Function.update P.handles k h } : Place T cd).cells =
      Function.update P.cells k (h.ddf.map (cd.decode k)) := by
  funext k'
  by_cases hk : k' = k
  · subst hk
    simp [Place.cells]
  · simp [Place.cells, hk]

/-- What asyncAwait does to a place: a handle that its list has more than once is
registered with as often. -/
theorem await_eq (pr : Program (Fin n) T K V) (me : Fin n) (P : Place T cd) (t : T) :
    P.await pr me t = { P with
      waiting := t ::ₘ P.waiting
      handles := fun k => (Dddf.Place.beginAwait (pr.home k) me)^[(pr.needs t).count k] (P.handles k) } := by
  have hfold (l : List K) (P : Place T cd) : l.foldl (Place.register pr me) P = { P with
      handles := fun k => (Dddf.Place.beginAwait (pr.home k) me)^[l.count k] (P.handles k) } := by
    induction l generalizing P with
    | nil => rfl
    | cons k l ih =>
        rw [List.foldl_cons, ih]
        simp only [Place.register, Place.mk.injEq, true_and, and_true]
        funext k'
        by_cases hk : k' = k
        · subst hk
          rw [Function.update_self, List.count_cons_self, Function.iterate_succ_apply]
        · rw [Function.update_of_ne hk, List.count_cons_of_ne (Ne.symm hk)]
  exact hfold (pr.needs t) _

theorem put_handles {Q : Place T cd} (hcalled : (Q.handles k).putCalled = false) (hhome : pr.home k = i) :
    (Q.put pr i k v).handles =
      Function.update Q.handles k ((Q.handles k).beginPut (cd.encode k v)) := by
  rw [Place.put, if_pos ⟨hcalled, hhome⟩]

theorem put_view {Q : Place T cd} (hcalled : (Q.handles k).putCalled = false) (hhome : pr.home k = i)
    (hdecode : cd.decode k (cd.encode k v) = v) : (Q.put pr i k v).view = { Q.view with
      cells := Function.update Q.cells k (some v)
      assigned := k ::ₘ Q.assigned } := by
  have hcells (k' : K) : (Q.put pr i k v).cells k' = Function.update Q.cells k (some v) k' := by
    rw [Place.cells, put_handles hcalled hhome]
    by_cases hk : k' = k
    · subst hk
      simp [hdecode]
    · simp [Place.cells, hk]
  rw [Place.view, funext hcells, Place.put, if_pos ⟨hcalled, hhome⟩]
  rfl

theorem await_view {Q : Place T cd} :
    (Q.await pr i t).view = { Q.view with waiting := t ::ₘ Q.waiting } := by
  have hcells (k : K) : (Q.await pr i t).cells k = Q.cells k := by
    rw [await_eq, Place.cells, Place.cells]
    rw [(Dddf.registered_iterate (Q.handles k) (pr.home k) i _).ddf]
  rw [Place.view, funext hcells, await_eq]
  rfl

variable [DecidableEq T] [DecidableEq V]

inductive Step (pr : Program (Fin n) T K V) (me : Fin n) (P : Place T cd) (g : Segments cd) :
    Act T cd → Place T cd → Segments cd → Prop
  | mainPut {k : K} {v : V} {rest : List (Stmt T K V)} (hmain : P.main = .put k v :: rest) :
      Step pr me P g .main ({ P with main := rest }.put pr me k v) g
  | mainAwait {t : T} {rest : List (Stmt T K V)} (hmain : P.main = .await t :: rest) :
      Step pr me P g .main ({ P with main := rest }.await pr me t) g
  | start {t : T} (ht : t ∈ P.waiting) (hneeds : ∀ k ∈ pr.needs t, P.cells k ≠ none) :
      Step pr me P g (.start t)
        { P with waiting := P.waiting.erase t, running := pr.puts t P.cells ::ₘ P.running } g
  | put {k : K} {v : V} {rest : List (K × V)} (hr : (k, v) :: rest ∈ P.running) :
      Step pr me P g (.put ((k, v) :: rest))
        ({ P with running := rest ::ₘ P.running.erase ((k, v) :: rest) }.put pr me k v) g
  | handle {k : K} {a : Dddf.Act n (cd.count k)} {h : Dddf.Place n (cd.count k)}
      {gk : Dddf.Shared n (cd.count k)} (hinternal : a.internal = true)
      (ha : Dddf.act (cd.config pr k ((P.handles k).ddf.getD (cd.datum k me))) me a (P.handles k) (g k) =
        some (h, gk)) :
      Step pr me P g (.handle k a) { P with handles := Function.update P.handles k h }
        (Function.update g k gk)

theorem act_step {a : Act T cd} (ha : act pr cd me a P g = some (P', g')) : Step pr me P g a P' g' := by
  cases a with
  | main =>
      simp only [act] at ha
      split at ha
      · cases ha
      · rename_i k v rest hmain
        cases ha
        exact .mainPut hmain
      · rename_i t rest hmain
        cases ha
        exact .mainAwait hmain
  | start t =>
      simp only [act, Option.ite_none_right_eq_some] at ha
      obtain ⟨⟨ht, hneeds⟩, heq⟩ := ha
      cases heq
      exact .start ht hneeds
  | put r =>
      cases r with
      | nil => cases ha
      | cons kv rest =>
          obtain ⟨k, v⟩ := kv
          simp only [act, Option.ite_none_right_eq_some] at ha
          obtain ⟨hr, heq⟩ := ha
          cases heq
          exact .put hr
  | handle k a =>
      simp only [act, Option.ite_none_right_eq_some] at ha
      obtain ⟨hinternal, ha⟩ := ha
      obtain ⟨⟨h, gk⟩, hstep, heq⟩ := Option.map_eq_some_iff.mp ha
      cases heq
      exact .handle hinternal hstep

end Steps

section Local

variable [DecidableEq K]

structure PlaceInv (pr : Program (Fin n) T K V) (i : Fin n) (P : Place T cd) : Prop where
  main : P.main <:+ pr.main i
  begun : ∀ k, Dddf.Begun (P.handles k)
  registered : ∀ t ∈ P.waiting, ∀ k ∈ pr.needs t, (P.handles k).awaited = true
  waits : ∀ k, (P.handles k).awaited = true → (P.handles k).ddf = none → ∃ t ∈ P.waiting, k ∈ pr.needs t
  asked : ∀ k, (P.handles k).awaited = true → ∃ t, .await t ∈ pr.main i ∧ k ∈ pr.needs t
  assigned : ∀ k, k ∈ P.assigned ↔ (P.handles k).putCalled = true

theorem PlaceInv.update (h : PlaceInv pr i P) {x : Dddf.Place n (cd.count k)} {assigned : Multiset K}
    (hbegun : Dddf.Begun x) (hawaited : x.awaited = (P.handles k).awaited)
    (hddf : x.ddf = none → (P.handles k).ddf = none)
    (hassigned : ∀ k', k' ∈ assigned ↔ (Function.update P.handles k x k').putCalled = true) :
    PlaceInv pr i { P with handles := Function.update P.handles k x, assigned := assigned } := by
  have hsame (k' : K) : (Function.update P.handles k x k').awaited = (P.handles k').awaited := by
    by_cases hk : k' = k
    · subst hk
      rw [Function.update_self, hawaited]
    · rw [Function.update_of_ne hk]
  have hnone (k' : K) (hx : (Function.update P.handles k x k').ddf = none) : (P.handles k').ddf = none := by
    by_cases hk : k' = k
    · subst hk
      rw [Function.update_self] at hx
      exact hddf hx
    · rwa [Function.update_of_ne hk] at hx
  constructor
  · exact h.main
  · exact (Function.forall_update_iff P.handles fun _ x => Dddf.Begun x).mpr
      ⟨hbegun, fun k' _ => h.begun k'⟩
  · intro t ht k' hk'
    rw [hsame]
    exact h.registered t ht k' hk'
  · intro k' hawaited' hx
    rw [hsame] at hawaited'
    exact h.waits k' hawaited' (hnone k' hx)
  · intro k' hawaited'
    rw [hsame] at hawaited'
    exact h.asked k' hawaited'
  · exact hassigned

theorem PlaceInv.put (h : PlaceInv pr i P) (k : K) (v : V) : PlaceInv pr i (P.put pr i k v) := by
  unfold Place.put
  split
  · apply h.update ((h.begun k).beginPut _) (Dddf.beginPut_awaited ..) nofun
    intro k'
    by_cases hk : k' = k
    · subst hk
      rw [Function.update_self]
      exact iff_of_true (Multiset.mem_cons_self k' _) (Dddf.beginPut_putCalled ..)
    · rw [Function.update_of_ne hk, Multiset.mem_cons, or_iff_right hk]
      exact h.assigned k'
  · exact { h with }

theorem PlaceInv.await (h : PlaceInv pr i P) (ht : .await t ∈ pr.main i) :
    PlaceInv pr i (P.await pr i t) := by
  rw [await_eq]
  have hregistered (k : K) := Dddf.registered_iterate (P.handles k) (pr.home k) i ((pr.needs t).count k)
  refine ⟨h.main, fun k => (hregistered k).begun (h.begun k), fun u hu k hk => ?_,
    fun k hawaited hddf => ?_, fun k hawaited => ?_, fun k => ?_⟩
  · apply (hregistered k).awaited.mpr
    rcases Multiset.mem_cons.mp hu with rfl | hu
    · exact .inr (List.count_pos_iff.mpr hk)
    · exact .inl (h.registered u hu k hk)
  · rcases (hregistered k).awaited.mp hawaited with hawaited | hpos
    · obtain ⟨u, hu, hk⟩ := h.waits k hawaited ((hregistered k).ddf ▸ hddf)
      exact ⟨u, Multiset.mem_cons_of_mem hu, hk⟩
    · exact ⟨t, Multiset.mem_cons_self t _, List.count_pos_iff.mp hpos⟩
  · rcases (hregistered k).awaited.mp hawaited with hawaited | hpos
    · exact h.asked k hawaited
    · exact ⟨t, ht, List.count_pos_iff.mp hpos⟩
  · rw [(hregistered k).called]
    exact h.assigned k

variable [DecidableEq T] [DecidableEq V]

omit [DecidableEq K] [DecidableEq T] [DecidableEq V] in
theorem PlaceInv.rest {stmt : Stmt T K V} {rest : List (Stmt T K V)} (h : PlaceInv pr i P)
    (hmain : P.main = stmt :: rest) : PlaceInv pr i { P with main := rest } :=
  { h with main := (show rest <:+ P.main from hmain ▸ List.suffix_cons stmt rest).trans h.main }

theorem PlaceInv.step {a : Act T cd} (h : PlaceInv pr i P) (hstep : Step pr i P g a P' g') :
    PlaceInv pr i P' := by
  cases hstep with
  | mainPut hmain => exact (h.rest hmain).put ..
  | mainAwait hmain => exact (h.rest hmain).await (h.main.subset (hmain ▸ List.mem_cons_self))
  | @start t ht hneeds =>
      refine { h with
        registered := fun u hu => h.registered u (Multiset.mem_of_mem_erase hu)
        waits := fun k hawaited hddf => ?_ }
      obtain ⟨u, hu, hk⟩ := h.waits k hawaited hddf
      refine ⟨u, (Multiset.mem_erase_of_ne ?_).mpr hu, hk⟩
      rintro rfl
      exact hneeds k hk (by rw [Place.cells, hddf]; rfl)
  | @put k v rest hr =>
      have hrunning : PlaceInv pr i { P with running := rest ::ₘ P.running.erase ((k, v) :: rest) } :=
        { h with }
      exact hrunning.put k v
  | @handle k a h' gk hinternal ha =>
      obtain ⟨hcalled, hawaited⟩ := Dddf.calls_internal hinternal ha
      have hddf (hnone : h'.ddf = none) : (P.handles k).ddf = none := by
        rcases Dddf.ddf_act (h.begun k) hinternal ha with heq | ⟨_, _, _, _, hsome⟩
        · rw [← heq, hnone]
        · rw [hsome] at hnone
          cases hnone
      apply h.update ((h.begun k).act hinternal ha) hawaited hddf
      intro k'
      rw [h.assigned k']
      by_cases hk : k' = k
      · subst hk
        rw [Function.update_self, hcalled]
      · rw [Function.update_of_ne hk]

theorem placeInv_reachable (hs : Reachable (runtime pr cd) s) (i : Fin n) : PlaceInv pr i (s.proc i) := by
  refine hs.local_invariant (I := fun i P _ => PlaceInv pr i P) (fun i => ?_) ?_ ?_ i
  · exact ⟨List.suffix_refl _, fun k => ⟨nofun, nofun⟩, nofun, nofun, nofun,
      fun k => iff_of_false (Multiset.notMem_zero k) nofun⟩
  · intro s i a P' g' _ _ hI ha
    exact (hI i).step (act_step ha)
  · intro s i a P' g' _ _ hI _ j _
    exact hI j

end Local

section Refinement

variable [DecidableEq T] [DecidableEq K] [DecidableEq V] {val : K → V}

def Coding.Exact (cd : Coding n K V) (pr : Program (Fin n) T K V) (val : K → V) : Prop :=
  ∀ i, ∀ k ∈ (pr.main i).flatMap pr.keys, cd.decode k (cd.encode k (val k)) = val k

/-- Every handle is in a state of its protocol, and what the program sees is a
state of the program. -/
structure Linked (pr : Program (Fin n) T K V) (cd : Coding n K V) (val : K → V) (s : State T cd) : Prop where
  handles : ∀ k, Dddf.ReachableInOrder (cd.config pr k (cd.encode k (val k))) (slice k s)
  sees : Reachable (Dataflow.system pr) (view pr s)

theorem Linked.put {Q : Place T cd} {a : Dataflow.Act T K V} (hpr : Dataflow.Valued pr val)
    (hcd : cd.Exact pr val) (hI : Linked pr cd val s) (hQ : PlaceInv pr i Q)
    (hhandles : Q.handles = (s.proc i).handles)
    (ha : Dataflow.act pr i a (s.proc i).view (view pr s).shared =
      some (Q.view.put pr i (view pr s).shared k v)) :
    Linked pr cd val (s.set i (Q.put pr i k v, s.shared)) := by
  have ht : Reachable (Dataflow.system pr) ((view pr s).set i (Q.view.put pr i (view pr s).shared k v)) :=
    hI.sees.next trivial (next_eq_some.mpr ⟨_, _, ha, rfl⟩)
  have hinv := (Dataflow.inv_reachable hpr ht).1 i
  rw [set_proc_self] at hinv
  -- the program never puts a cell twice
  have hcond : Q.view.cells k = none ∧ pr.home k = i := by
    by_contra hcond
    have hfailed := hinv.failed
    rw [Dataflow.Place.put, if_neg hcond] at hfailed
    cases hfailed
  rw [Dataflow.Place.put, if_pos hcond] at ht hinv
  obtain ⟨hcell, hhome⟩ := hcond
  have hval : v = val k := hinv.cells k v (Function.update_self ..)
  have hkey : k ∈ (pr.main i).flatMap pr.keys :=
    hinv.mem_due.mp (Multiset.mem_of_le (Dataflow.assigned_le_due _ _) (Multiset.mem_cons_self k _))
  have hdecode : cd.decode k (cd.encode k v) = v := by
    rw [hval]
    exact hcd i k hkey
  have hcalled : (Q.handles k).putCalled = false := by
    rw [Bool.eq_false_iff]
    intro hcalled
    exact (hQ.begun k).called hcalled (Option.map_eq_none_iff.mp hcell)
  refine ⟨fun k' => ?_, ?_⟩
  · by_cases hk : k' = k
    · subst hk
      rw [slice_set, put_handles hcalled hhome, Function.update_self, hval, hhandles]
      rw [hhandles] at hcalled
      exact Dddf.ReachableInOrder.beginPut (hI.handles k') hhome.symm hcalled
    · rw [slice_same (by rw [put_handles hcalled hhome, Function.update_of_ne hk, hhandles]) rfl]
      exact hI.handles k'
  · have hview := put_view (v := v) hcalled hhome hdecode
    have hshared : (fun k' => if pr.home k' = i then (Q.put pr i k v).cells k' else (view pr s).shared k') =
        Function.update (view pr s).shared k (some v) := by
      funext k'
      have hcells : (Q.put pr i k v).cells k' = Function.update Q.cells k (some v) k' :=
        congrFun (congrArg Dataflow.Place.cells hview) k'
      by_cases hk : k' = k
      · subst hk
        rw [if_pos hhome, hcells, Function.update_self, Function.update_self]
      · rw [Function.update_of_ne hk, hcells, Function.update_of_ne hk]
        split
        · rename_i hk'
          rw [Place.cells, hhandles]
          simp [view, hk', Place.cells]
        · rfl
    rw [view_set, hview, hshared]
    exact ht

theorem Linked.step_view {a : Dataflow.Act T K V} (hI : Linked pr cd val s)
    (hcells : P.cells = (s.proc i).cells)
    (ha : Dataflow.act pr i a (s.proc i).view (view pr s).shared = some (P.view, (view pr s).shared)) :
    Reachable (Dataflow.system pr) (view pr (s.set i (P, g))) := by
  rw [view_set_of_home fun k _ => congrFun hcells k]
  exact hI.sees.next trivial (next_eq_some.mpr ⟨_, _, ha, rfl⟩)

theorem Linked.await {rest : List (Stmt T K V)} (hI : Linked pr cd val s)
    (hmain : (s.proc i).main = .await t :: rest) :
    Linked pr cd val (s.set i (Place.await pr i { s.proc i with main := rest } t, s.shared)) := by
  refine ⟨fun k => ?_, ?_⟩
  · rw [slice_set, await_eq]
    exact Dddf.ReachableInOrder.beginAwait (hI.handles k) rfl _
  · refine hI.step_view (a := .main) (congrArg Dataflow.Place.cells await_view) ?_
    rw [await_view]
    simp only [Dataflow.act, Place.view, hmain]
    rfl

theorem Linked.datum_eq (hI : Linked pr cd val s) (hP : PlaceInv pr i (s.proc i)) {l : Dddf.PutPc}
    (hput : .put l ∈ ((s.proc i).handles k).tasks) :
    ((s.proc i).handles k).ddf.getD (cd.datum k i) = cd.encode k (val k) := by
  obtain ⟨data, hdata⟩ := Option.ne_none_iff_exists'.mp ((hP.begun k).tasks l hput).2
  rw [hdata]
  exact ((hI.handles k).valid.places i).ddf data hdata

theorem Linked.handle (hpr : Dataflow.Valued pr val) (hI : Linked pr cd val s)
    (hplaces : ∀ j, PlaceInv pr j (s.proc j)) {a : Dddf.Act n (cd.count k)}
    {h : Dddf.Place n (cd.count k)}
    {gk : Dddf.Shared n (cd.count k)} (hordered : ordered s i (.handle k a) = true)
    (hinternal : a.internal = true)
    (ha : Dddf.act (cd.config pr k (((s.proc i).handles k).ddf.getD (cd.datum k i))) i a
      ((s.proc i).handles k) (s.shared k) = some (h, gk)) :
    Linked pr cd val (s.set i ({ s.proc i with handles := Function.update (s.proc i).handles k h },
      Function.update s.shared k gk)) := by
  have hreach := hI.handles k
  have hP := hplaces i
  have hhome := hplaces (pr.home k)
  have hval : Dddf.act (cd.config pr k (cd.encode k (val k))) i a ((s.proc i).handles k) (s.shared k) =
      some (h, gk) :=
    Dddf.act_config (c := cd.config pr k (((s.proc i).handles k).ddf.getD (cd.datum k i))) rfl
      (fun _ => id) (fun _ => id) (fun l _ hl => (hI.datum_eq hP hl).symm) ha
  have hnext : Dddf.ReachableInOrder _ ((slice k s).set i (h, gk)) :=
    Dddf.ReachableInOrder.step hreach hordered hval
  refine ⟨fun k' => ?_, ?_⟩
  · by_cases hk : k' = k
    · subst hk
      rw [slice_set]
      simpa using hnext
    · rw [slice_same (Function.update_of_ne hk ..) (Function.update_of_ne hk ..)]
      exact hI.handles k'
  · rcases Dddf.ddf_act (hP.begun k) hinternal ha with hddf | ⟨source, data, rfl, ht, hddf⟩
    · -- the program does not see it
      rw [view_same]
      · exact hI.sees
      · rw [Place.view, update_cells, hddf]
        have hsame : Function.update (s.proc i).cells k (((s.proc i).handles k).ddf.map (cd.decode k)) =
            (s.proc i).cells := Function.update_eq_self k _
        rw [hsame]
        rfl
    · obtain ⟨hne, hawaited, hcalled⟩ := Dddf.asked_of_putHome hreach.reachable rfl ht
      have hnone : ((s.proc i).handles k).ddf = none := Dddf.ddf_none hreach.reachable ht rfl
      obtain ⟨t, hwaiting, hneeds⟩ := hP.waits k hawaited hnone
      have hdata : data = cd.encode k (val k) := by
        apply (hnext.valid.places i).ddf data
        rw [set_proc_self]
        exact hddf
      have hI' := Dataflow.inv_reachable hpr hI.sees
      -- the home has put the value
      obtain ⟨put, hput⟩ := Option.ne_none_iff_exists'.mp ((hhome.begun k).called hcalled)
      have hshared : (view pr s).shared k = some (cd.decode k put) := by
        change (((s.proc (pr.home k)).handles k).ddf).map (cd.decode k) = _
        rw [hput]
        rfl
      have hdecode : cd.decode k put = val k := (hI'.1 (pr.home k)).cells k _ hshared
      have heq : put = data := by
        rw [hdata]
        exact ((hreach.valid.places (pr.home k)).ddf put hput)
      have hdeliver : Dataflow.act pr i (.deliver k) (s.proc i).view (view pr s).shared =
          some ({ (s.proc i).view with
            cells := Function.update (s.proc i).cells k (some (cd.decode k put)) }, (view pr s).shared) := by
        have hawaits : (s.proc i).view.awaits pr k := ⟨Option.map_eq_none_iff.mpr hnone, t, hwaiting, hneeds⟩
        rw [Dataflow.act, if_pos hawaits, hshared]
        rfl
      refine hI.sees.next (i := i) (a := .deliver k) trivial (next_eq_some.mpr ⟨_, _, hdeliver, ?_⟩)
      rw [view_set_of_home]
      · rw [Place.view, update_cells, hddf, heq]
        rfl
      · intro k' hk'
        rw [update_cells, Function.update_of_ne]
        rintro rfl
        exact hne hk'.symm

theorem linked_reachable (hpr : Dataflow.Valued pr val) (hcd : cd.Exact pr val)
    (hs : ReachableWhen (runtime pr cd) (fun s i a => ordered s i a = true) s) : Linked pr cd val s := by
  refine hs.invariant (I := Linked pr cd val) ⟨fun k => .init, .init⟩ ?_
  intro s i a P' g' hs hok hI ha
  have hplaces := placeInv_reachable hs.reachable
  cases act_step ha with
  | @mainPut k v rest hmain =>
      apply hI.put hpr hcd ((hplaces i).rest hmain) rfl (a := .main)
      simp only [Dataflow.act, Place.view, hmain]
      rfl
  | mainAwait hmain => exact hI.await hmain
  | @start t ht hneeds =>
      refine ⟨fun k => ?_, ?_⟩
      · have hsame : (slice k s).set i ((s.proc i).handles k, s.shared k) = slice k s :=
          set_self (slice k s) i
        rw [slice_set, hsame]
        exact hI.handles k
      · refine hI.step_view (a := .start t) rfl ?_
        rw [Dataflow.act, if_pos ⟨ht, hneeds⟩]
        rfl
  | @put k v rest hr =>
      have hQ : PlaceInv pr i
          { s.proc i with running := rest ::ₘ (s.proc i).running.erase ((k, v) :: rest) } :=
        { hplaces i with }
      apply hI.put hpr hcd hQ rfl (a := .put ((k, v) :: rest))
      exact if_pos hr
  | handle hinternal hstep => exact hI.handle hpr hplaces hok hinternal hstep

/-- The protocol refines the delivery of a value in one step. -/
theorem runtime_refines (hpr : Dataflow.Valued pr val) (hcd : cd.Exact pr val)
    (hs : ReachableWhen (runtime pr cd) (fun s i a => ordered s i a = true) s) :
    Reachable (Dataflow.system pr) (view pr s) :=
  (linked_reachable hpr hcd hs).sees

def relay : Program (Fin 2) Unit Bool Nat where
  home k := bif k then Fin.last 1 else (Fin.last 1).rev
  main i := if i = Fin.last 1 then [.await ()] else [.put false 7]
  needs _ := [false]
  outs _ := [true]
  puts _ get := [(true, (get false).getD 0 + 1)]
  puts_outs _ _ := rfl

def relayCoding : Coding 2 Bool Nat where
  count _ := 1
  encode _ v := Vector.replicate 1 v.toUInt8
  decode _ data := (data.get (Fin.last 0)).toNat
  datum _ _ := Vector.replicate 1 0

def relayRun : List (Fin 2 × Act Unit relayCoding) :=
  let last : Fin 2 := Fin.last 1
  let first : Fin 2 := last.rev
  let data : Dddf.Data 1 := Vector.replicate 1 7
  [(first, .main), (last, .main), (last, .handle false (.run (.registerCallback .get))),
    (last, .handle false (.run (.registerCallback .cas))),
    (last, .handle false (.run (.registerCallback .asyncAt))), (last, .handle false .comm),
    (first, .handle false (.deliver (.asyncAt last))), (first, .handle false (.run (.callback last))),
    (first, .handle false (.run (.putBack last))),
    (first, .handle false (.run (.putRemote last .asyncCopy))),
    (first, .handle false (.run (.put .assertRank))), (first, .handle false (.run (.put .setRank))),
    (first, .handle false (.run (.put .memcpy))), (first, .handle false .comm),
    (first, .handle false (.run (.putRemote last (.asyncAfter 0)))), (first, .handle false .comm),
    (first, .handle false (.complete last 0)), (last, .handle false (.deliver (.asyncAfter first last 0))),
    (last, .handle false (.run (.putHome first .memcpy))),
    (last, .handle false (.run (.putHome first (.assertRank data)))),
    (last, .handle false (.run (.putHome first (.setRank data)))),
    (last, .handle false (.run (.putHome first (.ddfPut data)))), (last, .start ()),
    (last, .put [(true, 8)])]

def relayState : State Unit relayCoding := (runtime relay relayCoding).after relayRun

theorem relay_valued : Dataflow.Valued relay fun k => bif k then 8 else 7 := by
  constructor
  · intro i k v hput
    simp only [relay] at hput
    split at hput
    · cases List.mem_singleton.mp hput
    · rename_i hi
      obtain ⟨rfl, rfl⟩ := Stmt.put.inj (List.mem_singleton.mp hput)
      revert i
      decide
  · intro i t ht get hget kv hkv
    simp only [relay] at ht
    split at ht
    · rename_i hi
      obtain rfl := List.mem_singleton.mp hkv
      rw [hget false (List.mem_singleton_self false)]
      exact ⟨hi.symm, rfl⟩
    · cases List.mem_singleton.mp ht
  · decide

theorem relay_exact : relayCoding.Exact relay fun k => bif k then 8 else 7 := by
  intro i k hk
  revert i k
  decide

theorem runtime_refines_relay :
    Reachable (Dataflow.system relay) (view relay relayState) ∧
      (view relay relayState).shared true = some 8 :=
  ⟨runtime_refines relay_valued relay_exact (after_reachableWhen _ ordered relayRun (by decide +kernel)),
    by decide +kernel⟩

end Refinement

end HabaneroUpc.DddfPrograms
