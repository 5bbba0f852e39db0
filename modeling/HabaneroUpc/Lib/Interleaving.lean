import Mathlib.Logic.Function.Basic
import Mathlib.Order.WellFounded
import Mathlib.Order.RelClasses
import Mathlib.Data.Nat.Find
import Mathlib.Data.Prod.Lex

namespace HabaneroUpc.Interleaving

@[ext] structure Global (ι L G : Type*) where
  proc : ι → L
  shared : G

/-- Processes that run one atomic action at a time over a shared state. An
action that is not enabled has no result. -/
structure System (ι A L G : Type*) where
  init : Global ι L G
  act : ι → A → L → G → Option (L × G)

variable {ι A L G L' G' : Type*} [DecidableEq ι]

def Global.set (s : Global ι L G) (i : ι) (r : L × G) : Global ι L G :=
  ⟨Function.update s.proc i r.1, r.2⟩

@[simp] theorem set_shared (s : Global ι L G) (i : ι) (r : L × G) : (s.set i r).shared = r.2 := rfl

@[simp] theorem set_proc_self (s : Global ι L G) (i : ι) (r : L × G) : (s.set i r).proc i = r.1 :=
  Function.update_self ..

theorem set_proc_of_ne (s : Global ι L G) {i j : ι} (r : L × G) (h : j ≠ i) :
    (s.set i r).proc j = s.proc j :=
  Function.update_of_ne h ..

theorem forall_set {s : Global ι L G} {i : ι} {r : L × G} {Q : ι → L → Prop} (hself : Q i r.1)
    (hother : ∀ j, j ≠ i → Q j (s.proc j)) (j : ι) : Q j ((s.set i r).proc j) := by
  by_cases hj : j = i
  · subst j
    simpa using hself
  · simpa [set_proc_of_ne s r hj] using hother j hj

def System.next (S : System ι A L G) (s : Global ι L G) (i : ι) (a : A) : Option (Global ι L G) :=
  (S.act i a (s.proc i) s.shared).map (s.set i)

theorem next_eq_some {S : System ι A L G} {s s' : Global ι L G} {i : ι} {a : A} :
    S.next s i a = some s' ↔
      ∃ l g, S.act i a (s.proc i) s.shared = some (l, g) ∧ s' = s.set i (l, g) := by
  simp only [System.next, Option.map_eq_some_iff, Prod.exists]
  constructor <;> rintro ⟨l, g, h, rfl⟩ <;> exact ⟨l, g, h, rfl⟩

/-- The states of the runs all of whose steps satisfy a side condition, which
may look at the whole state before the step. -/
inductive ReachableWhen (S : System ι A L G) (ok : Global ι L G → ι → A → Prop) :
    Global ι L G → Prop
  | init : ReachableWhen S ok S.init
  | next {s s' : Global ι L G} {i : ι} {a : A} (hs : ReachableWhen S ok s) (hok : ok s i a)
      (h : S.next s i a = some s') : ReachableWhen S ok s'

abbrev Reachable (S : System ι A L G) : Global ι L G → Prop := ReachableWhen S (fun _ _ _ => True)

theorem ReachableWhen.mono {S : System ι A L G} {ok ok' : Global ι L G → ι → A → Prop}
    (hok : ∀ s i a, ok s i a → ok' s i a) {s : Global ι L G} (h : ReachableWhen S ok s) :
    ReachableWhen S ok' s := by
  induction h with
  | init => exact .init
  | next _ h hn ih => exact .next ih (hok _ _ _ h) hn

theorem ReachableWhen.reachable {S : System ι A L G} {ok : Global ι L G → ι → A → Prop}
    {s : Global ι L G} (h : ReachableWhen S ok s) : Reachable S s :=
  h.mono fun _ _ _ _ => trivial

theorem ReachableWhen.always {S : System ι A L G} {ok : Global ι L G → ι → A → Prop}
    (hok : ∀ s i a, Reachable S s → ok s i a) {s : Global ι L G} (h : Reachable S s) :
    ReachableWhen S ok s := by
  induction h with
  | init => exact .init
  | next hs _ hn ih => exact .next ih (hok _ _ _ hs) hn

/-- Induction over runs with the invariants already known available at each
step: the step obligation may use any property of reachable states. -/
theorem ReachableWhen.invariant {S : System ι A L G} {ok : Global ι L G → ι → A → Prop}
    {I : Global ι L G → Prop} (hinit : I S.init)
    (hstep : ∀ s i a l g, ReachableWhen S ok s → ok s i a → I s →
      S.act i a (s.proc i) s.shared = some (l, g) → I (s.set i (l, g)))
    {s : Global ι L G} (h : ReachableWhen S ok s) : I s := by
  induction h with
  | init => exact hinit
  | next hs hok hn ih =>
      obtain ⟨l, g, ha, rfl⟩ := next_eq_some.mp hn
      exact hstep _ _ _ _ _ hs hok ih ha

/-- A fact about one process and the shared state, kept by its own actions and
by those of the others, holds of every process in every run. -/
theorem ReachableWhen.local_invariant {S : System ι A L G} {ok : Global ι L G → ι → A → Prop}
    {I : ι → L → G → Prop} (hinit : ∀ i, I i (S.init.proc i) S.init.shared)
    (hself : ∀ s i a l g, ReachableWhen S ok s → ok s i a → (∀ j, I j (s.proc j) s.shared) →
      S.act i a (s.proc i) s.shared = some (l, g) → I i l g)
    (hother : ∀ s i a l g, ReachableWhen S ok s → ok s i a → (∀ j, I j (s.proc j) s.shared) →
      S.act i a (s.proc i) s.shared = some (l, g) → ∀ j, j ≠ i → I j (s.proc j) g)
    {s : Global ι L G} (h : ReachableWhen S ok s) (i : ι) : I i (s.proc i) s.shared := by
  refine h.invariant (I := fun s => ∀ j, I j (s.proc j) s.shared) hinit ?_ i
  intro s i a l g hs hok hI ha
  exact forall_set (Q := fun j l => I j l g) (hself s i a l g hs hok hI ha)
    (hother s i a l g hs hok hI ha)

/-- A fact about each process together with a fact about what is shared: the
process that acts has to keep both, the others are not concerned. -/
theorem ReachableWhen.split_invariant {S : System ι A L G} {ok : Global ι L G → ι → A → Prop}
    {I : ι → L → Prop} {J : G → Prop} (hI : ∀ i, I i (S.init.proc i)) (hJ : J S.init.shared)
    (hstep : ∀ s i a l g, ReachableWhen S ok s → ok s i a → (∀ j, I j (s.proc j)) → J s.shared →
      S.act i a (s.proc i) s.shared = some (l, g) → I i l ∧ J g)
    {s : Global ι L G} (h : ReachableWhen S ok s) : (∀ i, I i (s.proc i)) ∧ J s.shared := by
  refine h.invariant (I := fun s => (∀ i, I i (s.proc i)) ∧ J s.shared) ⟨hI, hJ⟩ ?_
  intro s i a l g hs hok hIJ ha
  obtain ⟨hl, hg⟩ := hstep s i a l g hs hok hIJ.1 hIJ.2 ha
  exact ⟨forall_set hl fun j _ => hIJ.1 j, hg⟩

def System.run (S : System ι A L G) : Global ι L G → List (ι × A) → Option (Global ι L G)
  | s, [] => some s
  | s, (i, a) :: rest => (S.next s i a).bind fun s' => S.run s' rest

theorem reachable_of_run {S : System ι A L G} {s s' : Global ι L G} (hs : Reachable S s)
    (acts : List (ι × A)) (h : S.run s acts = some s') : Reachable S s' := by
  induction acts generalizing s with
  | nil => cases h; exact hs
  | cons ia acts ih =>
      obtain ⟨t, ht, hrun⟩ := Option.bind_eq_some_iff.mp h
      exact ih (.next hs trivial ht) hrun

@[simp] theorem set_set (s : Global ι L G) (i : ι) (r r' : L × G) : (s.set i r).set i r' = s.set i r' := by
  simp [Global.set]

@[simp] theorem set_self (s : Global ι L G) (i : ι) : s.set i (s.proc i, s.shared) = s := by
  simp [Global.set]

def System.solo (S : System ι A L G) (i : ι) : L → G → List A → Option (L × G)
  | l, g, [] => some (l, g)
  | l, g, a :: acts => (S.act i a l g).bind fun r => S.solo i r.1 r.2 acts

theorem run_solo (S : System ι A L G) (s : Global ι L G) (i : ι) (acts : List A) :
    S.run s (acts.map fun a => (i, a)) = (S.solo i (s.proc i) s.shared acts).map (s.set i) := by
  induction acts generalizing s with
  | nil => simp [System.run, System.solo]
  | cons a acts ih =>
      rw [List.map_cons, System.run, System.solo, System.next]
      cases ha : S.act i a (s.proc i) s.shared with
      | none => rfl
      | some r =>
          simp only [Option.map_some, Option.bind_some, ih, set_proc_self, set_shared]
          cases S.solo i r.1 r.2 acts <;> simp

theorem reachable_of_solo {S : System ι A L G} {s : Global ι L G} (hs : Reachable S s) {i : ι}
    {acts : List A} {r : L × G} (h : S.solo i (s.proc i) s.shared acts = some r) :
    Reachable S (s.set i r) :=
  reachable_of_run hs (acts.map fun a => (i, a)) (by rw [run_solo, h, Option.map_some])

/-- What every step keeps unless the state before it satisfies B, a run keeps
unless it goes through a state that satisfies B. -/
theorem run_until {S : System ι A L G} {I B : Global ι L G → Prop}
    (hstep : ∀ s i a s', Reachable S s → I s → S.next s i a = some s' → I s' ∨ B s)
    {s s' : Global ι L G} (hs : Reachable S s) (hI : I s) {acts : List (ι × A)}
    (h : S.run s acts = some s') :
    I s' ∨ ∃ before t, before <+: acts ∧ S.run s before = some t ∧ B t := by
  induction acts generalizing s with
  | nil =>
      cases h
      exact .inl hI
  | cons x acts ih =>
      obtain ⟨t, ht, hrun⟩ := Option.bind_eq_some_iff.mp h
      rcases hstep s x.1 x.2 t hs hI ht with hI' | hB
      · rcases ih (.next hs trivial ht) hI' hrun with hI'' | ⟨before, u, hprefix, hu, hB⟩
        · exact .inl hI''
        · refine .inr ⟨x :: before, u, List.cons_prefix_cons.mpr ⟨rfl, hprefix⟩, ?_, hB⟩
          exact Option.bind_eq_some_iff.mpr ⟨t, ht, hu⟩
      · exact .inr ⟨[], s, List.nil_prefix, rfl, hB⟩

def System.after (S : System ι A L G) (acts : List (ι × A)) : Global ι L G :=
  (S.run S.init acts).getD S.init

theorem after_reachable (S : System ι A L G) (acts : List (ι × A)) : Reachable S (S.after acts) := by
  rw [System.after]
  cases h : S.run S.init acts with
  | none => exact .init
  | some s => exact reachable_of_run .init acts h

def System.meets (S : System ι A L G) (ok : Global ι L G → ι → A → Bool) :
    Global ι L G → List (ι × A) → Bool
  | _, [] => true
  | s, (i, a) :: rest => ok s i a && (S.next s i a).any fun s' => S.meets ok s' rest

theorem after_reachableWhen (S : System ι A L G) (ok : Global ι L G → ι → A → Bool)
    (acts : List (ι × A)) (h : S.meets ok S.init acts = true) :
    ReachableWhen S (fun s i a => ok s i a = true) (S.after acts) := by
  have hrun {s : Global ι L G} (hs : ReachableWhen S (fun s i a => ok s i a = true) s)
      (acts : List (ι × A)) (h : S.meets ok s acts = true) :
      ∃ s', S.run s acts = some s' ∧ ReachableWhen S (fun s i a => ok s i a = true) s' := by
    induction acts generalizing s with
    | nil => exact ⟨s, rfl, hs⟩
    | cons ia acts ih =>
        simp only [System.meets, Bool.and_eq_true, Option.any_eq_true] at h
        obtain ⟨hok, t, ht, hrest⟩ := h
        obtain ⟨s', hs', hreach⟩ := ih (.next hs hok ht) hrest
        exact ⟨s', by rw [System.run, ht]; exact hs', hreach⟩
  obtain ⟨s', hs', hreach⟩ := hrun .init acts h
  rw [System.after, hs']
  exact hreach

theorem run_length_le {S : System ι A L G} {m : Global ι L G → Nat}
    (hm : ∀ s i a s', Reachable S s → S.next s i a = some s' → m s' < m s) {s s' : Global ι L G}
    (hs : Reachable S s) {acts : List (ι × A)} (h : S.run s acts = some s') :
    acts.length + m s' ≤ m s := by
  induction acts generalizing s with
  | nil =>
      cases h
      simp
  | cons x acts ih =>
      obtain ⟨t, ht, hrun⟩ := Option.bind_eq_some_iff.mp h
      have hlt := hm s x.1 x.2 t hs ht
      have hle := ih (hs.next trivial ht) hrun
      rw [List.length_cons]
      omega

theorem runs_until_stuck {S : System ι A L G} {m : Global ι L G → Nat}
    (hm : ∀ s i a s', Reachable S s → S.next s i a = some s' → m s' < m s) {s : Global ι L G}
    (hs : Reachable S s) : ∃ acts s', S.run s acts = some s' ∧ ∀ i a, S.next s' i a = none := by
  induction h : m s using Nat.strongRecOn generalizing s with
  | ind k ih =>
      by_cases hstuck : ∀ i a, S.next s i a = none
      · exact ⟨[], s, rfl, hstuck⟩
      · simp only [not_forall] at hstuck
        obtain ⟨i, a, hsome⟩ := hstuck
        obtain ⟨t, ht⟩ := Option.ne_none_iff_exists'.mp hsome
        obtain ⟨acts, s', hrun, hend⟩ := ih (m t) (h ▸ hm s i a t hs ht) (hs.next trivial ht) rfl
        exact ⟨(i, a) :: acts, s', Option.bind_eq_some_iff.mpr ⟨t, ht, hrun⟩, hend⟩

section Meets

variable {S : System ι A L G} {ok : Global ι L G → ι → A → Bool} {m : Global ι L G → Nat}
  {Goal : Global ι L G → Prop} {s : Global ι L G}

theorem meets_length_le (hm : ∀ s i a s', ReachableWhen S (fun s i a => ok s i a = true) s →
      ok s i a = true → S.next s i a = some s' → m s' < m s)
    (hs : ReachableWhen S (fun s i a => ok s i a = true) s) {acts : List (ι × A)}
    (h : S.meets ok s acts = true) : acts.length ≤ m s := by
  induction acts generalizing s with
  | nil => exact Nat.zero_le _
  | cons x acts ih =>
      simp only [System.meets, Bool.and_eq_true, Option.any_eq_true] at h
      obtain ⟨hok, t, ht, hrest⟩ := h
      have hlt := hm s x.1 x.2 t hs hok ht
      have hle := ih (.next hs hok ht) hrest
      rw [List.length_cons]
      omega

theorem meets_to_goal (hm : ∀ s i a s', ReachableWhen S (fun s i a => ok s i a = true) s →
      ok s i a = true → S.next s i a = some s' → m s' < m s)
    (hgo : ∀ s, ReachableWhen S (fun s i a => ok s i a = true) s → ¬Goal s →
      ∃ i a, ok s i a = true ∧ S.next s i a ≠ none)
    (hs : ReachableWhen S (fun s i a => ok s i a = true) s) :
    ∃ acts s', S.meets ok s acts = true ∧ S.run s acts = some s' ∧
      ReachableWhen S (fun s i a => ok s i a = true) s' ∧ Goal s' := by
  induction h : m s using Nat.strongRecOn generalizing s with
  | ind k ih =>
      by_cases hgoal : Goal s
      · exact ⟨[], s, rfl, rfl, hs, hgoal⟩
      · obtain ⟨i, a, hok, hsome⟩ := hgo s hs hgoal
        obtain ⟨t, ht⟩ := Option.ne_none_iff_exists'.mp hsome
        obtain ⟨acts, s', hmeets, hrun, hend⟩ := ih (m t) (h ▸ hm s i a t hs hok ht) (.next hs hok ht) rfl
        refine ⟨(i, a) :: acts, s', ?_, Option.bind_eq_some_iff.mpr ⟨t, ht, hrun⟩, hend⟩
        simp [System.meets, hok, ht, hmeets]

end Meets

def System.Leads (S : System ι A L G) (s s' : Global ι L G) : Prop := ∃ acts, S.run s acts = some s'

theorem leads_refl (S : System ι A L G) (s : Global ι L G) : S.Leads s s := ⟨[], rfl⟩

theorem leads_next {S : System ι A L G} {s s' : Global ι L G} {i : ι} {a : A}
    (h : S.next s i a = some s') : S.Leads s s' :=
  ⟨[(i, a)], by rw [System.run, h]; rfl⟩

theorem leads_act {S : System ι A L G} {s : Global ι L G} {i : ι} {a : A} {r : L × G}
    (h : S.act i a (s.proc i) s.shared = some r) : S.Leads s (s.set i r) :=
  leads_next (next_eq_some.mpr ⟨r.1, r.2, h, rfl⟩)

theorem System.Leads.trans {S : System ι A L G} {s t u : Global ι L G} (h : S.Leads s t)
    (h' : S.Leads t u) : S.Leads s u := by
  obtain ⟨acts, hacts⟩ := h
  obtain ⟨acts', hacts'⟩ := h'
  refine ⟨acts ++ acts', ?_⟩
  induction acts generalizing s with
  | nil =>
      cases hacts
      exact hacts'
  | cons x acts ih =>
      obtain ⟨v, hv, hrun⟩ := Option.bind_eq_some_iff.mp hacts
      exact Option.bind_eq_some_iff.mpr ⟨v, hv, ih hrun⟩

theorem System.Leads.reachable {S : System ι A L G} {s s' : Global ι L G} (h : S.Leads s s')
    (hs : Reachable S s) : Reachable S s' := by
  obtain ⟨acts, hacts⟩ := h
  exact reachable_of_run hs acts hacts

/-- When some run always goes on to a smaller measure, some run goes to the goal. -/
theorem leads_to_goal {S : System ι A L G} {I Goal : Global ι L G → Prop} (m : Global ι L G → Nat)
    (hm : ∀ s, Reachable S s → I s → ∃ s', S.Leads s s' ∧ (Goal s' ∨ I s' ∧ m s' < m s))
    {s : Global ι L G} (hs : Reachable S s) (hI : I s) : ∃ s', S.Leads s s' ∧ Goal s' := by
  induction h : m s using Nat.strongRecOn generalizing s with
  | ind k ih =>
      obtain ⟨t, ht, hgoal | ⟨hI', hlt⟩⟩ := hm s hs hI
      · exact ⟨t, ht, hgoal⟩
      · obtain ⟨u, hu, hgoal⟩ := ih (m t) (h ▸ hlt) (ht.reachable hs) hI' rfl
        exact ⟨u, ht.trans hu, hgoal⟩

theorem System.Leads.solo {S : System ι A L G} {s : Global ι L G} {i : ι} {r r' : L × G}
    (h : S.Leads s (s.set i r)) (h' : S.Leads (s.set i r) ((s.set i r).set i r')) :
    S.Leads s (s.set i r') := by
  rw [set_set] at h'
  exact h.trans h'

theorem leads_solo {S : System ι A L G} {s : Global ι L G} {i : ι} {I Goal : L × G → Prop}
    (m : L × G → Nat)
    (hm : ∀ r, S.Leads s (s.set i r) → I r →
      ∃ r', S.Leads s (s.set i r') ∧ (Goal r' ∨ I r' ∧ m r' < m r))
    {r : L × G} (hr : S.Leads s (s.set i r)) (hI : I r) : ∃ r', S.Leads s (s.set i r') ∧ Goal r' := by
  induction h : m r using Nat.strongRecOn generalizing r with
  | ind k ih =>
      obtain ⟨r', hr', hgoal | ⟨hI', hlt⟩⟩ := hm r hr hI
      · exact ⟨r', hr', hgoal⟩
      · exact ih (m r') (h ▸ hlt) hr' hI' rfl

variable {H : Type*}

/-- The runs from s₀ with a history variable, which each step updates from the
states around it. The side condition may look at the history as well. -/
inductive Traced (S : System ι A L G) (ok : Global ι L G → ι → A → H → Prop)
    (upd : Global ι L G → ι → A → Global ι L G → H → H) (s₀ : Global ι L G) (h₀ : H) :
    Global ι L G → H → Prop
  | init : Traced S ok upd s₀ h₀ s₀ h₀
  | next {s s' : Global ι L G} {i : ι} {a : A} {h : H} (hs : Traced S ok upd s₀ h₀ s h)
      (hok : ok s i a h) (hn : S.next s i a = some s') : Traced S ok upd s₀ h₀ s' (upd s i a s' h)

section Traced

variable {S : System ι A L G} {ok : Global ι L G → ι → A → H → Prop}
  {upd : Global ι L G → ι → A → Global ι L G → H → H} {s₀ s : Global ι L G} {h₀ h : H}

theorem Traced.mono {ok' : Global ι L G → ι → A → H → Prop} (hok : ∀ s i a h, ok s i a h → ok' s i a h)
    (ht : Traced S ok upd s₀ h₀ s h) : Traced S ok' upd s₀ h₀ s h := by
  induction ht with
  | init => exact .init
  | next _ h hn ih => exact .next ih (hok _ _ _ _ h) hn

theorem Traced.reachableWhen {ok' : Global ι L G → ι → A → Prop}
    (hok : ∀ s i a h, ok s i a h → ok' s i a) (hs₀ : ReachableWhen S ok' s₀)
    (ht : Traced S ok upd s₀ h₀ s h) : ReachableWhen S ok' s := by
  induction ht with
  | init => exact hs₀
  | next _ h hn ih => exact .next ih (hok _ _ _ _ h) hn

theorem Traced.reachable (hs₀ : Reachable S s₀) (ht : Traced S ok upd s₀ h₀ s h) : Reachable S s :=
  ht.reachableWhen (fun _ _ _ _ _ => trivial) hs₀

theorem Traced.invariant {I : Global ι L G → H → Prop} (hs₀ : Reachable S s₀) (hinit : I s₀ h₀)
    (hstep : ∀ s i a l g h, Reachable S s → ok s i a h → I s h →
      S.act i a (s.proc i) s.shared = some (l, g) → I (s.set i (l, g)) (upd s i a (s.set i (l, g)) h))
    (ht : Traced S ok upd s₀ h₀ s h) : I s h := by
  induction ht with
  | init => exact hinit
  | next ht hok hn ih =>
      obtain ⟨l, g, ha, rfl⟩ := next_eq_some.mp hn
      exact hstep _ _ _ _ _ _ (ht.reachable hs₀) hok ih ha

end Traced

def System.trace (S : System ι A L G) (ok : Global ι L G → ι → A → H → Bool)
    (upd : Global ι L G → ι → A → Global ι L G → H → H) :
    Global ι L G → H → List (ι × A) → Option (Global ι L G × H)
  | s, h, [] => some (s, h)
  | s, h, (i, a) :: rest =>
      if ok s i a h then (S.next s i a).bind fun s' => S.trace ok upd s' (upd s i a s' h) rest
      else none

theorem traced_of_trace {S : System ι A L G} {ok : Global ι L G → ι → A → H → Bool}
    {upd : Global ι L G → ι → A → Global ι L G → H → H} {s₀ : Global ι L G} {h₀ : H}
    {acts : List (ι × A)} {r : Global ι L G × H} (hr : S.trace ok upd s₀ h₀ acts = some r) :
    Traced S (fun s i a h => ok s i a h = true) upd s₀ h₀ r.1 r.2 := by
  have hrun {s : Global ι L G} {h : H}
      (ht : Traced S (fun s i a h => ok s i a h = true) upd s₀ h₀ s h) (acts : List (ι × A))
      (hr : S.trace ok upd s h acts = some r) :
      Traced S (fun s i a h => ok s i a h = true) upd s₀ h₀ r.1 r.2 := by
    induction acts generalizing s h with
    | nil =>
        cases hr
        exact ht
    | cons ia acts ih =>
        simp only [System.trace] at hr
        split at hr
        · obtain ⟨t, hn, hrest⟩ := Option.bind_eq_some_iff.mp hr
          exact ih (.next ht ‹_› hn) hrest
        · cases hr
  exact hrun .init acts hr

end HabaneroUpc.Interleaving

namespace HabaneroUpc.FullBarrier

variable {ι : Type*} {arrivals : ι → Nat} {waiting waiting' : ι → Prop} {i p q : ι}

/-- How often each process has arrived at a barrier that lets a process go when
all have arrived as often, and which processes are waiting at it. -/
structure Synced (arrivals : ι → Nat) (waiting : ι → Prop) : Prop where
  passed : ∀ p, ¬waiting p → ∀ q, arrivals p ≤ arrivals q
  lead : ∀ p q, arrivals p ≤ arrivals q + 1

theorem synced_init (waiting : ι → Prop) : Synced (fun _ => 0) waiting :=
  ⟨fun _ _ _ => Nat.le_refl 0, fun _ _ => Nat.zero_le _⟩

theorem Synced.arrive [DecidableEq ι] (h : Synced arrivals waiting) (hi : ¬waiting i)
    (hi' : waiting' i) (hothers : ∀ j, j ≠ i → (waiting' j ↔ waiting j)) :
    Synced (Function.update arrivals i (arrivals i + 1)) waiting' := by
  have hpassed := h.passed i hi
  constructor
  · intro p hp q
    have hpi : p ≠ i := by
      rintro rfl
      exact hp hi'
    have hle := h.passed p (fun hw => hp ((hothers p hpi).mpr hw)) q
    rw [Function.update_of_ne hpi]
    by_cases hqi : q = i
    · subst hqi
      rw [Function.update_self]
      exact Nat.le_succ_of_le hle
    · rwa [Function.update_of_ne hqi]
  · intro p q
    by_cases hpi : p = i <;> by_cases hqi : q = i
    · subst hpi hqi
      exact Nat.le_succ _
    · subst hpi
      rw [Function.update_self, Function.update_of_ne hqi]
      exact Nat.succ_le_succ (hpassed q)
    · subst hqi
      rw [Function.update_self, Function.update_of_ne hpi]
      exact Nat.le_succ_of_le (h.lead p q)
    · rw [Function.update_of_ne hpi, Function.update_of_ne hqi]
      exact h.lead p q

theorem Synced.leave (h : Synced arrivals waiting) (hall : ∀ q, arrivals i ≤ arrivals q)
    (hothers : ∀ j, j ≠ i → (waiting' j ↔ waiting j)) : Synced arrivals waiting' := by
  refine ⟨?_, h.lead⟩
  intro p hp q
  by_cases hpi : p = i
  · subst hpi
    exact hall q
  · exact h.passed p (fun hw => hp ((hothers p hpi).mpr hw)) q

theorem Synced.congr (h : Synced arrivals waiting) (hwaiting : ∀ j, waiting' j ↔ waiting j) :
    Synced arrivals waiting' :=
  ⟨fun p hp => h.passed p fun hw => hp ((hwaiting p).mpr hw), h.lead⟩

theorem Synced.same_phase (h : Synced arrivals waiting) (hp : ¬waiting p) (hq : ¬waiting q) :
    arrivals p = arrivals q :=
  Nat.le_antisymm (h.passed p hp q) (h.passed q hq p)

end HabaneroUpc.FullBarrier

namespace HabaneroUpc.Eventually

variable {σ α : Type*}

/-- What holds until the process moves holds at its next move. -/
theorem at_move {run : ℕ → σ} {P : σ → Prop} {moves : ℕ → Prop}
    (hkeep : ∀ t, P (run t) → ¬moves t → P (run (t + 1))) {t t' : ℕ} (hle : t ≤ t')
    (hP : P (run t)) (hmoves : moves t') : ∃ u, t ≤ u ∧ moves u ∧ P (run u) := by
  induction hle using Nat.decreasingInduction with
  | self => exact ⟨t', le_refl t', hmoves, hP⟩
  | of_succ t hlt ih =>
      by_cases hmove : moves t
      · exact ⟨t, le_refl t, hmove, hP⟩
      · obtain ⟨u, hu, hmoves', hPu⟩ := ih (hkeep t hP hmove)
        exact ⟨u, Nat.le_of_succ_le hu, hmoves', hPu⟩

/-- A process that moves again and again, and makes progress with each move,
leaves the region in which it does. -/
theorem leaves_of_rank [Preorder α] [WellFoundedLT α] (run : ℕ → σ) (inside : σ → Prop)
    (moves : ℕ → Prop) (rank : σ → α)
    (hmoves : ∀ t, inside (run t) → ∃ t', t ≤ t' ∧ moves t')
    (hkeep : ∀ t, inside (run t) → ¬moves t →
      inside (run (t + 1)) ∧ rank (run (t + 1)) = rank (run t))
    (hrank : ∀ t, inside (run t) → moves t →
      ¬inside (run (t + 1)) ∨ rank (run (t + 1)) < rank (run t))
    {t : ℕ} (hinside : inside (run t)) : ∃ t', t ≤ t' ∧ ¬inside (run t') := by
  generalize hr : rank (run t) = r
  induction r using WellFoundedLT.induction generalizing t with
  | ind r ih =>
      obtain ⟨t₁, hle, hmove⟩ := hmoves t hinside
      obtain ⟨u, hu, hmoveu, hin, hru⟩ :=
        at_move (P := fun s => inside s ∧ rank s = r)
          (fun t h hm => ⟨(hkeep t h.1 hm).1, (hkeep t h.1 hm).2.trans h.2⟩) hle ⟨hinside, hr⟩ hmove
      by_cases hout : inside (run (u + 1))
      · have hlt := (hrank u hin hmoveu).resolve_left (not_not_intro hout)
        rw [hru] at hlt
        obtain ⟨t', ht', hleft⟩ := ih _ hlt hout rfl
        exact ⟨t', by omega, hleft⟩
      · exact ⟨u + 1, by omega, hout⟩

end HabaneroUpc.Eventually
