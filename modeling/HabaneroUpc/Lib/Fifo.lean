import Mathlib.Data.List.Basic

namespace HabaneroUpc.Fifo

/-- A sequential object: every call has a result and a next state, or violates
a precondition of the object. -/
structure Object (σ κ ρ : Type*) where
  init : σ
  call : κ → σ → Option (ρ × σ)

variable {σ τ κ ρ α : Type*}

namespace Object

def run (O : Object σ κ ρ) : σ → List κ → Option (List ρ × σ)
  | s, [] => some ([], s)
  | s, k :: calls =>
      (O.call k s).bind fun r => (O.run r.2 calls).map fun rest => (r.1 :: rest.1, rest.2)

@[simp] theorem run_nil (O : Object σ κ ρ) (s : σ) : O.run s [] = some ([], s) := rfl

theorem run_cons (O : Object σ κ ρ) (s : σ) (k : κ) (calls : List κ) :
    O.run s (k :: calls) =
      (O.call k s).bind fun r => (O.run r.2 calls).map fun rest => (r.1 :: rest.1, rest.2) := rfl

theorem run_append (O : Object σ κ ρ) (s : σ) (calls calls' : List κ) :
    O.run s (calls ++ calls') =
      (O.run s calls).bind fun r => (O.run r.2 calls').map fun r' => (r.1 ++ r'.1, r'.2) := by
  induction calls generalizing s with
  | nil => cases h : O.run s calls' <;> simp [h]
  | cons k calls ih =>
      simp only [List.cons_append, run_cons]
      cases hk : O.call k s with
      | none => rfl
      | some r =>
          simp only [Option.bind_some, ih]
          cases hr : O.run r.2 calls with
          | none => rfl
          | some r' => cases h : O.run r'.2 calls' <;> simp [h]

theorem run_snoc {O : Object σ κ ρ} {s s' s'' : σ} {calls : List κ} {results : List ρ} {k : κ}
    {x : ρ} (h : O.run s calls = some (results, s')) (hk : O.call k s' = some (x, s'')) :
    O.run s (calls ++ [k]) = some (results ++ [x], s'') := by
  simp [run_append, h, run_cons, hk]

/-- Induction over runs: what holds at the beginning and is kept by one more
call holds of every run with its results and its last state. -/
theorem run_induction {O : Object σ κ ρ} {I : List κ → List ρ → σ → Prop} (hinit : I [] [] O.init)
    (hcall : ∀ calls results s k r, I calls results s → O.call k s = some r →
      I (calls ++ [k]) (results ++ [r.1]) r.2)
    {calls : List κ} {r : List ρ × σ} (h : O.run O.init calls = some r) : I calls r.1 r.2 := by
  have hrun {before : List κ} {results : List ρ} {s : σ} (hs : I before results s) (calls : List κ)
      {r : List ρ × σ} (h : O.run s calls = some r) : I (before ++ calls) (results ++ r.1) r.2 := by
    induction calls generalizing before results s r with
    | nil =>
        cases h
        simpa using hs
    | cons k calls ih =>
        obtain ⟨t, ht, hrest⟩ := Option.bind_eq_some_iff.mp h
        obtain ⟨r', hr', rfl⟩ := Option.map_eq_some_iff.mp hrest
        simpa using ih (hcall before results s k t hs ht) hr'
  simpa using hrun hinit calls h

/-- An object refines another one through an abstraction function if on states
that satisfy its invariant every call has the same result, or none in either. -/
structure Refines (O : Object σ κ ρ) (O' : Object τ κ ρ) (I : σ → Prop) (abs : σ → τ) : Prop where
  inv_init : I O.init
  abs_init : abs O.init = O'.init
  inv_call : ∀ k s r, I s → O.call k s = some r → I r.2
  abs_call : ∀ k s, I s → (O.call k s).map (fun r => (r.1, abs r.2)) = O'.call k (abs s)

theorem Refines.run {O : Object σ κ ρ} {O' : Object τ κ ρ} {I : σ → Prop} {abs : σ → τ}
    (h : Refines O O' I abs) (calls : List κ) :
    (O.run O.init calls).map (fun r => (r.1, abs r.2)) = O'.run O'.init calls := by
  have hrun {s : σ} (hs : I s) (calls : List κ) :
      (O.run s calls).map (fun r => (r.1, abs r.2)) = O'.run (abs s) calls := by
    induction calls generalizing s with
    | nil => rfl
    | cons k calls ih =>
        have hcall := h.abs_call k s hs
        rw [run_cons, run_cons, ← hcall]
        cases hk : O.call k s with
        | none => rfl
        | some r =>
            have hrest := ih (h.inv_call k s r hs hk)
            simp only [Option.bind_some, Option.map_some, Option.map_map, ← hrest]
            rfl
  rw [hrun h.inv_init, h.abs_init]

end Object

inductive Call (α : Type*)
  | push (a : α)
  | pop
  deriving DecidableEq

/-- The queue holds at most as many values as its capacity, oldest first. Only
pop has a result, which is none on the empty queue. -/
def queue (capacity : Nat) : Object (List α) (Call α) (Option α) where
  init := []
  call
    | .push a, xs => if xs.length < capacity then some (none, xs ++ [a]) else none
    | .pop, xs => some (xs.head?, xs.tail)

def pushed (calls : List (Call α)) : List α :=
  calls.filterMap fun k => match k with
    | .push a => some a
    | .pop => none

theorem pushed_append (calls calls' : List (Call α)) :
    pushed (calls ++ calls') = pushed calls ++ pushed calls' :=
  List.filterMap_append ..

/-- What has been pushed is what has been popped, followed by what is queued. -/
theorem queue_conserves {capacity : Nat} {calls : List (Call α)} {r : List (Option α) × List α}
    (h : (queue capacity).run [] calls = some r) : pushed calls = r.1.filterMap id ++ r.2 := by
  refine Object.run_induction (O := queue capacity)
    (I := fun calls results xs => pushed calls = results.filterMap id ++ xs) rfl ?_ h
  intro calls results xs k r hxs hk
  rw [pushed_append, hxs]
  cases k with
  | push a =>
      simp only [queue] at hk
      split at hk <;> cases hk
      simp [pushed]
  | pop =>
      cases hk
      cases xs <;> simp [pushed]

inductive FilterCall (α : Type*)
  | call (k : Call α)
  | remove (a : α)
  deriving DecidableEq

@[elab_as_elim, cases_eliminator]
theorem FilterCall.byOperation {motive : FilterCall α → Prop} (push : ∀ a, motive (.call (.push a)))
    (pop : motive (.call .pop)) (remove : ∀ a, motive (.remove a)) (k : FilterCall α) : motive k :=
  match k with
  | .call (.push a) => push a
  | .call .pop => pop
  | .remove a => remove a

def filterQueue [DecidableEq α] (capacity : Nat) : Object (List α) (FilterCall α) (Option α) where
  init := []
  call
    | .call k, xs => (queue capacity).call k xs
    | .remove a, xs => some (none, xs.filter (· ≠ a))

end HabaneroUpc.Fifo
