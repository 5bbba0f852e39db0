import Mathlib.Data.Int.Range
import Mathlib.Data.Int.Bitwise
import Mathlib.Data.List.Nodup
import Mathlib.Data.List.Perm.Subperm
import Mathlib.Data.List.ProdSigma
import Mathlib.Logic.Function.Basic
import Mathlib.Tactic.Linarith
import Mathlib.Tactic.Ring

namespace HabaneroUpc.Loops

variable {a b c d k t m n : Int}

theorem range_eq_nil (h : b ≤ a) : Int.range a b = [] := by
  simp [Int.range, h]

theorem range_eq_nil_iff : Int.range a b = [] ↔ b ≤ a := by
  constructor
  · intro h
    by_contra hlt
    have hmem : a ∈ Int.range a b := Int.mem_range_iff.mpr ⟨le_refl a, not_le.mp hlt⟩
    simp [h] at hmem
  · exact range_eq_nil

theorem range_succ (h : a ≤ b) : Int.range a (b + 1) = Int.range a b ++ [b] := by
  have hlen : (b + 1 - a).toNat = (b - a).toNat + 1 := by omega
  have hlast : a + ((b - a).toNat : Int) = b := by omega
  simp only [Int.range, hlen, List.range_succ, List.map_append, List.map_cons, List.map_nil, hlast]

theorem range_cons (h : a < b) : Int.range a b = a :: Int.range (a + 1) b := by
  have hlen : (b - a).toNat = (b - (a + 1)).toNat + 1 := by omega
  simp only [Int.range, hlen, List.range_succ_eq_map, List.map_cons, List.map_map]
  congr 1
  · simp
  · apply List.map_congr_left
    intro k _
    simp only [Function.comp_apply, Nat.succ_eq_add_one, Nat.cast_add, Nat.cast_one]
    omega

theorem range_nodup : (Int.range a b).Nodup := by
  apply List.Nodup.map _ List.nodup_range
  intro k l h
  simpa using h

theorem range_append (hab : a ≤ b) (hbc : b ≤ c) :
    Int.range a b ++ Int.range b c = Int.range a c := by
  induction c, hbc using Int.leInduction with
  | base => simp [range_eq_nil (le_refl b)]
  | succ c hbc ih => rw [range_succ hbc, range_succ (hab.trans hbc), ← List.append_assoc, ih]

theorem map_add_range : (Int.range a b).map (c + ·) = Int.range (c + a) (c + b) := by
  have hlen : c + b - (c + a) = b - a := by omega
  simp [Int.range, hlen, Function.comp_def, add_assoc]

/-- A loop over the tiles with the indices of each tile inside it. -/
theorem flatMap_tiles (ht : 0 ≤ t) (h : a ≤ b) :
    (Int.range a b).flatMap (fun o => Int.range (o * t) (o * t + t)) =
      Int.range (a * t) (b * t) := by
  induction b, h using Int.leInduction with
  | base => simp [range_eq_nil]
  | succ b hab ih =>
      have hlow : a * t ≤ b * t := Int.mul_le_mul_of_nonneg_right hab ht
      rw [range_succ hab, List.flatMap_append, ih, List.flatMap_cons, List.flatMap_nil,
        List.append_nil, range_append hlow (by omega), add_mul, one_mul]

theorem range_perm_iff :
    (Int.range a b).Perm (Int.range c d) ↔ b ≤ a ∧ d ≤ c ∨ a = c ∧ b = d := by
  constructor
  · intro h
    by_cases hab : b ≤ a
    · rw [range_eq_nil hab] at h
      exact .inl ⟨hab, range_eq_nil_iff.mp h.nil_eq.symm⟩
    · right
      have hmem : ∀ i, (a ≤ i ∧ i < b) ↔ (c ≤ i ∧ i < d) := by
        intro i
        rw [← Int.mem_range_iff, ← Int.mem_range_iff, h.mem_iff]
      have hfirst := hmem a
      have hlast := hmem (b - 1)
      have hc := hmem c
      have hd := hmem (d - 1)
      omega
  · rintro (⟨hab, hcd⟩ | ⟨rfl, rfl⟩)
    · rw [range_eq_nil hab, range_eq_nil hcd]
    · rfl

/-- One loop over m * n that takes its index apart is the nest of the loop over
m around the loop over n. -/
theorem map_digits (hm : 0 ≤ m) (hn : 0 < n) :
    (Int.range 0 (m * n)).map (fun i => (i / n, i % n)) = Int.range 0 m ×ˢ Int.range 0 n := by
  have htiles := flatMap_tiles hn.le hm
  rw [zero_mul] at htiles
  rw [← htiles, List.map_flatMap]
  apply List.flatMap_congr
  intro o _
  have htile : Int.range (o * n) (o * n + n) = (Int.range 0 n).map (o * n + ·) := by
    rw [map_add_range, add_zero]
  rw [htile, List.map_map]
  apply List.map_congr_left
  intro j hj
  rw [Int.mem_range_iff] at hj
  have hdiv : (o * n + j) / n = o ∧ (o * n + j) % n = j := by
    rw [Int.ediv_emod_unique hn]
    exact ⟨by ring, hj⟩
  simp [hdiv]

theorem map_product {α β γ : Type*} (xs : List α) (ys : List β) (f : β → γ) :
    (xs ×ˢ ys).map (fun p => (p.1, f p.2)) = xs ×ˢ ys.map f := by
  induction xs with
  | nil => rfl
  | cons x xs ih =>
      simp only [List.product_cons, List.map_append, List.map_map, ih]
      rfl

/-- A loop around a loop whose bounds may depend on the first index. -/
def rows {α β : Type*} (xs : List α) (ys : α → List β) : List (α × β) := xs.flatMap fun x => (ys x).map (x, ·)

theorem nodup_rows {α β : Type*} {xs : List α} {ys : α → List β} (hxs : xs.Nodup)
    (hys : ∀ x, (ys x).Nodup) : (rows xs ys).Nodup := by
  apply List.nodup_flatMap.mpr
  constructor
  · intro x _
    exact (hys x).map fun y y' h => (Prod.mk.inj h).2
  · apply hxs.imp
    intro x x' hne p hp hp'
    obtain ⟨y, _, rfl⟩ := List.mem_map.mp hp
    obtain ⟨y', _, heq⟩ := List.mem_map.mp hp'
    exact hne (Prod.mk.inj heq).1.symm

theorem emod_mul_ediv (hn : 0 < n) (hk : 0 < k) (i : Int) :
    i % (n * k) / k = i / k % n := by
  have hsplit := Int.emod_add_mul_ediv i (n * k)
  have hge := Int.emod_nonneg i (mul_pos hn hk).ne'
  have hlt := Int.emod_lt_of_pos i (mul_pos hn hk)
  have hdiv : 0 ≤ i % (n * k) / k := Int.ediv_nonneg hge hk.le
  have hdivlt : i % (n * k) / k < n := Int.ediv_lt_of_lt_mul hk hlt
  have hrow : i / k = i % (n * k) / k + n * (i / (n * k)) := by
    conv_lhs => rw [← hsplit, show n * k * (i / (n * k)) = n * (i / (n * k)) * k by ring]
    rw [Int.add_mul_ediv_right _ _ hk.ne']
  rw [hrow, Int.add_mul_emod_self_left, Int.emod_eq_of_lt hdiv hdivlt]

theorem map_digits3 (hm : 0 ≤ m) (hn : 0 < n) (hk : 0 < k) :
    (Int.range 0 (m * (n * k))).map (fun i => (i / (n * k), i / k % n, i % k)) =
      Int.range 0 m ×ˢ Int.range 0 n ×ˢ Int.range 0 k := by
  rw [← map_digits hn.le hk, ← map_product, ← map_digits hm (mul_pos hn hk), List.map_map]
  apply List.map_congr_left
  intro i _
  simp only [Function.comp_apply, emod_mul_ediv hn hk i, Int.emod_emod_of_dvd i (dvd_mul_left k n)]

section Decoding

variable {α β : Type*} {digits : Int → Option α} {tuples : List α} {indices : List Int}

theorem mapM_eq_some_iff (f : β → Option α) (xs : List β) (ys : List α) :
    xs.mapM f = some ys ↔ xs.map f = ys.map some := by
  induction xs generalizing ys with
  | nil => cases ys <;> simp
  | cons x xs ih =>
      cases ys with
      | nil => cases hx : f x <;> cases hxs : xs.mapM f <;> simp [List.mapM_cons, hx, hxs]
      | cons y ys =>
          have ih := ih ys
          cases hx : f x <;> cases hxs : xs.mapM f <;> simp_all [List.mapM_cons]

theorem mapM_some (f : β → Option α) (g : β → α) (xs : List β) (h : ∀ x ∈ xs, f x = some (g x)) :
    xs.mapM f = some (xs.map g) := by
  rw [mapM_eq_some_iff, List.map_map]
  exact List.map_congr_left h

theorem mapM_total {f : β → Option α} {xs : List β} (h : ∀ x ∈ xs, ∃ y, f x = some y) :
    ∃ ys, xs.mapM f = some ys := by
  induction xs with
  | nil => exact ⟨[], rfl⟩
  | cons x xs ih =>
      obtain ⟨⟨y, hy⟩, hrest⟩ := List.forall_mem_cons.mp h
      obtain ⟨ys, hys⟩ := ih hrest
      exact ⟨y :: ys, by simp [List.mapM_cons, hy, hys]⟩

structure OneToOne (digits : Int → Option α) (indices : List Int) (tuples : List α) : Prop where
  nodup : indices.Nodup
  length : indices.length = tuples.length
  inside : ∀ i ∈ indices, ∃ t ∈ tuples, digits i = some t
  injective : ∀ i ∈ indices, ∀ j ∈ indices, digits i = digits j → i = j

theorem OneToOne.congr {indices' : List Int} (hperm : indices.Perm indices') :
    OneToOne digits indices tuples ↔ OneToOne digits indices' tuples := by
  have hof : ∀ {l l' : List Int}, l.Perm l' → OneToOne digits l tuples → OneToOne digits l' tuples := by
    rintro l l' hl ⟨hnodup, hlength, hinside, hinjective⟩
    simp only [hl.nodup_iff, hl.length_eq, hl.mem_iff] at hnodup hlength hinside hinjective
    exact ⟨hnodup, hlength, hinside, hinjective⟩
  exact ⟨hof hperm, hof hperm.symm⟩

theorem OneToOne.perm (h : OneToOne digits indices tuples) :
    (indices.map digits).Perm (tuples.map some) := by
  have hnodup : (indices.map digits).Nodup := h.nodup.map_on h.injective
  have hsub : indices.map digits ⊆ tuples.map some := by
    intro d hd
    obtain ⟨i, hi, rfl⟩ := List.mem_map.mp hd
    obtain ⟨t, ht, heq⟩ := h.inside i hi
    exact List.mem_map.mpr ⟨t, ht, heq.symm⟩
  apply (List.subperm_of_subset hnodup hsub).perm_of_length_le
  rw [List.length_map, List.length_map, h.length]

/-- A loop that takes its index apart visits the tuples, each once, if and only if
it is one to one. -/
theorem mapM_perm_iff (hnodup : tuples.Nodup) :
    (∃ visits, indices.mapM digits = some visits ∧ visits.Perm tuples) ↔
      OneToOne digits indices tuples := by
  constructor
  · rintro ⟨visits, hvisits, hperm⟩
    rw [mapM_eq_some_iff] at hvisits
    have hsome : (indices.map digits).Nodup := by
      rw [hvisits]
      exact (hperm.nodup_iff.mpr hnodup).map (Option.some_injective α)
    constructor
    · exact hsome.of_map
    · rw [← hperm.length_eq, ← List.length_map digits, hvisits, List.length_map]
    · intro i hi
      have hmem : digits i ∈ visits.map some := hvisits ▸ List.mem_map_of_mem hi
      obtain ⟨t, ht, heq⟩ := List.mem_map.mp hmem
      exact ⟨t, hperm.mem_iff.mp ht, heq.symm⟩
    · intro i hi j hj heq
      exact List.inj_on_of_nodup_map hsome hi hj heq
  · intro h
    obtain ⟨visits, hvisits⟩ := mapM_total fun i hi => (h.inside i hi).imp fun _ ht => ht.2
    refine ⟨visits, hvisits, ?_⟩
    have hperm := h.perm
    rw [(mapM_eq_some_iff digits indices visits).mp hvisits] at hperm
    exact (List.map_perm_map_iff (Option.some_injective α)).mp hperm

end Decoding

end HabaneroUpc.Loops

namespace HabaneroUpc.Reduction

variable {α : Type*} {op : α → α → α} {n k : Nat} {copies : Nat → α} {acc : α}

def merge (op : α → α → α) (n : Nat) (copies : Nat → α) (acc : α) : α :=
  (List.range n).foldl (fun acc k => op acc (copies k)) acc

def give (op : α → α → α) (copies : Nat → α) (c : Nat × α) : Nat → α :=
  Function.update copies c.1 (op (copies c.1) c.2)

theorem merge_succ (n : Nat) (copies : Nat → α) (acc : α) :
    merge op (n + 1) copies acc = op (merge op n copies acc) (copies n) := by
  rw [merge, merge, List.range_succ, List.foldl_append]
  rfl

theorem merge_congr {copies' : Nat → α} (h : ∀ k < n, copies k = copies' k) :
    merge op n copies acc = merge op n copies' acc := by
  induction n with
  | zero => rfl
  | succ n ih => rw [merge_succ, merge_succ, ih fun k hk => h k (by omega), h n (by omega)]

section

variable [Std.Commutative op] [Std.Associative op]

theorem op_right_comm (op : α → α → α) [Std.Commutative op] [Std.Associative op] (x y z : α) :
    op (op x y) z = op (op x z) y :=
  calc op (op x y) z = op x (op y z) := Std.Associative.assoc x y z
    _ = op x (op z y) := congrArg (op x) (Std.Commutative.comm y z)
    _ = op (op x z) y := (Std.Associative.assoc x z y).symm

/-- It does not matter which copy a value goes into. -/
theorem merge_give (x : α) (hk : k < n) :
    merge op n (give op copies (k, x)) acc = op (merge op n copies acc) x := by
  induction n with
  | zero => omega
  | succ n ih =>
      rw [merge_succ, merge_succ]
      by_cases hkn : k = n
      · subst k
        have hrest : merge op n (give op copies (n, x)) acc = merge op n copies acc :=
          merge_congr fun j hj => Function.update_of_ne (Nat.ne_of_lt hj) _ _
        rw [hrest, give, Function.update_self]
        exact (Std.Associative.assoc _ _ _).symm
      · rw [ih (by omega), op_right_comm op, give, Function.update_of_ne (Ne.symm hkn)]

theorem merge_gives {values : List (Nat × α)} (h : ∀ c ∈ values, c.1 < n) :
    merge op n (values.foldl (give op) copies) acc =
      (values.map Prod.snd).foldl op (merge op n copies acc) := by
  induction values generalizing copies with
  | nil => rfl
  | cons c values ih =>
      obtain ⟨hc, hvalues⟩ := List.forall_mem_cons.mp h
      rw [List.foldl_cons, ih hvalues, List.map_cons, List.foldl_cons, merge_give c.2 hc]

theorem foldl_perm {l l' : List α} (h : l.Perm l') (acc : α) : l.foldl op acc = l'.foldl op acc :=
  h.foldl_eq' (fun x _ y _ z => op_right_comm op z x y) acc

theorem foldl_op (l : List α) (acc x : α) : l.foldl op (op acc x) = op (l.foldl op acc) x := by
  induction l generalizing acc with
  | nil => rfl
  | cons y l ih => rw [List.foldl_cons, List.foldl_cons, op_right_comm op, ih]

end

theorem merge_const {e : α} (he : ∀ x, op (op x e) e = op x e) (hn : 0 < n) :
    merge op n (fun _ => e) acc = op acc e := by
  induction n with
  | zero => omega
  | succ n ih =>
      rw [merge_succ]
      cases n with
      | zero => rfl
      | succ n => rw [ih (by omega), he]

end HabaneroUpc.Reduction
