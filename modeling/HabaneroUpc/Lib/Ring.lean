import Mathlib.Logic.Function.Basic
import Mathlib.Data.List.Basic
import Mathlib.Data.Int.Order.Lemmas

namespace HabaneroUpc.RingBuffer

variable {α : Type*}

def cell (n : Nat) (k : Int) : Nat := (k % n).toNat

theorem cell_lt {n : Nat} (hn : 0 < n) (k : Int) : cell n k < n := by
  have h := Int.emod_lt_of_pos k (b := n) (by omega)
  have h' := Int.emod_nonneg k (b := n) (by omega)
  simp only [cell]
  omega

theorem cell_of_lt {n k : Nat} (hk : k < n) : cell n k = k := by
  simp only [cell]
  rw [Int.emod_eq_of_lt (by omega) (by omega)]
  rfl

theorem cell_ne {n : Nat} {a b : Int} (hab : a < b) (hb : b < a + n) : cell n a ≠ cell n b := by
  intro h
  have ha' := Int.emod_nonneg a (b := n) (by omega)
  have hb' := Int.emod_nonneg b (b := n) (by omega)
  have he : a % n = b % n := by
    simp only [cell] at h
    omega
  obtain ⟨c, hc⟩ := Int.dvd_of_emod_eq_zero (Int.emod_eq_emod_iff_emod_sub_eq_zero.mp he.symm)
  have hpos : 0 < c := by
    by_contra hneg
    have hle : (n : Int) * c ≤ 0 := Int.mul_nonpos_of_nonneg_of_nonpos (by omega) (by omega)
    omega
  have hle : (n : Int) * 1 ≤ n * c := Int.mul_le_mul_of_nonneg_left (by omega) (by omega)
  omega

def window (n : Nat) (cells : Nat → α) (head : Int) : Nat → List α
  | 0 => []
  | len + 1 => cells (cell n (head + 1)) :: window n cells (head + 1) len

@[simp] theorem window_length (n : Nat) (cells : Nat → α) (head : Int) (len : Nat) :
    (window n cells head len).length = len := by
  induction len generalizing head with
  | zero => rfl
  | succ len ih => simp [window, ih]

theorem window_snoc (n : Nat) (cells : Nat → α) (head : Int) (len : Nat) :
    window n cells head (len + 1) = window n cells head len ++ [cells (cell n (head + len + 1))] := by
  induction len generalizing head with
  | zero => simp [window]
  | succ len ih =>
      have he : head + 1 + len + 1 = head + (len + 1 : Nat) + 1 := by omega
      rw [window, ih, window, List.cons_append, he]

/-- A write just past a window of fewer than n cells does not touch it. -/
theorem window_update {n : Nat} (cells : Nat → α) (head : Int) {len : Nat} (a : α) (last : Int)
    (hlen : head + len < last) (hlast : last ≤ head + n) :
    window n (Function.update cells (cell n last) a) head len = window n cells head len := by
  induction len generalizing head with
  | zero => rfl
  | succ len ih =>
      rw [window, window, Function.update_of_ne (cell_ne (by omega) (by omega)),
        ih (head + 1) (by push_cast at hlen; omega) (by omega)]

theorem mem_window_update {n : Nat} {cells : Nat → α} {head : Int} {len k : Nat} {a x : α}
    (h : x ∈ window n (Function.update cells k a) head len) :
    x = a ∨ x ∈ window n cells head len := by
  induction len generalizing head with
  | zero => simp [window] at h
  | succ len ih =>
      rcases List.mem_cons.mp h with hx | hx
      · by_cases hk : cell n (head + 1) = k
        · exact .inl (by simpa [hk] using hx)
        · exact .inr (by simp [window, hx, Function.update_of_ne hk])
      · rcases ih hx with hx | hx
        · exact .inl hx
        · exact .inr (List.mem_cons_of_mem _ hx)

theorem mem_window {n : Nat} {cells : Nat → α} {head : Int} {len : Nat} {x : α}
    (h : x ∈ window n cells head len) : ∃ k, x = cells (cell n k) := by
  induction len generalizing head with
  | zero => simp [window] at h
  | succ len ih =>
      rcases List.mem_cons.mp h with hx | hx
      · exact ⟨head + 1, hx⟩
      · exact ih hx

theorem window_of_list {n : Nat} (xs : List α) (cells : Nat → α) (hn : xs.length ≤ n)
    (h : ∀ k (hk : k < xs.length), cells k = xs[k]) : window n cells (-1) xs.length = xs := by
  have hpre (len : Nat) (hlen : len ≤ xs.length) : window n cells (-1) len = xs.take len := by
    induction len with
    | zero => rfl
    | succ len ih =>
        rw [window_snoc, ih (by omega), List.take_add_one]
        have hc : cell n (-1 + len + 1) = len := by
          rw [show (-1 + len + 1 : Int) = len by omega, cell_of_lt (by omega)]
        rw [hc, h len (by omega), List.getElem?_eq_getElem (by omega)]
        rfl
  rw [hpre xs.length (Nat.le_refl _), List.take_length]

end HabaneroUpc.RingBuffer
