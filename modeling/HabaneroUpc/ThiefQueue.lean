import HabaneroUpc.Lib.Ring
import Mathlib.Order.Fin.Basic

namespace HabaneroUpc

open RingBuffer

/-- The victim's queue of thieves. A cell that holds no thief is POPPED_ENTRY. -/
structure ThiefQueue (n : Nat) where
  head : Int
  tail : Int
  queuedThieves : Nat → Option (Fin n)
  thievesWaiting : Bool

namespace ThiefQueue

variable {n : Nat}

def init (n : Nat) : ThiefQueue n := ⟨-1, -1, fun _ => none, false⟩

def fullThiefQueue (q : ThiefQueue n) : Bool := q.tail - n = q.head

def emptyThiefQueue (q : ThiefQueue n) : Bool × ThiefQueue n :=
  if q.head = q.tail then (true, { q with head := -1, tail := -1 }) else (false, q)

def pushThief (i : Fin n) (q : ThiefQueue n) : ThiefQueue n :=
  { q with
    thievesWaiting := true
    tail := q.tail + 1
    queuedThieves := Function.update q.queuedThieves (cell n (q.tail + 1)) (some i) }

def popThief (q : ThiefQueue n) : Option (Fin n) × ThiefQueue n :=
  let (empty, q) := emptyThiefQueue q
  if empty then (none, q)
  else
    let p := q.queuedThieves (cell n (q.head + 1))
    let (last, q) := emptyThiefQueue { q with head := q.head + 1 }
    (p, if last then { q with thievesWaiting := false } else q)

/-- Number of iterations of a loop `while(head != tail)` that advances head. -/
def sizeThiefQueue (q : ThiefQueue n) : Nat := (q.tail - q.head).toNat

def checkCyclicSteals (v : Fin n) (queuedThieves : Nat → Option (Fin n)) : Nat → Int → Bool
  | 0, _ => false
  | left + 1, head =>
      if some v = queuedThieves (cell n (head + 1)) then true
      else checkCyclicSteals v queuedThieves left (head + 1)

def copyOthers (v : Fin n) (queuedThieves : Nat → Option (Fin n)) : Nat → Int → List (Option (Fin n))
  | 0, _ => []
  | left + 1, head =>
      let t := queuedThieves (cell n (head + 1))
      if some v ≠ t then t :: copyOthers v queuedThieves left (head + 1)
      else copyOthers v queuedThieves left (head + 1)

/-- The removal of a victim that is queued as a thief. Cells past the copied
entries are indeterminate in the source and never read before they are written. -/
def cancelThief (v : Fin n) (q : ThiefQueue n) : ThiefQueue n :=
  let tmp := copyOthers v q.queuedThieves (sizeThiefQueue q) q.head
  let q := { q with head := -1, tail := (tmp.length : Int) - 1 }
  if q.tail ≠ -1 then { q with queuedThieves := fun k => tmp[k]?.join }
  else { q with thievesWaiting := false }

def content (q : ThiefQueue n) : List (Option (Fin n)) :=
  window n q.queuedThieves q.head (sizeThiefQueue q)

theorem checkCyclicSteals_eq (v : Fin n) (cells : Nat → Option (Fin n)) (len : Nat) (head : Int) :
    checkCyclicSteals v cells len head = decide (some v ∈ window n cells head len) := by
  induction len generalizing head with
  | zero => simp [checkCyclicSteals, window]
  | succ len ih =>
      by_cases h : some v = cells (cell n (head + 1)) <;> simp [checkCyclicSteals, window, ih, h]

theorem copyOthers_eq (v : Fin n) (cells : Nat → Option (Fin n)) (len : Nat) (head : Int) :
    copyOthers v cells len head = (window n cells head len).filter (fun t => some v ≠ t) := by
  induction len generalizing head with
  | zero => rfl
  | succ len ih =>
      by_cases h : some v = cells (cell n (head + 1)) <;> simp [copyOthers, window, ih, h]

/-- What is kept of the representation even when entries have been overwritten:
the window is never inverted and holds thieves that satisfy P. -/
structure Sound (P : Fin n → Prop) (q : ThiefQueue n) : Prop where
  head_ge : -1 ≤ q.head
  head_le : q.head ≤ q.tail
  rebased : q.head = q.tail → q.head = -1
  waiting : q.thievesWaiting = true ↔ q.head ≠ q.tail
  entries : ∀ e ∈ content q, ∃ t, e = some t ∧ P t

theorem init_sound (P : Fin n → Prop) : Sound P (init n) :=
  ⟨by simp [init], by simp [init], by simp [init], by simp [init],
    by simp [init, content, window, sizeThiefQueue]⟩

theorem pushThief_sound {P : Fin n → Prop} {q : ThiefQueue n} (h : Sound P q) {i : Fin n} (hi : P i) :
    Sound P (pushThief i q) := by
  have hge := h.head_ge
  have hle := h.head_le
  refine ⟨hge, by simp only [pushThief]; omega, by simp only [pushThief]; omega, ?_, ?_⟩
  · simp only [pushThief, true_iff]
    omega
  · intro e he
    have hsize : sizeThiefQueue (pushThief i q) = sizeThiefQueue q + 1 := by
      simp only [sizeThiefQueue, pushThief]
      omega
    rw [content, hsize, window_snoc, List.mem_append, List.mem_singleton] at he
    have htail : q.head + sizeThiefQueue q + 1 = q.tail + 1 := by
      simp only [sizeThiefQueue]
      omega
    rcases he with he | he
    · rcases mem_window_update he with he | he
      · exact ⟨i, he, hi⟩
      · exact h.entries e he
    · simp only [pushThief, htail, Function.update_self] at he
      exact ⟨i, he, hi⟩

theorem popThief_empty {q : ThiefQueue n} (h : q.head = q.tail) :
    popThief q = (none, { q with head := -1, tail := -1 }) := by
  simp [popThief, emptyThiefQueue, h]

theorem popThief_last {q : ThiefQueue n} (h : q.head + 1 = q.tail) :
    popThief q = (q.queuedThieves (cell n (q.head + 1)),
      { q with head := -1, tail := -1, thievesWaiting := false }) := by
  have hne : q.head ≠ q.tail := by omega
  simp [popThief, emptyThiefQueue, hne, h]

theorem popThief_more {q : ThiefQueue n} (h : q.head + 1 < q.tail) :
    popThief q = (q.queuedThieves (cell n (q.head + 1)), { q with head := q.head + 1 }) := by
  have hne : q.head ≠ q.tail := by omega
  have hne' : q.head + 1 ≠ q.tail := by omega
  simp [popThief, emptyThiefQueue, hne, hne']

theorem content_cons {q : ThiefQueue n} (h : q.head < q.tail) :
    content q = q.queuedThieves (cell n (q.head + 1)) :: content { q with head := q.head + 1 } := by
  have hsize : sizeThiefQueue q = sizeThiefQueue { q with head := q.head + 1 } + 1 := by
    simp only [sizeThiefQueue]
    omega
  rw [content, hsize, window]
  rfl

theorem content_nil {q : ThiefQueue n} (h : q.head = q.tail) : content q = [] := by
  simp [content, sizeThiefQueue, h, window]

theorem popThief_sound {P : Fin n → Prop} {q : ThiefQueue n} (h : Sound P q) :
    Sound P (popThief q).2 := by
  have hge := h.head_ge
  have hle := h.head_le
  rcases eq_or_lt_of_le hle with he | hlt
  · have hr := h.rebased he
    rw [popThief_empty he]
    exact ⟨le_rfl, le_rfl, fun _ => rfl, by simpa [he] using h.waiting, by simp [content_nil]⟩
  · have hw : q.thievesWaiting = true := h.waiting.mpr (by omega)
    rcases eq_or_lt_of_le (show q.head + 1 ≤ q.tail by omega) with he | hmore
    · rw [popThief_last he]
      exact ⟨le_rfl, le_rfl, fun _ => rfl, by simp, by simp [content_nil]⟩
    · rw [popThief_more hmore]
      refine ⟨by simp only; omega, by simp only; omega, by simp only; omega, ?_, ?_⟩
      · simp only [hw, true_iff]
        omega
      · intro e he
        exact h.entries e (by rw [content_cons hlt]; exact List.mem_cons_of_mem _ he)

theorem popThief_some {P : Fin n → Prop} {q : ThiefQueue n} (h : Sound P q)
    (hw : q.thievesWaiting = true) : ∃ t, (popThief q).1 = some t ∧ P t := by
  have hne := h.waiting.mp hw
  have hlt : q.head < q.tail := by have := h.head_le; omega
  have hp : (popThief q).1 = q.queuedThieves (cell n (q.head + 1)) := by
    rcases eq_or_lt_of_le (show q.head + 1 ≤ q.tail by omega) with he | hmore
    · rw [popThief_last he]
    · rw [popThief_more hmore]
  rw [hp]
  exact h.entries _ (by rw [content_cons hlt]; exact List.mem_cons_self)

def thieves (q : ThiefQueue n) : List (Fin n) := (content q).filterMap id

theorem content_eq {P : Fin n → Prop} {q : ThiefQueue n} (h : Sound P q) :
    content q = (thieves q).map some := by
  have hmap (l : List (Option (Fin n))) (hl : ∀ e ∈ l, ∃ t, e = some t ∧ P t) :
      l = (l.filterMap id).map some := by
    induction l with
    | nil => rfl
    | cons e l ih =>
        obtain ⟨t, rfl, _⟩ := hl e List.mem_cons_self
        simpa using ih fun e he => hl e (List.mem_cons_of_mem _ he)
  exact hmap _ h.entries

theorem thieves_length {P : Fin n → Prop} {q : ThiefQueue n} (h : Sound P q) :
    ((thieves q).length : Int) = q.tail - q.head := by
  have hlen := congrArg List.length (content_eq h)
  have hle := h.head_le
  simp only [content, window_length, List.length_map, sizeThiefQueue] at hlen
  omega

theorem mem_thieves {P : Fin n → Prop} {q : ThiefQueue n} (h : Sound P q) {t : Fin n}
    (ht : t ∈ thieves q) : P t := by
  obtain ⟨u, hu, hp⟩ := h.entries (some t) (by rw [content_eq h]; exact List.mem_map_of_mem ht)
  cases hu
  exact hp

@[simp] theorem thieves_init : thieves (init n) = [] := rfl

theorem waiting_iff {P : Fin n → Prop} {q : ThiefQueue n} (h : Sound P q) :
    q.thievesWaiting = true ↔ thieves q ≠ [] := by
  have hlen := thieves_length h
  rw [h.waiting, Ne, Ne, ← List.length_eq_zero_iff]
  omega

theorem full_iff {P : Fin n → Prop} {q : ThiefQueue n} (h : Sound P q) :
    fullThiefQueue q = true ↔ (thieves q).length = n := by
  have hlen := thieves_length h
  simp only [fullThiefQueue, decide_eq_true_eq]
  omega

theorem thieves_push {P : Fin n → Prop} {q : ThiefQueue n} (h : Sound P q) (i : Fin n)
    (hcap : (thieves q).length < n) : thieves (pushThief i q) = thieves q ++ [i] := by
  have hlen := thieves_length h
  have hsize : sizeThiefQueue (pushThief i q) = sizeThiefQueue q + 1 := by
    simp only [sizeThiefQueue, pushThief]
    omega
  have htail : q.head + sizeThiefQueue q + 1 = q.tail + 1 := by
    simp only [sizeThiefQueue]
    omega
  have hc : content (pushThief i q) = content q ++ [some i] := by
    rw [content, hsize, window_snoc]
    simp only [pushThief, htail, Function.update_self]
    rw [window_update _ _ _ _ (by omega) (by omega)]
    rfl
  simp [thieves, hc]

theorem popThief_thieves {P : Fin n → Prop} {q : ThiefQueue n} (h : Sound P q) :
    (popThief q).1 = (thieves q).head? ∧ thieves (popThief q).2 = (thieves q).tail := by
  have hle := h.head_le
  rcases eq_or_lt_of_le hle with he | hlt
  · simp [popThief_empty he, thieves, content_nil he, content_nil]
  · obtain ⟨t, ht, _⟩ := h.entries _ (by rw [content_cons hlt]; exact List.mem_cons_self)
    rcases eq_or_lt_of_le (show q.head + 1 ≤ q.tail by omega) with he | hmore
    · have hc : content { q with head := q.head + 1 } = [] := content_nil he
      simp [popThief_last he, thieves, content_cons hlt, ht, hc, content_nil]
    · simp [popThief_more hmore, thieves, content_cons hlt, ht]

theorem check_iff {P : Fin n → Prop} {q : ThiefQueue n} (h : Sound P q) (v : Fin n) :
    checkCyclicSteals v q.queuedThieves (sizeThiefQueue q) q.head = decide (v ∈ thieves q) := by
  rw [checkCyclicSteals_eq]
  have hc : window n q.queuedThieves q.head (sizeThiefQueue q) = (thieves q).map some := content_eq h
  simp [hc]

theorem copyOthers_thieves {P : Fin n → Prop} {q : ThiefQueue n} (h : Sound P q) (v : Fin n) :
    copyOthers v q.queuedThieves (sizeThiefQueue q) q.head =
      ((thieves q).filter (· ≠ v)).map some := by
  have hc : window n q.queuedThieves q.head (sizeThiefQueue q) = (thieves q).map some := content_eq h
  rw [copyOthers_eq, hc, List.filter_map]
  simp [Function.comp_def, eq_comm]

theorem cancelThief_nil {P : Fin n → Prop} {q : ThiefQueue n} (h : Sound P q) {v : Fin n}
    (hnil : (thieves q).filter (· ≠ v) = []) :
    cancelThief v q = { q with head := -1, tail := -1, thievesWaiting := false } := by
  have htmp := copyOthers_thieves h v
  rw [hnil] at htmp
  simp [cancelThief, htmp]

theorem cancelThief_kept {P : Fin n → Prop} {q : ThiefQueue n} (h : Sound P q) {v : Fin n}
    {kept : List (Fin n)} (hkept : (thieves q).filter (· ≠ v) = kept) (hne : kept ≠ []) :
    cancelThief v q = { q with
      head := -1, tail := (kept.length : Int) - 1, queuedThieves := fun k => kept[k]? } := by
  have hpos : (kept.length : Int) - 1 ≠ -1 := by
    have := List.length_pos_iff.mpr hne
    omega
  have hcells : (fun k => (kept.map some)[k]?.join) = fun k : Nat => kept[k]? := by
    funext k
    rw [List.getElem?_map]
    cases kept[k]? <;> rfl
  have htmp := copyOthers_thieves h v
  rw [hkept] at htmp
  simp only [cancelThief, htmp, List.length_map, ne_eq, hpos, not_false_eq_true, if_true, hcells]

theorem content_kept (kept : List (Fin n)) (hcap : kept.length ≤ n) (waiting : Bool) :
    content ⟨-1, (kept.length : Int) - 1, fun k => kept[k]?, waiting⟩ = kept.map some := by
  have hsize : ((kept.length : Int) - 1 - -1).toNat = (kept.map some).length := by simp
  simp only [content, sizeThiefQueue, hsize]
  exact window_of_list (kept.map some) _ (by simpa using hcap) (by intro k hk; simp_all)

theorem thieves_cancel {P : Fin n → Prop} {q : ThiefQueue n} (h : Sound P q) (v : Fin n)
    (hcap : ((thieves q).filter (· ≠ v)).length ≤ n) :
    thieves (cancelThief v q) = (thieves q).filter (· ≠ v) := by
  by_cases hnil : (thieves q).filter (· ≠ v) = []
  · rw [cancelThief_nil h hnil, hnil]
    simp [thieves, content_nil]
  · rw [cancelThief_kept h rfl hnil, thieves, content_kept _ hcap, List.filterMap_map]
    simp

theorem cancelThief_sound {P : Fin n → Prop} {q : ThiefQueue n} (h : Sound P q) (v : Fin n) :
    Sound P (cancelThief v q) := by
  generalize hkept : (thieves q).filter (· ≠ v) = kept
  have hP : ∀ t ∈ kept, P t := fun t ht => by
    rw [← hkept] at ht
    exact mem_thieves h (List.mem_of_mem_filter ht)
  by_cases hnil : kept = []
  · rw [cancelThief_nil h (hkept.trans hnil)]
    exact ⟨le_rfl, le_rfl, fun _ => rfl, by simp, by simp [content_nil]⟩
  · have hlen := List.length_pos_iff.mpr hnil
    have hw : q.thievesWaiting = true := by
      rw [waiting_iff h]
      intro he
      rw [he] at hkept
      exact hnil hkept.symm
    rw [cancelThief_kept h hkept hnil]
    refine ⟨le_rfl, by simp only; omega, fun _ => rfl, by simp only [hw, true_iff]; omega, ?_⟩
    intro e he
    rcases Nat.lt_or_ge n kept.length with hover | hcap
    · -- an overfull copy still fills every cell with a thief
      obtain ⟨k, rfl⟩ := mem_window he
      have hk : cell n k < kept.length := (cell_lt (Fin.pos kept[0]) k).trans hover
      exact ⟨kept[cell n k], List.getElem?_eq_getElem hk, hP _ (List.getElem_mem hk)⟩
    · rw [content_kept kept hcap] at he
      obtain ⟨t, ht, rfl⟩ := List.mem_map.mp he
      exact ⟨t, rfl, hP t ht⟩

end ThiefQueue

end HabaneroUpc
