import HabaneroUpc.HcppSort
import HabaneroUpc.Lib.Buckets

namespace HabaneroUpc.SampleSort

open Interleaving ForkJoin Buckets

structure Config where
  threads : Nat
  workers : Nat
  keysPerThread : Nat
  samplesPerThread : Nat
  granularity : Int
  workers_pos : 0 < workers
  keysPerThread_pos : 0 < keysPerThread
  samplesPerThread_pos : 0 < samplesPerThread
  granularity_pos : 1 ≤ granularity

variable {κ : Type}

structure Buffer where
  thread : Nat
  offset : Nat
  count : Nat

structure Copy where
  src : Buffer
  dst : Nat

def contents (data : Keys κ) (n : Nat) : List κ := (List.range n).map fun k : Nat => data k

def Config.candidates (c : Config) (rand : Nat → Nat) (keys : Nat → Keys κ) : Keys κ := fun i =>
  let s := rand i.toNat % c.keysPerThread
  keys (s % c.threads) (s / c.threads : Nat)

/-- The splitters of a thread, with what lies past their end. -/
def Config.mySplitters (c : Config) (candidates : Keys κ) (beyond : κ) (i : Nat) : κ :=
  if i < c.threads then candidates (i * c.samplesPerThread : Nat) else beyond

def copy (sortedKeys : Nat → Keys κ) (buffer : Keys κ) (x : Copy) : Keys κ := fun k =>
  if x.dst ≤ k ∧ k < x.dst + x.src.count then
    sortedKeys x.src.thread (x.src.offset + (k - x.dst))
  else buffer k

def copyLoop (dst : Nat → Buffer) : List Nat → Nat → List Copy
  | [], _ => []
  | j :: js, offset =>
      if (dst j).count ≠ 0 then ⟨dst j, offset⟩ :: copyLoop dst js (offset + (dst j).count)
      else copyLoop dst js offset

variable [LinearOrder κ]

def advance (splitters : Nat → κ) (key : κ) : Nat → Nat → Nat
  | 0, k => k
  | left + 1, k => if splitters (k + 1) ≤ key then advance splitters key left (k + 1) else k

def Config.histogram (c : Config) (splitters : Nat → κ) :
    List κ → Nat → Nat → (Nat → Nat) → Nat → Nat
  | [], _, _, hist => hist
  | key :: keys, i, k, hist =>
      if key < splitters (k + 1) then
        c.histogram splitters keys (i + 1) k (Function.update hist k (hist k + 1))
      else
        let k := advance splitters key (c.threads - 1 - k) k
        if k = c.threads - 1 then Function.update hist k (c.keysPerThread - i)
        else c.histogram splitters keys (i + 1) k (Function.update hist k (hist k + 1))

def Config.Sorts (c : Config) (data : Keys κ) (right : Int) (data' : Keys κ) : Prop :=
  ∃ s, Reachable (sortSystem (Fin c.workers) c.granularity data 0 right) s ∧ complete s ∧
    s.shared.data = data'

/-- sample_sort up to the copies of redistribute: what its calls of hcpp_sort
have made of the candidates and of the keys, and all that it does not decide. -/
structure Execution (c : Config) (keys : Nat → Keys κ) where
  rand : Nat → Nat
  candidates : Keys κ
  candidates_sorts :
    c.Sorts (c.candidates rand keys) (c.threads * c.samplesPerThread - 1) candidates
  beyond : Nat → κ
  sortedKeys : Nat → Keys κ
  sortedKeys_sorts : ∀ j < c.threads, c.Sorts (keys j) (c.keysPerThread - 1) (sortedKeys j)
  buffer : Nat → Keys κ

namespace Execution

variable {c : Config} {keys : Nat → Keys κ} (E : Execution c keys)

def hist (j : Nat) : Nat → Nat :=
  c.histogram (c.mySplitters E.candidates (E.beyond j)) (contents (E.sortedKeys j) c.keysPerThread)
    0 0 fun _ => 0

def allBuffersSrc (j t : Nat) : Buffer := ⟨j, ∑ u ∈ Finset.range t, E.hist j u, E.hist j t⟩

def allBuffersDst (t j : Nat) : Buffer := E.allBuffersSrc j t

def sortedKeyCounts (t : Nat) : Nat := ∑ j ∈ Finset.range c.threads, (E.allBuffersDst t j).count

def allocated (t : Nat) : Nat := ∑ u ∈ Finset.range c.threads, E.hist t u

def copies (t : Nat) : List Copy := copyLoop (E.allBuffersDst t) (List.range c.threads) 0

def Fits (t : Nat) : Prop := ∀ x ∈ E.copies t, x.dst + x.src.count ≤ E.allocated t

/-- The keys that the threads have in the end, when the copies were made in some
order and each thread has sorted what it has received. -/
def Ends (out : Nat → Keys κ) : Prop :=
  ∀ t < c.threads, ∃ order : List Copy, order.Perm (E.copies t) ∧
    c.Sorts (order.foldl (copy E.sortedKeys) (E.buffer t)) (E.sortedKeyCounts t - 1) (out t)

end Execution

section Sorting

variable {c : Config} {data data' : Keys κ} {n : Nat}

omit [LinearOrder κ] in
theorem contents_range (data : Keys κ) (n : Nat) :
    (Int.range 0 ((n : Int) - 1 + 1)).map data = contents data n := by
  rw [Int.sub_add_cancel, Int.range, contents, List.map_map]
  simp [Function.comp_def]

theorem Config.Sorts.contents_eq (h : c.Sorts data (n - 1) data') :
    contents data' n = (contents data n).mergeSort := by
  obtain ⟨s, hs, hend, rfl⟩ := h
  have hsorted := (hcppSort_sorts c.granularity_pos (le_refl 0) (by omega) hs hend).1
  rwa [contents_range, contents_range] at hsorted

theorem Config.Sorts.contents_sorted (h : c.Sorts data (n - 1) data') :
    (contents data' n).SortedLE := by
  rw [h.contents_eq]
  exact List.sortedLE_mergeSort

theorem Config.exists_sorts (c : Config) (data : Keys κ) (hn : n ≤ 2 ^ 30) :
    ∃ data', c.Sorts data (n - 1) data' := by
  have hworkers : Nonempty (Fin c.workers) := ⟨⟨0, c.workers_pos⟩⟩
  obtain ⟨s, hs, hend⟩ := exists_complete (ι := Fin c.workers) c.granularity_pos (le_refl 0)
    (show (0 : Int) ≤ (n - 1 : Int) + 1 by omega) (by omega) data
  exact ⟨_, s, hs, hend, rfl⟩

theorem le_of_contents_sorted (h : (contents data n).SortedLE) {i j : Nat} (hij : i ≤ j) (hj : j < n) :
    data i ≤ data j := by
  have hi : i < (contents data n).length := by
    rw [contents, List.length_map, List.length_range]
    omega
  have hj' : j < (contents data n).length := by
    rwa [contents, List.length_map, List.length_range]
  have hle : (contents data n)[i] ≤ (contents data n)[j] := h.getElem_le_getElem_of_le hij
  simpa [contents] using hle

end Sorting

section Histogram

variable {c : Config} {splitters : Nat → κ} {key : κ} {k : Nat}

def Config.bucket (c : Config) (splitters : Nat → κ) (key : κ) : Nat :=
  (List.range' 1 (c.threads - 1)).countP (splitters · ≤ key)

def Config.Ordered (c : Config) (splitters : Nat → κ) : Prop :=
  ∀ i j, 1 ≤ i → i ≤ j → j < c.threads → splitters i ≤ splitters j

theorem bucket_mono {key' : κ} (h : key ≤ key') :
    c.bucket splitters key ≤ c.bucket splitters key' := by
  refine List.countP_mono_left fun i _ hi => ?_
  simp only [decide_eq_true_eq] at hi ⊢
  exact hi.trans h

theorem bucket_le (c : Config) (splitters : Nat → κ) (key : κ) :
    c.bucket splitters key ≤ c.threads - 1 := by
  refine List.countP_le_length.trans_eq ?_
  rw [List.length_range']

theorem bucket_eq (hk : k ≤ c.threads - 1) (hlow : ∀ i, 1 ≤ i → i ≤ k → splitters i ≤ key)
    (hhigh : ∀ i, k < i → i < c.threads → key < splitters i) : c.bucket splitters key = k := by
  have hrange : List.range' 1 (c.threads - 1) =
      List.range' 1 k ++ List.range' (1 + k) (c.threads - 1 - k) := by
    rw [List.range'_append_1, Nat.add_sub_cancel' hk]
  have hall : (List.range' 1 k).countP (splitters · ≤ key) = k := by
    rw [List.countP_eq_length.mpr, List.length_range']
    intro i hi
    rw [List.mem_range'_1] at hi
    simpa using hlow i hi.1 (by omega)
  have hnone : (List.range' (1 + k) (c.threads - 1 - k)).countP (splitters · ≤ key) = 0 := by
    rw [List.countP_eq_zero]
    intro i hi
    rw [List.mem_range'_1] at hi
    simpa using hhigh i (by omega) (by omega)
  rw [Config.bucket, hrange, List.countP_append, hall, hnone, Nat.add_zero]

/-- The inner loop goes on to the last splitter that is not greater than the key. -/
theorem advance_spec (left k : Nat) (hlow : ∀ i, 1 ≤ i → i ≤ k → splitters i ≤ key) :
    k ≤ advance splitters key left k ∧ advance splitters key left k ≤ k + left ∧
      (∀ i, 1 ≤ i → i ≤ advance splitters key left k → splitters i ≤ key) ∧
      (advance splitters key left k < k + left →
        key < splitters (advance splitters key left k + 1)) := by
  induction left generalizing k with
  | zero => exact ⟨le_refl k, le_refl k, hlow, fun hlt => absurd hlt (lt_irrefl k)⟩
  | succ left ih =>
      rw [advance]
      split
      · rename_i hle
        obtain ⟨hk, hk', hlow', hhigh⟩ := ih (k + 1) fun i hi hik => by
          by_cases hlast : i = k + 1
          · rwa [hlast]
          · exact hlow i hi (by omega)
        exact ⟨by omega, by omega, hlow', fun hlt => hhigh (by omega)⟩
      · rename_i hgt
        exact ⟨le_refl k, by omega, hlow, fun _ => not_le.mp hgt⟩

/-- For two threads or more, what lies past the end of the splitters is not used:
every key is counted for its bucket. -/
theorem histogram_spec (hmono : c.Ordered splitters) {keys : List κ} (hkeys : keys.SortedLE)
    (hist : Nat → Nat) {i : Nat} (hk : k < c.threads - 1) (hlength : i + keys.length = c.keysPerThread)
    (hlow : ∀ key ∈ keys, ∀ i, 1 ≤ i → i ≤ k → splitters i ≤ key)
    (hlast : hist (c.threads - 1) = 0) (t : Nat) :
    c.histogram splitters keys i k hist t =
      hist t + keys.countP (c.bucket splitters · = t) := by
  induction keys generalizing i k hist with
  | nil => rfl
  | cons key keys ih =>
      obtain ⟨hkey, hkeys'⟩ := List.pairwise_cons.mp hkeys.pairwise
      rw [List.length_cons] at hlength
      have hlow₀ := hlow key (List.mem_cons_self ..)
      have hcount (k' : Nat) (hk' : k' < c.threads - 1) (hbucket : c.bucket splitters key = k')
          (hlow' : ∀ i, 1 ≤ i → i ≤ k' → splitters i ≤ key) :
          c.histogram splitters keys (i + 1) k' (Function.update hist k' (hist k' + 1)) t =
            hist t + (key :: keys).countP (c.bucket splitters · = t) := by
        rw [ih hkeys'.sortedLE _ hk' (by omega) (fun x hx i hi hik => (hlow' i hi hik).trans (hkey x hx))
          (by rw [Function.update_of_ne (by omega), hlast]), List.countP_cons]
        by_cases ht : t = k'
        · rw [ht, Function.update_self, if_pos (by simpa using hbucket)]
          omega
        · rw [Function.update_of_ne ht, if_neg (by simpa [hbucket] using Ne.symm ht)]
          omega
      rw [Config.histogram]
      split
      · rename_i hlt
        refine hcount k hk (bucket_eq hk.le hlow₀ fun i hki hi => ?_) hlow₀
        exact hlt.trans_le (hmono (k + 1) i (by omega) hki hi)
      · obtain ⟨-, hle, hlow', hhigh⟩ := advance_spec (c.threads - 1 - k) k hlow₀
        obtain ⟨k', hk'⟩ : ∃ k', k' = advance splitters key (c.threads - 1 - k) k := ⟨_, rfl⟩
        simp only [← hk'] at hle hlow' hhigh ⊢
        split
        · rename_i hend
          -- the keys that are left all go to the last thread
          have hall : ∀ x ∈ key :: keys, c.bucket splitters x = c.threads - 1 := by
            intro x hx
            refine bucket_eq (le_refl _) (fun i hi hile => ?_) fun i hlt hi => by omega
            rcases List.mem_cons.mp hx with rfl | hx
            · exact hlow' i hi (by omega)
            · exact (hlow' i hi (by omega)).trans (hkey x hx)
          by_cases ht : t = k'
          · rw [ht, Function.update_self, hend, hlast, List.countP_eq_length.mpr (by simpa using hall),
              List.length_cons]
            omega
          · rw [Function.update_of_ne ht, List.countP_eq_zero.mpr, Nat.add_zero]
            intro x hx
            have hbucket := hall x hx
            simp only [decide_eq_true_eq]
            omega
        · rename_i hne
          refine hcount k' (by omega) (bucket_eq (by omega) hlow' fun i hki hi => ?_) hlow'
          exact (hhigh (by omega)).trans_le (hmono (k' + 1) i (by omega) hki hi)

/-- For one thread, the word past the end of the splitters is compared with every
key, and the count starts again at the first key that is not below it. -/
theorem histogram_single (hthreads : c.threads = 1) (splitters : Nat → κ) (keys : List κ) (i : Nat)
    (hist : Nat → Nat) (hhist : hist 0 = i) :
    c.histogram splitters keys i 0 hist 0 =
      if ∀ key ∈ keys, key < splitters 1 then i + keys.length
      else c.keysPerThread - (i + (keys.takeWhile (· < splitters 1)).length) := by
  induction keys generalizing i hist with
  | nil => simpa [Config.histogram] using hhist
  | cons key keys ih =>
      rw [Config.histogram]
      by_cases hlt : key < splitters 1
      · rw [if_pos hlt, ih (i + 1) _ (by rw [Function.update_self, hhist]),
          List.takeWhile_cons_of_pos (by simpa using hlt), List.length_cons, List.length_cons,
          Nat.add_right_comm, Nat.add_assoc i, Nat.add_right_comm]
        simp only [List.forall_mem_cons, hlt, true_and]
        rfl
      · have hnone : (key :: keys).takeWhile (· < splitters 1) = [] :=
          List.takeWhile_cons_of_neg (by simpa using hlt)
        have hnot : ¬∀ key' ∈ key :: keys, key' < splitters 1 :=
          fun h => hlt (h key (List.mem_cons_self ..))
        rw [if_neg hlt, if_neg hnot, hnone, hthreads]
        simp [advance]

end Histogram

section Copies

variable {sortedKeys : Nat → Keys κ} {buffer : Keys κ} {dst : Nat → Buffer} {js : List Nat}
  {offset : Nat}

omit [LinearOrder κ] in
theorem copy_of_lt {x : Copy} {k : Int} (hk : k < x.dst) : copy sortedKeys buffer x k = buffer k :=
  if_neg fun h => absurd h.1 (not_le.mpr hk)

theorem le_of_mem_copyLoop {x : Copy} (hx : x ∈ copyLoop dst js offset) : offset ≤ x.dst := by
  induction js generalizing offset with
  | nil => cases hx
  | cons j js ih =>
      rw [copyLoop] at hx
      split at hx
      · rcases List.mem_cons.mp hx with rfl | hx
        · exact le_refl offset
        · exact (Nat.le_add_right _ _).trans (ih hx)
      · exact ih hx

theorem copyLoop_apart (dst : Nat → Buffer) (js : List Nat) (offset : Nat) :
    (copyLoop dst js offset).Pairwise fun x y => x.dst + x.src.count ≤ y.dst := by
  induction js generalizing offset with
  | nil => exact List.Pairwise.nil
  | cons j js ih =>
      rw [copyLoop]
      split
      · exact List.pairwise_cons.mpr ⟨fun y hy => le_of_mem_copyLoop hy, ih _⟩
      · exact ih offset

def Copy.Apart (x y : Copy) : Prop :=
  x.dst + x.src.count ≤ y.dst ∨ y.dst + y.src.count ≤ x.dst

instance : Std.Symm Copy.Apart := ⟨fun _ _ h => h.symm⟩

omit [LinearOrder κ] in
theorem copy_comm {x y : Copy} (hxy : x.Apart y) :
    copy sortedKeys (copy sortedKeys buffer x) y = copy sortedKeys (copy sortedKeys buffer y) x := by
  funext k
  rw [Copy.Apart] at hxy
  simp only [copy]
  split_ifs <;> first | rfl | omega

omit [LinearOrder κ] in
theorem copies_order {order : List Copy} (h : order.Perm (copyLoop dst js offset)) :
    order.foldl (copy sortedKeys) buffer = (copyLoop dst js offset).foldl (copy sortedKeys) buffer := by
  have hapart : (copyLoop dst js offset).Pairwise Copy.Apart :=
    (copyLoop_apart dst js offset).imp fun h => .inl h
  refine h.foldl_eq' (fun x hx y hy buffer => ?_) buffer
  by_cases hxy : x = y
  · rw [hxy]
  · exact copy_comm (hapart.forall (h.mem_iff.mp hx) (h.mem_iff.mp hy) hxy)

omit [LinearOrder κ] in
theorem copyLoop_contents (sortedKeys : Nat → Keys κ) (dst : Nat → Buffer) (js : List Nat) (offset : Nat) (buffer : Keys κ) :
    (∀ k : Int, k < offset →
      (copyLoop dst js offset).foldl (copy sortedKeys) buffer k = buffer k) ∧
    (List.range' offset (js.map fun j => (dst j).count).sum).map
      (fun k : Nat => (copyLoop dst js offset).foldl (copy sortedKeys) buffer k) =
    js.flatMap fun j => (List.range' (dst j).offset (dst j).count).map
      fun k : Nat => sortedKeys (dst j).thread k := by
  induction js generalizing offset buffer with
  | nil => exact ⟨fun _ _ => rfl, rfl⟩
  | cons j js ih =>
      rw [copyLoop, List.map_cons, List.sum_cons, List.flatMap_cons]
      split
      · rw [List.foldl_cons]
        obtain ⟨hbefore, hrest⟩ := ih (offset + (dst j).count) (copy sortedKeys buffer ⟨dst j, offset⟩)
        refine ⟨fun k hk => (hbefore k (by push_cast; omega)).trans (copy_of_lt hk), ?_⟩
        rw [← List.range'_append_1, List.map_append, hrest]
        congr 1
        refine List.ext_getElem (by simp) fun n hn hn' => ?_
        have hlt : n < (dst j).count := by simpa using hn
        have hin : (offset : Int) ≤ (offset + n : Nat) ∧
            ((offset + n : Nat) : Int) < offset + (dst j).count := by omega
        have hplace : ((dst j).offset : Int) + ((offset + n : Nat) - offset) =
            ((dst j).offset + n : Nat) := by omega
        rw [List.getElem_map, List.getElem_map, List.getElem_range'_1, List.getElem_range'_1,
          hbefore _ (by push_cast; omega), copy, if_pos hin, hplace]
      · rename_i hzero
        rw [not_not.mp hzero, Nat.zero_add]
        exact ih offset buffer

/-- The copies stay inside of a buffer exactly when all that is received fits. -/
theorem copyLoop_fits {m : Nat} : (∀ x ∈ copyLoop dst js offset, x.dst + x.src.count ≤ m) ↔
    (js.map fun j => (dst j).count).sum = 0 ∨ offset + (js.map fun j => (dst j).count).sum ≤ m := by
  induction js generalizing offset with
  | nil => simp [copyLoop]
  | cons j js ih =>
      rw [copyLoop, List.map_cons, List.sum_cons]
      split
      · rw [List.forall_mem_cons, ih]
        simp only
        omega
      · rename_i hzero
        rw [ih, not_not.mp hzero, Nat.zero_add]

end Copies

namespace Execution

variable {c : Config} {keys : Nat → Keys κ} (E : Execution c keys) {j t : Nat}

def splitters (i : Nat) : κ := E.candidates (i * c.samplesPerThread : Nat)

def bucket (key : κ) : Nat := c.bucket E.splitters key

def run (j : Nat) : List κ := contents (E.sortedKeys j) c.keysPerThread

theorem splitters_le {i i' : Nat} (h : i ≤ i') (hi' : i' < c.threads) :
    E.splitters i ≤ E.splitters i' := by
  have hsorted : (contents E.candidates (c.threads * c.samplesPerThread)).SortedLE := by
    have hsorts := E.candidates_sorts
    rw [← Nat.cast_mul] at hsorts
    exact hsorts.contents_sorted
  refine le_of_contents_sorted hsorted (Nat.mul_le_mul_right _ h) ?_
  exact Nat.mul_lt_mul_of_pos_right hi' c.samplesPerThread_pos

theorem mySplitters_of_lt {i : Nat} (beyond : κ) (hi : i < c.threads) :
    c.mySplitters E.candidates beyond i = E.splitters i := if_pos hi

theorem mySplitters_ordered (beyond : κ) : c.Ordered (c.mySplitters E.candidates beyond) := by
  intro i i' _ hii' hi'
  rw [E.mySplitters_of_lt beyond hi', E.mySplitters_of_lt beyond (by omega)]
  exact E.splitters_le hii' hi'

theorem bucket_mySplitters (beyond : κ) :
    c.bucket (c.mySplitters E.candidates beyond) = E.bucket := by
  funext key
  refine List.countP_congr fun i hi => ?_
  rw [List.mem_range'_1] at hi
  rw [E.mySplitters_of_lt beyond (by omega)]

theorem run_sorted (hj : j < c.threads) : (E.run j).SortedLE :=
  (E.sortedKeys_sorts j hj).contents_sorted

theorem length_run (j : Nat) : (E.run j).length = c.keysPerThread := by
  rw [run, contents, List.length_map, List.length_range]

theorem hist_eq (hthreads : 2 ≤ c.threads) (hj : j < c.threads) (t : Nat) :
    E.hist j t = (E.run j).countP (E.bucket · = t) := by
  have hspec := histogram_spec (E.mySplitters_ordered (E.beyond j)) (E.run_sorted hj) (fun _ => 0)
    (i := 0) (k := 0) (by omega) (by rw [length_run, Nat.zero_add]) (fun _ _ i hi hi' => by omega) rfl t
  rwa [bucket_mySplitters, Nat.zero_add] at hspec

theorem bucket_lt (hthreads : 2 ≤ c.threads) (key : κ) : E.bucket key < c.threads := by
  have hle := bucket_le c E.splitters key
  rw [bucket]
  omega

theorem run_in_buckets (hj : j < c.threads) :
    (E.run j).Pairwise fun x y => E.bucket x ≤ E.bucket y :=
  (E.run_sorted hj).pairwise.imp bucket_mono

/-- Every thread allocates as many elements as it has keys. -/
theorem allocated_eq (hthreads : 2 ≤ c.threads) (ht : t < c.threads) :
    E.allocated t = c.keysPerThread := by
  rw [allocated, Finset.sum_congr rfl fun u _ => E.hist_eq hthreads ht u, sum_countP,
    countP_lt_of_forall fun x _ => E.bucket_lt hthreads x, length_run]

theorem received_eq (hthreads : 2 ≤ c.threads) (hj : j < c.threads) (t : Nat) :
    (List.range' (E.allBuffersDst t j).offset (E.allBuffersDst t j).count).map
      (fun k : Nat => E.sortedKeys j k) = (E.run j).filter (E.bucket · = t) := by
  have hoffset : (E.allBuffersDst t j).offset = (E.run j).countP (E.bucket · < t) := by
    rw [← sum_countP]
    change ∑ u ∈ Finset.range t, E.hist j u = _
    exact Finset.sum_congr rfl fun u _ => E.hist_eq hthreads hj u
  have hcount : (E.allBuffersDst t j).count = (E.run j).countP (E.bucket · = t) :=
    E.hist_eq hthreads hj t
  have hle : (E.allBuffersDst t j).offset + (E.allBuffersDst t j).count ≤ c.keysPerThread := by
    rw [hoffset, hcount, ← countP_lt_succ, ← E.length_run j]
    exact List.countP_le_length
  rw [← take_drop_eq_filter (E.run_in_buckets hj) t, ← hoffset, ← hcount, run, contents,
    List.range_eq_range', ← List.map_drop, ← List.map_take, List.drop_range',
    List.take_range'_of_length_ge (by omega), Nat.mul_one, Nat.zero_add]

theorem sum_sortedKeyCounts (hthreads : 2 ≤ c.threads) :
    ∑ t ∈ Finset.range c.threads, E.sortedKeyCounts t = c.threads * c.keysPerThread := by
  calc ∑ t ∈ Finset.range c.threads, E.sortedKeyCounts t
      = ∑ j ∈ Finset.range c.threads, E.allocated j := Finset.sum_comm
    _ = ∑ _j ∈ Finset.range c.threads, c.keysPerThread :=
        Finset.sum_congr rfl fun j hj => E.allocated_eq hthreads (Finset.mem_range.mp hj)
    _ = c.threads * c.keysPerThread := by simp

theorem exists_execution {c : Config} (hsamples : c.threads * c.samplesPerThread ≤ 2 ^ 30)
    (hkeys : c.keysPerThread ≤ 2 ^ 30) (keys : Nat → Keys κ) (rand : Nat → Nat) (beyond : Nat → κ)
    (buffer : Nat → Keys κ) :
    ∃ E : Execution c keys, E.rand = rand ∧ E.beyond = beyond ∧ E.buffer = buffer := by
  obtain ⟨candidates, hcandidates⟩ := c.exists_sorts (c.candidates rand keys) hsamples
  rw [Nat.cast_mul] at hcandidates
  choose sortedKeys hsorted using fun j => c.exists_sorts (keys j) hkeys
  exact ⟨⟨rand, candidates, hcandidates, beyond, sortedKeys, fun j _ => hsorted j, buffer⟩,
    rfl, rfl, rfl⟩

theorem exists_ends (hthreads : 2 ≤ c.threads) (hkeys : c.threads * c.keysPerThread ≤ 2 ^ 30) :
    ∃ out, E.Ends out := by
  have hcount (t : Nat) (ht : t < c.threads) : E.sortedKeyCounts t ≤ 2 ^ 30 := by
    refine le_trans ?_ hkeys
    rw [← E.sum_sortedKeyCounts hthreads]
    exact Finset.single_le_sum (fun _ _ => Nat.zero_le _) (Finset.mem_range.mpr ht)
  have hsorts (t : Nat) : ∃ data', t < c.threads → c.Sorts
      ((E.copies t).foldl (copy E.sortedKeys) (E.buffer t)) (E.sortedKeyCounts t - 1) data' := by
    by_cases ht : t < c.threads
    · obtain ⟨data', hdata'⟩ := c.exists_sorts
        ((E.copies t).foldl (copy E.sortedKeys) (E.buffer t)) (hcount t ht)
      exact ⟨data', fun _ => hdata'⟩
    · exact ⟨E.buffer t, fun h => absurd h ht⟩
  choose out hout using hsorts
  exact ⟨out, fun t ht => ⟨E.copies t, List.Perm.refl _, hout t ht⟩⟩

theorem sortedKeyCounts_eq (t : Nat) :
    E.sortedKeyCounts t = ((List.range c.threads).map fun j => (E.allBuffersDst t j).count).sum := by
  rw [sortedKeyCounts, Finset.sum, Finset.range_val, Multiset.range, Multiset.map_coe,
    Multiset.sum_coe]

/-- A thread receives the keys of its bucket from all threads. -/
theorem received_contents (hthreads : 2 ≤ c.threads) {order : List Copy}
    (horder : order.Perm (E.copies t)) :
    contents (order.foldl (copy E.sortedKeys) (E.buffer t)) (E.sortedKeyCounts t) =
      (List.range c.threads).flatMap fun j => (E.run j).filter (E.bucket · = t) := by
  have hcontents := (copyLoop_contents E.sortedKeys (E.allBuffersDst t) (List.range c.threads) 0
    (E.buffer t)).2
  rw [← List.range_eq_range'] at hcontents
  rw [copies_order horder, contents, sortedKeyCounts_eq]
  refine hcontents.trans (List.flatMap_congr fun j hj => ?_)
  exact E.received_eq hthreads (List.mem_range.mp hj) t

theorem fits_iff (hthreads : 2 ≤ c.threads) (ht : t < c.threads) :
    E.Fits t ↔ E.sortedKeyCounts t ≤ c.keysPerThread := by
  rw [Fits, copies, copyLoop_fits, ← sortedKeyCounts_eq, E.allocated_eq hthreads ht, Nat.zero_add]
  omega

/-- The copies stay inside of the buffers if and only if every thread receives
exactly as many keys as it had. -/
theorem fits_iff_balanced (hthreads : 2 ≤ c.threads) :
    (∀ t < c.threads, E.Fits t) ↔ ∀ t < c.threads, E.sortedKeyCounts t = c.keysPerThread := by
  constructor
  · intro hfits t ht
    have hle (u : Nat) (hu : u ∈ Finset.range c.threads) : E.sortedKeyCounts u ≤ c.keysPerThread :=
      (E.fits_iff hthreads (Finset.mem_range.mp hu)).mp (hfits u (Finset.mem_range.mp hu))
    have hsum := E.sum_sortedKeyCounts hthreads
    refine (Finset.sum_eq_sum_iff_of_le hle).mp ?_ t (Finset.mem_range.mpr ht)
    simpa using hsum
  · intro hbalanced t ht
    exact (E.fits_iff hthreads ht).mpr (hbalanced t ht).le

def twoKeys (threads : Nat) : Config where
  threads := threads
  workers := 2
  keysPerThread := 2
  samplesPerThread := 1
  granularity := 1
  workers_pos := Nat.two_pos
  keysPerThread_pos := Nat.two_pos
  samplesPerThread_pos := Nat.one_pos
  granularity_pos := Int.one_pos

def descending (j : Nat) (k : Int) : Nat := 5 - (2 * j + k.toNat)

theorem fits_iff_balanced_two : ∃ E : Execution (twoKeys 2) descending,
    (∀ t < 2, E.Fits t) ↔ ∀ t < 2, E.sortedKeyCounts t = 2 := by
  obtain ⟨E, -⟩ := exists_execution (c := twoKeys 2) (by decide) (by decide) descending id
    (fun _ => 0) fun _ _ => 0
  exact ⟨E, E.fits_iff_balanced (le_refl 2)⟩

theorem ends_sorted (hthreads : 2 ≤ c.threads) {out : Nat → Keys κ} (hout : E.Ends out) :
    ((List.range c.threads).flatMap fun t => contents (out t) (E.sortedKeyCounts t)) =
      ((List.range c.threads).flatMap fun j => contents (keys j) c.keysPerThread).mergeSort := by
  have hpieces (t : Nat) (ht : t < c.threads) :
      (contents (out t) (E.sortedKeyCounts t)).SortedLE ∧
        (contents (out t) (E.sortedKeyCounts t)).Perm
          ((List.range c.threads).flatMap fun j => (E.run j).filter (E.bucket · = t)) := by
    obtain ⟨order, horder, hsorts⟩ := hout t ht
    refine ⟨hsorts.contents_sorted, ?_⟩
    rw [hsorts.contents_eq, E.received_contents hthreads horder]
    exact List.mergeSort_perm _ _
  refine List.Perm.eq_of_sortedLE (sorted_flatMap (b := E.bucket) (fun _ _ h => bucket_mono h) ?_)
    List.sortedLE_mergeSort (List.Perm.trans ?_ (List.mergeSort_perm _ _).symm)
  · intro t ht
    obtain ⟨hsorted, hperm⟩ := hpieces t ht
    refine ⟨hsorted, fun x hx => ?_⟩
    obtain ⟨j, -, hj⟩ := List.mem_flatMap.mp (hperm.mem_iff.mp hx)
    simpa using (List.mem_filter.mp hj).2
  · have hall : ((List.range c.threads).flatMap fun t =>
        ((List.range c.threads).flatMap E.run).filter (E.bucket · = t)).Perm
          ((List.range c.threads).flatMap E.run) :=
      flatMap_filter_perm fun x _ => E.bucket_lt hthreads x
    refine List.Perm.trans (List.Perm.flatMap_left _ fun t ht => ?_) (hall.trans ?_)
    · rw [List.filter_flatMap]
      exact (hpieces t (List.mem_range.mp ht)).2
    · refine List.Perm.flatMap_left _ fun j hj => ?_
      rw [run, (E.sortedKeys_sorts j (List.mem_range.mp hj)).contents_eq]
      exact List.mergeSort_perm _ _

/-- sample_sort ends, and the keys of all threads, one after the other, are in
order in the end. -/
theorem sampleSort_sorts (hthreads : 2 ≤ c.threads) (hkeys : c.threads * c.keysPerThread ≤ 2 ^ 30) :
    (∃ out, E.Ends out) ∧ ∀ out, E.Ends out →
      ((List.range c.threads).flatMap fun t => contents (out t) (E.sortedKeyCounts t)) =
        ((List.range c.threads).flatMap fun j => contents (keys j) c.keysPerThread).mergeSort :=
  ⟨E.exists_ends hthreads hkeys, fun _ hout => E.ends_sorted hthreads hout⟩

theorem sampleSort_sorts_two : ∃ (E : Execution (twoKeys 2) descending) (out : Nat → Keys Nat),
    E.Ends out ∧
      ((List.range 2).flatMap fun t => contents (out t) (E.sortedKeyCounts t)) = [2, 3, 4, 5] := by
  obtain ⟨E, -⟩ := exists_execution (c := twoKeys 2) (by decide) (by decide) descending id
    (fun _ => 0) fun _ _ => 0
  obtain ⟨⟨out, hout⟩, hsorted⟩ := E.sampleSort_sorts (le_refl 2) (by decide)
  refine ⟨E, out, hout, (hsorted out hout).trans ?_⟩
  exact (List.mergeSort_eq_insertionSort (· ≤ ·) _).trans (by decide)

/-- A single thread keeps all of its keys if and only if the word past the end of
its splitters is above all of them or above none. -/
theorem single_keeps_all (hthreads : c.threads = 1) :
    E.sortedKeyCounts 0 = c.keysPerThread ↔
      (∀ key ∈ E.run 0, key < E.beyond 0) ∨ ∀ key ∈ E.run 0, E.beyond 0 ≤ key := by
  have hsplitter : c.mySplitters E.candidates (E.beyond 0) 1 = E.beyond 0 :=
    if_neg (by omega)
  have hcount : E.sortedKeyCounts 0 = E.hist 0 0 := by
    rw [sortedKeyCounts, hthreads, Finset.sum_range_one]
    rfl
  have hhist := histogram_single hthreads (c.mySplitters E.candidates (E.beyond 0)) (E.run 0) 0
    (fun _ => 0) rfl
  have hlength := E.length_run 0
  have hpos := c.keysPerThread_pos
  rw [hsplitter] at hhist
  rw [hcount]
  change E.hist 0 0 = _ at hhist
  rw [hhist]
  by_cases hall : ∀ key ∈ E.run 0, key < E.beyond 0
  · rw [if_pos hall, hlength, Nat.zero_add]
    exact ⟨fun _ => .inl hall, fun _ => rfl⟩
  · rw [if_neg hall]
    cases hrun : E.run 0 with
    | nil =>
        rw [hrun, List.length_nil] at hlength
        omega
    | cons key keys =>
        have hsorted := (E.run_sorted (show 0 < c.threads by omega)).pairwise
        rw [hrun] at hall hlength hsorted
        by_cases hkey : key < E.beyond 0
        · rw [List.takeWhile_cons_of_pos (by simpa using hkey), List.length_cons]
          refine ⟨fun h => by omega, fun h => ?_⟩
          rcases h with h | h
          · exact absurd h hall
          · exact absurd hkey (not_lt.mpr (h key (List.mem_cons_self ..)))
        · rw [List.takeWhile_cons_of_neg (by simpa using hkey)]
          refine ⟨fun _ => .inr fun x hx => (not_lt.mp hkey).trans ?_, fun _ => rfl⟩
          rcases List.mem_cons.mp hx with rfl | hx
          · exact le_refl _
          · exact (List.pairwise_cons.mp hsorted).1 x hx

theorem single_keeps_all_zero : ∃ E : Execution (twoKeys 1) descending,
    E.sortedKeyCounts 0 = 2 ∧ E.beyond 0 = 0 := by
  obtain ⟨E, -, hbeyond, -⟩ := exists_execution (c := twoKeys 1) (by decide) (by decide)
    descending id (fun _ => 0) fun _ _ => 0
  have hzero : E.beyond 0 = 0 := congrFun hbeyond 0
  refine ⟨E, (E.single_keeps_all rfl).mpr (.inr fun key _ => ?_), hzero⟩
  rw [hzero]
  exact Nat.zero_le key

end Execution

end HabaneroUpc.SampleSort
