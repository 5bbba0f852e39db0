import HabaneroUpc.DddfCompletion
import HabaneroUpc.SmithWatermanRuns

namespace HabaneroUpc.SmithWaterman

open HabaneroUpc.Alignment Interleaving DddfPrograms

section Bytes

def intSize : Nat := 4

def intByte (z : Int) (b : Nat) : UInt8 := UInt8.ofNat ((z % 2 ^ 32).toNat / 256 ^ b)

def ofIntBytes (bytes : Nat → UInt8) : Int :=
  Int.bmod (∑ b ∈ Finset.range intSize, (bytes b).toNat * 256 ^ b : Nat) (2 ^ 32)

def encodeInts (size : Nat) (data : List Int) : Dddf.Data (intSize * size) :=
  Vector.ofFn fun p => intByte (data.getD (p / intSize) 0) (p % intSize)

def decodeInts (size : Nat) (bytes : Dddf.Data (intSize * size)) : List Int :=
  (List.range size).map fun e => ofIntBytes fun b => bytes[intSize * e + b]?.getD 0

theorem ofIntBytes_congr {bytes bytes' : Nat → UInt8} (h : ∀ b < intSize, bytes b = bytes' b) :
    ofIntBytes bytes = ofIntBytes bytes' := by
  have hsum : ∑ b ∈ Finset.range intSize, (bytes b).toNat * 256 ^ b =
      ∑ b ∈ Finset.range intSize, (bytes' b).toNat * 256 ^ b :=
    Finset.sum_congr rfl fun b hb => by rw [h b (Finset.mem_range.mp hb)]
  exact congrArg (fun u : Nat => Int.bmod u (2 ^ 32)) hsum

theorem sum_bytes {u : Nat} (hu : u < 2 ^ 32) :
    ∑ b ∈ Finset.range intSize, u / 256 ^ b % 256 * 256 ^ b = u := by
  simp only [intSize, Finset.sum_range_succ, Finset.sum_range_zero]
  omega

theorem ofIntBytes_intByte {z : Int} (hz : -2 ^ 31 ≤ z ∧ z < 2 ^ 31) : ofIntBytes (intByte z) = z := by
  have hbyte (b : Nat) : (intByte z b).toNat = (z % 2 ^ 32).toNat / 256 ^ b % 256 := UInt8.toNat_ofNat'
  have hsum : ∑ b ∈ Finset.range intSize, (intByte z b).toNat * 256 ^ b = (z % 2 ^ 32).toNat :=
    (Finset.sum_congr rfl fun b _ => by rw [hbyte]).trans (sum_bytes (by omega))
  have hbmod : Int.bmod (z % 2 ^ 32).toNat (2 ^ 32) = z := by
    rw [Int.bmod]
    omega
  exact (congrArg (fun u : Nat => Int.bmod u (2 ^ 32)) hsum).trans hbmod

theorem encodeInts_byte (data : List Int) {e b : Nat} (he : e < data.length) (hb : b < intSize) :
    (encodeInts data.length data)[intSize * e + b]?.getD 0 = intByte data[e] b := by
  have hlt : intSize * e + b < intSize * data.length :=
    calc intSize * e + b < intSize * e + intSize := Nat.add_lt_add_left hb _
      _ = intSize * (e + 1) := (Nat.mul_succ intSize e).symm
      _ ≤ intSize * data.length := Nat.mul_le_mul_left intSize he
  have hdiv : (intSize * e + b) / intSize = e := by
    rw [Nat.mul_add_div (by decide), Nat.div_eq_of_lt hb, Nat.add_zero]
  have hmod : (intSize * e + b) % intSize = b := by
    rw [Nat.mul_add_mod, Nat.mod_eq_of_lt hb]
  rw [encodeInts, Vector.getElem?_ofFn, dif_pos hlt, Option.getD_some, hdiv, hmod,
    List.getD_eq_getElem?_getD, List.getElem?_eq_getElem he, Option.getD_some]

theorem decodeInts_encodeInts {data : List Int} (hdata : ∀ z ∈ data, -2 ^ 31 ≤ z ∧ z < 2 ^ 31) :
    decodeInts data.length (encodeInts data.length data) = data := by
  apply List.ext_getElem
  · rw [decodeInts, List.length_map, List.length_range]
  · intro e _ he
    calc (decodeInts data.length (encodeInts data.length data))[e]
        = ofIntBytes fun b => (encodeInts data.length data)[intSize * e + b]?.getD 0 := by
          simp only [decodeInts, List.getElem_map, List.getElem_range]
      _ = ofIntBytes (intByte data[e]) := ofIntBytes_congr fun b hb => encodeInts_byte data he hb
      _ = data[e] := ofIntBytes_intByte (hdata _ (List.getElem_mem he))

end Bytes

namespace Config

variable (c : Config)

abbrev Segments := (guid : Nat) → Fin c.nproc → Dddf.Data (intSize * (c.ddfSize guid).getD 0)

def coding (datum : c.Segments) : Coding c.nproc Nat (List Int) where
  count guid := intSize * (c.ddfSize guid).getD 0
  encode guid := encodeInts ((c.ddfSize guid).getD 0)
  decode guid := decodeInts ((c.ddfSize guid).getD 0)
  datum := datum

end Config

variable {c : Config} {datum : c.Segments} {i j : Nat} {corner : Corner}

section Values

theorem score_bounds (x y : Nucleotide) :
    -4 ≤ alignmentScoreMatrix x y ∧ alignmentScoreMatrix x y ≤ 2 := by
  cases x <;> cases y <;> decide

/-- A score is not further from zero than there are symbols. -/
theorem table_bounds (c : Config) (i j : Nat) : -(i + j : Int) ≤ c.table i j ∧ c.table i j ≤ i + j := by
  induction i generalizing j with
  | zero =>
      rw [table_top]
      simp only [gapPenalty]
      omega
  | succ i ih =>
      induction j with
      | zero =>
          rw [table_left]
          simp only [gapPenalty]
          omega
      | succ j ihj =>
          have htop := ih (j + 1)
          have hdiag := ih j
          have hscore := (score_bounds (c.char2 i) (c.char1 j)).2
          have hgap (x : Nucleotide) : alignmentScoreMatrix .gap x = gapPenalty := by cases x <;> rfl
          rw [table_succ, gap_right, hgap]
          simp only [gapPenalty]
          omega

/-- What is put are scores of beginnings of the two strings. -/
theorem mem_block {z : Int} (hi : i < c.iDomain) (hj : j < c.jDomain) (hcorner : corner ∈ cornersAt (i, j))
    (hz : z ∈ c.block corner i j) :
    ∃ a b, a ≤ c.string2.length ∧ b ≤ c.string1.length ∧ z = c.table a b := by
  have hrow : i * c.innerTileHeight ≤ c.string2.length :=
    calc i * c.innerTileHeight ≤ (c.iDomain - 1) * c.innerTileHeight :=
          Nat.mul_le_mul_right _ (Nat.le_sub_one_of_lt hi)
      _ = c.nOuterTilesHeight * c.outerTileHeight := height_eq c
      _ ≤ c.string2.length := Nat.div_mul_le_self _ _
  have hcol : j * c.innerTileWidth ≤ c.string1.length :=
    calc j * c.innerTileWidth ≤ (c.jDomain - 1) * c.innerTileWidth :=
          Nat.mul_le_mul_right _ (Nat.le_sub_one_of_lt hj)
      _ = c.nOuterTilesWidth * c.outerTileWidth := width_eq c
      _ ≤ c.string1.length := Nat.div_mul_le_self _ _
  cases corner with
  | bottom =>
      obtain ⟨k, hk, rfl⟩ := List.mem_map.mp hz
      have hlt := List.mem_range.mp hk
      cases j with
      | zero => cases i <;> simp [cornersAt] at hcorner
      | succ j =>
          rw [Nat.succ_mul] at hcol
          exact ⟨_, _, hrow, by rw [Nat.add_sub_cancel]; omega, rfl⟩
  | right =>
      obtain ⟨k, hk, rfl⟩ := List.mem_map.mp hz
      have hlt := List.mem_range.mp hk
      cases i with
      | zero => cases j <;> simp [cornersAt] at hcorner
      | succ i =>
          rw [Nat.succ_mul] at hrow
          exact ⟨_, _, by rw [Nat.add_sub_cancel]; omega, hcol, rfl⟩
  | diag => exact ⟨_, _, hrow, hcol, List.mem_singleton.mp hz⟩

theorem coding_exact (c : Config) (datum : c.Segments) : (c.coding datum).Exact c.program c.val := by
  intro rank guid hk
  obtain ⟨i, j, hi, hj, -, corner, hcorner, rfl⟩ := mem_keys.mp hk
  rw [val_guid hi hj]
  have hsize : (c.ddfSize (c.guid corner i j)).getD 0 = (c.block corner i j).length := by
    rw [ddfSize_guid hi hj, Option.getD_some]
  change decodeInts ((c.ddfSize (c.guid corner i j)).getD 0)
    (encodeInts ((c.ddfSize (c.guid corner i j)).getD 0) (c.block corner i j)) = _
  rw [hsize]
  apply decodeInts_encodeInts
  intro z hz
  obtain ⟨a, b, ha, hb, rfl⟩ := mem_block hi hj hcorner hz
  have hbounds := table_bounds c a b
  have hfit := c.scores_fit
  omega

end Values

section Runs

variable {s : DddfPrograms.State (Nat × Nat) (c.coding datum)}

def oneTileDatum : oneTile.Segments := fun _ _ => Vector.replicate _ 0

def oneTileDddfRun : List (Fin oneTile.nproc × DddfPrograms.Act (Nat × Nat) (oneTile.coding oneTileDatum)) :=
  let zero : Fin oneTile.nproc := ⟨0, oneTile.nproc_pos⟩
  let one : Fin oneTile.nproc := ⟨1, Nat.one_lt_two⟩
  [(one, .main), (one, .main), (one, .main), (zero, .main), (zero, .main),
    (one, .handle 1 (.run (.registerCallback .get))), (one, .handle 1 (.run (.registerCallback .cas))),
    (one, .handle 1 (.run (.registerCallback .asyncAt))), (one, .handle 1 .comm),
    (zero, .handle 1 (.deliver (.asyncAt one))), (zero, .handle 1 (.run (.callback one))),
    (zero, .handle 1 (.run (.putBack one)))]

def oneTileDddfs : DddfPrograms.State (Nat × Nat) (oneTile.coding oneTileDatum) :=
  (runtime oneTile.program (oneTile.coding oneTileDatum)).after oneTileDddfRun

theorem oneTileDddfs_reachable :
    ReachableWhen (runtime oneTile.program (oneTile.coding oneTileDatum))
      (fun s rank a => ordered s rank a = true) oneTileDddfs :=
  after_reachableWhen _ ordered oneTileDddfRun (by decide +kernel)

/-- What DDF_GET yields for the tiles are scores of the plain recurrence, and when
all tiles have been computed the home of the last one prints the best score. -/
theorem dddf_scores (hs : ReachableWhen (runtime c.program (c.coding datum))
    (fun s rank a => ordered s rank a = true) s) :
    (∀ rank corner i j data, i < c.iDomain → j < c.jDomain →
      (s.proc rank).cells (c.guid corner i j) = some data → data = c.block corner i j) ∧
    ((∀ rank, (s.proc rank).view.complete) →
      ((c.score (view c.program s)).isSome ↔ c.outerTileWidth ≤ c.string1.length) ∧
        ∀ m, c.score (view c.program s) = some m →
          IsGreatest (Config.scoring.score '' alignments c) m) := by
  have hview := (linked_reachable (program_valued c) (coding_exact c datum) hs).sees
  obtain ⟨hplace, -⟩ := Dataflow.inv_reachable (program_valued c) hview
  refine ⟨fun rank corner i j data hi hj hdata => ?_, fun hcomplete => ?_⟩
  · rw [(hplace rank).cells _ data hdata, val_guid hi hj]
  · refine ⟨score_isSome hview hcomplete, fun m hm => ?_⟩
    rw [score_table hview hm]
    exact table_isGreatest_alignments c

theorem dddf_scores_oneTile :
    (oneTileDddfs.proc ⟨0, oneTile.nproc_pos⟩).cells 1 = some [-1] ∧ [-1] = oneTile.block .bottom 0 1 := by
  have hcell : (oneTileDddfs.proc ⟨0, oneTile.nproc_pos⟩).cells 1 = some [-1] := by decide +kernel
  have h := dddf_scores oneTileDddfs_reachable
  exact ⟨hcell, h.1 _ .bottom 0 1 _ (by decide) (by decide) hcell⟩

theorem dddf_tiles_complete (hs : ReachableWhen (runtime c.program (c.coding datum))
    (fun s rank a => ordered s rank a = true) s) :
    (∃ bound, ∀ acts, (runtime c.program (c.coding datum)).meets ordered s acts = true →
      acts.length ≤ bound) ∧
    (∃ acts s', (runtime c.program (c.coding datum)).meets ordered s acts = true ∧
      (runtime c.program (c.coding datum)).run s acts = some s' ∧
      ∀ rank, (s'.proc rank).view.complete) ∧
    ((∀ rank a, ordered s rank a = true → (runtime c.program (c.coding datum)).next s rank a = none) →
      ∀ rank, (s.proc rank).view.complete) := by
  have hpr := program_valued c
  have hrank := program_ranked c
  have hexact : (c.coding datum).Exact c.program c.val := coding_exact c datum
  obtain ⟨hbound, hends⟩ := program_runs hpr hexact hrank hs
  exact ⟨⟨_, hbound⟩, hends, complete_of_stuck hpr hexact hrank hs⟩

theorem dddf_tiles_complete_oneTile :
    ∃ acts s', (runtime oneTile.program (oneTile.coding oneTileDatum)).run oneTileDddfs acts = some s' ∧
      ∀ rank, (s'.proc rank).view.complete := by
  obtain ⟨-, ⟨acts, s', -, hrun, hcomplete⟩, -⟩ := dddf_tiles_complete oneTileDddfs_reachable
  exact ⟨acts, s', hrun, hcomplete⟩

end Runs

end HabaneroUpc.SmithWaterman
