import HabaneroUpc.Edison
import HabaneroUpc.Lib.SiblingWalk

namespace HabaneroUpc.Topology

open Siblings

structure Proximity where
  proximity : List Int
  currIndex : Nat
  written : List Nat
  deriving DecidableEq

def Proximity.add (p : Proximity) (rank : Int) : Option Proximity :=
  if p.currIndex < p.proximity.length then
    some ⟨p.proximity.set p.currIndex rank, p.currIndex + 1, p.written ++ [p.currIndex]⟩
  else none

def addRanksInBladeToProximityArray (h : Heap) (myrank : Int) (blade : Nat) (p : Proximity) :
    Option Proximity :=
  (h.place blade).workers.foldlM (fun p rank => if rank ≠ myrank then p.add rank else some p) p

/-- The ranks are added with the default of myrank, which is -1. -/
def addBladesInChasisToProximityArray (h : Heap) (chasis : Nat) (p : Proximity) : Option Proximity :=
  walk h.links.next (addRanksInBladeToProximityArray h (-1)) (h.allocated + 1)
    (h.place chasis).child p

def addChasisInCabinetsToProximityArray (h : Heap) (id : Int) (cabinet : Nat) (p : Proximity) :
    Option Proximity :=
  walk h.links.next
    (fun chasis p =>
      if (h.place chasis).id ≠ id then addBladesInChasisToProximityArray h chasis p else some p)
    (h.allocated + 1) (h.place cabinet).child p

def addSiblings (h : Heap) (body : Nat → Proximity → Option Proximity) (place : Nat) (p : Proximity) :
    Option Proximity :=
  walkBoth h.links.prev h.links.next body (h.allocated + 1) (h.place place).prev (h.place place).next p

def createProximityArray (t : Hpt) (places : Nat) (myrank : Int) : Option Proximity := do
  let h := t.heap
  let blade ← t.myBladePlace
  let p := ⟨List.replicate (places - 1) (-1), 0, []⟩
  -- the ranks on my blade, and then those on the blades of its chasis
  let p ← addRanksInBladeToProximityArray h myrank blade p
  let p ← addSiblings h (addRanksInBladeToProximityArray h (-1)) blade p
  -- one level up, the other chasis of the cabinet group
  let chasis ← (h.place blade).parent
  let p ← addSiblings h (addBladesInChasisToProximityArray h) chasis p
  -- the other cabinet groups
  let cabinet ← (h.place chasis).parent
  addSiblings h (addChasisInCabinetsToProximityArray h (-1)) cabinet p

def createArrrayOfNearestVictim (t : Hpt) (places : Nat) (myrank : Int) : Option (List Int) := do
  let p ← createProximityArray t places myrank
  if ∀ rank ∈ p.proximity, rank ≠ -1 then some p.proximity else none

variable {A : Type} {L : List Coords} {t : Hpt} {myrank : Int} {path : List Int} {a b : Nat}
  {as bs xs : List Nat}

theorem foldlM_add {xs : List A} {body : A → Proximity → Option Proximity} {f : A → List Int}
    (hbody : ∀ a ∈ xs, ∀ p, body a p = (f a).foldlM Proximity.add p) (p : Proximity) :
    xs.foldlM (fun p a => body a p) p = (xs.flatMap f).foldlM Proximity.add p := by
  induction xs generalizing p with
  | nil => rfl
  | cons a xs ih =>
      rw [List.foldlM_cons, hbody a List.mem_cons_self, List.flatMap_cons, List.foldlM_append]
      have hrest := fun p => ih (fun b hb => hbody b (List.mem_cons_of_mem a hb)) p
      rw [funext hrest]

theorem foldlM_filled (done ranks : List Int) : ranks.foldlM Proximity.add
    ⟨done ++ List.replicate ranks.length (-1), done.length, List.range done.length⟩ =
      some ⟨done ++ ranks, (done ++ ranks).length, List.range (done ++ ranks).length⟩ := by
  induction ranks generalizing done with
  | nil => simp
  | cons rank ranks ih =>
      have hstep : Proximity.add ⟨done ++ List.replicate (rank :: ranks).length (-1), done.length,
          List.range done.length⟩ rank = some ⟨(done ++ [rank]) ++ List.replicate ranks.length (-1),
            (done ++ [rank]).length, List.range (done ++ [rank]).length⟩ := by
        simp [Proximity.add, List.replicate_succ, List.range_succ]
      rw [List.foldlM_cons, hstep, Option.bind_eq_bind, Option.bind_some, ih (done ++ [rank]),
        List.append_assoc, List.singleton_append]

theorem addRanksInBlade_eq (h : Heap) (myrank : Int) (blade : Nat) (p : Proximity) :
    addRanksInBladeToProximityArray h myrank blade p =
      ((h.place blade).workers.filter (· != myrank)).foldlM Proximity.add p := by
  rw [addRanksInBladeToProximityArray]
  induction (h.place blade).workers generalizing p with
  | nil => rfl
  | cons rank ranks ih =>
      rw [List.foldlM_cons]
      by_cases hrank : rank = myrank
      · rw [if_neg (not_not_intro hrank), List.filter_cons_of_neg (by simpa using hrank)]
        exact ih p
      · rw [if_pos hrank, List.filter_cons_of_pos (by simpa using hrank), List.foldlM_cons, funext ih]

theorem Built.row_lt (hb : Built L myrank t) (hp : t.heap.At t.root path a)
    (hxs : Children t.heap.links a xs) : xs.length < t.heap.allocated + 1 :=
  Nat.lt_succ_of_le (length_le_of_nodup hxs.nodup fun _ hx => hb.allocated _ _ (.child hp hxs hx))

theorem addSiblings_eq (hb : Built L myrank t) (hp : t.heap.At t.root path b)
    (hxs : Children t.heap.links b (as ++ a :: bs)) {body : Nat → Proximity → Option Proximity}
    {f : Nat → List Int}
    (hbody : ∀ c ∈ as ++ bs, ∀ p, body c p = (f c).foldlM Proximity.add p) (p : Proximity) :
    addSiblings t.heap body a p =
      ((as.reverse.interleave bs).flatMap f).foldlM Proximity.add p := by
  obtain ⟨hleft, hright⟩ := hxs.visits_both
  have hlt := hb.row_lt hp hxs
  rw [List.length_append, List.length_cons] at hlt
  rw [addSiblings]
  apply (walkBoth_eq hleft hright (by rw [List.length_reverse]; omega) (by omega) p).trans
  exact foldlM_add (fun c hc => hbody c (mem_around.mp hc)) p

variable (hranks : ∀ x ∈ L, x.rank ≠ -1)

include hranks

theorem workers_filter (hb : Built L myrank t) (hp : t.heap.At t.root path b) :
    (t.heap.place b).workers.filter (· != -1) = (t.heap.place b).workers := by
  rw [List.filter_eq_self]
  intro rank hrank
  obtain ⟨x, hx, rfl, -⟩ := (hb.mem_workers hp).mp hrank
  exact bne_iff_ne.mpr (hranks x hx)

theorem addBladesInChasis_eq (hb : Built L myrank t) (hp : t.heap.At t.root path a) (p : Proximity) :
    addBladesInChasisToProximityArray t.heap a p =
      ((t.heap.links.below 1 a).flatMap fun b => (t.heap.place b).workers).foldlM
        Proximity.add p := by
  have hxs := hb.tree.row hp
  rw [addBladesInChasisToProximityArray]
  apply (walk_eq hxs.visits (hb.row_lt hp hxs) p).trans
  rw [Links.below, List.flatMap_assoc]
  apply foldlM_add
  intro b hbx p
  rw [addRanksInBlade_eq, workers_filter hranks hb (.child hp hxs hbx), Links.below,
    List.flatMap_singleton]

theorem addChasisInCabinets_eq (hb : Built L myrank t) (hp : t.heap.At t.root path a)
    (hid : ∀ c ∈ t.heap.links.row a, (t.heap.place c).id ≠ -1) (p : Proximity) :
    addChasisInCabinetsToProximityArray t.heap (-1) a p =
      ((t.heap.links.below 2 a).flatMap fun b => (t.heap.place b).workers).foldlM
        Proximity.add p := by
  have hxs := hb.tree.row hp
  rw [addChasisInCabinetsToProximityArray]
  apply (walk_eq hxs.visits (hb.row_lt hp hxs) p).trans
  rw [Links.below, List.flatMap_assoc]
  apply foldlM_add
  intro c hc p
  rw [if_pos (hid c hc)]
  exact addBladesInChasis_eq hranks hb (.child hp hxs hc) p

omit hranks in
theorem chasis_id (hb : Built L myrank t)
    (hchasis : ∀ x ∈ L, edisonChasisIndexInCabinetGroup x.col x.chasis ≠ some (-1)) {gid : Int}
    (hp : t.heap.At t.root [gid] a) {c : Nat} (hc : c ∈ t.heap.links.row a) :
    (t.heap.place c).id ≠ -1 := by
  have hat : t.heap.At t.root [gid, (t.heap.place c).id] c := .child hp (hb.tree.row hp) hc
  rcases (hb.paths _).mp ⟨c, hat⟩ with hpath | ⟨x, hx, hpath⟩
  · cases hpath
  · rw [Coords.path, List.cons_prefix_cons, List.cons_prefix_cons] at hpath
    rw [hpath.2.1]
    cases hindex : edisonChasisIndexInCabinetGroup x.col x.chasis with
    | none => simp
    | some index =>
        rintro rfl
        exact hchasis x hx hindex

theorem createProximityArray_eq (hb : Built L myrank t) (hnodup : (L.map Coords.rank).Nodup)
    (hmine : myrank ∈ L.map Coords.rank)
    (hchasis : ∀ x ∈ L, edisonChasisIndexInCabinetGroup x.col x.chasis ≠ some (-1)) (places : Nat) :
    ∃ blade ns, t.myBladePlace = some blade ∧ Outward t.heap.links blade 3 t.root ns ∧
      createProximityArray t places myrank =
        ((ns.flatMap fun b => (t.heap.place b).workers).erase myrank).foldlM Proximity.add
          ⟨List.replicate (places - 1) (-1), 0, []⟩ := by
  obtain ⟨x, hx, rfl⟩ := List.mem_map.mp hmine
  obtain ⟨blade, hblade⟩ := (hb.paths x.path).mpr (.inr ⟨x, hx, List.prefix_refl _⟩)
  obtain ⟨chasis, xs, hchasisAt, hxs, hbladex, -⟩ :=
    (show t.heap.At t.root ([_, _] ++ [_]) blade from hblade).above
  obtain ⟨cabinet, ys, hcabinetAt, hys, hchasisy, -⟩ :=
    (show t.heap.At t.root ([_] ++ [_]) chasis from hchasisAt).above
  obtain ⟨root, zs, hroot, hzs, hcabinetz, -⟩ :=
    (show t.heap.At t.root ([] ++ [_]) cabinet from hcabinetAt).above
  obtain rfl := hroot.unique .root
  obtain ⟨as₁, bs₁, rfl⟩ := List.append_of_mem hbladex
  obtain ⟨as₂, bs₂, rfl⟩ := List.append_of_mem hchasisy
  obtain ⟨as₃, bs₃, rfl⟩ := List.append_of_mem hcabinetz
  have hmyBlade : t.myBladePlace = some blade := (hb.mine blade).mpr ⟨x, hx, rfl, hblade⟩
  have hworkers : x.rank ∈ (t.heap.place blade).workers := (hb.mem_workers hblade).mpr ⟨x, hx, rfl, rfl⟩
  have hnodup' : (t.heap.place blade).workers.Nodup := by
    rw [hb.workers _ blade hblade]
    exact hnodup.sublist (List.filter_sublist.map _)
  have hbladeParent : (t.heap.place blade).parent = some chasis :=
    hxs.parent (List.mem_append_right as₁ List.mem_cons_self)
  have hchasisParent : (t.heap.place chasis).parent = some cabinet :=
    hys.parent (List.mem_append_right as₂ List.mem_cons_self)
  have hsibling (c : Nat) (hc : c ∈ as₁ ++ bs₁) (p : Proximity) :
      addRanksInBladeToProximityArray t.heap (-1) c p =
        ((t.heap.links.below 0 c).flatMap fun b => (t.heap.place b).workers).foldlM
          Proximity.add p := by
    rw [addRanksInBlade_eq, workers_filter hranks hb (.child hchasisAt hxs (mem_row hc)),
      Links.below, List.flatMap_singleton]
  have hblades := addSiblings_eq hb hchasisAt hxs hsibling
  have hchasises := addSiblings_eq hb hcabinetAt hys fun c hc p =>
    addBladesInChasis_eq hranks hb (.child hcabinetAt hys (mem_row hc)) p
  have hcabinets := addSiblings_eq hb hroot hzs fun c hc p =>
    addChasisInCabinets_eq hranks hb (.child hroot hzs (mem_row hc))
      (fun _ hd => chasis_id hb hchasis (.child hroot hzs (mem_row hc)) hd) p
  refine ⟨blade, _, hmyBlade, .up (.up (.up .self hxs) hys) hzs, ?_⟩
  simp only [List.flatMap_append, List.flatMap_assoc]
  rw [List.flatMap_singleton, List.append_assoc, List.append_assoc,
    List.erase_append_left _ hworkers, hnodup'.erase_eq_filter]
  simp only [List.foldlM_append, createProximityArray, hmyBlade, hbladeParent, hchasisParent,
    Option.bind_eq_bind, Option.bind_some, addRanksInBlade_eq t.heap x.rank, hblades, hchasises,
    hcabinets]

omit hranks

theorem Built.at_blade (hb : Built L myrank t) (ha : a ∈ t.heap.links.below 3 t.root) :
    ∃ path, t.heap.At t.root path a := by
  obtain ⟨keys, -, hat⟩ := (hb.tree.mem_below .root).mp ha
  exact ⟨_, hat⟩

/-- The blades of the tree have all the ranks, each of them once. -/
theorem Built.ranks_perm (hb : Built L myrank t) (hnodup : (L.map Coords.rank).Nodup) :
    ((t.heap.links.below 3 t.root).flatMap fun b => (t.heap.place b).workers).Perm
      (L.map Coords.rank) := by
  have hworkers {path : List Int} {b : Nat} (hat : t.heap.At t.root path b) :
      (t.heap.place b).workers.Nodup := by
    rw [hb.workers path b hat]
    exact hnodup.sublist (List.filter_sublist.map _)
  apply (List.perm_ext_iff_of_nodup ?_ hnodup).mpr
  · intro rank
    rw [List.mem_flatMap, List.mem_map]
    constructor
    · rintro ⟨b, hbelow, hrank⟩
      obtain ⟨path, hat⟩ := hb.at_blade hbelow
      obtain ⟨x, hx, hrank, -⟩ := (hb.mem_workers hat).mp hrank
      exact ⟨x, hx, hrank⟩
    · rintro ⟨x, hx, rfl⟩
      obtain ⟨b, hat⟩ := (hb.paths x.path).mpr (.inr ⟨x, hx, List.prefix_refl _⟩)
      exact ⟨b, (hb.tree.mem_below .root).mpr ⟨x.path, rfl, hat⟩, (hb.blade_iff hnodup hx hat).mpr rfl⟩
  · rw [List.nodup_flatMap]
    refine ⟨fun b hbelow => ?_, ?_⟩
    · obtain ⟨path, hat⟩ := hb.at_blade hbelow
      exact hworkers hat
    · apply (hb.tree.nodup_below .root).imp_of_mem
      intro b c hbelow hbelow' hne rank hrank hrank'
      obtain ⟨path, hat⟩ := hb.at_blade hbelow
      obtain ⟨path', hat'⟩ := hb.at_blade hbelow'
      obtain ⟨x, hx, rfl, rfl⟩ := (hb.mem_workers hat).mp hrank
      obtain rfl := (hb.blade_iff hnodup hx hat').mp hrank'
      exact hne (hat.unique hat')

/-- The level of the lowest common ancestor of my blade and the blade of a rank,
from 0 where they are the same, and the number of sibling links between the two
ancestors below it. -/
def RankAway (t : Hpt) (rank : Int) (level links : Nat) : Prop :=
  ∃ blade path b, t.myBladePlace = some blade ∧ t.heap.At t.root path b ∧
    rank ∈ (t.heap.place b).workers ∧ Away t.heap.links blade b level links

structure NearestFirst (t : Hpt) (ranks : List Int) (myrank : Int) (p : Proximity) : Prop where
  written : p.written = List.range (ranks.length - 1)
  perm : p.proximity.Perm (ranks.erase myrank)
  ordered : ∃ level links : Int → Nat,
    (∀ rank ∈ ranks, ∀ k n, RankAway t rank k n ↔ k = level rank ∧ n = links rank) ∧
    p.proximity.Pairwise fun r r' => level r < level r' ∨ level r = level r' ∧ links r ≤ links r'

theorem RankAway.unique {rank : Int} {k n k' n' : Nat} (hb : Built L myrank t)
    (hnodup : (L.map Coords.rank).Nodup) (h : RankAway t rank k n) (h' : RankAway t rank k' n') :
    k = k' ∧ n = n' := by
  obtain ⟨blade, path, b, hmine, hat, hrank, haway⟩ := h
  obtain ⟨blade', path', b', hmine', hat', hrank', haway'⟩ := h'
  obtain ⟨x, hx, rfl, rfl⟩ := (hb.mem_workers hat).mp hrank
  obtain rfl := (hb.blade_iff hnodup hx hat').mp hrank'
  obtain rfl := hat.unique hat'
  obtain rfl := Option.some.inj (hmine.symm.trans hmine')
  obtain ⟨y, hy, -, hblade⟩ := (hb.mine blade).mp hmine
  exact haway.unique hblade hat hb.tree.top haway'

/-- The ranks of the blades in the order from my blade outward. -/
theorem ranks_ordered {blade : Nat} {ns : List Nat} (hb : Built L myrank t)
    (hnodup : (L.map Coords.rank).Nodup) (hmine : t.myBladePlace = some blade)
    (hout : Outward t.heap.links blade 3 t.root ns) : ∃ level links : Int → Nat,
      (∀ rank ∈ L.map Coords.rank, ∀ k n, RankAway t rank k n ↔ k = level rank ∧ n = links rank) ∧
      (ns.flatMap fun b => (t.heap.place b).workers).Pairwise fun r r' =>
        level r < level r' ∨ level r = level r' ∧ links r ≤ links r' := by
  have hplace {b : Nat} (hbn : b ∈ ns) : ∃ path, t.heap.At t.root path b :=
    hb.at_blade (hout.perm.mem_iff.mp hbn)
  have hexists (rank : Int) : ∃ k n, rank ∈ L.map Coords.rank → RankAway t rank k n := by
    by_cases hrank : rank ∈ L.map Coords.rank
    · obtain ⟨b, hbelow, hworker⟩ := List.mem_flatMap.mp ((hb.ranks_perm hnodup).mem_iff.mpr hrank)
      obtain ⟨path, hat⟩ := hb.at_blade hbelow
      obtain ⟨k, n, -, haway⟩ := hout.away hb.tree .root (hout.perm.mem_iff.mpr hbelow)
      exact ⟨k, n, fun _ => ⟨blade, path, b, hmine, hat, hworker, haway⟩⟩
    · exact ⟨0, 0, fun h => absurd h hrank⟩
  choose level links hlevel using hexists
  have hiff (rank : Int) (hrank : rank ∈ L.map Coords.rank) (k n : Nat) :
      RankAway t rank k n ↔ k = level rank ∧ n = links rank := by
    constructor
    · exact fun h => h.unique hb hnodup (hlevel rank hrank)
    · rintro ⟨rfl, rfl⟩
      exact hlevel rank hrank
  refine ⟨level, links, hiff, ?_⟩
  have hworker {b : Nat} (hbn : b ∈ ns) {rank : Int} (hrank : rank ∈ (t.heap.place b).workers)
      {k n : Nat} (haway : Away t.heap.links blade b k n) : k = level rank ∧ n = links rank := by
    obtain ⟨path, hat⟩ := hplace hbn
    obtain ⟨x, hx, rfl, -⟩ := (hb.mem_workers hat).mp hrank
    exact (hiff _ (List.mem_map_of_mem hx) k n).mp ⟨blade, path, b, hmine, hat, hrank, haway⟩
  rw [List.pairwise_flatMap]
  constructor
  · intro b hbn
    obtain ⟨k, n, -, haway⟩ := hout.away hb.tree .root hbn
    apply List.pairwise_of_forall_mem_list
    intro r hr r' hr'
    obtain ⟨hk, hn⟩ := hworker hbn hr haway
    obtain ⟨hk', hn'⟩ := hworker hbn hr' haway
    exact .inr ⟨hk.symm.trans hk', (hn.symm.trans hn').le⟩
  · apply (hout.sorted hb.tree .root).imp_of_mem
    rintro b c hbn hcn ⟨k, n, k', n', haway, haway', hle⟩ r hr r' hr'
    obtain ⟨rfl, rfl⟩ := hworker hbn hr haway
    obtain ⟨rfl, rfl⟩ := hworker hcn hr' haway'
    exact hle

/-- The proximity array of coordinates that fail no assertion, where -1 is
neither a rank nor the index of a chasis. -/
theorem createProximityArray_nearestFirst (hcreate : createEdisonTopology L myrank = some t)
    (hnodup : (L.map Coords.rank).Nodup) (hmine : myrank ∈ L.map Coords.rank)
    (hranks : ∀ x ∈ L, x.rank ≠ -1)
    (hchasis : ∀ x ∈ L, edisonChasisIndexInCabinetGroup x.col x.chasis ≠ some (-1)) :
    ∃ p, createProximityArray t L.length myrank = some p ∧
      NearestFirst t (L.map Coords.rank) myrank p ∧
      createArrrayOfNearestVictim t L.length myrank = some p.proximity := by
  have hb := create_accepted hcreate hnodup
  obtain ⟨blade, ns, hmyBlade, hout, hcreate⟩ :=
    createProximityArray_eq hranks hb hnodup hmine hchasis L.length
  obtain ⟨level, links, hiff, hordered⟩ := ranks_ordered hb hnodup hmyBlade hout
  generalize hothers : (ns.flatMap fun b => (t.heap.place b).workers).erase myrank = others at hcreate
  have hperm : others.Perm ((L.map Coords.rank).erase myrank) := by
    rw [← hothers]
    exact ((hout.perm.flatMap_right _).trans (hb.ranks_perm hnodup)).erase myrank
  have hlength : others.length = L.length - 1 := by
    rw [hperm.length_eq, List.length_erase_of_mem hmine, List.length_map]
  have hfilled := foldlM_filled [] others
  rw [hlength, List.nil_append, List.nil_append] at hfilled
  have harray := hcreate.trans hfilled
  refine ⟨_, harray, ⟨?_, hperm, level, links, hiff, ?_⟩, ?_⟩
  · rw [List.length_map, hlength]
  · rw [← hothers]
    exact hordered.sublist List.erase_sublist
  · rw [createArrrayOfNearestVictim, harray]
    apply if_pos
    intro rank hrank
    obtain ⟨x, hx, rfl⟩ := List.mem_map.mp (List.mem_of_mem_erase (hperm.mem_iff.mp hrank))
    exact hranks x hx

theorem createProximityArray_groups : ∃ L t p,
    L = [⟨2, 0, 0, 4, 0⟩, ⟨2, 0, 0, 9, 1⟩, ⟨5, 0, 1, 0, 2⟩, ⟨2, 0, 0, 3, 3⟩, ⟨3, 0, 2, 6, 4⟩,
      ⟨2, 0, 0, 4, 5⟩] ∧
    createEdisonTopology L 0 = some t ∧ createProximityArray t L.length 0 = some p ∧
    NearestFirst t (L.map Coords.rank) 0 p ∧
    createArrrayOfNearestVictim t L.length 0 = some p.proximity := by
  obtain ⟨t, hcreate⟩ : ∃ t, createEdisonTopology [⟨2, 0, 0, 4, 0⟩, ⟨2, 0, 0, 9, 1⟩,
      ⟨5, 0, 1, 0, 2⟩, ⟨2, 0, 0, 3, 3⟩, ⟨3, 0, 2, 6, 4⟩, ⟨2, 0, 0, 4, 5⟩] 0 = some t :=
    Option.isSome_iff_exists.mp (by decide +kernel)
  obtain ⟨p, hp⟩ := createProximityArray_nearestFirst hcreate (by decide) (by decide) (by decide)
    (by decide)
  exact ⟨_, t, p, rfl, hcreate, hp⟩

example : ((createEdisonTopology [⟨2, 0, 0, 4, 0⟩, ⟨2, 0, 0, 9, 1⟩, ⟨5, 0, 1, 0, 2⟩,
    ⟨2, 0, 0, 3, 3⟩, ⟨3, 0, 2, 6, 4⟩, ⟨2, 0, 0, 4, 5⟩] 0).bind fun t =>
      createProximityArray t 6 0) = some ⟨[5, 3, 1, 4, 2], 5, [0, 1, 2, 3, 4]⟩ := by
  decide +kernel

def Misses (L : List Coords) (myrank : Int) : Prop :=
  (L.map Coords.rank).Nodup ∧ myrank ∈ L.map Coords.rank ∧
    ∃ t, createEdisonTopology L myrank = some t ∧
      ¬∃ p, createProximityArray t L.length myrank = some p ∧
        NearestFirst t (L.map Coords.rank) myrank p

theorem misses_of_run {p : Proximity} (hnodup : (L.map Coords.rank).Nodup)
    (hmine : myrank ∈ L.map Coords.rank) (hrun : (createEdisonTopology L myrank).bind (fun t =>
      createProximityArray t L.length myrank) = some p)
    (hwritten : p.written ≠ List.range (L.length - 1)) : Misses L myrank := by
  obtain ⟨t, hcreate, harray⟩ := Option.bind_eq_some_iff.mp hrun
  refine ⟨hnodup, hmine, t, hcreate, ?_⟩
  rintro ⟨p', harray', hnearest⟩
  obtain rfl := Option.some.inj (harray.symm.trans harray')
  exact hwritten (by rw [hnearest.written, List.length_map])

/-- A chasis of index -1 in another cabinet group is skipped, and so is a rank -1. -/
theorem createProximityArray_minusOne : Misses [⟨2, 0, 0, 0, 0⟩, ⟨5, 0, -1, 0, 1⟩] 0 ∧
    Misses [⟨2, 0, 0, 0, 0⟩, ⟨5, 0, 0, 0, -1⟩] 0 := by
  constructor
  · apply misses_of_run (p := ⟨[-1], 0, []⟩) <;> decide +kernel
  · apply misses_of_run (p := ⟨[-1], 0, []⟩) <;> decide +kernel

end HabaneroUpc.Topology
