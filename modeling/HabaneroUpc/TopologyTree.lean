import HabaneroUpc.Topology
import Mathlib.Data.Finset.Card
import Mathlib.Data.Finset.Range

namespace HabaneroUpc.Topology

open Siblings

abbrev Heap.At (h : Heap) (root : Nat) : List Int → Nat → Prop := Siblings.At h.links root

variable {h h' : Heap} {root p head a : Nat} {id : Int} {as bs xs : List Nat} {path : List Int}
  {type : PlaceType}

theorem length_le_of_nodup {xs : List Nat} {k : Nat} (hnodup : xs.Nodup) (hlt : ∀ x ∈ xs, x < k) :
    xs.length ≤ k := by
  rw [← List.toFinset_card_of_nodup hnodup, ← Finset.card_range k]
  apply Finset.card_le_card
  intro x hx
  exact Finset.mem_range.mpr (hlt x (List.mem_toFinset.mp hx))

/-- The loop ends at the place behind which the id belongs. -/
theorem locate_eq {before first last : Option Nat} {bound : Nat}
    (hchain : Segment h.links p before first (as ++ head :: bs) last none)
    (hsorted : ((as ++ head :: bs).map h.links.key).Pairwise (· < ·)) (hlt : (h.place head).id < id)
    (hbound : bs.length < bound) :
      ∃ as' head' bs' found, locate h id bound head = some (head', found) ∧
      as ++ head :: bs = as' ++ head' :: bs' ∧ (h.place head').id < id ∧
      (found = false → ∀ y ∈ bs', id < (h.place y).id) ∧
      (found = true → ∃ y ys, bs' = y :: ys ∧ (h.place y).id = id) := by
  induction bs generalizing as head bound with
  | nil =>
      have hnext : (h.place head).next = none := hchain.next_eq
      cases bound with
      | zero => cases hbound
      | succ bound => exact ⟨as, head, [], false, by simp [locate, hnext], rfl, hlt, by simp, by
          simp⟩
  | cons b bs ih =>
      have hnext : (h.place head).next = some b := hchain.next_eq
      cases bound with
      | zero => cases hbound
      | succ bound =>
          rcases lt_trichotomy (h.place b).id id with hb | hb | hb
          · have happend : as ++ head :: b :: bs = (as ++ [head]) ++ b :: bs := by simp
            rw [happend] at hchain hsorted ⊢
            obtain ⟨as', head', bs', found, hlocate, hrest⟩ :=
              ih hchain hsorted hb (by simpa using hbound)
            refine ⟨as', head', bs', found, ?_, hrest⟩
            rw [locate, hnext]
            simp [hb, not_lt_of_gt hb, hlocate]
          · refine ⟨as, head, b :: bs, true, ?_, rfl, hlt, by simp, fun _ => ⟨b, bs, rfl, hb⟩⟩
            rw [locate, hnext]
            simp [hb]
          · refine ⟨as, head, b :: bs, false, ?_, rfl, hlt, fun _ y hy => ?_, by simp⟩
            · rw [locate, hnext]
              simp [hb]
            · rcases List.mem_cons.mp hy with rfl | hy
              · exact hb
              · rw [List.map_append, List.pairwise_append] at hsorted
                have htail := (List.pairwise_cons.mp (List.pairwise_cons.mp hsorted.2.1).2).1
                exact hb.trans (htail _ (List.mem_map_of_mem hy))

/-- What add_place does to the tree: there is a place a for the id below the
given path, and nothing else changes. -/
structure Added (h h' : Heap) (root : Nat) (path : List Int) (id : Int) (a : Nat) : Prop where
  tree : Tree h'.links root
  allocated : ∀ path' b, h'.At root path' b → b < h'.allocated
  iff : ∀ path' b, h'.At root path' b ↔ h.At root path' b ∨ path' = path ++ [id] ∧ b = a
  workers : ∀ path' b, h.At root path' b → (h'.place b).workers = (h.place b).workers
  empty : (∀ b, ¬h.At root (path ++ [id]) b) → (h'.place a).workers = []

theorem added_new (ht : Tree h.links root)
    (hallocated : ∀ path b, h.At root path b → b < h.allocated)
    (hp : h.At root path p) (hxs : Children h.links p (as ++ bs))
    (hs : Spliced h.links h'.links p h.allocated as bs) (hid : (h'.place h.allocated).id = id)
    (hlt : ∀ x ∈ as, (h.place x).id < id) (hgt : ∀ x ∈ bs, id < (h.place x).id)
    (hnext : h'.allocated = h.allocated + 1)
    (hworkers : ∀ b, b ≠ h.allocated → (h'.place b).workers = (h.place b).workers)
    (hnew : (h'.place h.allocated).workers = []) : Added h h' root path id h.allocated := by
  have hfresh (path : List Int) : ¬h.At root path h.allocated :=
    fun hat => absurd (hallocated path _ hat) (lt_irrefl _)
  have hkey : h'.links.key h.allocated = id := hid
  subst hkey
  obtain ⟨htree, hat⟩ := ht.spliced hp hxs hs hfresh hlt hgt
  refine ⟨htree, fun path' b hb => ?_, hat, fun path' b hb => ?_, fun _ => hnew⟩
  · rw [hnext]
    rcases (hat path' b).mp hb with hb | ⟨-, rfl⟩
    · exact Nat.lt_succ_of_lt (hallocated path' b hb)
    · exact Nat.lt_succ_self _
  · exact hworkers b fun heq => hfresh path' (heq ▸ hb)

theorem added_found (ht : Tree h.links root)
    (hallocated : ∀ path b, h.At root path b → b < h.allocated)
    (hp : h.At root path p) (hxs : Children h.links p xs) (ha : a ∈ xs) (hid : (h.place a).id = id)
    (hsame : ∀ b, b < h.allocated → (h'.place b).child = (h.place b).child ∧
      (h'.place b).prev = (h.place b).prev ∧ (h'.place b).parent = (h.place b).parent ∧
      (h'.place b).next = (h.place b).next ∧ (h'.place b).id = (h.place b).id ∧
      (h'.place b).workers = (h.place b).workers)
    (hnext : h.allocated ≤ h'.allocated) : Added h h' root path id a := by
  have hat : h.At root (path ++ [id]) a := by
    rw [← hid]
    exact .child hp hxs ha
  obtain ⟨htree, hiff⟩ : Tree h'.links root ∧ ∀ path a, h'.At root path a ↔ h.At root path a :=
      ht.same fun path b hb => by
    obtain ⟨hc, hv, hq, hn, hk, -⟩ := hsame b (hallocated path b hb)
    exact ⟨hc, hv, hq, hn, hk⟩
  refine ⟨htree, fun path' b hb => ?_, fun path' b => ?_, fun path' b hb => ?_, fun hnone => ?_⟩
  · exact (hallocated path' b ((hiff path' b).mp hb)).trans_le hnext
  · apply (hiff path' b).trans
    constructor
    · exact .inl
    · rintro (hb | ⟨rfl, rfl⟩)
      · exact hb
      · exact hat
  · exact (hsame b (hallocated path' b hb)).2.2.2.2.2
  · exact absurd hat (hnone a)

theorem field_modify {α : Type} (field : PlaceT → α) {f : PlaceT → PlaceT}
    (hf : ∀ x, field (f x) = field x)
    (h : Heap) (p b : Nat) : field ((h.modify p f).place b) = field (h.place b) := by
  by_cases hb : b = p
  · subst hb
    simp [Heap.modify, hf]
  · simp [Heap.modify, hb]

structure Kept (h h' : Heap) : Prop where
  allocated : h'.allocated = h.allocated
  id : ∀ b, (h'.place b).id = (h.place b).id
  workers : ∀ b, (h'.place b).workers = (h.place b).workers

theorem Kept.refl (h : Heap) : Kept h h := ⟨rfl, fun _ => rfl, fun _ => rfl⟩

theorem Kept.modify (hk : Kept h h') {p : Nat} {f : PlaceT → PlaceT} (hid : ∀ x, (f x).id = x.id)
    (hworkers : ∀ x, (f x).workers = x.workers) : Kept h (h'.modify p f) := by
  refine ⟨hk.allocated, fun b => ?_, fun b => ?_⟩
  · exact (field_modify PlaceT.id hid h' p b).trans (hk.id b)
  · exact (field_modify PlaceT.workers hworkers h' p b).trans (hk.workers b)

section Field

variable {α : Type} (field : PlaceT → α) (hchild : ∀ x v, field { x with child := v } = field x)
  (hnext : ∀ x v, field { x with next := v } = field x)
    (hprev : ∀ x v, field { x with prev := v } = field x)

include hnext hprev

include hchild in
theorem field_insertFirst (h : Heap) (p head node b : Nat) :
    field ((insertFirst h p head node).place b) = field (h.place b) := by
  rw [insertFirst, field_modify field fun x => hchild x _, field_modify field fun x => hprev x _,
    field_modify field fun x => hnext x _]

theorem field_insertAfter (h : Heap) (head node b : Nat) :
    field ((insertAfter h head node).place b) = field (h.place b) := by
  rw [insertAfter, field_modify field fun x => hnext x _, field_modify field fun x => hprev x _]
  cases (h.place head).next with
  | none => exact field_modify field (fun x => hnext x _) h node b
  | some next =>
      exact (field_modify field (fun x => hprev x _) _ next b).trans
        (field_modify field (fun x => hnext x _) h node b)

end Field

theorem kept_insertFirst (h : Heap) (p head node : Nat) : Kept h (insertFirst h p head node) := by
  refine ⟨rfl, ?_, ?_⟩
  · exact field_insertFirst PlaceT.id (fun _ _ => rfl) (fun _ _ => rfl)
      (fun _ _ => rfl) h p head node
  · exact field_insertFirst PlaceT.workers (fun _ _ => rfl) (fun _ _ => rfl)
      (fun _ _ => rfl) h p head node

theorem kept_insertAfter (h : Heap) (head node : Nat) : Kept h (insertAfter h head node) := by
  refine ⟨?_, ?_, ?_⟩
  · rw [insertAfter]
    cases (h.place head).next <;> rfl
  · exact field_insertAfter PlaceT.id (fun _ _ => rfl) (fun _ _ => rfl) h head node
  · exact field_insertAfter PlaceT.workers (fun _ _ => rfl) (fun _ _ => rfl) h head node

theorem spliced_only (hp : p < h.allocated) (type : PlaceType) (id : Int) :
    let (node, h₁) := getNewPlace h type id
    let h' := (h₁.modify p fun x => { x with child := some node }).modify node fun x =>
      { x with parent := some p }
    Spliced h.links h'.links p h.allocated [] [] := by
  have hne : p ≠ h.allocated := hp.ne
  constructor <;> simp [Heap.links, Heap.modify, newPlace, hne, hne.symm] <;> grind

theorem spliced_first (hp : p < h.allocated) (hhead : head < h.allocated) (hph : p ≠ head)
    (type : PlaceType) (id : Int) (rest : List Nat) :
    let (node, h₁) := getNewPlace h .placeholder id
    let h' := ((insertFirst h₁ p head node).modify node fun x => { x with type := type }).modify node
      fun x => { x with parent := some p }
    Spliced h.links h'.links p h.allocated [] (head :: rest) := by
  have hne : p ≠ h.allocated := hp.ne
  have hne' : head ≠ h.allocated := hhead.ne
  constructor <;>
    simp [Heap.links, Heap.modify, newPlace, insertFirst, hne, hne.symm, hne', hne'.symm, hph,
      hph.symm] <;>
    grind

theorem spliced_after (hp : p < h.allocated) (hhead : head < h.allocated) (hph : p ≠ head)
    (hbs : ∀ x ∈ bs, x < h.allocated ∧ x ≠ head ∧ x ≠ p) (hnext : (h.place head).next = bs.head?)
    (hchild : (h.place p).child = (as ++ [head]).head?) (type : PlaceType) (id : Int) :
    let (node, h₁) := getNewPlace h .placeholder id
    let h' := ((insertAfter h₁ head node).modify node fun x => { x with type := type }).modify node
      fun x => { x with parent := some p }
    Spliced h.links h'.links p h.allocated (as ++ [head]) bs := by
  have hne : p ≠ h.allocated := hp.ne
  have hne' : head ≠ h.allocated := hhead.ne
  cases bs with
  | nil =>
      rw [List.head?_nil] at hnext
      constructor <;>
        simp [Heap.links, Heap.modify, newPlace, insertAfter, hne, hne', hne'.symm, hph, hnext] <;>
        grind
  | cons b bs =>
      rw [List.head?_cons] at hnext
      obtain ⟨hb, hbh, hbp⟩ := hbs b List.mem_cons_self
      have hne'' : b ≠ h.allocated := hb.ne
      constructor <;>
        simp [Heap.links, Heap.modify, newPlace, insertAfter, hne, hne', hne'.symm, hne'',
          hne''.symm, hph, hbh, hbp.symm, hbh.symm, hnext] <;>
        grind

/-- A new place that has been spliced in. -/
theorem added_spliced (ht : Tree h.links root)
    (hallocated : ∀ path b, h.At root path b → b < h.allocated)
    (hp : h.At root path p) (hxs : Children h.links p (as ++ bs)) {type : PlaceType}
    (hk : Kept (getNewPlace h type id).2 h') (hs : Spliced h.links h'.links p h.allocated as bs)
    (hlt : ∀ x ∈ as, (h.place x).id < id) (hgt : ∀ x ∈ bs, id < (h.place x).id) :
    Added h h' root path id h.allocated := by
  refine added_new ht hallocated hp hxs hs ?_ hlt hgt hk.allocated (fun b hb => ?_) ?_
  · rw [hk.id]
    simp [getNewPlace, newPlace]
  · rw [hk.workers]
    simp [getNewPlace, hb]
  · rw [hk.workers]
    simp [getNewPlace, newPlace]

theorem place_newPlace {b : Nat} (hb : b < h.allocated) (type : PlaceType) (id : Int) :
    (getNewPlace h type id).2.place b = h.place b :=
  Function.update_of_ne hb.ne ..

theorem sortedInsertion_eq (hchild : (h.place p).child = some head) (hhead : head < h.allocated)
    (hne : (h.place head).id ≠ id) : sortedInsertion h p id =
      if id < (h.place head).id then
        some (h.allocated, insertFirst (getNewPlace h .placeholder id).2 p head h.allocated)
      else
        match locate (getNewPlace h .placeholder id).2 id (h.allocated + 1) head with
        | none => none
        | some (head, false) =>
            some (h.allocated, insertAfter (getNewPlace h .placeholder id).2 head h.allocated)
        | some (head, true) => ((getNewPlace h .placeholder id).2.place head).next.map fun node =>
            (node, (getNewPlace h .placeholder id).2) := by
  rw [sortedInsertion, hchild]
  simp only [hne, if_false, gt_iff_lt, place_newPlace hhead]
  rfl

theorem same_found {h₁ : Heap} (hparent : (h.place a).parent = some p)
    (hsame : ∀ b, b < h.allocated → h₁.place b = h.place b) (type : PlaceType) (b : Nat)
    (hb : b < h.allocated) :
    let h' := (h₁.modify a fun x => { x with type := type }).modify a fun x => { x with parent := some p }
    (h'.place b).child = (h.place b).child ∧ (h'.place b).prev = (h.place b).prev ∧
      (h'.place b).parent = (h.place b).parent ∧ (h'.place b).next = (h.place b).next ∧
      (h'.place b).id = (h.place b).id ∧ (h'.place b).workers = (h.place b).workers := by
  by_cases hba : b = a
  · subst hba
    simp [Heap.modify, hsame b hb, hparent]
  · simp [Heap.modify, hba, hsame b hb]

theorem Kept.placed (hk : Kept h h') (a p : Nat) (type : PlaceType) : Kept h ((h'.modify a fun x =>
    { x with type := type }).modify a fun x => { x with parent := some p }) := by
  refine .modify (.modify hk ?_ ?_) ?_ ?_ <;> exact fun _ => rfl

theorem children_lt (ht : Tree h.links root)
    (hallocated : ∀ path b, h.At root path b → b < h.allocated)
    (hp : h.At root path p) (hxs : Children h.links p xs) (hx : a ∈ xs) : a < h.allocated ∧
      a ≠ p := by
  refine ⟨hallocated _ a (.child hp hxs hx), ?_⟩
  rintro rfl
  have hlen := congrArg List.length ((At.child hp hxs hx).path_unique ht.top hp)
  simp at hlen

theorem added_later (ht : Tree h.links root)
    (hallocated : ∀ path b, h.At root path b → b < h.allocated)
    (hp : h.At root path p) (hxs : Children h.links p (head :: xs)) (type : PlaceType)
    (hid : (h.place head).id < id) : ∃ a h₁, sortedInsertion h p id = some (a, h₁) ∧
      Added h ((h₁.modify a fun x => { x with type := type }).modify a fun x =>
        { x with parent := some p }) root path id a := by
  obtain ⟨last, hchain⟩ := hxs.chain
  have hpalloc := hallocated path p hp
  have hmem (x : Nat) (hx : x ∈ head :: xs) := children_lt ht hallocated hp hxs hx
  have hhead := (hmem head List.mem_cons_self).1
  have hsame (b : Nat) (hb : b < h.allocated) := place_newPlace hb .placeholder id
  have hxs₁ : Children (getNewPlace h .placeholder id).2.links p (head :: xs) := by
    apply hxs.congr (congrArg PlaceT.child (hsame p hpalloc))
    intro x hx
    have hx := hsame x (hmem x hx).1
    exact ⟨congrArg PlaceT.prev hx, congrArg PlaceT.parent hx, congrArg PlaceT.next hx,
      congrArg PlaceT.id hx⟩
  have hlen := length_le_of_nodup hxs.nodup fun x hx => (hmem x hx).1
  obtain ⟨last₁, hchain₁⟩ := hxs₁.chain
  have hsorted₁ := hxs₁.sorted
  rw [← List.nil_append (head :: xs)] at hchain₁ hsorted₁
  obtain ⟨as, head', bs, found, hlocate, hsplit, hlt, hlater, hfound⟩ :=
    locate_eq hchain₁ hsorted₁ (by rwa [hsame head hhead]) (Nat.lt_succ_of_lt hlen)
  rw [sortedInsertion_eq hxs.first_eq hhead hid.ne, if_neg hid.not_gt, hlocate]
  rw [hsplit] at hchain₁
  rw [List.nil_append] at hsplit
  rw [hsplit] at hxs hmem hchain
  obtain ⟨hhead', hheadp'⟩ := hmem head' (by simp)
  rw [hsame head' hhead'] at hlt
  cases found with
  | false =>
      have hnext : (h.place head').next = bs.head? := hchain.next_eq
      have hfirst : (h.place p).child = (as ++ [head']).head? := by
        apply hchain.first_eq.trans
        cases as <;> rfl
      have hnodup := hxs.nodup
      have hsorted := hxs.sorted
      rw [List.map_append, List.pairwise_append] at hsorted
      rw [List.append_cons] at hxs hnodup
      refine ⟨_, _, rfl, ?_⟩
      refine added_spliced ht hallocated hp hxs ((kept_insertAfter ..).placed ..)
        (spliced_after hpalloc hhead' hheadp'.symm (fun x hx => ?_) hnext hfirst type id)
        (fun x hx => ?_) fun x hx => ?_
      · obtain ⟨hx', hxp⟩ := hmem x (by simp [hx])
        refine ⟨hx', ?_, hxp⟩
        rintro rfl
        exact (List.nodup_append'.mp hnodup).2.2 (by simp) hx
      · rcases List.mem_append.mp hx with hx | hx
        · have hcross := hsorted.2.2 _ (List.mem_map_of_mem hx) _
            (List.mem_map_of_mem List.mem_cons_self)
          exact hcross.trans hlt
        · rw [List.mem_singleton.mp hx]
          exact hlt
      · have hx' := hlater rfl x hx
        rwa [hsame x (hmem x (by simp [hx])).1] at hx'
  | true =>
      obtain ⟨y, ys, rfl, hy⟩ := hfound rfl
      have hnext : ((getNewPlace h .placeholder id).2.place head').next = some y := hchain₁.next_eq
      obtain ⟨hyalloc, -⟩ := hmem y (by simp)
      rw [hsame y hyalloc] at hy
      refine ⟨y, (getNewPlace h .placeholder id).2, by simp only [hnext, Option.map_some], ?_⟩
      exact added_found ht hallocated hp hxs (by simp) hy
        (same_found (hxs.parent (by simp)) hsame type) (Nat.le_succ _)

theorem addPlace_added (ht : Tree h.links root)
    (hallocated : ∀ path b, h.At root path b → b < h.allocated)
    (hp : h.At root path p) (type : PlaceType) (id : Int) :
    ∃ a h', addPlace h p type id = some (a, h') ∧ Added h h' root path id a := by
  obtain ⟨xs, hxs⟩ := ht.children path p hp
  have hpalloc := hallocated path p hp
  cases xs with
  | nil =>
      have hchild : (h.place p).child = none := hxs.first_eq
      refine ⟨_, _, by rw [addPlace, hchild], ?_⟩
      have hkept : Kept (getNewPlace h type id).2 (((getNewPlace h type id).2.modify p fun x =>
          { x with child := some h.allocated }).modify h.allocated fun x =>
            { x with parent := some p }) := by
        refine .modify (.modify (.refl _) ?_ ?_) ?_ ?_ <;> exact fun _ => rfl
      rw [← List.append_nil []] at hxs
      exact added_spliced ht hallocated hp hxs hkept (spliced_only hpalloc type id) (by simp)
        (by simp)
  | cons head rest =>
      have hchild : (h.place p).child = some head := hxs.first_eq
      obtain ⟨hhead, hheadp⟩ := children_lt ht hallocated hp hxs List.mem_cons_self
      have hadd : addPlace h p type id = (sortedInsertion h p id).map fun r =>
          (r.1, (r.2.modify r.1 fun x => { x with type := type }).modify r.1 fun x =>
            { x with parent := some p }) := by
        rw [addPlace, hchild]
        cases sortedInsertion h p id <;> rfl
      rw [hadd]
      rcases lt_trichotomy (h.place head).id id with hid | hid | hid
      · obtain ⟨a, h₁, hins, hadded⟩ := added_later ht hallocated hp hxs type hid
        rw [hins]
        exact ⟨a, _, rfl, hadded⟩
      · rw [sortedInsertion, hchild]
        simp only [hid, if_true, Option.map_some]
        refine ⟨_, _, rfl, ?_⟩
        exact added_found ht hallocated hp hxs List.mem_cons_self hid
          (same_found (hxs.parent List.mem_cons_self) (fun _ _ => rfl) type) le_rfl
      · rw [sortedInsertion_eq hchild hhead hid.ne', if_pos hid]
        have hsorted := hxs.sorted
        rw [List.map_cons, List.pairwise_cons] at hsorted
        refine ⟨_, _, rfl, ?_⟩
        rw [← List.nil_append (head :: rest)] at hxs
        refine added_spliced ht hallocated hp hxs ((kept_insertFirst ..).placed ..)
          (spliced_first hpalloc hhead hheadp.symm type id rest) (by simp) fun x hx => ?_
        rcases List.mem_cons.mp hx with rfl | hx
        · exact hid
        · exact hid.trans (hsorted.1 _ (List.mem_map_of_mem hx))

theorem sortedInsertion_type {h₁ : Heap} (hins : sortedInsertion h p id = some (a, h₁)) {b : Nat}
    (hb : b < h.allocated) : (h₁.place b).type = (h.place b).type := by
  have hnew := congrArg PlaceT.type (place_newPlace hb .placeholder id)
  rw [sortedInsertion] at hins
  cases hchild : (h.place p).child with
  | none =>
      rw [hchild] at hins
      cases hins
  | some head =>
      simp only [hchild] at hins
      split at hins
      · cases hins
        rfl
      · split at hins
        · cases hins
          rw [← hnew]
          exact field_insertFirst PlaceT.type (fun _ _ => rfl) (fun _ _ => rfl) (fun _ _ => rfl) ..
        · split at hins
          · cases hins
          · cases hins
            rw [← hnew]
            exact field_insertAfter PlaceT.type (fun _ _ => rfl) (fun _ _ => rfl) ..
          · obtain ⟨_, -, heq⟩ := Option.map_eq_some_iff.mp hins
            cases heq
            exact hnew

theorem addPlace_type (hadd : addPlace h p type id = some (a, h')) : (h'.place a).type = type ∧
    ∀ b, b < h.allocated → b ≠ a → (h'.place b).type = (h.place b).type := by
  have hparent (h : Heap) (b : Nat) :
      ((h.modify a fun x => { x with parent := some p }).place b).type = (h.place b).type :=
    field_modify PlaceT.type (f := fun x => { x with parent := some p }) (fun _ => rfl) h a b
  have hchild (h : Heap) (b : Nat) :
      ((h.modify p fun x => { x with child := some a }).place b).type = (h.place b).type :=
    field_modify PlaceT.type (f := fun x => { x with child := some a }) (fun _ => rfl) h p b
  rw [addPlace] at hadd
  cases hhead : (h.place p).child with
  | none =>
      simp only [hhead] at hadd
      cases hadd
      refine ⟨?_, fun b hb hba => ?_⟩
      · rw [hparent, hchild]
        simp [getNewPlace, newPlace]
      · rw [hparent, hchild]
        exact congrArg PlaceT.type (place_newPlace hb type id)
  | some head =>
      simp only [hhead] at hadd
      split at hadd
      · cases hadd
      · rename_i hins
        cases hadd
        refine ⟨?_, fun b hb hba => ?_⟩
        · rw [hparent]
          simp [Heap.modify]
        · rw [hparent, ← sortedInsertion_type hins hb]
          simp [Heap.modify, hba]

end HabaneroUpc.Topology
