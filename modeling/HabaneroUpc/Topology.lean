import HabaneroUpc.Lib.Siblings

namespace HabaneroUpc.Topology

open Siblings

/-- c12-5c2s7n0 => column=12; row=5; chasis=2; blade=7; node=0 -/
structure Coords where
  col : Int
  row : Int
  chasis : Int
  blade : Int
  rank : Int
  deriving DecidableEq

inductive PlaceType
  | placeholder | root | cabinetGroup | chasis | blade
  deriving DecidableEq

structure PlaceT where
  parent : Option Nat
  child : Option Nat
  next : Option Nat
  prev : Option Nat
  workers : List Int
  id : Int
  type : PlaceType

structure Heap where
  place : Nat → PlaceT
  allocated : Nat

def edisonNodesPerBlade : Nat := 4

def maxCabinetGroupInRowOnEdison : Int := 4

def maxCabinetInOneGroupOnEdison : Int := 2

def maxChasisOnACabinet : Int := 3

def newPlace (type : PlaceType) (id : Int) : PlaceT where
  parent := none
  child := none
  next := none
  prev := none
  workers := []
  id := id
  type := type

def getNewPlace (h : Heap) (type : PlaceType) (id : Int) : Nat × Heap :=
  (h.allocated, ⟨Function.update h.place h.allocated (newPlace type id), h.allocated + 1⟩)

def Heap.modify (h : Heap) (p : Nat) (f : PlaceT → PlaceT) : Heap :=
  { h with place := Function.update h.place p (f (h.place p)) }

/-- The loop that locates the node: the last place with a smaller id, and
whether the place after it has the id. The bound is on the iterations. -/
def locate (h : Heap) (id : Int) : Nat → Nat → Option (Nat × Bool)
  | 0, _ => none
  | bound + 1, head => match (h.place head).next with
    | none => some (head, false)
    | some next =>
        if (h.place next).id > id then some (head, false)
        else if (h.place next).id < id then locate h id bound next
        else some (head, true)

def insertFirst (h : Heap) (currHead head node : Nat) : Heap :=
  let h := h.modify node fun p => { p with next := some head }
  let h := h.modify head fun p => { p with prev := some node }
  h.modify currHead fun p => { p with child := some node }

def insertAfter (h : Heap) (head node : Nat) : Heap :=
  let next := (h.place head).next
  let h := h.modify node fun p => { p with next := next }
  let h := match next with
    | some next => h.modify next fun p => { p with prev := some node }
    | none => h
  let h := h.modify node fun p => { p with prev := some head }
  h.modify head fun p => { p with next := some node }

def sortedInsertion (h : Heap) (currHead : Nat) (id : Int) : Option (Nat × Heap) :=
  match (h.place currHead).child with
  | none => none
  | some head =>
      -- node already present
      if (h.place head).id = id then some (head, h)
      else
        let (node, h) := getNewPlace h .placeholder id
        if (h.place head).id > id then some (node, insertFirst h currHead head node)
        else
          match locate h id h.allocated head with
          | none => none
          | some (head, false) => some (node, insertAfter h head node)
          | some (head, true) => (h.place head).next.map fun node => (node, h)

def addPlace (h : Heap) (head : Nat) (type : PlaceType) (id : Int) : Option (Nat × Heap) :=
  let setParent (node : Nat) (h : Heap) :=
    (node, h.modify node fun p => { p with parent := some head })
  match (h.place head).child with
  | none =>
      let (node, h) := getNewPlace h type id
      some (setParent node (h.modify head fun p => { p with child := some node }))
  | some _ =>
      match sortedInsertion h head id with
      | none => none
      | some (node, h) => some (setParent node (h.modify node fun p => { p with type := type }))

def edisonCabinetGroupId (col row : Int) : Option Int :=
  if row = 3 → col ≠ 0 ∧ col ≠ 1 then
    some (maxCabinetGroupInRowOnEdison * row + col.tdiv maxCabinetInOneGroupOnEdison)
  else none

def edisonChasisIndexInCabinetGroup (col chasis : Int) : Option Int :=
  let chasisNewId := if col.tmod 2 = 0 then chasis + maxChasisOnACabinet else chasis
  if chasisNewId < 2 * maxChasisOnACabinet then some chasisNewId else none

structure Hpt where
  heap : Heap
  root : Nat
  myBladePlace : Option Nat

def addRankInBlade (t : Hpt) (blade : Nat) (rank myrank : Int) : Option Hpt :=
  if edisonNodesPerBlade < (t.heap.place blade).workers.length + 1 then none
  else
    let h := t.heap.modify blade fun p => { p with workers := p.workers ++ [rank] }
    if rank = myrank then
      if t.myBladePlace = none then some ⟨h, t.root, some blade⟩ else none
    else some ⟨h, t.root, t.myBladePlace⟩

def addCoords (myrank : Int) (t : Hpt) (x : Coords) : Option Hpt := do
  let chasis ← edisonChasisIndexInCabinetGroup x.col x.chasis
  let cabinetGid ← edisonCabinetGroupId x.col x.row
  let (cabinetGroupPlace, h) ← addPlace t.heap t.root .cabinetGroup cabinetGid
  let (chasisPlace, h) ← addPlace h cabinetGroupPlace .chasis chasis
  let (bladePlace, h) ← addPlace h chasisPlace .blade x.blade
  addRankInBlade ⟨h, t.root, t.myBladePlace⟩ bladePlace x.rank myrank

def logicalRoot : Hpt :=
  let (root, h) := getNewPlace ⟨fun _ => newPlace .placeholder 0, 0⟩ .root 0
  ⟨h, root, none⟩

def createEdisonTopology (placeCoords : List Coords) (myrank : Int) : Option Hpt :=
  placeCoords.foldlM (addCoords myrank) logicalRoot

def Heap.links (h : Heap) : Links Nat Int where
  parent p := (h.place p).parent
  child p := (h.place p).child
  next p := (h.place p).next
  prev p := (h.place p).prev
  key p := (h.place p).id

end HabaneroUpc.Topology
