import HabaneroUpc.Lib.Interleaving

namespace HabaneroUpc.Dddf

open Interleaving

abbrev Data (count : Nat) := Vector UInt8 count

inductive RegisterPc
  | get | cas | asyncAt
  deriving DecidableEq

inductive PutPc
  | ddfPut | assertRank | setRank | memcpy | cas
  deriving DecidableEq

inductive PutHomePc (count : Nat)
  | memcpy
  | assertRank (data : Data count)
  | setRank (data : Data count)
  | ddfPut (data : Data count)
  deriving DecidableEq

inductive PutRemotePc
  | asyncCopy
  | asyncAfter (e : Nat)
  deriving DecidableEq

inductive Task (n count : Nat)
  | registerCallback (l : RegisterPc)
  | put (l : PutPc)
  | putHome (source : Fin n) (l : PutHomePc count)
  | putRemote (dest : Fin n) (l : PutRemotePc)
  | callback (dest : Fin n)
  | putBack (dest : Fin n)
  deriving DecidableEq

/-- The tasks of the communication worker: asyncAt of DDF_PUT_callback to the
home, _asyncCopy to dest, and _asyncAfter of DDF_PUT_home to dest. -/
inductive CommTask (n : Nat)
  | asyncAt
  | asyncCopy (dest : Fin n) (e : Nat)
  | asyncAfter (dest : Fin n) (e : Nat)
  deriving DecidableEq

inductive Msg (n : Nat)
  | asyncAt (source : Fin n)
  | asyncCopy (source dest : Fin n) (e : Nat)
  | asyncAfter (source dest : Fin n) (e : Nat)
  deriving DecidableEq

inductive Assertion
  /-- hcpp::ddf_put on a DDF that has a value. -/
  | singleAssignment
  /-- put_initiator_rank == -1 -/
  | noInitiator
  /-- p != global_myrank() -/
  | otherPlace
  deriving DecidableEq

/-- DDDF_t at one place, its ready tasks and the deque of its communication
worker. The last five fields are history. -/
structure Place (n count : Nat) where
  ddf : Option (Data count)
  waiting : List (Fin n)
  putRequestedFromHome : Bool
  putInitiatorRank : Option (Fin n)
  tasks : List (Task n count)
  commTasks : List (CommTask n)
  events : Nat
  putCalled : Bool
  awaited : Bool
  puts : Nat
  sent : List (CommTask n)
  failed : List Assertion
  deriving DecidableEq

structure Shared (n count : Nat) where
  datum : Fin n → Data count
  net : List (Msg n)

/-- A handle with its home, the place that puts data into it, the places that
may await it, and what is in the datum segments before. -/
structure Config (n count : Nat) where
  home : Fin n
  initiator : Fin n
  data : Data count
  awaits : Fin n → Bool
  datum : Fin n → Data count

variable {n count : Nat}

abbrev State (n count : Nat) := Global (Fin n) (Place n count) (Shared n count)

def Place.ready (P : Place n count) (t : Task n count) : Place n count :=
  { P with tasks := t :: P.tasks }

def Place.take (P : Place n count) (t : Task n count) : Place n count :=
  { P with tasks := P.tasks.erase t }

def Place.advance (P : Place n count) (t : CommTask n) (rest : List (CommTask n)) : Place n count :=
  { P with commTasks := rest, sent := t :: P.sent }

def Place.push (P : Place n count) (t : CommTask n) : Place n count :=
  { P with commTasks := P.commTasks ++ [t] }

def Place.check (P : Place n count) (a : Assertion) (p : Prop) [Decidable p] : Place n count :=
  if p then P else { P with failed := a :: P.failed }

def Place.ddfPut (P : Place n count) (data : Data count) : Place n count :=
  let P := P.check .singleAssignment (P.ddf = none)
  { P with
    ddf := some data
    waiting := []
    tasks := P.waiting.map .putBack ++ P.tasks
    puts := P.puts + 1 }

def ddfPutHome (me : Fin n) (P : Place n count) (g : Shared n count) (source : Fin n) :
    PutHomePc count → Place n count
  | .memcpy => P.ready (.putHome source (.assertRank (g.datum me)))
  | .assertRank data =>
      (P.check .noInitiator (P.putInitiatorRank = none)).ready (.putHome source (.setRank data))
  | .setRank data => { P with putInitiatorRank := some source }.ready (.putHome source (.ddfPut data))
  | .ddfPut data => P.ddfPut data

def ddfPutRemote (me : Fin n) (P : Place n count) (dest : Fin n) : PutRemotePc → Place n count
  | .asyncCopy =>
      ({ P with events := P.events + 1 }.push (.asyncCopy dest P.events)).ready
        (.putRemote dest (.asyncAfter P.events))
  | .asyncAfter e => (P.check .otherPlace (dest ≠ me)).push (.asyncAfter dest e)

def ddfPut (c : Config n count) (me : Fin n) (P : Place n count) (g : Shared n count) :
    PutPc → Place n count × Shared n count
  | .ddfPut => ((P.ddfPut c.data).ready (.put .assertRank), g)
  | .assertRank => ((P.check .noInitiator (P.putInitiatorRank = none)).ready (.put .setRank), g)
  | .setRank => ({ P with putInitiatorRank := some me }.ready (.put .memcpy), g)
  | .memcpy => (P.ready (.put .cas), { g with datum := Function.update g.datum me c.data })
  | .cas =>
      let P := { P with putRequestedFromHome := true }
      (if me = c.home then P else P.ready (.putRemote c.home .asyncCopy), g)

def ddfPutCallback (P : Place n count) (dest : Fin n) : Place n count :=
  if P.ddf = none then { P with waiting := dest :: P.waiting } else P.ready (.putBack dest)

def putBack (P : Place n count) (dest : Fin n) : Place n count :=
  if P.putInitiatorRank = some dest then P else P.ready (.putRemote dest .asyncCopy)

def dddfRegisterCallback (c : Config n count) (me : Fin n) (P : Place n count) :
    RegisterPc → Place n count
  | .get => if P.ddf = none then P.ready (.registerCallback .cas) else P
  | .cas =>
      if P.putRequestedFromHome then P
      else { P with putRequestedFromHome := true }.ready (.registerCallback .asyncAt)
  | .asyncAt =>
      ({ P with putRequestedFromHome := true }.check .otherPlace (c.home ≠ me)).push .asyncAt

def runTask (c : Config n count) (me : Fin n) (P : Place n count) (g : Shared n count) :
    Task n count → Place n count × Shared n count
  | .registerCallback l => (dddfRegisterCallback c me P l, g)
  | .put l => ddfPut c me P g l
  | .putHome source l => (ddfPutHome me P g source l, g)
  | .putRemote dest l => (ddfPutRemote me P dest l, g)
  | .callback dest => (ddfPutCallback P dest, g)
  | .putBack dest => (putBack P dest, g)

def CommTask.send (me : Fin n) : CommTask n → Msg n
  | .asyncAt => .asyncAt me
  | .asyncCopy dest e => .asyncCopy me dest e
  | .asyncAfter dest e => .asyncAfter me dest e

/-- What comes in at a place. An async_after waits for the copies on its event. -/
def receive (c : Config n count) (me : Fin n) (P : Place n count) (g : Shared n count) :
    Msg n → Option (Place n count)
  | .asyncAt source => if me = c.home then some (P.ready (.callback source)) else none
  | .asyncCopy _ _ _ => none
  | .asyncAfter source dest e =>
      if me = dest ∧ ∀ d, .asyncCopy source d e ∉ g.net then some (P.ready (.putHome source .memcpy))
      else none

inductive Act (n count : Nat)
  /-- DDF_PUT is called. -/
  | put
  /-- asyncAwait is called. -/
  | await
  | run (t : Task n count)
  /-- The communication worker runs the next of its tasks. -/
  | comm
  | deliver (m : Msg n)
  /-- async_copy from this place completes. -/
  | complete (dest : Fin n) (e : Nat)

def act (c : Config n count) (me : Fin n) (a : Act n count) (P : Place n count)
    (g : Shared n count) :
    Option (Place n count × Shared n count) :=
  match a with
  | .put =>
      if me = c.initiator ∧ P.putCalled = false then
        some ({ P with putCalled := true }.ready (.put .ddfPut), g)
      else none
  | .await =>
      if c.awaits me = true then
        let P := { P with awaited := true }
        some (if me = c.home then P else P.ready (.registerCallback .get), g)
      else none
  | .run t =>
      if t ∈ P.tasks then some (runTask c me (P.take t) g t) else none
  | .comm => match P.commTasks with
    | [] => none
    | t :: rest => some (P.advance t rest, { g with net := t.send me :: g.net })
  | .deliver m =>
      if m ∈ g.net then (receive c me P g m).map fun P => (P, { g with net := g.net.erase m })
      else none
  | .complete dest e =>
      if .asyncCopy me dest e ∈ g.net then
        some (P, ⟨Function.update g.datum dest (g.datum me), g.net.erase (.asyncCopy me dest e)⟩)
      else none

/-- __ddfHandle -/
def Place.init : Place n count where
  ddf := none
  waiting := []
  putRequestedFromHome := false
  putInitiatorRank := none
  tasks := []
  commTasks := []
  events := 0
  putCalled := false
  awaited := false
  puts := 0
  sent := []
  failed := []

def dddf (c : Config n count) :
    System (Fin n) (Act n count) (Place n count) (Shared n count) where
  init := ⟨fun _ => .init, ⟨c.datum, []⟩⟩
  act := act c

variable {c : Config n count} {me : Fin n} {P P' : Place n count} {g g' : Shared n count}

inductive Step (c : Config n count) (me : Fin n) (P : Place n count) (g : Shared n count) :
    Act n count → Place n count → Shared n count → Prop
  | put (hme : me = c.initiator) (hcalled : P.putCalled = false) :
      Step c me P g .put ({ P with putCalled := true }.ready (.put .ddfPut)) g
  | awaitHome (hawaits : c.awaits me = true) (hme : me = c.home) :
      Step c me P g .await { P with awaited := true } g
  | await (hawaits : c.awaits me = true) (hme : me ≠ c.home) :
      Step c me P g .await ({ P with awaited := true }.ready (.registerCallback .get)) g
  | run {t : Task n count} (ht : t ∈ P.tasks) :
      Step c me P g (.run t) (runTask c me (P.take t) g t).1 (runTask c me (P.take t) g t).2
  | comm {t : CommTask n} {rest : List (CommTask n)} (hcomm : P.commTasks = t :: rest) :
      Step c me P g .comm (P.advance t rest) { g with net := t.send me :: g.net }
  | asyncAt {source : Fin n} (hm : .asyncAt source ∈ g.net) (hme : me = c.home) :
      Step c me P g (.deliver (.asyncAt source)) (P.ready (.callback source))
        { g with net := g.net.erase (.asyncAt source) }
  | asyncAfter {source : Fin n} {e : Nat} (hm : .asyncAfter source me e ∈ g.net)
      (hdone : ∀ d, .asyncCopy source d e ∉ g.net) :
      Step c me P g (.deliver (.asyncAfter source me e)) (P.ready (.putHome source .memcpy))
        { g with net := g.net.erase (.asyncAfter source me e) }
  | complete {dest : Fin n} {e : Nat} (hm : .asyncCopy me dest e ∈ g.net) :
      Step c me P g (.complete dest e) P
        ⟨Function.update g.datum dest (g.datum me), g.net.erase (.asyncCopy me dest e)⟩

theorem act_step {a : Act n count} (ha : act c me a P g = some (P', g')) :
    Step c me P g a P' g' := by
  cases a with
  | put =>
      simp only [act, Option.ite_none_right_eq_some] at ha
      obtain ⟨⟨hme, hcalled⟩, heq⟩ := ha
      cases heq
      exact .put hme hcalled
  | await =>
      simp only [act, Option.ite_none_right_eq_some] at ha
      obtain ⟨hawaits, heq⟩ := ha
      cases heq
      split
      · rename_i hme
        exact .awaitHome hawaits hme
      · rename_i hme
        exact .await hawaits hme
  | run t =>
      simp only [act, Option.ite_none_right_eq_some] at ha
      obtain ⟨ht, heq⟩ := ha
      have hrun : Step c me P g (.run t) _ _ := .run ht
      rwa [Option.some.inj heq] at hrun
  | comm =>
      simp only [act] at ha
      split at ha
      · cases ha
      · rename_i t rest hcomm
        cases ha
        exact .comm hcomm
  | deliver m =>
      simp only [act, Option.ite_none_right_eq_some] at ha
      obtain ⟨hm, ha⟩ := ha
      obtain ⟨P₁, hreceive, heq⟩ := Option.map_eq_some_iff.mp ha
      cases heq
      cases m with
      | asyncAt source =>
          simp only [receive, Option.ite_none_right_eq_some] at hreceive
          obtain ⟨hme, heq⟩ := hreceive
          cases heq
          exact .asyncAt hm hme
      | asyncCopy => cases hreceive
      | asyncAfter source dest e =>
          simp only [receive, Option.ite_none_right_eq_some] at hreceive
          obtain ⟨⟨rfl, hdone⟩, heq⟩ := hreceive
          cases heq
          exact .asyncAfter hm hdone
  | complete dest e =>
      simp only [act, Option.ite_none_right_eq_some] at ha
      obtain ⟨hm, heq⟩ := ha
      cases heq
      exact .complete hm

end HabaneroUpc.Dddf
