import HabaneroUpc.Slot
import HabaneroUpc.Lib.Tally

namespace HabaneroUpc.Slot

open Interleaving Tally

variable {n : Nat}

def registering : PC n → Bool
  | .steal (.register _ _) => true
  | _ => false

def answering : PC n → Option (Fin n)
  | .idle (.unlock (.thief t)) | .idle (.invalidate t) => some t
  | _ => none

def reopening : PC n → Option (Fin n)
  | .ship (.reopen t) => some t
  | _ => none

/-- What one step does to the requests in the slots and to their answers. -/
inductive SlotChange (me : Fin n) (P : Place n) (g : Shared n) (P' : Place n) (g' : Shared n) : Prop
  | still (hregistering : registering P'.pc = registering P.pc)
      (hanswering : answering P'.pc = answering P.pc) (hreopening : reopening P'.pc = reopening P.pc)
      (hframes : P'.frames.length = P.frames.length) (hreq : g'.reqThread = g.reqThread)
      (hwait : g'.waitForTaskFromVictim = g.waitForTaskFromVictim)
      (hnet : ∀ t, g'.net.countP (boundFor t) = g.net.countP (boundFor t))
      (hevents : g'.slotEvents = g.slotEvents)
  | opened (hpc : registering P.pc = false ∧ answering P.pc = none ∧ reopening P.pc = none)
      (hpc' : registering P'.pc = false ∧ answering P'.pc = none ∧ reopening P'.pc = none)
      (hframes : P'.frames = P.frames) (hold : g.reqThread me = .unavailable)
      (hg : g' = g.setReq me .available)
  | served (t : Fin n) (tasks : List Nat) (fs : List Assertion)
      (hpc : P.pc = .ship (.ship (some t) tasks)) (hpc' : P'.pc = .ship (.reopen t))
      (hframes : P'.frames = P.frames)
      (hg : g' = ({ g with failures := fs }.send (.shipment me t tasks true)).record (.ship me t))
  | reopened (t : Fin n) (hpc : P.pc = .ship (.reopen t)) (hpc' : P'.pc = .ship .advance)
      (hframes : P'.frames = P.frames) (hg : g' = g.setReq me .available)
  | reset (r : Req n) (hpc : P.pc = .idle (.write r)) (hpc' : P'.pc = .idle (.unlock r))
      (hframes : P'.frames = P.frames) (hr : ∀ t, r ≠ .thief t) (hg : g' = g.setReq me .unavailable)
  | withdrawn (t : Fin n) (hpc : P.pc = .idle (.write (.thief t)))
      (hpc' : P'.pc = .idle (.unlock (.thief t))) (hframes : P'.frames = P.frames)
      (hg : g' = (g.setReq me .unavailable).record (.invalidate me t))
  | invalidated (t : Fin n) (hpc : P.pc = .idle (.invalidate t))
      (hpc' : registering P'.pc = false ∧ answering P'.pc = none ∧ reopening P'.pc = none)
      (hframes : P'.frames = P.frames) (hg : g' = (g.setWaitForTask t false).record (.clear t))
  | flagged (i : Nat) (v : Fin n) (hpc : P.pc = .steal (.flag i v))
      (hpc' : P'.pc = .steal (.register i v)) (hframes : P'.frames = P.frames)
      (hg : g' = g.setWaitForTask me true)
  | registered (i : Nat) (v : Fin n) (hpc : P.pc = .steal (.register i v))
      (hpc' : P'.pc = .steal (.unlock i v true)) (hframes : P'.frames = P.frames)
      (hg : g' = (g.setReq v (.thief me)).record (.register me v))
  | delivered (source : Fin n) (tasks : List Nat) (hm : .shipment source me tasks true ∈ g.net)
      (hpc : P'.pc = P.pc) (hframes : P'.frames.length = P.frames.length + 1)
      (hreq : g'.reqThread = g.reqThread) (hwait : g'.waitForTaskFromVictim = g.waitForTaskFromVictim)
      (hnet : g'.net = g.net.erase (.shipment source me tasks true))
      (hevents : g'.slotEvents = g.slotEvents)
  | cleared (hpc : P'.pc = P.pc) (hframes : P'.frames.length + 1 = P.frames.length)
      (hg : g' = (g.setWaitForTask me false).record (.clear me))

variable {c : Config n} {me : Fin n} {ch : Choice n} {P P' : Place n} {g g' : Shared n}

def NoToken (pc : PC n) : Prop :=
  registering pc = false ∧ answering pc = none ∧ reopening pc = none

theorem SlotChange.of_noToken (hpc : NoToken P.pc) (hpc' : NoToken P'.pc)
    (hframes : P'.frames = P.frames)
    (hreq : g'.reqThread = g.reqThread) (hwait : g'.waitForTaskFromVictim = g.waitForTaskFromVictim)
    (hnet : ∀ t, g'.net.countP (boundFor t) = g.net.countP (boundFor t))
    (hevents : g'.slotEvents = g.slotEvents) : SlotChange me P g P' g' :=
  .still (hpc'.1.trans hpc.1.symm) (hpc'.2.1.trans hpc.2.1.symm) (hpc'.2.2.trans hpc.2.2.symm)
    (congrArg List.length hframes) hreq hwait hnet hevents

theorem noToken_search (c : Config n) (me : Fin n) (P : Place n) :
    NoToken (searchTasksGlobally c me P) := by
  rcases searchTasksGlobally_cases c me P with ⟨h, -⟩ | ⟨h, -⟩ <;> rw [h] <;> exact ⟨rfl, rfl, rfl⟩

theorem noToken_failed (c : Config n) (me : Fin n) (attempts : Nat) :
    NoToken (searchFailed c me attempts) := by
  rcases searchFailed_cases c me attempts with h | ⟨h, -⟩ <;> rw [h] <;> exact ⟨rfl, rfl, rfl⟩

theorem noToken_nextVictim (c : Config n) (me : Fin n) (attempts i : Nat) :
    NoToken (nextVictim c me attempts i) := by
  rcases nextVictim_cases c me attempts i with h | h <;> rw [h]
  · exact noToken_failed c me attempts
  · exact ⟨rfl, rfl, rfl⟩

theorem noToken_afterShipment (c : Config n) : NoToken (afterShipment c) := by
  rcases afterShipment_cases c with h | h | h <;> rw [h] <;> exact ⟨rfl, rfl, rfl⟩

theorem serve_change {l : ServePc} (hpc : P.pc = .serve l) (hs : SlotInv c me P g)
    (h : serve c me P g l = some (P', g')) : SlotChange me P g P' g' := by
  have hno : NoToken P.pc := by rw [hpc]; exact ⟨rfl, rfl, rfl⟩
  cases l with
  | renewWrite =>
      simp only [serve] at h
      split at h <;> cases h <;>
        exact .opened hno ⟨rfl, rfl, rfl⟩ rfl (hs.own _ (by rw [hpc]; rfl)) rfl
  | successonly | renew | synchronous | glb =>
      simp only [serve] at h
      repeat' split at h
      all_goals cases h
      all_goals exact .of_noToken hno ⟨rfl, rfl, rfl⟩ rfl rfl rfl (fun _ => rfl) rfl

theorem ship_change {l : ShipPc n} (hpc : P.pc = .ship l)
    (h : shipAsyncAny c me ch P g l = some (P', g')) : SlotChange me P g P' g' := by
  cases l with
  | steal | inc =>
      have hno : NoToken P.pc := by rw [hpc]; exact ⟨rfl, rfl, rfl⟩
      simp only [shipAsyncAny] at h
      repeat' split at h
      all_goals cases h
      all_goals exact .of_noToken hno ⟨rfl, rfl, rfl⟩ rfl rfl rfl (fun _ => rfl) rfl
  | ship requestor tasks =>
      cases requestor with
      | none =>
          have hno : NoToken P.pc := by rw [hpc]; exact ⟨rfl, rfl, rfl⟩
          obtain ⟨thief, q, hq⟩ : ∃ thief q, ThiefQueue.popThief P.thiefQueue = (thief, q) := ⟨_, _, rfl⟩
          simp only [shipAsyncAny, hq] at h
          split at h <;> cases h <;> rw [check_check_eq, check_eq] <;>
            exact .of_noToken hno ⟨rfl, rfl, rfl⟩ rfl rfl rfl
              (fun t => by simp [Shared.send, boundFor]) rfl
      | some thief =>
          cases h
          rw [check_eq]
          exact .served thief tasks _ hpc rfl rfl rfl
  | reopen thief =>
      cases h
      exact .reopened thief hpc rfl rfl rfl
  | advance =>
      have hno : NoToken P.pc := by rw [hpc]; exact ⟨rfl, rfl, rfl⟩
      cases h
      exact .of_noToken hno (noToken_afterShipment c) rfl rfl rfl (fun _ => rfl) rfl

theorem idle_change {l : IdlePc n} (hpc : P.pc = .idle l)
    (h : markMyPlaceAsIdle c me P g l = some (P', g')) : SlotChange me P g P' g' := by
  have hsearch := noToken_search c me P
  cases l with
  | mark =>
      have hno : NoToken P.pc := by rw [hpc]; exact ⟨rfl, rfl, rfl⟩
      simp only [markMyPlaceAsIdle] at h
      split at h <;> cases h
      · exact .of_noToken hno hsearch rfl rfl rfl (fun _ => rfl) rfl
      · refine .of_noToken hno ?_ rfl rfl rfl (fun _ => rfl) rfl
        dsimp only
        split
        · exact ⟨rfl, rfl, rfl⟩
        · exact hsearch
  | lock | read =>
      have hno : NoToken P.pc := by rw [hpc]; exact ⟨rfl, rfl, rfl⟩
      simp only [markMyPlaceAsIdle] at h
      repeat' split at h
      all_goals cases h
      all_goals exact .of_noToken hno ⟨rfl, rfl, rfl⟩ rfl rfl rfl (fun _ => rfl) rfl
  | write r =>
      cases r with
      | thief t =>
          cases h
          exact .withdrawn t hpc rfl rfl rfl
      | available | unavailable =>
          cases h
          exact .reset _ hpc rfl rfl (fun t ht => by cases ht) rfl
  | unlock r =>
      cases r with
      | thief t =>
          cases h
          refine .still ?_ ?_ ?_ rfl rfl rfl (fun _ => rfl) rfl <;> rw [hpc] <;> rfl
      | available | unavailable =>
          have hno : NoToken P.pc := by rw [hpc]; exact ⟨rfl, rfl, rfl⟩
          cases h
          exact .of_noToken hno hsearch rfl rfl rfl (fun _ => rfl) rfl
  | invalidate t =>
      cases h
      exact .invalidated t hpc hsearch rfl rfl

theorem steal_change {l : StealPc n} (hpc : P.pc = .steal l) (hs : SlotInv c me P g)
    (h : searchTasksGloballySynchronous c me ch P g l = some (P', g')) : SlotChange me P g P' g' := by
  cases l with
  | flag i v =>
      cases h
      exact .flagged i v hpc rfl rfl rfl
  | register i v =>
      cases h
      exact .registered i v hpc rfl rfl rfl
  | reopen =>
      have hno : NoToken P.pc := by rw [hpc]; exact ⟨rfl, rfl, rfl⟩
      cases h
      exact .opened hno ⟨rfl, rfl, rfl⟩ rfl (hs.own _ (by rw [hpc]; rfl)) rfl
  | loop | probe | lock | test | wait | received =>
      have hno : NoToken P.pc := by rw [hpc]; exact ⟨rfl, rfl, rfl⟩
      have hfailed := noToken_failed c me
      have hnext := noToken_nextVictim c me
      simp only [searchTasksGloballySynchronous] at h
      repeat' split at h
      all_goals cases h
      all_goals
        refine .of_noToken hno ?_ rfl rfl rfl (fun _ => rfl) rfl
        first | exact ⟨rfl, rfl, rfl⟩ | exact hfailed _ | exact hnext _ _
  | unlock i v success =>
      have hno : NoToken P.pc := by rw [hpc]; exact ⟨rfl, rfl, rfl⟩
      cases success with
      | true =>
          cases h
          exact .of_noToken hno ⟨rfl, rfl, rfl⟩ rfl rfl rfl (fun _ => rfl) rfl
      | false =>
          cases h
          exact .of_noToken hno (noToken_nextVictim c me _ i) rfl rfl rfl (fun _ => rfl) rfl

theorem lifeline_change {l : LifelinePc n} (hpc : P.pc = .lifeline l)
    (h : searchForLifelines c me ch P g l = some (P', g')) : SlotChange me P g P' g' := by
  have hno : NoToken P.pc := by rw [hpc]; exact ⟨rfl, rfl, rfl⟩
  cases l with
  | send i k v =>
      simp only [searchForLifelines] at h
      rw [markVictimContacted_eq] at h
      cases h
      exact .of_noToken hno ⟨rfl, rfl, rfl⟩ rfl rfl rfl (fun t => by simp [Shared.send, boundFor]) rfl
  | loop | probe | wait =>
      simp only [searchForLifelines] at h
      repeat' split at h
      all_goals cases h
      all_goals exact .of_noToken hno ⟨rfl, rfl, rfl⟩ rfl rfl rfl (fun _ => rfl) rfl

theorem Uninvolved.noToken {pc : PC n} (h : Uninvolved c me pc) : NoToken pc := by
  refine ⟨?_, ?_, ?_⟩
  · unfold registering
    split
    · cases h.claims
    · rfl
  · unfold answering
    split
    · cases h.partner
    · cases h.partner
    · rfl
  · unfold reopening
    split
    · cases h.expects
    · rfl

theorem comm_change (hs : SlotInv c me P g) (h : commStep c me ch P g = some (P', g')) :
    SlotChange me P g P' g' := by
  cases hpc : P.pc with
  | serve l =>
      simp only [commStep, hpc] at h
      exact serve_change hpc hs h
  | ship l =>
      simp only [commStep, hpc] at h
      exact ship_change hpc h
  | idle l =>
      simp only [commStep, hpc] at h
      exact idle_change hpc h
  | steal l =>
      simp only [commStep, hpc] at h
      exact steal_change hpc hs h
  | lifeline l =>
      simp only [commStep, hpc] at h
      exact lifeline_change hpc h
  | spmd | exec | publish | loop | drain | cbarrier =>
      have hapart : Apart c me P P' g g' := by
        refine other_apart h ?_ ?_ ?_ ?_ ?_ <;> intro l hl <;> rw [hpc] at hl <;> cases hl
      exact .of_noToken hapart.pc.noToken hapart.pc'.noToken hapart.frames hapart.req hapart.wait
        hapart.net hapart.events

theorem slot_change {a : Act n} (hs : SlotInv c me P g) (h : act c me a P g = some (P', g')) :
    SlotChange me P g P' g' := by
  have hstep := act_step h
  cases a with
  | comm ch =>
      exact comm_change hs (act_comm h).2
  | idle | work => cases hstep <;> exact .still rfl rfl rfl rfl rfl rfl (fun _ => rfl) rfl
  | deliver =>
      cases hstep with
      | shipmentSlot hm => exact .delivered _ _ hm rfl rfl rfl rfl rfl rfl
      | stealRequest =>
          refine .still rfl rfl rfl rfl rfl rfl ?_ rfl
          intro t
          simp only [Shared.send, List.countP_cons, boundFor]
          rw [countP_erase_of_not (by simp [boundFor])]
          rfl
      | asyncAt | asyncCopy | shipmentQueued | receipt =>
          exact .still rfl rfl rfl rfl rfl rfl (fun t => countP_erase_of_not (by simp [boundFor]) _) rfl
  | resume =>
      cases hstep with
      | decrement hframes => exact .still rfl rfl rfl (by rw [hframes]; rfl) rfl rfl (fun _ => rfl) rfl
      | clearWait hframes => exact .cleared rfl (by rw [hframes]; rfl) rfl

end HabaneroUpc.Slot
