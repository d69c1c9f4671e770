import Halon.Library.Runs
import Halon.Proofs.CallbackLedger

/-! The handlers keep the ledger of notifications, as long as no link with a callback is taken
down or connected for another process. Those that take a link down run no callback. -/

namespace Halon.Mero
open Library OrderedMap List

namespace NIRef
variable {Link ReqId Fid : Type}

theorem flatMap_delete_perm (callbacks : OrderedMap Nat (Callback Link)) (tag : Nat) :
    (callbacks.entries.flatMap Prod.snd).Perm
      ((callbacks.lookup tag).getD [] ++ (callbacks.delete tag).entries.flatMap Prod.snd) := by
  cases found : callbacks.lookup tag with
  | none => rw [delete_eq_self found]; rfl
  | some => exact (entries_perm_of_lookup found).flatMap_right Prod.snd

theorem flatMap_insertWith_perm (callbacks : OrderedMap Nat (Callback Link)) (tag : Nat) (n : Notification Link) :
    ((callbacks.insertWith (fun new old => old ++ new) tag [n]).entries.flatMap Prod.snd).Perm
      (n :: callbacks.entries.flatMap Prod.snd) := by
  have added : ((callbacks.lookup tag).map (· ++ [n])).getD [n] = (callbacks.lookup tag).getD [] ++ [n] := by
    cases callbacks.lookup tag <;> rfl
  calc ((callbacks.insertWith (fun new old => old ++ new) tag [n]).entries.flatMap Prod.snd).Perm _ :=
        (entries_insert_perm tag _ callbacks).flatMap_right Prod.snd
    _ = ((callbacks.lookup tag).getD [] ++ [n]) ++ (callbacks.delete tag).entries.flatMap Prod.snd := by
        rw [flatMap_cons, added]
    List.Perm _ (n :: ((callbacks.lookup tag).getD [] ++ (callbacks.delete tag).entries.flatMap Prod.snd)) := by
        rw [append_assoc]
        exact perm_middle
    List.Perm _ (n :: callbacks.entries.flatMap Prod.snd) := (flatMap_delete_perm callbacks tag).symm.cons n

variable [LinearOrder Link] [LinearOrder ReqId] {s t : NIRef Link ReqId Fid} {link : Link}

def stored (s : NIRef Link ReqId Fid) (link : Link) : List (Notification Link) :=
  ((s.niLinks.lookup link).map fun callbacks => callbacks.entries.flatMap Prod.snd).getD []

def ledger (s : NIRef Link ReqId Fid) : Ledger Link Fid := ⟨s.niInfo.lookup, fun link => s.stored link, s.calls, s.ran⟩

/-- No link with a callback is taken down, or connected for another process. -/
def Undisturbed (s : NIRef Link ReqId Fid) : HAEvent Link ReqId Fid → Prop
  | .disconnecting link | .disconnected link | .processEventSet link true => s.stored link = []
  | .connected req link => s.stored link = [] ∨ ∀ fid ∈ s.niRequests.lookup req, s.niInfo.lookup link = some fid
  | _ => True

def Known (s : NIRef Link ReqId Fid) : Prop := ∀ link, (s.niLinks.lookup link).isSome = (s.niInfo.lookup link).isSome

theorem stored_eq (found : s.niLinks.lookup link = some callbacks) :
    s.stored link = callbacks.entries.flatMap Prod.snd := by
  rw [stored, found]
  rfl

theorem stored_congr (same : t.niLinks.lookup link = s.niLinks.lookup link) : t.stored link = s.stored link := by
  rw [stored, same]
  rfl

theorem stored_delete (links : t.niLinks = s.niLinks.delete link) :
    t.stored other = if other = link then [] else s.stored other := by
  rw [stored, links, lookup_delete]
  split
  next => rfl
  next => rfl

theorem change_reassign (fid : Option Fid) (idle : s.stored link = [] ∨ s.niInfo.lookup link = fid)
    (info : ∀ other, t.niInfo.lookup other = if other = link then fid else s.niInfo.lookup other)
    (stored : ∀ other, t.stored other = s.stored other) (calls : t.calls = s.calls) (ran : t.ran = s.ran) :
    s.ledger.Change t.ledger := by
  have reassigned : t.ledger = { s.ledger with process := Function.update s.niInfo.lookup link fid } := by
    refine Ledger.ext ?_ ?_ calls ran
    · funext other
      exact (info other).trans (Function.update_apply ..).symm
    · funext other
      exact congrArg _ (stored other)
  rw [reassigned]
  exact .reassign link fid (idle.imp_left fun none => congrArg _ none)

theorem change_connected (idle : s.Undisturbed (.connected req link)) : s.ledger.Change (s.haConnected req link).ledger := by
  unfold haConnected
  cases found : s.niRequests.lookup req with
  | none => exact .same
  | some fid =>
    refine change_reassign (some fid) (idle.imp_right fun same => same fid found) (fun other => lookup_insert ..)
      (fun other => ?_) rfl rfl
    rw [NIRef.stored, lookup_insertWith]
    split
    next same =>
      subst same
      cases callbacks : s.niLinks.lookup other with
      | none =>
        rw [NIRef.stored, callbacks]
        rfl
      | some old =>
        rw [stored_eq callbacks]
        have kept := unionWith_empty (fun new _ => new) old
        exact congrArg (·.entries.flatMap Prod.snd) kept
    next => rfl

theorem change_settle (outcome : Outcome) (tag : Nat) : s.ledger.Change (s.settle outcome link tag).ledger := by
  have settled : (s.settle outcome link tag).ledger = { s.ledger with
      stored := Function.update s.ledger.stored link ((s.settle outcome link tag).stored link)
      ran := s.ran ++ Ledger.answer s.niInfo.lookup outcome (((s.niLinks.lookup link).bind (·.lookup tag)).getD []) } := by
    refine Ledger.ext rfl ?_ rfl ?_
    · funext other
      refine Eq.trans ?_ (Function.update_apply ..).symm
      split
      next same => rw [same]; rfl
      next different =>
        refine congrArg _ (stored_congr ?_)
        exact (lookup_adjust ..).trans (if_neg different)
    · change s.ran ++ _ = s.ran ++ _
      cases (s.niLinks.lookup link).bind (·.lookup tag) <;> rfl
  rw [settled]
  refine .settle link outcome _ _ ?_
  rw [Multiset.coe_add]
  apply Multiset.coe_eq_coe.mpr
  have now : (s.settle outcome link tag).niLinks.lookup link = (s.niLinks.lookup link).map (·.delete tag) :=
    (lookup_adjust ..).trans (if_pos rfl)
  cases found : s.niLinks.lookup link with
  | none =>
    rw [found] at now
    rw [stored_congr (now.trans found.symm)]
    rfl
  | some callbacks =>
    rw [found] at now
    rw [stored_eq found, stored_eq now]
    exact flatMap_delete_perm callbacks tag

variable [DecidableEq Fid]

variable {event : HAEvent Link ReqId Fid}

/-- Taking a link down runs nothing: also of a stopped process, whose link is not known any more when its callbacks are run. -/
theorem handle_down (sound : s.ledger.Sound)
    (down : event = .disconnecting link ∨ event = .disconnected link ∨ event = .processEventSet link true) :
    (s.handle event).niLinks = s.niLinks.delete link ∧ (s.handle event).niInfo = s.niInfo.delete link ∧
      (s.handle event).calls = s.calls ∧ (s.handle event).ran = s.ran := by
  rcases down with rfl | rfl | rfl
  · exact ⟨rfl, rfl, rfl, rfl⟩
  · exact ⟨rfl, rfl, rfl, rfl⟩
  · refine ⟨rfl, rfl, rfl, ?_⟩
    have nothing : (((s.niLinks.lookup link).map (·.entries.map Prod.snd)).getD []).flatMap
        (Callback.run (s.niInfo.delete link) .ok) = [] := by
      apply flatMap_eq_nil_iff.mpr
      intro callback member
      apply filterMap_eq_nil_iff.mpr
      intro n here
      have listed : n ∈ s.stored link := by
        cases found : s.niLinks.lookup link with
        | none =>
          rw [found] at member
          cases member
        | some =>
          rw [found] at member
          obtain ⟨entry, inside, rfl⟩ := mem_map.mp member
          rw [stored_eq found]
          exact mem_flatMap.mpr ⟨entry, inside, here⟩
      rw [(sound.own link n listed).1, lookup_delete, if_pos rfl]
      rfl
    change s.ran ++ _ = s.ran
    rw [nothing, append_nil]

theorem change_down (sound : s.ledger.Sound) (idle : s.stored link = [])
    (down : event = .disconnecting link ∨ event = .disconnected link ∨ event = .processEventSet link true) :
    s.ledger.Change (s.handle event).ledger := by
  obtain ⟨links, info, calls, ran⟩ := handle_down sound down
  refine change_reassign none (.inl idle) (fun other => ?_) (fun other => ?_) calls ran
  · rw [info, lookup_delete]
  · rw [stored_delete links]
    split
    next same => rw [same, idle]
    next => rfl

theorem lookup_notifyMero (fids : List Fid) (tags : Link → Nat) (link : Link) :
    (s.notifyMero fids tags).niLinks.lookup link =
      (s.niLinks.lookup link).map (·.insertWith (fun new old => old ++ new) (tags link) [⟨s.calls, link⟩]) := by
  refine (lookup_unionWith ..).trans ?_
  rw [lookup_mapWithKey]
  cases s.niLinks.lookup link <;> rfl

theorem unconnected {fids : List Fid} (failed : fid ∈ fids.filter fun fid => decide (fid ∉ s.niInfo.entries.map Prod.snd))
    (link : Link) : s.niInfo.lookup link ≠ some fid := by
  intro found
  apply of_decide_eq_true (mem_filter.mp failed).2
  exact mem_map.mpr ⟨_, lookup_eq_some.mp found, rfl⟩

theorem ledger_notifyMero (known : s.Known) (fids : List Fid) (tags : Link → Nat) :
    (s.notifyMero fids tags).ledger = { s.ledger with
      stored := fun link =>
      if (s.ledger.process link).isSome then ⟨s.calls, link⟩ ::ₘ s.ledger.stored link else s.ledger.stored link
      calls := s.calls + 1
      ran := s.ran ++ (fids.filter fun fid => decide (fid ∉ s.niInfo.entries.map Prod.snd)).map fun fid =>
        ⟨s.calls, none, .fail, fid⟩ } := by
  refine Ledger.ext rfl ?_ rfl rfl
  funext link
  have now := lookup_notifyMero (s := s) fids tags link
  change ((s.notifyMero fids tags).stored link : Multiset (Notification Link)) =
    if (s.niInfo.lookup link).isSome then ⟨s.calls, link⟩ ::ₘ (s.stored link : Multiset (Notification Link)) else s.stored link
  rw [← known link]
  cases found : s.niLinks.lookup link with
  | none =>
    rw [found] at now
    rw [stored_congr (now.trans found.symm)]
    rfl
  | some callbacks =>
    rw [found] at now
    rw [stored_eq found, stored_eq now]
    exact Multiset.coe_eq_coe.mpr (flatMap_insertWith_perm callbacks (tags link) ⟨s.calls, link⟩)

theorem Known.handle (known : s.Known) (sound : s.ledger.Sound) (event : HAEvent Link ReqId Fid) : (s.handle event).Known := by
  have down {event : HAEvent Link ReqId Fid} {link : Link}
      (down : event = .disconnecting link ∨ event = .disconnected link ∨ event = .processEventSet link true) :
        (s.handle event).Known := by
    obtain ⟨links, info, -, -⟩ := handle_down sound down
    intro other
    rw [links, info, lookup_delete, lookup_delete]
    split
    next => rfl
    next => exact known other
  have settled (outcome : Outcome) (link : Link) (tag : Nat) : (s.settle outcome link tag).Known := by
    intro other
    refine Eq.trans ?_ (known other)
    rw [settle, lookup_adjust]
    split
    next => exact Option.isSome_map
    next => rfl
  cases event with
  | entrypoint | reused => exact known
  | connected req link =>
    intro other
    change ((s.haConnected req link).niLinks.lookup other).isSome = ((s.haConnected req link).niInfo.lookup other).isSome
    unfold haConnected
    cases s.niRequests.lookup req with
    | none => exact known other
    | some =>
      dsimp only
      rw [lookup_insertWith, lookup_insert]
      split
      next => rfl
      next => exact known other
  | disconnecting => exact down (.inl rfl)
  | disconnected => exact down (.inr (.inl rfl))
  | delivered link tag => exact settled .ok link tag
  | cancelled link tag => exact settled .fail link tag
  | processEventSet link stopped =>
    cases stopped with
    | false => exact known
    | true => exact down (.inr (.inr rfl))
  | notifyMero fids tags =>
    intro other
    refine Eq.trans ?_ (known other)
    exact (congrArg _ (lookup_notifyMero fids tags other)).trans Option.isSome_map

/-- An event changes the ledger as its handler does, if no link with a callback is disturbed. -/
theorem change_handle (known : s.Known) (sound : s.ledger.Sound) (undisturbed : s.Undisturbed event) :
    s.ledger.Change (s.handle event).ledger := by
  cases event with
  | entrypoint | reused => exact .same
  | connected => exact change_connected undisturbed
  | disconnecting => exact change_down sound undisturbed (.inl rfl)
  | disconnected => exact change_down sound undisturbed (.inr (.inl rfl))
  | delivered link tag => exact change_settle .ok tag
  | cancelled link tag => exact change_settle .fail tag
  | processEventSet link stopped =>
    cases stopped with
    | false => exact .same
    | true => exact change_down sound undisturbed (.inr (.inr rfl))
  | notifyMero fids tags =>
    change s.ledger.Change (s.notifyMero fids tags).ledger
    rw [ledger_notifyMero known]
    exact .notify _ fun fid failed => unconnected failed

structure Orderly (s : NIRef Link ReqId Fid) : Prop where
  known : s.Known
  sound : s.ledger.Sound

theorem Orderly.step (orderly : s.Orderly) (undisturbed : s.Undisturbed event) (moved : s.step event = some t) :
    t.Orderly ∧ s.ledger.Change t.ledger := by
  obtain rfl := Option.some.inj moved
  have change := change_handle orderly.known orderly.sound undisturbed
  exact ⟨⟨orderly.known.handle orderly.sound event, change.sound orderly.sound⟩, change⟩

theorem orderly_of_run (run : Run step Undisturbed start s) : s.Orderly := by
  apply run.invariant
  · exact ⟨fun _ => rfl, nofun, nofun⟩
  · intro before event after orderly undisturbed moved
    exact (orderly.step undisturbed moved).1

/-- If no link with a callback is disturbed, each link that a call finds has the callback of the call, or one of the
actions was run once for its process; and no action of the call is run for that process but for its links. -/
theorem callbacks_accounted {fid : Fid} {fids : List Fid} {tags : Link → Nat} (before : Run step Undisturbed start s)
    (known : s.niInfo.lookup link = some fid) (after : Run step Undisturbed (s.notifyMero fids tags) t) :
    ((t.stored link).count ⟨s.calls, link⟩ = 1 ∧ Ledger.runs t.ran ⟨s.calls, link⟩ = [] ∨
      ⟨s.calls, link⟩ ∉ t.stored link ∧ ∃ outcome, Ledger.runs t.ran ⟨s.calls, link⟩ = [⟨s.calls, some link, outcome, fid⟩]) ∧
    ∀ r ∈ t.ran, r.call = s.calls → r.fid = fid → ∃ other, r.link = some other ∧ s.niInfo.lookup other = some fid := by
  have orderly := orderly_of_run before
  have kept : t.Orderly ∧ t.ledger.Accounted s.niInfo.lookup s.calls := by
    apply after.invariant
    · have free : s.Undisturbed (.notifyMero fids tags) := trivial
      refine ⟨(orderly.step free rfl).1, ?_⟩
      rw [ledger_notifyMero orderly.known]
      exact Ledger.accounted_notify orderly.sound fun fid failed => unconnected failed
    · intro state event next ⟨orderly, accounted⟩ undisturbed moved
      obtain ⟨orderly', change⟩ := orderly.step undisturbed moved
      exact ⟨orderly', change.accounted orderly.sound accounted⟩
  obtain ⟨-, accounted⟩ := kept
  have balance : (t.stored link).count ⟨s.calls, link⟩ + (Ledger.runs t.ran ⟨s.calls, link⟩).length = 1 := by
    have each := accounted.each link
    rw [known] at each
    change Multiset.count _ (t.stored link : Multiset (Notification Link)) + _ = 1 at each
    rwa [Multiset.coe_count] at each
  constructor
  · rcases Nat.eq_zero_or_pos ((t.stored link).count ⟨s.calls, link⟩) with none | some
    · refine .inr ⟨count_eq_zero.mp none, ?_⟩
      obtain ⟨r, once⟩ := length_eq_one_iff.mp (show (Ledger.runs t.ran ⟨s.calls, link⟩).length = 1 by omega)
      have member : r ∈ Ledger.runs t.ran ⟨s.calls, link⟩ := by
        rw [once]
        exact mem_singleton_self r
      obtain ⟨listed, same⟩ := mem_filter.mp member
      obtain ⟨ofCall, ofLink⟩ := of_decide_eq_true same
      rcases accounted.named r listed ofCall with ⟨other, here, found⟩ | ⟨absent, -⟩
      · obtain rfl : other = link := Option.some.inj (here.symm.trans ofLink)
        obtain rfl : fid = r.fid := Option.some.inj (known.symm.trans found)
        refine ⟨r.outcome, ?_⟩
        rw [once]
        cases r
        cases ofCall
        cases ofLink
        rfl
      · cases absent.symm.trans ofLink
    · exact .inl ⟨by omega, length_eq_zero_iff.mp (by omega)⟩
  · intro r listed ofCall ofFid
    rcases accounted.named r listed ofCall with ⟨other, here, found⟩ | ⟨-, nowhere⟩
    · exact ⟨other, here, ofFid ▸ found⟩
    · exact absurd (ofFid ▸ known) (nowhere link)

instance decidableUndisturbed (s : NIRef Link ReqId Fid) (event : HAEvent Link ReqId Fid) : Decidable (s.Undisturbed event) := by
  unfold Undisturbed
  split <;> infer_instance

/-- Process 10 is connected on link 1, process 11 on link 2, and process 12 is not. -/
def connecting : List (HAEvent Nat Nat Nat) := [.entrypoint 5 10, .connected 5 1, .entrypoint 6 11, .connected 6 2]

def notified (later : List (HAEvent Nat Nat Nat)) : NIRef Nat Nat Nat :=
  later.foldl handle ((connecting.foldl handle start).notifyMero [10, 11, 12] fun _ => 7)

theorem callbacks_accounted_delivered :
    ((notified [.delivered 1 7, .disconnecting 1]).stored 1).count ⟨0, 1⟩ = 1 ∧
        Ledger.runs (notified [.delivered 1 7, .disconnecting 1]).ran ⟨0, 1⟩ = [] ∨
      ⟨0, 1⟩ ∉ (notified [.delivered 1 7, .disconnecting 1]).stored 1 ∧
        ∃ outcome, Ledger.runs (notified [.delivered 1 7, .disconnecting 1]).ran ⟨0, 1⟩ = [⟨0, some 1, outcome, 10⟩] := by
  have before : execute step Undisturbed start connecting = some (connecting.foldl handle start) := rfl
  have after : execute step Undisturbed ((connecting.foldl handle start).notifyMero [10, 11, 12] fun _ => 7)
      [.delivered 1 7, .disconnecting 1] = some (notified [.delivered 1 7, .disconnecting 1]) := rfl
  exact (callbacks_accounted (run_of_execute before) rfl (run_of_execute after)).1

/-- A link that is taken down takes the callbacks with it; a process that stops is no exception. -/
theorem callback_lost :
    (connecting.foldl handle start).niInfo.lookup 1 = some 10 ∧
      (notified [.disconnecting 1]).stored 1 = [] ∧ Ledger.runs (notified [.disconnecting 1]).ran ⟨0, 1⟩ = [] ∧
      (notified [.processEventSet 1 true]).stored 1 = [] ∧ Ledger.runs (notified [.processEventSet 1 true]).ran ⟨0, 1⟩ = [] :=
  ⟨rfl, rfl, rfl, rfl, rfl⟩

end NIRef
end Halon.Mero
