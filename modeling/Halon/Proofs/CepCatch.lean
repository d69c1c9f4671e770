import Halon.Library.Alike
import Halon.Proofs.CepRuns
import Halon.Proofs.CepSteps

/-! Programs under a handler. Up to the ids that forks hand out, a program runs like its first
part followed by the rest; a handler that is not needed keeps everything of this but the
buffer of a program that ends the phase. -/

namespace Halon.Cep
open Library Stateful List

def Numberless (s t : EngineState app) : Prop := t = { s with engineStateMaxId := t.engineStateMaxId }

namespace Numberless
variable {s t u : EngineState app}

theorem refl (s : EngineState app) : Numberless s s := rfl

theorem trans (first : Numberless s t) (second : Numberless t u) : Numberless s u := by
  unfold Numberless at *
  rw [second, first]

theorem global (alike : Numberless s t) : t.engineStateGlobal = s.engineStateGlobal := by
  rw [alike]

theorem eq (alike : Numberless s t) (id : t.engineStateMaxId = s.engineStateMaxId) : t = s := by
  rw [alike, id]

end Numberless

def Forked.content (forked : Forked app) : Buffer app.Payload × app.LocalState × PhaseM app :=
  (forked.buffer, forked.l, forked.action)

/-- The same buffer, end, value and forked actions, with other ids. -/
structure Evaluation.Same (a b : Evaluation app) : Prop where
  out : a.1.1 = b.1.1
  forks : a.1.2.map Forked.content = b.1.2.map Forked.content
  value : a.2 = b.2

namespace Evaluation.Same
variable {a b c : Evaluation app}

theorem refl (a : Evaluation app) : Same a a := ⟨rfl, rfl, rfl⟩

theorem trans (first : Same a b) (second : Same b c) : Same a c :=
  ⟨first.out.trans second.out, first.forks.trans second.forks, first.value.trans second.value⟩

theorem symm (same : Same a b) : Same b a := ⟨same.out.symm, same.forks.symm, same.value.symm⟩

theorem split (same : Same a b) : ∃ buf out phs phs' mr, a = (((buf, out), phs), mr) ∧ b = (((buf, out), phs'), mr) ∧
    phs.map Forked.content = phs'.map Forked.content := by
  obtain ⟨⟨⟨buf, out⟩, phs⟩, mr⟩ := a
  obtain ⟨⟨_, phs'⟩, _⟩ := b
  obtain ⟨here, forks, value⟩ := same
  cases here
  cases value
  exact ⟨buf, out, phs, phs', mr, rfl, rfl, forks⟩

end Evaluation.Same

def forkedBefore (phs : List (Forked app)) (evaluation : Evaluation app) : Evaluation app :=
  ((evaluation.1.1, phs ++ evaluation.1.2), evaluation.2)

theorem Evaluation.Same.after (same : Same a b)
    (forks : phs.map Forked.content = phs'.map Forked.content) : Same (forkedBefore phs a) (forkedBefore phs' b) where
  out := same.out
  forks := by
    rw [forkedBefore, forkedBefore, map_append, map_append, forks, same.forks]
  value := same.value

abbrev Renumbered (x y : EngineM app (Evaluation app)) : Prop := Alike Numberless Evaluation.Same x y

theorem Renumbered.trans (first : Renumbered x y) (second : Renumbered y z) :
    Renumbered x z :=
  Alike.trans first second .refl Numberless.trans Evaluation.Same.trans

variable {s t : EngineState app} {w : app.World}

theorem nextSmId_quiet (alike : Numberless s t) : ∃ id s', Returns nextSmId s w id s' w ∧ Numberless s' t := by
  refine ⟨_, _, returns_nextSmId.mpr ⟨rfl, rfl, rfl⟩, ?_⟩
  unfold Numberless at *
  rw [alike]

theorem nextSmId_quiet_right (alike : Numberless s t) : ∃ id t', Returns nextSmId t w id t' w ∧ Numberless s t' := by
  refine ⟨_, _, returns_nextSmId.mpr ⟨rfl, rfl, rfl⟩, ?_⟩
  unfold Numberless at *
  rw [alike]

namespace PhaseM
variable {subs : Subscribers} {mindex : Option Index}

theorem go_renumbered (p : PhaseM app) (l : app.LocalState) (buf : Buffer app.Payload) :
    Renumbered (p.go subs mindex l buf) (p.go subs mindex l buf) := by
  induction p generalizing l buf with
  | ret | Continue | Stop | Suspend | Switch => exact .pure (.refl _)
  | GetGlobal k ih =>
    refine .get_bind fun s t alike => ?_
    rw [alike.global]
    exact ih _ l buf
  | GetLocal k ih => exact ih l l buf
  | PutGlobal g k ih =>
    refine .bind (.modify fun s t alike => ?_) fun _ _ _ => ih l buf
    unfold Numberless at *
    rw [alike]
  | PutLocal l' k ih => exact ih l' buf
  | Fork typ naction k _ ih =>
    refine .bind (ih l buf) fun a b same => .skip nextSmId_quiet fun id => .skip_right nextSmId_quiet_right fun id' => .pure ?_
    have forks : [(⟨id, forkBuffer typ mindex buf, l, naction⟩ : Forked app)].map Forked.content =
        [⟨id', forkBuffer typ mindex buf, l, naction⟩].map Forked.content := rfl
    exact same.after forks
  | Lift m k ih =>
    refine .bind (.lift _) fun a b same => ?_
    subst same
    exact ih a l buf
  | Publish e k ih => exact .bind (.lift _) fun _ _ _ => ih l buf
  | Peek type idx k ih =>
    rw [go]
    split
    next => exact .pure (.refl _)
    next r _ => exact ih r l buf
  | Shift type idx k ih =>
    rw [go]
    split
    next => exact .pure (.refl _)
    next r z buf' _ => exact ih (r, z) l buf'
  | Catch f _ h next ihf ihh ihn =>
    have goesOn (r : app.Value) (l' : app.LocalState) (buf' : Buffer app.Payload) {phs phs' : List (Forked app)}
        (forks : phs.map Forked.content = phs'.map Forked.content) :
        Renumbered ((next r).go subs mindex l' buf' >>= fun last => pure (forkedBefore phs last))
          ((next r).go subs mindex l' buf' >>= fun last => pure (forkedBefore phs' last)) :=
      .bind (ihn r l' buf') fun _ _ same => .pure (same.after forks)
    rw [go]
    refine .attempt_bind (ihf l buf) ?_ ?_
    · intro error
      cases error with
      | thrown e =>
        dsimp only
        split
        next =>
          refine .bind (ihh e l buf) fun ran ran' same => ?_
          obtain ⟨buf₁, out, phs, _, mr, rfl, rfl, forks⟩ := same.split
          dsimp only
          split
          next l' _ r => exact goesOn r l' buf₁ forks
          next => exact .pure ⟨rfl, forks, rfl⟩
        next => exact .throw _
      | _ => exact .throw _
    · intro ran ran' same
      obtain ⟨buf₁, out, phs, _, mr, rfl, rfl, forks⟩ := same.split
      dsimp only
      split
      next l' r => exact goesOn r l' buf₁ forks
      next => exact .pure ⟨rfl, forks, rfl⟩

def resume (subs : Subscribers) (mindex : Option Index) (k : app.Value → PhaseM app) (first : Evaluation app) :
    EngineM app (Evaluation app) :=
  match first.1.1.2, first.2 with
  | .SM_Complete l' [], some r => (k r).go subs mindex l' first.1.1.1 >>= fun last => pure (forkedBefore first.1.2 last)
  | _, _ => pure first

variable {k : app.Value → PhaseM app} {first result : Evaluation app} {s' : EngineState app} {w' v : app.World}

theorem resume_none (ended : first.2 = none) : resume subs mindex k first = pure first := by
  unfold resume
  split
  next value =>
    rw [ended] at value
    cases value
  next => rfl

theorem resume_renumbered (same : a.Same b) : Renumbered (resume subs mindex k a) (resume subs mindex k b) := by
  obtain ⟨_, out, phs, _, mr, rfl, rfl, forks⟩ := same.split
  unfold resume
  dsimp only
  split
  next => exact .bind (go_renumbered _ _ _) fun _ _ same => .pure (same.after forks)
  next => exact .pure ⟨rfl, forks, rfl⟩

theorem resume_forkedBefore (k : app.Value → PhaseM app) (phs : List (Forked app)) (first : Evaluation app) :
    resume subs mindex k (forkedBefore phs first) = resume subs mindex k first >>= fun last => pure (forkedBefore phs last) := by
  obtain ⟨⟨⟨buf, out⟩, _⟩, mr⟩ := first
  unfold resume
  dsimp only [forkedBefore]
  split
  next => simp only [bind_assoc, pure_bind, append_assoc]
  next => rw [pure_bind]

theorem renumbered_forkedBefore
    (alike : Renumbered x (y >>= resume subs mindex k)) (forks : phs.map Forked.content = phs'.map Forked.content) :
    Renumbered (x >>= fun last => pure (forkedBefore phs last))
      ((y >>= fun first => pure (forkedBefore phs' first)) >>= resume subs mindex k) := by
  have moved : (y >>= fun first => pure (forkedBefore phs' first)) >>= resume subs mindex k =
      (y >>= resume subs mindex k) >>= fun last => pure (forkedBefore phs' last) := by
    simp only [bind_assoc, pure_bind, resume_forkedBefore]
  rw [moved]
  exact .bind alike fun _ _ same => .pure (same.after forks)

/-- A program runs like its first part and then the rest, which gets its ids earlier. -/
theorem bind_renumbered (p : PhaseM app) (k : app.Value → PhaseM app) (l : app.LocalState) (buf : Buffer app.Payload) :
    Renumbered ((p.bind k).go subs mindex l buf) (p.go subs mindex l buf >>= resume subs mindex k) := by
  have ends (result : Evaluation app) (ended : result.2 = none) :
      Renumbered (pure result) (pure result >>= resume subs mindex k) := by
    rw [pure_bind, resume_none ended]
    exact .pure (.refl _)
  induction p generalizing l buf with
  | ret a =>
    have nothing : (fun last : Evaluation app => (pure (forkedBefore [] last) : EngineM app (Evaluation app))) = pure := rfl
    rw [go, pure_bind]
    change Renumbered _ ((k a).go subs mindex l buf >>= fun last => pure (forkedBefore [] last))
    rw [nothing, bind_pure]
    exact go_renumbered _ _ _
  | Continue | Stop | Suspend | Switch => exact ends _ rfl
  | GetGlobal g ih =>
    rw [bind, go, go, bind_assoc]
    refine .get_bind fun s t alike => ?_
    rw [alike.global]
    exact ih _ l buf
  | GetLocal g ih => exact ih l l buf
  | PutGlobal g k ih =>
    rw [bind, go, go, bind_assoc]
    refine .bind (.modify fun s t alike => ?_) fun _ _ _ => ih l buf
    unfold Numberless at *
    rw [alike]
  | PutLocal l' k ih => exact ih l' buf
  | Fork typ naction p _ ih =>
    let forked (id : Nat) : List (Forked app) := [⟨id, forkBuffer typ mindex buf, l, naction⟩]
    have renamed (id id' : Nat) : (forked id).map Forked.content = (forked id').map Forked.content := rfl
    have middle : Renumbered (((Fork typ naction p).bind k).go subs mindex l buf)
        (p.go subs mindex l buf >>= fun first => resume subs mindex k (forkedBefore (forked 0) first)) := by
      simp only [resume_forkedBefore, ← bind_assoc]
      refine .bind (ih l buf) fun _ _ same => .skip nextSmId_quiet fun id => .pure (same.after (renamed id 0))
    refine middle.trans ?_
    rw [go, bind_assoc]
    refine .bind (go_renumbered p l buf) fun a b same => ?_
    rw [bind_assoc]
    refine .skip_right nextSmId_quiet_right fun id => ?_
    rw [pure_bind]
    exact resume_renumbered (same.after (renamed 0 id))
  | Lift m g ih =>
    rw [bind, go, go, bind_assoc]
    refine .bind (.lift _) fun a b same => ?_
    subst same
    exact ih a l buf
  | Publish e p ih =>
    rw [bind, go, go, bind_assoc]
    exact .bind (.lift _) fun _ _ _ => ih l buf
  | Peek type idx g ih =>
    rw [bind, go, go]
    split
    next => exact ends _ rfl
    next r _ => exact ih r l buf
  | Shift type idx g ih =>
    rw [bind, go, go]
    split
    next => exact ends _ rfl
    next r z buf' _ => exact ih (r, z) l buf'
  | Catch f _ h next _ _ ih =>
    rw [bind, go, go, bind_assoc]
    refine .attempt_bind (go_renumbered f l buf) ?_ ?_
    · intro error
      cases error with
      | thrown e =>
        dsimp only
        split
        next =>
          rw [bind_assoc]
          refine .bind (go_renumbered (h e) l buf) fun ran ran' same => ?_
          obtain ⟨buf₁, out, phs, _, mr, rfl, rfl, forks⟩ := same.split
          dsimp only
          split
          next l' _ r => exact renumbered_forkedBefore (ih r l' buf₁) forks
          next =>
            rw [pure_bind, resume_none rfl]
            exact .pure ⟨rfl, forks, rfl⟩
        next => exact .throw_bind _
      | _ => exact .throw_bind _
    · intro ran ran' same
      obtain ⟨buf₁, out, phs, _, mr, rfl, rfl, forks⟩ := same.split
      dsimp only
      split
      next l' r => exact renumbered_forkedBefore (ih r l' buf₁) forks
      next =>
        rw [pure_bind, resume_none rfl]
        exact .pure ⟨rfl, forks, rfl⟩

/-- Both raise the same exception, or both return: with the same buffer, local state, end and forked actions, in the
same state of the engine and of the world. The forked actions have the same ids, though not in the same order. -/
inductive SameOutcome : Except (Failure app) (Evaluation app × EngineState app) × app.World →
    Except (Failure app) (Evaluation app × EngineState app) × app.World → Prop where
  | returned {s : EngineState app} {w : app.World} (same : a.Same b)
      (ids : (a.1.2.map Forked.smId).Perm (b.1.2.map Forked.smId)) : SameOutcome (.ok (a, s), w) (.ok (b, s), w)
  | failed {w : app.World} : SameOutcome (.error error, w) (.error error, w)

variable {f : PhaseM app} {caught : app.Exception → Bool} {h : app.Exception → PhaseM app} {k : app.Value → PhaseM app}
  {l : app.LocalState} {buf : Buffer app.Payload} {s : EngineState app} {w : app.World}

variable {p : PhaseM app}

theorem go_maxId (returned : Returns (p.go subs mindex l buf) s w result s' w') :
    s'.engineStateMaxId = s.engineStateMaxId + result.1.2.length := by
  have fresh := (go_evaluated subs mindex p returned).fresh
  have count := fresh.owned.length_eq
  have grows := fresh.grows
  rw [length_map, length_range'] at count
  omega

private theorem no_value
    (returned : Returns (pure ended : EngineM app (Evaluation app)) s w result s' w') (none : ended.2 = none) :
    result.2 ≠ some r := by
  rw [(returns_pure.mp returned).1, none]
  exact Option.some_ne_none r |>.symm

theorem go_value (returned : Returns (p.go subs mindex l buf) s w result s' w') (value : result.2 = some r) :
    ∃ l', result.1.1.2 = .SM_Complete l' [] := by
  induction p generalizing l buf s w result s' w' with
  | ret => exact ⟨l, by rw [(returns_ret.mp returned).1]⟩
  | Continue | Stop | Suspend | Switch => exact absurd value (no_value returned rfl)
  | GetGlobal k ih => exact ih _ (returns_GetGlobal.mp returned) value
  | GetLocal k ih => exact ih _ (returns_GetLocal.mp returned) value
  | PutGlobal g k ih => exact ih (returns_PutGlobal.mp returned) value
  | PutLocal l' k ih => exact ih (returns_PutLocal.mp returned) value
  | Fork typ _ k _ ih =>
    obtain ⟨_, _, ran, _, rfl⟩ := returns_Fork.mp returned
    obtain ⟨l', complete⟩ := ih ran value
    exact ⟨l', complete⟩
  | Lift m k ih =>
    obtain ⟨a, _, _, returned⟩ := returns_Lift.mp returned
    exact ih a returned value
  | Publish e k ih => exact ih (returns_Publish.mp returned) value
  | Peek _ _ _ ih | Shift _ _ _ ih =>
    rw [go] at returned
    split at returned
    next => exact absurd value (no_value returned rfl)
    next => exact ih _ returned value
  | Catch f _ h next _ _ ih =>
    rcases returns_Catch.mp returned with ⟨_, _, _, r', _, _, _, _, further, rfl⟩ | ⟨_, _, _, rfl⟩
    · obtain ⟨l', complete⟩ := ih r' further value
      exact ⟨l', complete⟩
    · cases value

/-- A program without exceptions under a handler. Where it ends the phase, the buffer is the one it started with. -/
theorem outcome_Catch (ran : Returns (f.go subs mindex l buf) s w first between v) :
    outcome ((Catch f caught h k).go subs mindex l buf) s w =
      outcome (resume subs mindex k (if first.2.isSome then first else (((buf, first.1.1.2), first.1.2), none))) between v := by
  obtain ⟨⟨⟨_, out⟩, phs⟩, mr⟩ := first
  rw [go, outcome_bind, outcome_attempt, ran]
  dsimp only
  split
  next => rfl
  next other =>
    cases mr with
    | none =>
      rw [if_neg (by simp), resume_none rfl]
    | some r =>
      obtain ⟨l', complete⟩ := go_value ran rfl
      exact (other l' r complete rfl).elim

theorem resume_maxId (returned : Returns (resume subs mindex k first) s w last s' w') :
    s'.engineStateMaxId + first.1.2.length = s.engineStateMaxId + last.1.2.length := by
  unfold resume at returned
  split at returned
  next =>
    obtain ⟨_, _, _, ran, ended⟩ := returns_bind.mp returned
    obtain ⟨rfl, rfl, rfl⟩ := returns_pure.mp ended
    have ids := go_maxId ran
    rw [forkedBefore, length_append]
    omega
  next =>
    obtain ⟨rfl, rfl, _⟩ := returns_pure.mp returned
    rfl

theorem bind_outcome (ran : Returns (f.go subs mindex l buf) s w first between v) :
    (∃ a b s' w', Returns ((f.bind k).go subs mindex l buf) s w a s' w' ∧
      Returns (resume subs mindex k first) between v b s' w' ∧ a.Same b) ∨
    ∃ error w', Fails ((f.bind k).go subs mindex l buf) s w error w' ∧ Fails (resume subs mindex k first) between v error w' := by
  have alike : Renumbered ((f.bind k).go subs mindex l buf) (f.go subs mindex l buf >>= resume subs mindex k) :=
    bind_renumbered f k l buf
  rcases returns_or_fails ((f.bind k).go subs mindex l buf) s w with ⟨a, s', w', here⟩ | ⟨error, w', here⟩
  · obtain ⟨b, t', there, same, after⟩ := alike.returns (.refl s) here
    obtain ⟨_, _, _, again, there⟩ := returns_bind.mp there
    obtain ⟨rfl, rfl, rfl⟩ := ran.unique again
    -- Both hand out as many ids, so that the states are equal altogether.
    have equal : t' = s' := by
      refine after.eq ?_
      have length := congrArg List.length same.forks
      have ids := go_maxId here
      have first := go_maxId ran
      have last := resume_maxId there
      rw [length_map, length_map] at length
      omega
    subst equal
    exact .inl ⟨a, b, t', w', here, there, same⟩
  · rcases fails_bind.mp (alike.fails (.refl s) here) with failed | ⟨_, _, _, again, there⟩
    · exact absurd failed ran.not_fails
    · obtain ⟨rfl, rfl, rfl⟩ := ran.unique again
      exact .inr ⟨error, w', here, there⟩

theorem SameOutcome.out (same : SameOutcome (outcome x s w) (outcome y s w)) (first : Returns x s w a s' v)
    (second : Returns y s w b t' v') :
    a.1.1 = b.1.1 := by
  rw [first, second] at same
  cases same with
  | returned same => exact same.out

/-- A handler that is not needed changes nothing, up to the ids of forked actions, exactly if the program does not
end the phase with another buffer than it started with. -/
theorem catch_transparent (quiet : ∀ error v, ¬ Fails (f.go subs mindex l buf) s w error v) :
    SameOutcome (outcome ((Catch f caught h k).go subs mindex l buf) s w) (outcome ((f.bind k).go subs mindex l buf) s w) ↔
      ∀ first between v, Returns (f.go subs mindex l buf) s w first between v → first.2 = none → first.1.1.1 = buf := by
  obtain ⟨first, _, v, ran⟩ := (returns_or_fails (f.go subs mindex l buf) s w).resolve_right fun ⟨error, v, failed⟩ =>
    quiet error v failed
  have caughtOutcome : outcome ((Catch f caught h k).go subs mindex l buf) s w = _ := outcome_Catch ran
  constructor
  · intro same first' between' v' again ended
    obtain ⟨rfl, rfl, rfl⟩ := ran.unique again
    rcases bind_outcome (k := k) ran with ⟨a, b, s', w', here, there, equal⟩ | ⟨_, w', _, there⟩
    · rw [resume_none ended] at there
      obtain ⟨rfl, rfl, rfl⟩ := returns_pure.mp there
      rw [ended, if_neg (by simp), resume_none rfl] at caughtOutcome
      have out := same.out caughtOutcome here
      rw [equal.out] at out
      exact congrArg Prod.fst out.symm
    · rw [resume_none ended] at there
      exact absurd there not_fails_pure
  · intro kept
    have whole : (if first.2.isSome then first else (((buf, first.1.1.2), first.1.2), none)) = first := by
      obtain ⟨⟨⟨_, out⟩, phs⟩, mr⟩ := first
      cases mr with
      | none => rw [← kept _ _ _ ran rfl]; rfl
      | some => rfl
    rw [whole] at caughtOutcome
    rcases bind_outcome (k := k) ran with ⟨a, b, s', w', here, there, equal⟩ | ⟨_, w', here, there⟩
    · have handled : Returns ((Catch f caught h k).go subs mindex l buf) s w b s' w' := caughtOutcome.trans there
      have given := (go_evaluated subs mindex _ handled).fresh.owned
      rw [handled, here]
      exact .returned equal.symm (given.trans (go_evaluated subs mindex _ here).fresh.owned.symm)
    · rw [caughtOutcome, there, here]
      exact .failed

namespace CatchExample
open ForkExample

def start : EngineState plain := ⟨1, 0, .empty, ()⟩

def waiting : Buffer Unit := bufferInsert ⟨7, ()⟩ emptyFifoBuffer

def taking (rest : PhaseM plain) : PhaseM plain := .Shift 7 (-1) fun _ => rest

def handled (f : PhaseM plain) : PhaseM plain := .Catch f (fun _ => true) (nofun) fun _ => again

end CatchExample

open ForkExample CatchExample in
theorem catch_transparent_taken :
    SameOutcome (outcome ((handled (taking (.ret ()))).go .empty none () waiting) start ())
      (outcome (((taking (.ret ())).bind fun _ => again).go .empty none () waiting) start ()) := by
  refine (catch_transparent ?_).mpr ?_
  · intro error v failed
    cases failed
  · intro first between v ran ended
    obtain ⟨rfl, _, _⟩ := ran.unique (rfl : Returns ((taking (.ret ())).go .empty none () waiting) start () _ _ _)
    cases ended

open ForkExample CatchExample in
/-- A protected program that takes a message and jumps leaves the message in the buffer, for the phase it jumps to. -/
theorem taken_message_back :
    (∀ error v, ¬ Fails ((taking again).go .empty none () waiting) start () error v) ∧
      ¬ SameOutcome (outcome ((handled (taking again)).go .empty none () waiting) start ())
        (outcome (((taking again).bind fun _ => again).go .empty none () waiting) start ()) := by
  constructor
  · intro error v failed
    cases failed
  · intro same
    have taken : Returns ((taking again).go .empty none () waiting) start () _ _ _ := rfl
    have first : Returns ((handled (taking again)).go .empty none () waiting) start () _ _ _ := (outcome_Catch taken).trans rfl
    have second : Returns (((taking again).bind fun _ => again).go .empty none () waiting) start () _ _ _ := rfl
    have length := congrArg (fun ended => bufferLength ended.1) (same.out first second)
    revert length
    decide

end PhaseM
end Halon.Cep
